import BooledASS.Sat.Inprocess.ModelConverter

open Cnf Function

namespace sat2goal

open sat sat.model_converter

/-- The expressions of the definitions; `lit` is `lit2expr`. -/
inductive expr where
  | lit (l : literal)
  | mk_or (a b : expr)
  | mk_and (args : List literal)
  | mk_not (a : expr)
deriving Repr

def expr.eval (a : bool_var → Bool) : expr → Bool
  | .lit l => a l.var != l.sign
  | .mk_or x y => x.eval a || y.eval a
  | .mk_and args => args.all fun l => a l.var != l.sign
  | .mk_not x => !x.eval a

/-- The definition for a clause whose first literal is updated. -/
def clause_def : List literal → List (bool_var × expr)
  | [] => []
  | lit0 :: tail =>
    let d := expr.mk_or (.lit lit0) (.mk_and (tail.map (~~~·)))
    [(lit0.var, if lit0.sign then .mk_not d else d)]

/-- The definition for the clauses `l \/ r` and `~l \/ ~r`. -/
def equiv_def (l r : literal) : bool_var × expr :=
  (l.var, .lit (if l.sign then ~~~(~~~r) else ~~~r))

/-- The loop of `flush_gmc`, with the literals of the current clause. Every variable stands for a constant. -/
def flush_gmc : List literal → List (Option literal) → List (bool_var × expr)
  | _, [] => []
  | clause, none :: us => clause_def clause ++ flush_gmc [] us
  | [], some l :: some r :: none :: some l' :: some r' :: none :: us =>
    if l = ~~~l' ∧ r = ~~~r' then equiv_def l r :: flush_gmc [] us
    else flush_gmc [l] (some r :: none :: some l' :: some r' :: none :: us)
  | clause, some l :: us => flush_gmc (clause ++ [l]) us

/-- The generic model converter evaluates the definitions from the last to the first; a constant without a value is
false. -/
def convert (defs : List (bool_var × expr)) (a : bool_var → Bool) : bool_var → Bool :=
  defs.reverse.foldl (fun a d => update a d.1 (d.2.eval a)) a

/-! ### The definitions as repairs -/

section Flush

variable {a : bool_var → Bool} {l r : literal} {clause c rest : List literal} {us : List (Option literal)}

theorem convert_append (ds ds' : List (bool_var × expr)) : convert (ds ++ ds') a = convert ds (convert ds' a) := by
  simp [convert]

theorem holds_iff : (a l.var != l.sign) ↔ l.Holds a := by
  unfold Lit.Holds
  cases a l.var <;> cases l.sign <;> simp

/-- A definition repairs its clause. -/
theorem convert_clause_def : convert (clause_def (l :: rest)) a = repair a (l, l :: rest) := by
  have heval : expr.eval a (.mk_or (.lit l) (.mk_and (rest.map (~~~·)))) ↔
      l.Holds a ∨ ¬ Satisfies a rest := by
    simp only [expr.eval, Bool.or_eq_true, holds_iff, List.all_map, List.all_eq_true, comp_apply, Satisfies]
    refine or_congr_right ?_
    push Not
    exact forall₂_congr fun x _ => Lit.holds_compl
  have hvalue : expr.eval a (if l.sign then .mk_not (.mk_or (.lit l) (.mk_and (rest.map (~~~·))))
      else .mk_or (.lit l) (.mk_and (rest.map (~~~·)))) =
        (expr.eval a (.mk_or (.lit l) (.mk_and (rest.map (~~~·)))) != l.sign) := by
    cases l.sign <;> simp [expr.eval]
  simp only [convert, clause_def, List.reverse_singleton, List.foldl_cons, List.foldl_nil, hvalue]
  by_cases hl : l.Holds a
  · rw [heval.mpr (.inl hl), repair_of_satisfies ⟨l, by simp, hl⟩]
    have hself : (true != l.sign) = a l.var := by rw [hl, Bool.true_bne]
    rw [hself, update_eq_self]
  · by_cases hrest : Satisfies a rest
    · have hfalse : expr.eval a (.mk_or (.lit l) (.mk_and (rest.map (~~~·)))) = false := by
        rw [Bool.eq_false_iff, Ne, heval]
        tauto
      obtain ⟨x, hx, hold⟩ := hrest
      rw [hfalse, repair_of_satisfies ⟨x, List.mem_cons_of_mem l hx, hold⟩]
      have hself : (false != l.sign) = a l.var := by
        have hne : a l.var ≠ !l.sign := hl
        cases hs : l.sign <;> cases hv : a l.var <;> simp_all
      rw [hself, update_eq_self]
    · have hnot : ¬ Satisfies a (l :: rest) := by
        rw [satisfies_cons]
        tauto
      rw [heval.mpr (.inr hrest), repair_of_not_satisfies hnot, Lit.assign, Bool.true_bne]

/-- The definition of one variable by another does the work of both clauses of the equivalence. -/
theorem convert_equiv_def (hne : r.var ≠ l.var) :
    convert [equiv_def l r] a = repair (repair a (~~~l, [~~~l, ~~~r])) (l, [l, r]) := by
  rw [repair_equivalence hne]
  simp only [convert, equiv_def, List.reverse_singleton, List.foldl_cons, List.foldl_nil, expr.eval]
  have hr : (a r.var != r.sign) ↔ r.Holds a := holds_iff
  unfold Lit.assign
  by_cases hold : r.Holds a
  · have hval : (a r.var != r.sign) := hr.mpr hold
    rw [if_pos hold]
    cases hs : l.sign <;> cases hrs : r.sign <;> simp_all
  · have hval : (a r.var != r.sign) = false := by
      rw [Bool.eq_false_iff, Ne, hr]
      exact hold
    cases hs : l.sign <;> cases hrs : r.sign <;> simp_all

theorem flush_gmc_append (hclause : clause ≠ []) (c : List literal) :
    flush_gmc clause (c.map some ++ none :: us) = clause_def (clause ++ c) ++ flush_gmc [] us := by
  induction c generalizing clause with
  | nil => simp [flush_gmc]
  | cons l c ih =>
    have hstep : flush_gmc clause (some l :: (c.map some ++ none :: us)) =
        flush_gmc (clause ++ [l]) (c.map some ++ none :: us) := by
      obtain ⟨x, xs, rfl⟩ := List.exists_cons_of_ne_nil hclause
      rw [flush_gmc]
      simp
    rw [List.map_cons, List.cons_append, hstep, ih (by simp)]
    simp

/-- A clause that is not the first half of an equivalence gives one definition, for its first literal. -/
theorem flush_gmc_clause (h : ¬ ∃ r us', rest = [r] ∧ us = some (~~~l) :: some (~~~r) :: none :: us') :
    flush_gmc [] ((l :: rest).map some ++ none :: us) = clause_def (l :: rest) ++ flush_gmc [] us := by
  have hgo : flush_gmc [l] (rest.map some ++ none :: us) = clause_def (l :: rest) ++ flush_gmc [] us :=
    flush_gmc_append (by simp) rest
  rw [List.map_cons, List.cons_append, flush_gmc.eq_def]
  split
  next heq => simp at heq
  next heq => simp at heq
  next l0 r l' r' us' _ heq =>
    obtain ⟨hl, htail⟩ := List.cons.inj heq
    cases hl
    rw [if_neg]
    · rw [← htail]
      exact hgo
    · rintro ⟨hl', hr'⟩
      obtain ⟨x, xs, rfl⟩ : ∃ x xs, rest = x :: xs := by
        cases rest with
        | nil => simp at htail
        | cons x xs => exact ⟨x, xs, rfl⟩
      cases xs with
      | cons y ys => simp at htail
      | nil =>
        obtain ⟨rfl, hus⟩ : x = r ∧ us = some l' :: some r' :: none :: us' := by simpa using htail
        exact h ⟨x, us', rfl, by rw [hus, hl', hr', Lit.compl_compl, Lit.compl_compl]⟩
  next heq _ =>
    obtain ⟨hl, htail⟩ := List.cons.inj heq
    cases hl
    rw [← htail]
    exact hgo

/-- The definitions of an update stack repair its clauses from the last to the first, also where the loop takes two of
them at once. -/
theorem convert_flush_gmc (cs : List (List literal))
    (hcs : ∀ c ∈ cs, ∃ l rest, c = l :: rest ∧ ∀ x ∈ rest, x.var ≠ l.var) :
    convert (flush_gmc [] (flatten cs)) a = (cs.reverse.map fun c => (c.headD ⟨0, false⟩, c)).foldl repair a := by
  induction hn : cs.length using Nat.strong_induction_on generalizing cs with
  | _ n ih =>
    subst hn
    cases cs with
    | nil => rfl
    | cons c cs =>
      obtain ⟨l, rest, rfl, hne⟩ := hcs c (by simp)
      have hcons : ∀ c cs, flatten (c :: cs) = c.map some ++ none :: flatten cs := by simp [flatten]
      by_cases hshort : ∃ r cs', rest = [r] ∧ cs = [~~~l, ~~~r] :: cs'
      · obtain ⟨r, cs', rfl, rfl⟩ := hshort
        have hflush : flush_gmc [] (flatten ([l, r] :: [~~~l, ~~~r] :: cs')) =
            [equiv_def l r] ++ flush_gmc [] (flatten cs') := by
          simp [hcons, flush_gmc]
        have hrest := ih cs'.length (by simp only [List.length_cons]; omega) cs'
          (fun c hc => hcs c (.tail _ (.tail _ hc))) rfl
        rw [hflush, convert_append, hrest, convert_equiv_def (hne r (by simp))]
        simp
      · have hnot : ¬ ∃ r us', rest = [r] ∧ flatten cs = some (~~~l) :: some (~~~r) :: none :: us' := by
          rintro ⟨r, us', rfl, hus⟩
          cases cs with
          | nil => simp [flatten] at hus
          | cons d cs' =>
            obtain ⟨x, xs, rfl, -⟩ := hcs d (by simp)
            rw [hcons] at hus
            rcases xs with _ | ⟨y, _ | ⟨z, ys⟩⟩
            · simp at hus
            · obtain ⟨rfl, rfl, -⟩ : x = ~~~l ∧ y = ~~~r ∧ _ := by simpa using hus
              exact hshort ⟨r, cs', rfl, rfl⟩
            · simp at hus
        have hrest := ih cs.length (by simp) cs (fun c hc => hcs c (.tail _ hc)) rfl
        rw [hcons, flush_gmc_clause hnot, convert_append, hrest, convert_clause_def]
        simp

theorem foldl_repair_updates {cs : List (List literal)} {rs : List (literal × List literal)}
    (h : List.Forall₂ Updates cs rs) (a : bool_var → Bool) :
    (cs.map fun c => (c.headD ⟨0, false⟩, c)).foldl repair a = rs.foldl repair a := by
  induction h generalizing a with
  | nil => rfl
  | cons hupd _ ih => rw [List.map_cons, List.foldl_cons, List.foldl_cons, hupd.repair_eq, ih]

theorem forall_eq_cons {cs : List (List literal)} {rs : List (literal × List literal)} (h : List.Forall₂ Updates cs rs)
    (hok : ∀ r ∈ rs, RepairOk r) : ∀ c ∈ cs, ∃ l rest, c = l :: rest ∧ ∀ x ∈ rest, x.var ≠ l.var := by
  induction h with
  | nil => simp
  | @cons u r us rs hupd _ ih =>
    obtain ⟨hr, hrs⟩ := List.forall_mem_cons.mp hok
    exact List.forall_mem_cons.mpr ⟨hupd.eq_cons hr, ih hrs⟩

end Flush

/-- An equivalence of the variables 0 and 1, and a covered clause that was extended by the variable 3. -/
def sample_entries : List entry :=
  [⟨some 0, .ELIM_VAR, [([⟨0, true⟩, ⟨1, false⟩], []), ([⟨0, false⟩, ⟨1, true⟩], [])]⟩,
    ⟨some 3, .CCE, [([⟨2, false⟩, ⟨1, false⟩, ⟨3, false⟩], [(2, ⟨2, false⟩)])]⟩]

def sample_model : model := fun v => if v = 0 then .l_undef else .l_false

end sat2goal
