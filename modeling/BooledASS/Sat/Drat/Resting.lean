import BooledASS.Sat.Drat.Propagation

open List

namespace sat.drat

open Cnf

variable {s s' s0 : drat} {l m w o : literal} {F G : Set (List literal)} {S fixed : Set literal}
  {ws : literal → List Nat} {N : Nat}

/-- The checker between two calls, when it is not inconsistent: the true literals are those that unit propagation over
the clauses `F` reaches. -/
structure Resting (F : Set (List literal)) (s : drat) : Prop where
  watched : Watched s.m_watched_clauses s.m_watches
  proper : ∀ wc ∈ s.m_watched_clauses, wc.Proper
  from_clauses : ∀ wc ∈ s.m_watched_clauses, wc.m_clause.lits ∈ F
  addresses : ∀ wc ∈ s.m_watched_clauses, wc.m_clause.ptr < s.m_next
  units : ∀ l, s.value l = .l_true ↔ l ∈ s.units
  derived : ∀ l ∈ s.units, Derives F ∅ l
  settled : Settled {m | m ∈ s.units} s
  covered : ∀ c ∈ F, c ≠ [] ∧ ((∃ wc ∈ s.m_watched_clauses, wc.m_clause.lits = c) ∨ ∃ l ∈ c, s.value l = .l_true)

theorem Adds.refl : Adds s s := ⟨[], by simp, by simp, fun _ _ => rfl⟩

theorem watched_lits_eq (h : s.m_watched_clauses.map (·.m_clause) = s0.m_watched_clauses.map (·.m_clause)) :
    s.watched_lits = s0.watched_lits := by
  have hmap (t : drat) : t.watched_lits = (t.m_watched_clauses.map (·.m_clause)).flatMap (·.lits) := by
    simp [watched_lits, flatMap_map]
  rw [hmap, hmap, h]

theorem bound_of_length (vs : List literal) (k : Nat) :
    k + (vs.filter fun l => s.value l = .l_undef).length ≤ k + vs.length :=
  Nat.add_le_add_left (length_filter_le _ _) k

/-- The bound on the units can be taken anew. -/
theorem Propagating.rebound (h : Propagating F S fixed s0 N ws s) :
    Propagating F S fixed s0 (s.m_units.length + s0.watched_lits.length + 1) ws s :=
  { h with bound := (bound_of_length _ _).trans (Nat.le_succ _) }

/-- A propagation is started; what is true now stays when it is undone. -/
theorem Resting.start (h : Resting F s) (hcons : s.m_inconsistent = false) (hFG : F ⊆ G) (S : Set literal) :
    Propagating G S {l | s.value l = .l_true} s (s.m_units.length + s.watched_lits.length) s.m_watches s where
  watched := h.watched
  proper := h.proper
  clauses := rfl
  next := rfl
  from_clauses wc hwc := hFG (h.from_clauses wc hwc)
  units := h.units
  derived l hl := (h.derived l hl).mono hFG (Set.empty_subset S)
  conflict hinc := absurd hinc (by simp [hcons])
  adds := .refl
  fixed_true l hl := hl
  kept wc hwc w o hw hfix := h.settled wc hwc w o hw ((h.units _).mp hfix)
  bound := bound_of_length _ _

/-- All watches that are false have a true partner, apart from one that `l` will settle. -/
def SettledBut (l : literal) (s : drat) : Prop :=
  ∀ wc ∈ s.m_watched_clauses, ∀ w o, wc.Watches w o → ~~~w ∈ s.units → s.value o = .l_true ∨ o = l

/-- The state after a literal that follows was assigned and propagated. -/
theorem Propagating.assign_propagate (h : Propagating F S fixed s0 N s.m_watches s) (hsettled : SettledBut l s)
    (hderives : Derives F S l) (c : Option drat.clause) :
    ∃ N', Propagating F S fixed s0 N' (s.assign_propagate l c).m_watches (s.assign_propagate l c) ∧
      ((s.assign_propagate l c).m_inconsistent ∨
        l ∈ (s.assign_propagate l c).units ∧
          Settled {m | m ∈ (s.assign_propagate l c).units} (s.assign_propagate l c)) ∧
      s.m_units <+: (s.assign_propagate l c).m_units := by
  have hbase := h.rebound
  rw [drat.assign_propagate, watched_lits_eq h.clauses]
  refine ⟨s.m_units.length + s0.watched_lits.length + 1, ?_⟩
  have hfuel : s.m_units.length + s0.watched_lits.length + 1 < s.m_units.length + (s0.watched_lits.length + 2) := by
    omega
  cases hl : s.value l with
  | l_false =>
    have hconflict : Propagating F S fixed s0 (s.m_units.length + s0.watched_lits.length + 1) s.m_watches
        { s with m_inconsistent := true } :=
      { hbase with
        conflict := fun _ => .inr ⟨l, hderives, h.false_of_true hl⟩
        adds := ⟨h.adds.units⟩ }
    have hassign : s.assign l c = { s with m_inconsistent := true } := by rw [assign, hl]
    rw [hassign]
    exact ⟨hconflict, .inl rfl, prefix_rfl⟩
  | l_true =>
    have hassign : s.assign l c = s := by rw [assign, hl]
    rw [hassign]
    have hset : Settled {m | m ∈ s.units.take s.m_units.length} s := by
      intro wc hwc w o hw hd
      exact (hsettled wc hwc w o hw (mem_of_mem_take hd)).elim id fun heq => heq ▸ hl
    obtain ⟨hprop, hend, hunits⟩ := hbase.propagate_units (.inr hset) hfuel
    refine ⟨hprop, hend.imp_right fun hs => ⟨?_, hs⟩, hunits⟩
    exact (hunits.map Prod.fst).subset ((h.units l).mp hl)
  | l_undef =>
    rw [assign_of_undef hl]
    have hpush : Propagating F S fixed s0 (s.m_units.length + s0.watched_lits.length + 1) s.m_watches
        (s.push_unit l c) := by
      refine hbase.push_unit hl hderives c ?_
      have hfilter := length_filter_le (fun m => (s.push_unit l c).value m = .l_undef) s0.watched_lits
      omega
    have hset : Settled {m | m ∈ (s.push_unit l c).units.take s.m_units.length} (s.push_unit l c) := by
      intro wc hwc w o hw hd
      have hold : ~~~w ∈ s.units := by simpa [drat.units, drat.push_unit] using hd
      exact (value_push_unit_eq_true hl c).mpr (hsettled wc hwc w o hw hold)
    obtain ⟨hprop, hend, hunits⟩ := hpush.propagate_units (.inr hset) hfuel
    refine ⟨hprop, hend.imp_right fun hs => ⟨?_, hs⟩, (prefix_append _ _).trans hunits⟩
    exact (hunits.map Prod.fst).subset (by simp [drat.push_unit])

theorem settledBut_of_settled (h : Settled {m | m ∈ s.units} s) (l : literal) : SettledBut l s :=
  fun wc hwc w o hw hd => .inl (h wc hwc w o hw hd)

/-- All the literals of the negated clause are assigned, unless there is a conflict before. -/
theorem Propagating.assign_negated {c : List literal} (h : Propagating F S fixed s0 N s.m_watches s)
    (hsettled : s.m_inconsistent ∨ Settled {m | m ∈ s.units} s) (hc : ∀ l ∈ c, ~~~l ∈ S) :
    ∃ N', Propagating F S fixed s0 N' (s.assign_negated c).m_watches (s.assign_negated c) ∧
      ((s.assign_negated c).m_inconsistent ∨
        (∀ l ∈ c, ~~~l ∈ (s.assign_negated c).units) ∧
          Settled {m | m ∈ (s.assign_negated c).units} (s.assign_negated c)) ∧
      s.m_units <+: (s.assign_negated c).m_units := by
  induction c generalizing s N with
  | nil => exact ⟨N, h, hsettled.imp_right fun hs => ⟨by simp, hs⟩, prefix_rfl⟩
  | cons l c ih =>
    rw [drat.assign_negated]
    split
    next hinc => exact ⟨N, h, .inl hinc, prefix_rfl⟩
    next hinc =>
      obtain ⟨N1, hprop, hend, hunits⟩ := h.assign_propagate
        (settledBut_of_settled (hsettled.resolve_left hinc) _) (.of_mem (hc l (by simp))) none
      obtain ⟨N2, hprop', hend', hunits'⟩ := ih hprop (hend.imp_right And.right)
        fun m hm => hc m (mem_cons_of_mem l hm)
      refine ⟨N2, hprop', ?_, hunits.trans hunits'⟩
      rcases hend with hinc1 | ⟨hl, -⟩
      · -- a conflict is not taken back
        refine .inl ?_
        cases c with
        | nil => simpa [drat.assign_negated] using hinc1
        | cons m c => simp [drat.assign_negated, hinc1]
      · exact hend'.imp_right fun hs =>
          ⟨forall_mem_cons.mpr ⟨(hunits'.map Prod.fst).subset hl, hs.1⟩, hs.2⟩

/-! ### No conflict -/

/-- A propagation that has ended without a conflict has reached all that unit propagation reaches. -/
theorem not_refutes_of_settled (hproper : ∀ wc ∈ s.m_watched_clauses, wc.Proper)
    (hunits : ∀ l, s.value l = .l_true ↔ l ∈ s.units) (hsettled : Settled {m | m ∈ s.units} s)
    (hcovered : ∀ c ∈ F, c ≠ [] ∧ ((∃ wc ∈ s.m_watched_clauses, wc.m_clause.lits = c) ∨ ∃ l ∈ c, s.value l = .l_true))
    (hS : ∀ l ∈ S, s.value l = .l_true) : ¬ Refutes F S := by
  have hcons : ∀ l ∈ {l | s.value l = .l_true}, ~~~l ∉ {l | s.value l = .l_true} :=
    fun l hl hneg => value_ne_true_of_compl hneg hl
  refine not_refutes_of_closed hS ?_ hcons fun hnil => (hcovered [] hnil).1 rfl
  intro c hc l hl hothers
  rcases (hcovered c hc).2 with ⟨wc, hwc, rfl⟩ | ⟨m, hm, htrue⟩
  · -- one of the watches is not `l`: it is false, so that the other one is true, which can only be `l`
    have hp := hproper wc hwc
    have hwatch : ∃ w o, wc.Watches w o ∧ w ≠ l := by
      by_cases h1 : wc.m_l1 = l
      · exact ⟨wc.m_l2, wc.m_l1, .inr ⟨rfl, rfl⟩, fun h2 => hp.ne (h1.trans h2.symm)⟩
      · exact ⟨wc.m_l1, wc.m_l2, .inl ⟨rfl, rfl⟩, h1⟩
    obtain ⟨w, o, hw, hne⟩ := hwatch
    obtain ⟨hmw, hmo, -⟩ := hp.mem hw
    have ho : s.value o = .l_true := hsettled wc hwc w o hw ((hunits _).mp (hothers w hmw hne))
    by_cases hol : o = l
    · exact hol ▸ ho
    · exact absurd (hothers o hmo hol) (hcons o ho)
  · by_cases hml : m = l
    · exact hml ▸ htrue
    · exact absurd (hothers m hm hml) (hcons m htrue)

/-! ### The trial of `is_drup` -/

/-- Undoing the units of a verification resets their variables and no others. -/
theorem foldl_update_undef (us : List (literal × Option drat.clause)) (a : bool_var → lbool) (v : bool_var) :
    us.foldl (fun a u => Function.update a u.1.var .l_undef) a v = if ∃ u ∈ us, u.1.var = v then .l_undef else a v := by
  induction us generalizing a with
  | nil => simp
  | cons u us ih =>
    rw [foldl_cons, ih]
    by_cases hus : ∃ u ∈ us, u.1.var = v
    · have hcons : ∃ u' ∈ u :: us, u'.1.var = v := by
        obtain ⟨u', hu', heq⟩ := hus
        exact ⟨u', mem_cons_of_mem u hu', heq⟩
      rw [if_pos hus, if_pos hcons]
    · rw [if_neg hus]
      by_cases hu : u.1.var = v
      · rw [if_pos ⟨u, by simp, hu⟩, hu, Function.update_self]
      · have hcons : ¬ ∃ u' ∈ u :: us, u'.1.var = v := by
          rintro ⟨u', hu', heq⟩
          rcases mem_cons.mp hu' with rfl | hu'
          · exact hu heq
          · exact hus ⟨u', hu', heq⟩
        rw [if_neg hcons, Function.update_of_ne (Ne.symm hu)]

/-- Undoing a verification takes back the units that it added and their values. -/
theorem Adds.undo (h : Adds s0 s) :
    (s.undo s0.m_units.length).m_units = s0.m_units ∧ (s.undo s0.m_units.length).m_assignment = s0.m_assignment := by
  obtain ⟨new, hnew, hundef, hsame⟩ := h.units
  refine ⟨by simp [drat.undo, hnew], funext fun v => ?_⟩
  have hdrop : s.m_units.drop s0.m_units.length = new := by simp [hnew]
  rw [drat.undo, hdrop]
  dsimp only
  rw [foldl_update_undef]
  split
  next hu =>
    obtain ⟨u, hu, rfl⟩ := hu
    exact (hundef u hu).symm
  next hu => exact hsame v fun u hmem heq => hu ⟨u, hmem, heq⟩

theorem exists_clause_of_map (h : s.m_watched_clauses.map (·.m_clause) = s0.m_watched_clauses.map (·.m_clause))
    {wc : watched_clause} (hwc : wc ∈ s0.m_watched_clauses) : ∃ wc' ∈ s.m_watched_clauses, wc'.m_clause = wc.m_clause :=
  mem_map.mp (h ▸ mem_map_of_mem hwc)

/-- The watches that a trial has moved are watches of the state before the trial. -/
theorem Resting.undo (h0 : Resting F s0) (h : Propagating F S {l | s0.value l = .l_true} s0 N s.m_watches s) :
    Resting F (s.undo s0.m_units.length) := by
  obtain ⟨hunits, hassignment⟩ := h.adds.undo
  have hvalue l : (s.undo s0.m_units.length).value l = s0.value l :=
    value_congr (congrFun hassignment _)
  have hlits : (s.undo s0.m_units.length).units = s0.units := congrArg (List.map Prod.fst) hunits
  refine ⟨h.watched, h.proper, h.from_clauses, fun wc hwc => ?_, fun l => ?_, ?_, ?_, fun c hc => ?_⟩
  · obtain ⟨wc0, hwc0, heq⟩ := exists_clause_of_map h.clauses.symm hwc
    exact heq ▸ h.next ▸ h0.addresses wc0 hwc0
  · rw [hvalue, hlits]
    exact h0.units l
  · rw [hlits]
    exact h0.derived
  · intro wc hwc w o hw hd
    rw [hvalue]
    rw [hlits] at hd
    exact h.kept wc hwc w o hw ((h0.units _).mpr hd)
  · refine ⟨(h0.covered c hc).1, (h0.covered c hc).2.imp ?_ ?_⟩
    · rintro ⟨wc, hwc, rfl⟩
      obtain ⟨wc', hwc', heq⟩ := exists_clause_of_map h.clauses hwc
      exact ⟨wc', hwc', by rw [heq]⟩
    · rintro ⟨l, hl, htrue⟩
      exact ⟨l, hl, (hvalue l).trans htrue⟩

/-- `is_drup` decides whether unit propagation refutes the negated clause, and leaves assignment and units alone. -/
theorem Resting.is_drup (h : Resting F s) (hcons : s.m_inconsistent = false) (c : List literal) :
    ((s.is_drup c).1 ↔ Refutes F (negated c)) ∧ Resting F (s.is_drup c).2 ∧
      (s.is_drup c).2.m_inconsistent = false ∧ (s.is_drup c).2.m_next = s.m_next ∧
      (s.is_drup c).2.m_assignment = s.m_assignment ∧ (s.is_drup c).2.m_units = s.m_units := by
  rw [drat.is_drup, if_neg (by simp [hcons])]
  split
  next hempty =>
    obtain rfl := isEmpty_iff.mp hempty
    have hnot : ¬ Refutes F (negated []) :=
      not_refutes_of_settled h.proper h.units h.settled h.covered fun l hl => by simp [negated] at hl
    exact ⟨by simpa using hnot, h, hcons, rfl, rfl, rfl⟩
  next =>
    have hnegated : ∀ l ∈ c, ~~~l ∈ negated c := fun l hl => by simpa [negated] using hl
    obtain ⟨N', hprop, hend, -⟩ := (h.start hcons subset_rfl (negated c)).assign_negated (.inr h.settled) hnegated
    refine ⟨⟨hprop.conflict, fun hrefutes => ?_⟩, h.undo hprop, rfl, hprop.next, hprop.adds.undo.2, hprop.adds.undo.1⟩
    by_contra hinc
    obtain ⟨hassigned, hsettled⟩ := hend.resolve_left hinc
    refine not_refutes_of_settled hprop.proper hprop.units hsettled (fun d hd => ⟨(h.covered d hd).1, ?_⟩) ?_ hrefutes
    · refine (h.covered d hd).2.imp ?_ ?_
      · rintro ⟨wc, hwc, rfl⟩
        obtain ⟨wc', hwc', heq⟩ := exists_clause_of_map hprop.clauses hwc
        exact ⟨wc', hwc', by rw [heq]⟩
      · rintro ⟨l, hl, htrue⟩
        exact ⟨l, hl, hprop.fixed_true l htrue⟩
    · intro l hl
      have hmem := hassigned (~~~l) hl
      rw [Lit.compl_compl] at hmem
      exact (hprop.units l).mpr hmem

end sat.drat
