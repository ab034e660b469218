import BooledASS.Sat.Invariant.LearnNary

open Cnf List

namespace sat.solver

variable {s : solver} {F : Set (List literal)} {G : Prop} {lits : List literal}

theorem literal.var_lt_of_index_le {p l : literal} (hle : literal.index p ≤ literal.index l) (hne : p ≠ l)
    (hcompl : p ≠ ~~~l) : p.var < l.var := by
  have hvar : p.var ≠ l.var := fun hvar => (Lit.eq_or_eq_compl_of_var_eq hvar).elim hne hcompl
  simp only [literal.index] at hle
  have h2 := Bool.toNat_le l.sign
  omega

/-- What is left of a sorted clause at the base level: unassigned literals of increasing variables. -/
theorem simplify_loop_spec (lits : List literal) (prev : Option literal)
    (hsorted : lits.Pairwise fun l m => literal.index l ≤ literal.index m)
    (hprev : ∀ p, prev = some p → ∀ l ∈ lits, literal.index p ≤ literal.index l) {lits' : List literal}
    (h : s.simplify_loop true prev lits = some lits') :
    lits'.Sublist lits ∧ (lits'.map Lit.var).Pairwise (· < ·) ∧
      (∀ p, prev = some p → ∀ l ∈ lits', p.var < l.var) ∧ (∀ l ∈ lits', s.value l = .l_undef) ∧
      ∀ l ∈ lits, l ∈ lits' ∨ s.value l = .l_false ∨ prev = some l := by
  induction lits generalizing prev lits' with
  | nil =>
    obtain rfl : [] = lits' := by simpa [simplify_loop] using h
    simp
  | cons curr rest ih =>
    obtain ⟨hcurr, hrest⟩ := pairwise_cons.mp hsorted
    have hprev' : ∀ p, prev = some p → ∀ l ∈ rest, literal.index p ≤ literal.index l :=
      fun p hp l hl => hprev p hp l (.tail _ hl)
    unfold simplify_loop at h
    simp only [Bool.not_true, Bool.false_eq_true, false_and, if_false] at h
    split at h
    · rename_i hfalse
      obtain ⟨h1, h2, h3, h4, h5⟩ := ih prev hrest hprev' h
      exact ⟨h1.cons _, h2, h3, h4, forall_mem_cons.mpr ⟨.inr (.inl hfalse), h5⟩⟩
    · cases h
    · rename_i hundef
      split at h
      · cases h
      · rename_i hcompl
        split at h
        · rename_i hsame
          obtain ⟨h1, h2, h3, h4, h5⟩ := ih prev hrest hprev' h
          exact ⟨h1.cons _, h2, h3, h4, forall_mem_cons.mpr ⟨.inr (.inr hsame), h5⟩⟩
        · rename_i hne
          obtain ⟨tail, htail, rfl⟩ := Option.map_eq_some_iff.mp h
          obtain ⟨h1, h2, h3, h4, h5⟩ := ih (some curr) hrest (by simpa using hcurr) htail
          have hlt : ∀ p, prev = some p → p.var < curr.var := fun p hp =>
            literal.var_lt_of_index_le (hprev p hp curr (by simp)) (fun heq => hne (heq ▸ hp))
              fun heq => hcompl (heq ▸ hp)
          refine ⟨h1.cons_cons _, ?_, fun p hp => ?_, forall_mem_cons.mpr ⟨hundef, h4⟩, ?_⟩
          · rw [map_cons, pairwise_cons]
            refine ⟨fun v hv => ?_, h2⟩
            obtain ⟨l, hl, rfl⟩ := mem_map.mp hv
            exact h3 curr rfl l hl
          · exact forall_mem_cons.mpr ⟨hlt p hp, fun l hl => (hlt p hp).trans (h3 curr rfl l hl)⟩
          · refine forall_mem_cons.mpr ⟨.inl (by simp), fun l hl => ?_⟩
            rcases h5 l hl with hmem | hfalse | heq
            · exact .inl (.tail _ hmem)
            · exact .inr (.inl hfalse)
            · obtain rfl : curr = l := by simpa using heq
              exact .inl (by simp)

/-- The simplified clause: what has been dropped is false at level 0. -/
theorem Inv.simplify_clause_spec (h : s.Inv F G)
    (hbase : s.scope_lvl = 0) (hF : Entails F lits) (hvars : ∀ l ∈ lits, l.var < s.m_num_vars) {lits' : List literal}
    (hsome : s.simplify_clause lits = some lits') : s.LitsOk F lits' ∧ ∀ l ∈ lits', s.value l = .l_undef := by
  have hperm := perm_insertionSort (fun l m : literal => literal.index l ≤ literal.index m) lits
  have hsorted := pairwise_insertionSort (fun l m : literal => literal.index l ≤ literal.index m) lits
  unfold simplify_clause at hsome
  rw [show s.at_base_lvl by simp [at_base_lvl, hbase]] at hsome
  obtain ⟨hsub, hvar, -, hundef, hall⟩ := simplify_loop_spec _ none hsorted (by simp) hsome
  refine ⟨⟨hvar.imp fun hlt => hlt.ne, fun m hm => hvars m (hperm.mem_iff.mp (hsub.subset hm)), ?_⟩, hundef⟩
  refine hF.of_entailsFrom fun l hl => ?_
  rcases hall l (hperm.mem_iff.mpr hl) with hmem | hfalse | heq
  · exact .inl hmem
  · have hmem := h.visit.trail.toTrailOk.value_false.mp hfalse
    have hzero : s.lvl (~~~l).var = 0 := Nat.le_zero.mp (hbase ▸ h.visit.trail.level_le _ hmem)
    exact .inr fun a ha _ => (h.visit.trail.unit _ hmem hzero).holds_of_unit ha
  · cases heq

/-- A binary clause of unassigned literals. -/
theorem Inv.mk_bin_clause_undef {l1 l2 : literal} (h : s.Inv F G) (hok : s.LitsOk F [l1, l2])
    (h1 : s.value l1 = .l_undef) (h2 : s.value l2 = .l_undef) : (s.mk_bin_clause l1 l2 false).Inv F G := by
  have hprop : s.propagate_bin_clause l1 l2 = (s, false) := by simp [propagate_bin_clause, h1, h2]
  have heq : s.mk_bin_clause l1 l2 false = s.watch_bin_clause l1 l2 false := by
    simp [mk_bin_clause, hprop, h.has_variables_to_reinit_bin]
  rw [heq]
  have hW' : WithBin s.m_watches (s.watch_bin_clause l1 l2 false).m_watches l1 l2 false := watch_bin_clause_withBin
  have hadd : s.SearchInv F G (s.watch_bin_clause l1 l2 false).m_watches fun m =>
      (if m = ~~~l1 then [.BINARY l2 false] else []) ++ if m = ~~~l2 then [.BINARY l1 false] else [] :=
    ⟨h.visit.add_binary hW' (by simpa using hok.nodup) (hok.bounded l1 (by simp))
      (hok.bounded l2 (by simp)) hok.entails, h.conflict⟩
  exact h.watch_bin_clause (.refl s) hW' (hadd.discharge_bin fun _ => settled_undef h.visit.trail h1 h2)
    fun cw hcw => .inl hcw

/-- A longer clause of unassigned literals at the base level. -/
theorem Inv.mk_nary_clause_undef {l0 l1 l2 : literal} {rest : List literal} (h : s.Inv F G) (hbase : s.scope_lvl = 0)
    (hok : s.LitsOk F (l0 :: l1 :: l2 :: rest)) (hundef : ∀ l ∈ l0 :: l1 :: l2 :: rest, s.value l = .l_undef) :
    (s.mk_nary_clause (l0 :: l1 :: l2 :: rest) false).Inv F G := by
  set c : clause := { m_lits := l0 :: l1 :: l2 :: rest } with hc
  set a := (s.alloc_clause (l0 :: l1 :: l2 :: rest) false).1 with haeq
  have hcls : a.m_cls s.m_next_off = c := Function.update_self ..
  have hb : a.at_base_lvl := by
    have hlvl : a.scope_lvl = 0 := hbase
    simp [at_base_lvl, hlvl]
  have heq : s.mk_nary_clause (l0 :: l1 :: l2 :: rest) false =
      { s.with_clause c with m_watches := (a.watch_nary_clause s.m_next_off).m_watches } := by
    have hnot : (a.watch_nary_clause s.m_next_off).has_variables_to_reinit (l0 :: l1 :: l2 :: rest) = false := by
      have hscope : (a.watch_nary_clause s.m_next_off).m_var_scope = s.m_var_scope := rfl
      simp [has_variables_to_reinit, hscope, h.var_scope]
    unfold mk_nary_clause attach_nary_clause
    simp only [← haeq, show (s.alloc_clause (l0 :: l1 :: l2 :: rest) false).2 = s.m_next_off from rfl, hb,
      if_true, Bool.false_or, hnot, Bool.false_eq_true, if_false]
    rfl
  have hW' := watch_nary_clause_withCls (s := a) s.m_next_off
  rw [hcls, show a.m_watches = s.m_watches from rfl] at hW'
  have hadd := h.toSearchInv.with_clause_conflict (h.visit.add_clause hW' rfl (clause.block_mem (by simp [hc]))
    ⟨by simp [hc], hok.nodup, hok.bounded, rfl, hok.entails⟩)
  rw [heq]
  refine h.watch_nary_clause (.refl _) hW' (hadd.discharge_cls (Function.update_self ..) rfl fun _ => ?_)
  exact settled_undef hadd.visit.trail (hundef l0 (by simp)) (hundef l1 (by simp))

/-- An input clause at the base level. -/
theorem Inv.mk_clause (h : s.Inv F G) (hbase : s.scope_lvl = 0) (hF : Entails F (lits ++ s.m_user_scope_literals))
    (hvars : ∀ l ∈ lits ++ s.m_user_scope_literals, l.var < s.m_num_vars) : (s.mk_clause lits).Inv F G := by
  unfold solver.mk_clause mk_clause_core
  simp only [Bool.false_eq_true, if_false]
  cases hsome : s.simplify_clause (lits ++ s.m_user_scope_literals) with
  | none => exact h
  | some lits' =>
    obtain ⟨hok, hundef⟩ := h.simplify_clause_spec hbase hF hvars hsome
    simp only
    match lits', hok, hundef with
    | [], hok, _ =>
      have hconf : { s with m_inconsistent := true, m_conflict := .none 0, m_not_l := none }.ConflictInv F :=
        ⟨by simp [conflict_antecedents, antecedents, justification.none], .inr
          (by simpa [conflict_antecedents, antecedents, justification.none] using hok.entails),
          by simp, fun _ => .inl rfl, by simp [justification.none]⟩
      have hsearch := h.toSearchInv.set_conflict hconf
      refine h.of_visitFrame (set_conflict_frame _ _) ?_ hsearch
      show (s.set_conflict (.none 0) none).m_watches = s.m_watches
      unfold set_conflict
      split <;> rfl
    | [l], hok, hundef =>
      refine h.assign ⟨hok.bounded l (by simp), Nat.zero_le _, .inl rfl, fun _ => hok.entails,
        by simp [justification.none], by simp [justification.none]⟩ (fun _ _ => .inl rfl) fun htrue => ?_
      rw [hundef l (by simp)] at htrue
      cases htrue
    | [l1, l2], hok, hundef =>
      exact h.mk_bin_clause_undef hok (hundef l1 (by simp)) (hundef l2 (by simp))
    | l0 :: l1 :: l2 :: rest, hok, hundef => exact h.mk_nary_clause_undef hbase hok hundef

end sat.solver
