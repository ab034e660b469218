import BooledASS.Sat.Invariant.Propagate

open Cnf List Function sat.justification

namespace sat.solver

/-- The literals of the trail stay, with their levels, and others follow them. -/
structure Extends (s s' : solver) : Prop where
  trail : s.m_trail <+: s'.m_trail
  level : ∀ m ∈ s.m_trail, s'.lvl m.var = s.lvl m.var

variable {s : solver} {F : Set (List literal)} {G : Prop} {W todo : literal → List watched} {l : literal}
  {j : justification}

theorem Extends.refl (s : solver) : Extends s s := ⟨prefix_refl _, fun _ _ => rfl⟩

theorem Extends.trans {s1 s2 : solver} (h : Extends s s1) (h' : Extends s1 s2) : Extends s s2 :=
  ⟨h.trail.trans h'.trail, fun m hm => (h'.level m (h.trail.subset hm)).trans (h.level m hm)⟩

theorem set_conflict_extends (not_l : Option literal) : Extends s (s.set_conflict j not_l) := by
  unfold set_conflict
  split
  · exact .refl s
  · exact ⟨prefix_refl _, fun _ _ => rfl⟩

theorem assign_core_extends (h : s.TrailOk) (hundef : s.value l = .l_undef) : Extends s (s.assign_core l j) :=
  ⟨prefix_append _ _, fun _ hm => lvl_assign_core_of_mem h hundef (.inl hm)⟩

theorem assign_frame : VisitFrame s (s.assign l j) := by
  unfold assign
  split
  · exact set_conflict_frame _ _
  · exact ⟨rfl, rfl, fun _ _ h => h, prefix_append _ _⟩
  · unfold update_assign
    split
    · exact ⟨rfl, rfl, fun _ _ h => h, prefix_refl _⟩
    · exact .refl s

theorem assign_extends (h : s.TrailOk) (hne : s.value l ≠ .l_true) : Extends s (s.assign l j) := by
  unfold assign
  split
  · exact set_conflict_extends _
  · exact assign_core_extends h ‹_›
  · contradiction

theorem ConflictInv.assign_core (h : s.ConflictInv F) : (s.assign_core l j).ConflictInv F :=
  ⟨fun a ha => mem_append_left _ (h.mem a ha), h.entails, h.shape, h.level, h.live⟩

theorem SearchInv.assign_core (h : s.SearchInv F G W todo) (ha : s.Assignable F G W l j)
    (hundef : s.value l = .l_undef) : (s.assign_core l j).SearchInv F G W todo where
  visit := h.visit.assign_core ha hundef
  conflict hinc := (h.conflict hinc).assign_core

theorem SearchInv.set_conflict {not_l : Option literal} (h : s.SearchInv F G W todo)
    (hconf : { s with m_inconsistent := true, m_conflict := j, m_not_l := not_l }.ConflictInv F) :
    (s.set_conflict j not_l).SearchInv F G W todo := by
  unfold solver.set_conflict
  split
  · exact h
  · exact ⟨h.visit.congr ⟨rfl, rfl, rfl, rfl, rfl, rfl, rfl, rfl, rfl, rfl⟩ (by simp), fun _ => hconf⟩

/-- A literal that has to be true and is false makes a conflict. -/
theorem Assignable.conflict (ha : s.Assignable F G W l j) (ht : s.TrailOk) (hfalse : s.value l = .l_false)
    (hnone : j.get_kind = .NONE → j.level = 0 ∨ s.tracking_assumptions ∧ s.scope_lvl ≤ 1) :
    { s with m_inconsistent := true, m_conflict := j, m_not_l := some (~~~l) }.ConflictInv F := by
  set s' : solver := { s with m_inconsistent := true, m_conflict := j, m_not_l := some (~~~l) }
  have hl : ~~~l ∈ s.m_trail := ht.value_false.mp hfalse
  rcases ha.supports with hkind | ⟨others, hreason, hearlier, hF, -⟩
  · have hante : s'.conflict_antecedents = [~~~l] := by simp [conflict_antecedents, antecedents, s', hkind]
    refine ⟨fun a hmem => ?_, (hnone hkind).symm.imp_right fun hzero => ?_, fun off _ hoff => ?_,
      fun _ => (hnone hkind).imp_right fun ht => ⟨ht.1, ha.level, ht.2⟩, ha.cls⟩
    · obtain rfl : a = ~~~l := by simpa [hante] using hmem
      exact hl
    · simpa [hante] using ha.unit hzero
    · rw [show s'.m_conflict = j from rfl, hkind] at hoff
      cases hoff
  · have hante : s'.conflict_antecedents = ~~~l :: others.map (~~~·) := by
      have := Reason.antecedents_eq (s := s') (hreason.congr rfl)
      simp only [conflict_antecedents, s', Option.toList_some, Option.map_some, Lit.compl_compl]
      rw [this]
      rfl
    refine ⟨fun a hmem => ?_, .inr ?_, fun off not_l hoff hnl => ?_,
      fun hkind => absurd hkind hreason.kind_ne_none, ha.cls⟩
    · rw [hante] at hmem
      rcases mem_cons.mp hmem with rfl | hmem
      · exact hl
      · obtain ⟨m, hm, rfl⟩ := mem_map.mp hmem
        exact hearlier m hm
    · rw [hante, map_cons, Lit.compl_compl, map_compl_compl]
      exact hF
    · obtain rfl : ~~~l = not_l := by simpa [s'] using hnl
      have hoff' : j.get_kind = .CLAUSE off := hoff
      rw [hoff'] at hreason
      cases hreason with
      | clause _ _ hw => exact ⟨others, by simpa using hw⟩

/-- The state after `update_assign` has lowered the level of a literal to 0. -/
private def lowered (s : solver) (l : literal) : solver :=
  { s with m_justification := update s.m_justification l.var (.none 0) }

private theorem lowered_lvl_le (v : bool_var) : (s.lowered l).lvl v ≤ s.lvl v := by
  by_cases hv : v = l.var
  · simp [lvl, lowered, hv, justification.none]
  · simp [lvl, lowered, update_of_ne hv]

private theorem lowered_kind {v : bool_var} {k : kind} (hk : k ≠ .NONE)
    (h : ((s.lowered l).m_justification v).get_kind = k) : (s.m_justification v).get_kind = k := by
  by_cases hv : v = l.var
  · simp only [lowered, hv, update_self, justification.none] at h
    exact absurd h.symm hk
  · simpa [lowered, update_of_ne hv] using h

/-- The levels of the literals that have been propagated from a lowered one are not attained any more. -/
private theorem VisitInv.lowered (h : s.VisitInv F G W todo) (hG : ¬ G)
    (hunit : Entails F [l]) (hl : l ∈ s.m_trail) : (s.lowered l).VisitInv F G W todo where
  trail :=
    { h.trail with
      level_le := fun m hm => (lowered_lvl_le _).trans (h.trail.level_le m hm)
      level_lim := fun k sc hsc m hm => (lowered_lvl_le _).trans (h.trail.level_lim k sc hsc m hm)
      unit := fun m hm hzero => by
        by_cases hv : m.var = l.var
        · rwa [h.trail.toTrailOk.eq_of_var_eq hm hl hv]
        · exact h.trail.unit m hm (by simpa [lvl, solver.lowered, update_of_ne hv] using hzero)
      reasons := fun pre m post htrail => by
        by_cases hv : m.var = l.var
        · exact .inl (by simp [solver.lowered, hv, justification.none])
        · have hj : (s.lowered l).m_justification m.var = s.m_justification m.var := update_of_ne hv _ _
          rw [hj]
          refine (h.trail.reasons pre m post htrail).imp_right ?_
          rintro ⟨others, hreason, hearlier, hF, hle, -⟩
          refine ⟨others, hreason.congr rfl, hearlier, hF,
            fun x hx => (lowered_lvl_le _).trans (hle x hx), fun h => absurd h hG⟩ }
  db :=
    { h.db with
      clause_ok := fun off hoff => by exact { h.db.clause_ok off hoff with }
      reason_bin := fun m hm l2 hk => h.db.reason_bin m hm l2 (lowered_kind (by simp) hk)
      reason_cls := fun m hm off hk => h.db.reason_cls m hm off (lowered_kind (by simp) hk) }
  guard hG n k hb :=
    { bin := fun m l2 b hW hm => ((h.guard hG n k hb).bin m l2 b hW hm).imp_right fun ht =>
        ⟨ht.1, (lowered_lvl_le _).trans ht.2⟩
      cls := fun off hoff w hw hm => ((h.guard hG n k hb).cls off hoff w hw hm).imp_right
        fun ⟨t, ht, hmem, hle⟩ => ⟨t, ht, hmem, (lowered_lvl_le _).trans hle⟩ }

/-- `assign` keeps the invariant. Only an assumption is assigned without a justification when it may be
false, and only a unit lemma at level 0 when it may be true above level 0. -/
theorem SearchInv.assign (h : s.SearchInv F G W todo) (ha : s.Assignable F G W l j)
    (hnone : s.value l = .l_false → j.get_kind = .NONE → j.level = 0 ∨ s.tracking_assumptions ∧ s.scope_lvl ≤ 1)
    (hlower : s.value l = .l_true → j.level = 0 → s.lvl l.var ≠ 0 →
      j = .none 0 ∧ ¬ G) : (s.assign l j).SearchInv F G W todo := by
  unfold solver.assign
  split
  case h_1 hfalse => exact h.set_conflict (ha.conflict h.visit.trail.toTrailOk hfalse (hnone hfalse))
  case h_2 hundef => exact h.assign_core ha hundef
  case h_3 htrue =>
    unfold update_assign
    split
    · rename_i hlow
      obtain ⟨rfl, hG⟩ := hlower htrue hlow.1 hlow.2
      refine ⟨h.visit.lowered hG (ha.unit rfl) ((h.visit.trail.value_true l).mp htrue), fun hinc => ?_⟩
      exact { h.conflict hinc with }
    · exact h

/-- The rest of the invariant follows the assignment. -/
theorem Inv.of_visitFrame {s' : solver} (h : s.Inv F G) (hframe : VisitFrame s s')
    (hw : s'.m_watches = s.m_watches) (hsearch : s'.SearchInv F G s.m_watches fun _ => []) : s'.Inv F G :=
  h.of_propFrame hframe.frame (fun m l2 b hm => by rwa [hw]) (hw ▸ hsearch.visit) hsearch.conflict

theorem assign_watches : (s.assign l j).m_watches = s.m_watches := by
  simp only [assign, update_assign, set_conflict]
  split
  · split <;> rfl
  · rfl
  · split <;> rfl

theorem SearchInv.assign_bin {l1 l2 : literal} {b : Bool} (h : s.SearchInv F G W todo)
    (hw : .BINARY l2 b ∈ W (~~~l1)) (hfalse : s.value l2 = .l_false) (hl1 : s.value l1 ≠ .l_true) :
    (s.assign l1 (.binary (s.lvl l2.var) l2)).SearchInv F G W todo :=
  h.assign (h.visit.assignable_bin hw hfalse) (by simp [binary]) fun htrue => absurd htrue hl1

theorem assign_cls : (s.assign l j).m_cls = s.m_cls := by
  simp only [assign, update_assign, set_conflict]
  split
  · split <;> rfl
  · rfl
  · split <;> rfl

/-- `propagate_bin_clause` for a clause of the watch lists. -/
theorem SearchInv.propagate_bin_clause {l1 l2 : literal} {b : Bool} (h : s.SearchInv F G W todo)
    (hw : .BINARY l2 b ∈ W (~~~l1)) :
    (s.propagate_bin_clause l1 l2).1.SearchInv F G W todo ∧ VisitFrame s (s.propagate_bin_clause l1 l2).1 ∧
      Extends s (s.propagate_bin_clause l1 l2).1 ∧
      (s.propagate_bin_clause l1 l2).1.m_watches = s.m_watches := by
  unfold solver.propagate_bin_clause
  split
  · rename_i hc
    exact ⟨h.assign_bin hw hc.1 hc.2, assign_frame, assign_extends h.visit.trail.toTrailOk hc.2, assign_watches⟩
  · split
    · rename_i hc
      have hsym : .BINARY l1 b ∈ W (~~~l2) := by simpa using h.visit.db.bin_sym _ _ _ hw
      exact ⟨h.assign_bin hsym hc.1 hc.2, assign_frame, assign_extends h.visit.trail.toTrailOk hc.2, assign_watches⟩
    · exact ⟨h, .refl s, .refl s, rfl⟩

end sat.solver
