import BooledASS.Sat.Invariant.Assign

open Cnf List

namespace sat.solver

variable {s : solver} {F : Set (List literal)} {G : Prop} {W todo : literal → List watched} {l : literal}

theorem GuardAt.mono {n k k' : Nat} (h : s.GuardAt W todo n k) (hk : k ≤ k') : s.GuardAt W todo n k' where
  bin m l2 b hW hm := (h.bin m l2 b hW hm).imp_right fun ht => ⟨ht.1, ht.2.trans hk⟩
  cls off hoff w hw hm := (h.cls off hoff w hw hm).imp_right fun ⟨t, ht, hmem, hle⟩ =>
    ⟨t, ht, hmem, hle.trans hk⟩

/-- What has been propagated before a scope is still so after the scope is undone: the true literals
that guard it have the level of the scope below or less. -/
theorem VisitInv.unwind {sc : scope} {k : Nat} (h : s.VisitInv F G W todo)
    (hsc : s.m_scopes[k]? = some sc) : (s.unwind sc k).VisitInv F G W todo where
  trail := h.trail.unwind hsc
  db :=
    { h.db with
      clause_ok := fun off hoff => by exact { h.db.clause_ok off hoff with }
      reason_bin := fun m hm => h.db.reason_bin m ((mem_unwind_trail (h.trail.level_lim k sc hsc)).mp hm).1
      reason_cls := fun m hm => h.db.reason_cls m ((mem_unwind_trail (h.trail.level_lim k sc hsc)).mp hm).1 }
  guard hG n i hb := by
    have hold : s.Bound n i ∧ i ≤ k ∧ n ≤ sc.m_trail_lim := by
      rcases hb with ⟨sci, hsci, rfl⟩ | ⟨-, rfl, rfl⟩
      · obtain ⟨hlt, hsci⟩ := unwind_scopes hsci
        exact ⟨.inl ⟨sci, hsci, rfl⟩, hlt.le, h.trail.lim_mono hsci hsc hlt⟩
      · have hlvl : (s.unwind sc k).scope_lvl = k := length_take_of_le (List.getElem?_eq_some_iff.mp hsc).1.le
        rw [unwind_qhead h.trail hsc, hlvl]
        exact ⟨.inl ⟨sc, hsc, rfl⟩, le_rfl, le_rfl⟩
    obtain ⟨hb, hik, hn⟩ := hold
    have hg := h.guard hG n i hb
    refine ⟨fun m l2 b hW hm => ?_, fun off hoff w hw hm => ?_⟩
    · rw [take_unwind_trail h.trail hsc hn] at hm
      exact (hg.bin m l2 b hW hm).imp_right fun ht =>
        ⟨(mem_unwind_trail (h.trail.level_lim k sc hsc)).mpr ⟨ht.1, ht.2.trans hik⟩, ht.2⟩
    · rw [take_unwind_trail h.trail hsc hn] at hm
      exact (hg.cls off hoff w hw hm).imp_right fun ⟨t, ht, hmem, hle⟩ =>
        ⟨t, ht, (mem_unwind_trail (h.trail.level_lim k sc hsc)).mpr ⟨hmem, hle.trans hik⟩, hle⟩

/-- A scope may be opened when everything has been propagated. -/
theorem VisitInv.push (h : s.VisitInv F G W todo) (hq : s.m_qhead = s.m_trail.length)
    (hcons : s.m_inconsistent = false) : s.push.VisitInv F G W todo where
  trail := h.trail.push hq
  db :=
    { h.db with
      clause_ok := fun off hoff => by exact { h.db.clause_ok off hoff with } }
  guard hG n k hb := by
    have hold : ∃ k' ≤ k, s.Bound n k' := by
      have hlvl : s.push.scope_lvl = s.scope_lvl + 1 := by simp [scope_lvl, solver.push]
      have hcur : s.Bound s.m_qhead s.scope_lvl := .inr ⟨hcons, rfl, rfl⟩
      rcases hb with ⟨sc, hsc, rfl⟩ | ⟨-, rfl, rfl⟩
      · rw [show s.push.m_scopes = s.m_scopes ++ [⟨s.m_trail.length, s.m_clauses_to_reinit.length⟩] from rfl,
          getElem?_append] at hsc
        split at hsc
        · exact ⟨k, le_rfl, .inl ⟨sc, hsc, rfl⟩⟩
        · rename_i hk
          obtain rfl : sc = _ := mem_singleton.mp (mem_of_getElem? hsc)
          exact ⟨s.scope_lvl, not_lt.mp hk, hq ▸ hcur⟩
      · exact ⟨s.scope_lvl, by omega, hcur⟩
    obtain ⟨k', hk', hb'⟩ := hold
    have hg := (h.guard hG n k' hb').mono hk'
    exact ⟨hg.bin, hg.cls⟩

theorem PopFrame.trans {s1 s2 : solver} (h : PopFrame s s1) (h' : PopFrame s1 s2) : PopFrame s s2 := by
  unfold PopFrame at *
  rw [h']
  rw [h]

/-- The loop over the reinit stack, whose entries are binary clauses of the watch lists. -/
theorem reinit_loop_spec (todo kept : List clause_wrapper) (s : solver) (W : literal → List watched)
    (h : s.SearchInv F G W fun _ => []) (htodo : ∀ cw ∈ todo, ∃ l1 l2 b, cw = .bin l1 l2 ∧ .BINARY l2 b ∈ W (~~~l1)) :
    (reinit_loop kept s todo).1.SearchInv F G W (fun _ => []) ∧
    VisitFrame s (reinit_loop kept s todo).1 ∧ Extends s (reinit_loop kept s todo).1 ∧
    (reinit_loop kept s todo).1.m_watches = s.m_watches ∧ ∀ cw ∈ (reinit_loop kept s todo).2, cw ∈ kept ++ todo := by
  induction todo generalizing kept s with
  | nil => exact ⟨h, .refl s, .refl s, rfl, by simp [reinit_loop]⟩
  | cons cw todo ih =>
    obtain ⟨l1, l2, b, rfl, hw⟩ := htodo cw (by simp)
    obtain ⟨hsearch, hframe, hext, hwatch⟩ := h.propagate_bin_clause hw
    have hfst : (s.reinit_clause (.bin l1 l2)).1 = (s.propagate_bin_clause l1 l2).1 := by
      simp only [reinit_clause]
      split <;> rfl
    unfold reinit_loop
    simp only
    generalize s.reinit_clause (.bin l1 l2) = p at hfst
    obtain ⟨s1, stays⟩ := p
    simp only at hfst
    rw [← hfst] at hsearch hframe hext hwatch
    obtain ⟨h1, h2, h3, h4, h5⟩ := ih (if stays then kept ++ [.bin l1 l2] else kept) s1 hsearch
      fun cw hcw => htodo cw (.tail _ hcw)
    refine ⟨h1, hframe.trans h2, hext.trans h3, h4.trans hwatch, fun cw hcw => ?_⟩
    have hmem := h5 cw hcw
    split at hmem
    · simpa using hmem
    · rcases mem_append.mp hmem with hmem | hmem <;> simp [hmem]

private theorem pop_none {n : Nat} (hn : s.m_scopes[s.scope_lvl - n]? = none) :
    s.pop n = s ∧ s.scope_lvl - n = s.scope_lvl := by
  have hle : s.scope_lvl ≤ s.scope_lvl - n := getElem?_eq_none_iff.mp hn
  exact ⟨by simp [pop, hn], by omega⟩

/-- What `pop` keeps: the literals of the remaining levels stay, and those that the reinitialized
clauses propagate come behind the remaining scopes. -/
structure Popped (s : solver) (n : Nat) (s' : solver) : Prop where
  frame : PopFrame s s'
  scope_lvl : s'.scope_lvl = s.scope_lvl - n
  stays : ∀ m ∈ s.m_trail, s.lvl m.var ≤ s.scope_lvl - n → m ∈ s'.m_trail ∧ s'.lvl m.var = s.lvl m.var
  early : ∀ sc ∈ s'.m_scopes, ∀ m ∈ s'.m_trail.take sc.m_trail_lim, m ∈ s.m_trail ∧ s.lvl m.var ≤ s.scope_lvl - n

/-- A conflict is dropped with the scopes, so that only one that stays has to be sound. -/
theorem BaseInv.pop_spec {n : Nat} (h : s.BaseInv F G)
    (hconf : s.scope_lvl - n < s.scope_lvl ∨ (s.m_inconsistent → s.ConflictInv F)) :
    (s.pop n).Inv F G ∧ Popped s n (s.pop n) := by
  cases hsc : s.m_scopes[s.scope_lvl - n]? with
  | none =>
    obtain ⟨heq, hlvl⟩ := pop_none hsc
    rw [heq]
    refine ⟨⟨h, hconf.resolve_left (by omega)⟩, rfl, hlvl.symm, fun m hm _ => ⟨hm, rfl⟩, fun sc _ m hm => ?_⟩
    have hmem := mem_of_mem_take hm
    exact ⟨hmem, (h.visit.trail.level_le m hmem).trans hlvl.ge⟩
  | some sc =>
    set k := s.scope_lvl - n
    set s1 := s.unwind sc k
    have hpop : s.pop n = s1.reinit_clauses sc.m_clauses_to_reinit_lim := by
      simp only [pop]
      rw [show s.m_scopes[s.scope_lvl - n]? = some sc from hsc]
    have hsearch : s1.SearchInv F G s.m_watches fun _ => [] := ⟨h.visit.unwind hsc, by simp [s1, unwind, unassign_vars]⟩
    obtain ⟨h1, h2, h3, h4, h5⟩ := reinit_loop_spec (s1.m_clauses_to_reinit.drop sc.m_clauses_to_reinit_lim)
      [] s1 s.m_watches hsearch fun cw hcw => h.reinit cw (mem_of_mem_drop hcw)
    rw [hpop]
    unfold reinit_clauses
    generalize reinit_loop [] s1 (s1.m_clauses_to_reinit.drop sc.m_clauses_to_reinit_lim) = r at h1 h2 h3 h4 h5
    obtain ⟨s2, kept⟩ := r
    simp only at h1 h2 h3 h4 h5 ⊢
    have hwatch : s2.m_watches = s.m_watches := h4
    have hframe : PopFrame s { s2 with
        m_clauses_to_reinit := s1.m_clauses_to_reinit.take sc.m_clauses_to_reinit_lim ++ kept } :=
      ((show PopFrame s s1 from rfl).trans h2.frame.popFrame).trans rfl
    have hs2 : s2.m_scopes = s1.m_scopes := by rw [show s2 = _ from h2.frame]
    have htrail := fun m => mem_unwind_trail (m := m) (h.visit.trail.level_lim _ sc hsc)
    refine ⟨h.of_popFrame hframe ⟨?_, ?_⟩ fun cw hcw => ?_, hframe, ?_, fun m hm hle => ?_, fun sci hsci m hm => ?_⟩
    · rw [show ({ s2 with m_clauses_to_reinit := _ } : solver).m_watches = s.m_watches from hwatch]
      exact h1.visit.congr ⟨rfl, rfl, rfl, rfl, rfl, rfl, rfl, rfl, rfl, rfl⟩ id
    · intro hinc
      obtain ⟨c1, c2, c3, c4, c5⟩ := h1.conflict hinc
      exact ⟨c1, c2, c3, c4, c5⟩
    · have hmem : cw ∈ s.m_clauses_to_reinit := by
        rcases mem_append.mp hcw with hcw | hcw
        · exact mem_of_mem_take hcw
        · exact mem_of_mem_drop (h5 cw hcw)
      simpa only [hwatch] using h.reinit cw hmem
    · show s2.m_scopes.length = k
      rw [hs2]
      exact length_take_of_le (List.getElem?_eq_some_iff.mp hsc).1.le
    · have hmem := (htrail m).mpr ⟨hm, hle⟩
      exact ⟨h3.trail.subset hmem, h3.level m hmem⟩
    · obtain ⟨rest, hrest⟩ := h3.trail
      have hlim := hsearch.visit.trail.lim_le_length (hs2 ▸ hsci)
      rw [← show s1.m_trail ++ rest = s2.m_trail from hrest, take_append_of_le_length hlim] at hm
      exact (htrail m).mp (mem_of_mem_take hm)

theorem Inv.push (h : s.Inv F G) (hq : s.m_qhead = s.m_trail.length) (hcons : s.m_inconsistent = false) :
    s.push.Inv F G :=
  h.of_popFrame rfl ⟨h.visit.push hq hcons, by simp [solver.push, hcons]⟩ h.reinit

theorem Inv.assign (h : s.Inv F G) {j : justification} (ha : s.Assignable F G s.m_watches l j)
    (hnone : s.value l = .l_false → j.get_kind = .NONE → j.level = 0 ∨ s.tracking_assumptions ∧ s.scope_lvl ≤ 1)
    (hlower : s.value l = .l_true → j.level = 0 → s.lvl l.var ≠ 0 → j = .none 0 ∧ ¬ G) : (s.assign l j).Inv F G :=
  h.of_visitFrame assign_frame assign_watches (h.toSearchInv.assign ha hnone hlower)

/-- A decision, an assumption or any other literal without a justification. -/
theorem assignable_none (hl : l.var < s.m_num_vars) (hlvl : 0 < s.scope_lvl) :
    s.Assignable F G W l (.none s.scope_lvl) :=
  ⟨hl, le_rfl, .inl rfl, fun hzero => absurd hzero hlvl.ne', by simp [justification.none], by simp [justification.none]⟩

/-- An unassigned literal may be assigned without a justification above the base level. -/
theorem Inv.assign_scoped (h : s.Inv F G) (hl : l.var < s.m_num_vars) (hlvl : 0 < s.scope_lvl)
    (hvalue : s.value l ≠ .l_false ∨ s.tracking_assumptions ∧ s.scope_lvl ≤ 1) : (s.assign_scoped l).Inv F G :=
  h.assign (assignable_none hl hlvl) (fun hfalse _ => .inr (hvalue.resolve_left fun hne => hne hfalse))
    fun _ hzero => absurd hzero hlvl.ne'

/-- The loop over the assumptions, in the scope that has been opened for them. -/
theorem assign_all_scoped_spec (lits : List literal) (s : solver) (h : s.Inv F G)
    (htrack : s.tracking_assumptions) (hlvl : s.scope_lvl = 1) (hlits : ∀ l ∈ lits, l.var < s.m_num_vars) :
    (s.assign_all_scoped lits).Inv F G ∧ PropFrame s (s.assign_all_scoped lits) := by
  induction lits generalizing s with
  | nil => exact ⟨h, rfl⟩
  | cons l lits ih =>
    unfold assign_all_scoped
    by_cases hinc : s.m_inconsistent
    · rw [if_pos hinc]
      exact ⟨h, rfl⟩
    · rw [if_neg hinc]
      have hframe : PropFrame s (s.assign_scoped l) := assign_frame.frame
      have h1 := h.assign_scoped (hlits l (by simp)) (by omega) (.inr ⟨htrack, hlvl.le⟩)
      obtain ⟨h2, h3⟩ := ih (s.assign_scoped l) h1 (by rw [hframe]; exact htrack)
        (by rw [hframe]; exact hlvl) (by rw [hframe]; exact fun m hm => hlits m (by simp [hm]))
      exact ⟨h2, hframe.trans h3⟩

/-- The assumptions are assigned again after backtracking to the base level. -/
theorem Inv.reinit_assumptions_spec (h : s.Inv F G) : ∃ s', s.reinit_assumptions = some s' ∧
    s'.Inv F G ∧ PopFrame s s' ∧ (0 < s.scope_lvl ∨ s.tracking_assumptions = false → s' = s) := by
  unfold reinit_assumptions
  split
  · rename_i hc
    obtain ⟨htrack, hbase, -⟩ := hc
    have hbase : s.scope_lvl = 0 := by simpa [at_base_lvl] using hbase
    have hskip : ∀ s' : solver, 0 < s.scope_lvl ∨ s.tracking_assumptions = false → s' = s := by
      rintro s' (hlvl | hfree)
      · omega
      · simp [htrack] at hfree
    obtain ⟨s1, b, hrun, h1, hframe, -, hb, hq⟩ := propagate_spec h
    rw [hrun]
    cases b with
    | false => exact ⟨s1, rfl, h1, hframe.popFrame, hskip s1⟩
    | true =>
      have hpush := h1.push (hq rfl) (by simpa using hb)
      have hlvl : s1.push.scope_lvl = 1 := by
        have : s1.m_scopes = s.m_scopes := by rw [hframe]
        simpa [scope_lvl, solver.push, this] using hbase
      have hlits : ∀ l ∈ s1.m_user_scope_literals.map (~~~·) ++ s1.m_assumptions, l.var < s1.m_num_vars := by
        intro l hl
        rcases mem_append.mp hl with hl | hl
        · obtain ⟨m, hm, rfl⟩ := mem_map.mp hl
          exact h1.assumptions m (mem_append_left _ hm)
        · exact h1.assumptions l (mem_append_right _ hl)
      obtain ⟨h2, hframe2⟩ := assign_all_scoped_spec _ s1.push hpush
        (by rw [show s1.push.tracking_assumptions = s1.tracking_assumptions from rfl, hframe]; exact htrack) hlvl hlits
      have hpf : PopFrame s (s1.push.assign_all_scoped (s1.m_user_scope_literals.map (~~~·) ++ s1.m_assumptions)) :=
        (hframe.popFrame.trans (show PopFrame s1 s1.push from rfl)).trans hframe2.popFrame
      dsimp only
      split
      · exact ⟨_, rfl, h2, hpf, hskip _⟩
      · obtain ⟨s3, b3, hrun3, h3, hframe3, -⟩ := propagate_spec h2
        exact ⟨s3, by rw [hrun3]; rfl, h3, hpf.trans hframe3.popFrame, hskip s3⟩
  · exact ⟨s, rfl, h, rfl, fun _ => rfl⟩

theorem BaseInv.pop_reinit_spec {n : Nat} (h : s.BaseInv F G)
    (hconf : s.scope_lvl - n < s.scope_lvl ∨ (s.m_inconsistent → s.ConflictInv F)) : ∃ s', s.pop_reinit n = some s' ∧
    s'.Inv F G ∧ PopFrame s s' ∧ (0 < s.scope_lvl - n ∨ s.tracking_assumptions = false → s' = s.pop n) := by
  obtain ⟨h1, hpop⟩ := h.pop_spec hconf
  obtain ⟨s', hs', h2, hframe, hskip⟩ := h1.reinit_assumptions_spec
  refine ⟨s', hs', h2, hpop.frame.trans hframe, fun hc => hskip ?_⟩
  rw [hpop.scope_lvl]
  exact hc.imp_right fun hfree => by rwa [hpop.frame]

end sat.solver
