import BooledASS.Sat.Invariant.Assign

open Cnf List Option

namespace sat.solver

/-- What the search does not change outside of conflict analysis: the variables, the assumptions and the
marks. -/
def SearchFrame (s s' : solver) : Prop :=
  s' = { s with
    m_assignment := s'.m_assignment, m_justification := s'.m_justification, m_trail := s'.m_trail
    m_qhead := s'.m_qhead, m_scopes := s'.m_scopes, m_inconsistent := s'.m_inconsistent
    m_conflict := s'.m_conflict, m_not_l := s'.m_not_l, m_cls := s'.m_cls, m_next_off := s'.m_next_off
    m_clauses := s'.m_clauses, m_learned := s'.m_learned, m_watches := s'.m_watches
    m_clauses_to_reinit := s'.m_clauses_to_reinit, m_lemma := s'.m_lemma }

variable {s s' : solver}

theorem SearchFrame.trans {s1 s2 : solver} (h : SearchFrame s s1) (h' : SearchFrame s1 s2) : SearchFrame s s2 := by
  unfold SearchFrame at *
  rw [h']
  rw [h]

theorem SearchFrame.marksClear (h : SearchFrame s s') (hs : s.MarksClear) : s'.MarksClear := by
  rw [h]
  exact ⟨hs.mark, hs.lit_mark, hs.unmark⟩

theorem SearchFrame.tracking_assumptions (h : SearchFrame s s') : s'.tracking_assumptions = s.tracking_assumptions := by
  rw [h]
  rfl

theorem SearchFrame.num_vars (h : SearchFrame s s') : s'.m_num_vars = s.m_num_vars := by rw [h]

/-- Adding clauses and propagating leaves the scopes alone and only appends to the trail. -/
structure Grown (s s' : solver) : Prop where
  frame : SearchFrame s s'
  trail : s.m_trail <+: s'.m_trail
  scopes : s'.m_scopes = s.m_scopes

theorem Grown.refl (s : solver) : Grown s s := ⟨rfl, prefix_refl _, rfl⟩

theorem Grown.trans {s1 s2 : solver} (h : Grown s s1) (h' : Grown s1 s2) : Grown s s2 :=
  ⟨h.frame.trans h'.frame, h.trail.trans h'.trail, h'.scopes.trans h.scopes⟩

theorem VisitFrame.grown (h : VisitFrame s s') : Grown s s' := by
  have hframe : SearchFrame s s' := by
    unfold SearchFrame
    rw [h.frame]
  exact ⟨hframe, h.trail, by rw [h.frame]⟩

theorem TrailOk.congr (h : s.TrailOk) (hassign : s'.m_assignment = s.m_assignment) (htrail : s'.m_trail = s.m_trail) :
    s'.TrailOk where
  nodup := htrail ▸ h.nodup
  value_true l := by rw [htrail, ← h.value_true, value, hassign, value]

/-- Attaching clauses appends to the trail and leaves the propagation queue alone. -/
structure Appended (s s' : solver) : Prop where
  trail : s.m_trail <+: s'.m_trail
  qhead : s'.m_qhead = s.m_qhead
  ok : s.TrailOk → s'.TrailOk

theorem Appended.of_eq (hassign : s'.m_assignment = s.m_assignment) (htrail : s'.m_trail = s.m_trail)
    (hqhead : s'.m_qhead = s.m_qhead) : Appended s s' :=
  ⟨htrail ▸ prefix_refl _, hqhead, fun h => h.congr hassign htrail⟩

theorem Appended.trans {s1 s2 : solver} (h : Appended s s1) (h' : Appended s1 s2) : Appended s s2 :=
  ⟨h.trail.trans h'.trail, h'.qhead.trans h.qhead, fun hok => h'.ok (h.ok hok)⟩

structure Attached (s s' : solver) : Prop extends Grown s s', Appended s s'

theorem Attached.of_eq (hframe : SearchFrame s s') (hscopes : s'.m_scopes = s.m_scopes)
    (h : Appended s s') : Attached s s' := ⟨⟨hframe, h.trail, hscopes⟩, h.qhead, h.ok⟩

theorem Attached.refl (s : solver) : Attached s s := .of_eq rfl rfl (.of_eq rfl rfl rfl)

theorem Attached.trans {s1 s2 : solver} (h : Attached s s1) (h' : Attached s1 s2) : Attached s s2 :=
  .of_eq (h.frame.trans h'.frame) (h'.scopes.trans h.scopes) (h.toAppended.trans h'.toAppended)

theorem assign_attached (l : literal) (j : justification) : Attached s (s.assign l j) := by
  have hgrown : Grown s (s.assign l j) := assign_frame.grown
  refine .of_eq hgrown.frame hgrown.scopes ?_
  unfold assign set_conflict update_assign
  split
  · split <;> exact .of_eq rfl rfl rfl
  · exact ⟨prefix_append _ _, rfl, fun h => h.assign_core ‹_›⟩
  · split <;> exact .of_eq rfl rfl rfl

theorem assign_grown (l : literal) (j : justification) : Grown s (s.assign l j) := (assign_attached l j).toGrown

theorem propagate_bin_clause_attached (l1 l2 : literal) : Attached s (s.propagate_bin_clause l1 l2).1 := by
  fun_cases propagate_bin_clause s l1 l2 with
  | case1 | case2 => exact assign_attached _ _
  | case3 => exact .refl s

theorem mk_bin_clause_grown (l1 l2 : literal) (redundant : Bool) : Grown s (s.mk_bin_clause l1 l2 redundant) := by
  have hp := (propagate_bin_clause_attached (s := s) l1 l2).toGrown
  have hpush : ∀ s1 : solver, Grown s1 (s1.push_reinit_stack_bin l1 l2) := fun _ => ⟨rfl, prefix_refl _, rfl⟩
  have hwatch : ∀ s1 : solver, Grown s1 (s1.watch_bin_clause l1 l2 redundant) := fun _ => ⟨rfl, prefix_refl _, rfl⟩
  fun_cases mk_bin_clause s l1 l2 redundant with
  | case1 | case2 => exact assign_grown _ _
  | case3 | case4 => exact hp.trans (hpush _)
  | case5 | case6 => exact hp
  | case7 | case8 => exact (hp.trans (hpush _)).trans (hwatch _)
  | case9 => exact hp.trans (hwatch _)

theorem attach_nary_clause_attached (off : clause_offset) (is_asserting : Bool) :
    Attached s (s.attach_nary_clause off is_asserting).1 := by
  have hwatch : ∀ s1 : solver, Attached s1 (s1.watch_nary_clause off) := fun _ => .of_eq rfl rfl (.of_eq rfl rfl rfl)
  have hselect : Attached s (s.attach_select off is_asserting) := by
    unfold attach_select
    split <;> exact .of_eq rfl rfl (.of_eq rfl rfl rfl)
  have hprop : ∀ s1 : solver, Attached s1 (s1.attach_propagate off).1 := fun s1 => by
    fun_cases attach_propagate s1 off with
    | case1 | case2 => exact assign_attached _ _
    | case3 => exact .refl s1
  unfold attach_nary_clause
  split
  · exact hwatch s
  · exact (hselect.trans (hprop _)).trans (hwatch _)

/-- A new clause may propagate a literal or be in conflict, but no scope is opened or closed. -/
theorem mk_nary_clause_grown (lits : List literal) (redundant : Bool) : Grown s (s.mk_nary_clause lits redundant) := by
  have halloc : Grown s (s.alloc_clause lits redundant).1 := ⟨rfl, prefix_refl _, rfl⟩
  have hattach := halloc.trans (attach_nary_clause_attached (s.alloc_clause lits redundant).2 redundant).toGrown
  have hpush : ∀ s1 : solver, Grown s1 (s1.push_reinit_stack (s.alloc_clause lits redundant).2) :=
    fun _ => ⟨rfl, prefix_refl _, rfl⟩
  unfold mk_nary_clause
  have hstack := fun b : Bool => show Grown s (if b then
      ((s.alloc_clause lits redundant).1.attach_nary_clause (s.alloc_clause lits redundant).2
        redundant).1.push_reinit_stack (s.alloc_clause lits redundant).2
      else ((s.alloc_clause lits redundant).1.attach_nary_clause (s.alloc_clause lits redundant).2 redundant).1) by
    split
    · exact hattach.trans (hpush _)
    · exact hattach
  split
  · exact (hstack _).trans ⟨rfl, prefix_refl _, rfl⟩
  · exact (hstack _).trans ⟨rfl, prefix_refl _, rfl⟩

theorem add_clause_grown (lits : List literal) (redundant : Bool) : Grown s (s.add_clause lits redundant) := by
  match lits with
  | [] => exact (set_conflict_frame _ _).grown
  | [l] => exact assign_grown _ _
  | [l1, l2] => exact mk_bin_clause_grown l1 l2 redundant
  | l1 :: l2 :: l3 :: rest => exact mk_nary_clause_grown _ _

theorem mk_clause_core_grown (lits : List literal) (redundant : Bool) : Grown s (s.mk_clause_core lits redundant) := by
  fun_cases mk_clause_core s lits redundant with
  | case1 | case3 => exact add_clause_grown _ _
  | case2 => exact .refl s

theorem propagate_literal_binary {l m l2 : literal} {b : Bool} (hmem : .BINARY l2 b ∈ s.m_watches m) :
    .BINARY l2 b ∈ (s.propagate_literal l).1.m_watches m := by
  unfold propagate_literal
  dsimp only
  by_cases hm : m = l
  · subst hm
    rw [Function.update_self]
    exact visit_watches_binary _ _ _ hmem
  · rw [Function.update_of_ne hm]
    exact (visit_watches_frame _ _ _).grow _ _ hmem

/-- Propagation keeps every binary clause, in any state. -/
theorem propagate_loop_binary (fuel : Nat) (s : solver) {r : solver × Bool} {m l2 : literal} {b : Bool}
    (h : propagate_loop fuel s = some r) (hmem : .BINARY l2 b ∈ s.m_watches m) : .BINARY l2 b ∈ r.1.m_watches m := by
  revert h
  fun_induction propagate_loop fuel s with
  | case1 | case2 => exact fun h => some.inj h ▸ hmem
  | case3 => exact nofun
  | case4 s _ l _ _ _ heq ih =>
    have hlit := propagate_literal_binary (s := { s with m_qhead := s.m_qhead + 1 }) (l := l) hmem
    rw [heq] at hlit
    exact ih hlit
  | case5 s _ l _ _ _ heq =>
    have hlit := propagate_literal_binary (s := { s with m_qhead := s.m_qhead + 1 }) (l := l) hmem
    rw [heq] at hlit
    exact fun h => some.inj h ▸ hlit

theorem propagate_loop_grown (fuel : Nat) (s : solver) {r : solver × Bool}
    (h : propagate_loop fuel s = some r) : Grown s r.1 := by
  have hlit {s s1 : solver} {l : literal} {b : Bool}
      (heq : { s with m_qhead := s.m_qhead + 1 }.propagate_literal l = (s1, b)) :
      Grown s s1 := by
    have hgrown : Grown s ({ s with m_qhead := s.m_qhead + 1 }.propagate_literal l).1 :=
      ((⟨rfl, prefix_refl _, rfl⟩ : Grown s { s with m_qhead := s.m_qhead + 1 }).trans
        (visit_watches_frame _ _ _).grown).trans ⟨rfl, prefix_refl _, rfl⟩
    rwa [heq] at hgrown
  revert h
  fun_induction propagate_loop fuel s with
  | case1 | case2 => exact fun h => some.inj h ▸ .refl _
  | case3 => exact nofun
  | case4 _ _ _ _ _ _ heq ih => exact fun h => (hlit heq).trans (ih h)
  | case5 _ _ _ _ _ _ heq => exact fun h => some.inj h ▸ hlit heq

theorem propagate_grown {r : solver × Bool} (h : s.propagate = some r) : Grown s r.1 := propagate_loop_grown _ s h

theorem reinit_clause_attached (cw : clause_wrapper) : Attached s (s.reinit_clause cw).1 := by
  have hdetach off : Attached s (s.detach_clause off) := .of_eq rfl rfl (.of_eq rfl rfl rfl)
  have hattach off : Attached s ((s.detach_clause off).attach_clause off).1 :=
    (hdetach off).trans (attach_nary_clause_attached _ _)
  fun_cases reinit_clause s cw with
  | case1 | case2 => exact propagate_bin_clause_attached _ _
  | case3 off | case4 off => exact hattach off
  | case5 off => exact (hattach off).trans (.of_eq rfl rfl (.of_eq rfl rfl rfl))

theorem reinit_loop_attached (todo kept : List clause_wrapper) (s : solver) :
    Attached s (reinit_loop kept s todo).1 := by
  induction todo generalizing kept s with
  | nil => exact .refl s
  | cons cw todo ih => exact (reinit_clause_attached cw).trans (ih _ _)

theorem pop_searchFrame (n : Nat) : SearchFrame s (s.pop n) := by
  unfold pop
  dsimp only
  split
  · rfl
  · rename_i sc _
    have hunwind : SearchFrame s (s.unwind sc (s.scope_lvl - n)) := rfl
    exact (hunwind.trans (reinit_loop_attached _ _ _).frame).trans rfl

theorem assign_all_scoped_grown (lits : List literal) (s : solver) : Grown s (s.assign_all_scoped lits) := by
  fun_induction assign_all_scoped s lits with
  | case1 | case2 => exact .refl _
  | case3 _ _ _ _ ih => exact (assign_grown _ _).trans ih

/-- Backtracking and the reinitialization of clauses after it. -/
theorem pop_reinit_searchFrame {n : Nat} (h : s.pop_reinit n = some s') : SearchFrame s s' := by
  refine (pop_searchFrame n).trans ?_
  revert h
  unfold pop_reinit
  have hpush {s1 : solver} {b : Bool} {lits : List literal} (heq : (s.pop n).propagate = some (s1, b)) :
      SearchFrame (s.pop n) (s1.push.assign_all_scoped lits) :=
    ((propagate_grown heq).frame.trans (show SearchFrame s1 s1.push from rfl)).trans
      (assign_all_scoped_grown lits s1.push).frame
  fun_cases reinit_assumptions (s.pop n) with
  | case1 => exact nofun
  | case2 _ s1 heq => exact fun h => some.inj h ▸ (propagate_grown heq).frame
  | case3 _ s1 heq => exact fun h => some.inj h ▸ hpush heq
  | case4 _ s1 heq =>
    intro h
    obtain ⟨r, hr, rfl⟩ := map_eq_some_iff.mp h
    exact (hpush heq).trans (propagate_grown hr).frame
  | case5 => exact fun h => some.inj h ▸ rfl

/-- Backtracking and adding the lemma leave the variables, assumptions and marks alone. -/
theorem backjump_and_learn_searchFrame (h : s.backjump_and_learn = some s') : SearchFrame s s' := by
  unfold backjump_and_learn at h
  split at h
  · obtain ⟨s1, hs1, rfl⟩ := map_eq_some_iff.mp h
    exact (pop_reinit_searchFrame hs1).trans (mk_clause_core_grown _ _).frame
  · rename_i l0 rest _
    obtain ⟨s1, hs1, rfl⟩ := map_eq_some_iff.mp h
    have hback : SearchFrame s s1 := by
      unfold backjump at hs1
      dsimp only at hs1
      split at hs1 <;> exact pop_reinit_searchFrame hs1
    exact (hback.trans (mk_clause_core_grown _ _).frame).trans rfl

end sat.solver
