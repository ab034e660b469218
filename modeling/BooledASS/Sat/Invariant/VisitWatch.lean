import BooledASS.Sat.Invariant.Settle

open Cnf List sat.justification

namespace sat.solver

variable {s : solver} {F : Set (List literal)} {G : Prop} {l : literal} {cl : Nat} {kept todo : List watched}
  {off : clause_offset} {b : literal} {rest : List literal}

private theorem watches_swap {m w0 w1 : literal} {others : List literal} (h : Watches m (w0 :: w1 :: rest) others) :
    ∃ others', Watches m (w1 :: w0 :: rest) others' ∧ ∀ x, x ∈ others' ↔ x ∈ others := by
  cases h with
  | first => exact ⟨w1 :: rest, .second _ _, fun _ => Iff.rfl⟩
  | second => exact ⟨w0 :: rest, .first _, fun _ => Iff.rfl⟩

/-- The visited clause once `l` stands in second place, if it is a watch at all. -/
private theorem visit_order (h : s.Visiting F G l cl kept (.CLAUSE b off :: todo)) (hoff : s.Live off) :
    ∃ w0 w1 rest, (s.m_cls off).m_lits = w0 :: w1 :: rest ∧
      let c := if (s.m_cls off).at 0 = ~~~l then (s.m_cls off).swap 0 1 else s.m_cls off
      (c.m_lits = w0 :: w1 :: rest ∧ w0 ≠ ~~~l ∨ c.m_lits = w1 :: w0 :: rest ∧ w0 = ~~~l ∧ w1 ≠ ~~~l) ∧
        c.m_removed = false := by
  have hok := h.inv.db.clause_ok off hoff
  have hlen := hok.two_lt
  obtain ⟨w0, w1, rest, hlits⟩ : ∃ w0 w1 rest, (s.m_cls off).m_lits = w0 :: w1 :: rest := by
    match heq : (s.m_cls off).m_lits with
    | [] => simp [heq] at hlen
    | [_] => simp [heq] at hlen
    | w0 :: w1 :: rest => exact ⟨w0, w1, rest, rfl⟩
  refine ⟨w0, w1, rest, hlits, ?_⟩
  have hat : (s.m_cls off).at 0 = w0 := by simp [clause.at, hlits]
  rw [hat]
  by_cases hw0 : w0 = ~~~l
  · rw [if_pos hw0]
    refine ⟨.inr ⟨?_, hw0, fun hw1 => ?_⟩, hok.removed⟩
    · rw [clause.swap, hlits]
      exact swapAt_zero_one _ _ _
    · have hnodup := hok.nodup
      simp [hlits, hw0, hw1] at hnodup
  · rw [if_neg hw0]
    exact ⟨.inl ⟨hlits, hw0⟩, hok.removed⟩

/-- Exchanging the two watches of a clause. -/
theorem Visiting.reorder {c : clause} (h : s.Visiting F G l cl kept todo) (hoff : s.Live off)
    (hperm : c.m_lits.Perm (s.m_cls off).m_lits) (hremoved : c.m_removed = false)
    (htake : ∀ w, w ∈ c.m_lits.take 2 ↔ w ∈ (s.m_cls off).m_lits.take 2)
    (hwatch : ∀ m ∈ s.m_trail, ∀ others, Watches m (s.m_cls off).m_lits others →
      ∃ others', Watches m c.m_lits others' ∧ ∀ x, x ∈ others' ↔ x ∈ others) :
    (s.set_cls off c).Visiting F G l cl kept todo := { h with
  inv := by
    refine h.inv.update_clause hoff hperm hremoved hwatch (fun _ _ _ => Iff.rfl) (fun _ _ _ => id)
      (fun _ _ _ => .inl) (fun _ _ _ _ => id) (fun _ _ _ _ => id)
      (fun w hw => h.inv.db.watched off hoff w ((htake w).mp hw)) fun hG n k hb w hw hm => ?_
    refine ((h.inv.guard hG n k hb).cls off hoff w ((htake w).mp hw) hm).imp_right ?_
    rintro ⟨t, ht, hrest⟩
    exact ⟨t, hperm.mem_iff.mpr ht, hrest⟩ }

/-- The watch of a clause: a true literal is found, a literal without a value becomes the new watch, or the clause is
a unit or in conflict. A unit gets the highest level of the false literals, and the watch goes to a literal of that
level. -/
theorem visit_clause_spec (h : s.Visiting F G l cl kept (.CLAUSE b off :: todo)) :
    Visited F G l cl kept (.CLAUSE b off) todo (s.visit_clause l (s.lvl l.var) b off) := by
  obtain ⟨hoff, hb⟩ := h.inv.db.watch_ok l b off (mem_update_iff.mpr (.inl ⟨rfl, by simp⟩))
  unfold visit_clause
  by_cases hblocked : s.value b = .l_true
  · rw [if_pos hblocked]
    exact h.keep_same hoff hb fun _ => ⟨b, hb, (h.inv.trail.value_true b).mp hblocked⟩
  · rw [if_neg hblocked]
    obtain ⟨w0, w1, rest, hlits, hc, hremoved⟩ := visit_order h hoff
    generalize (if (s.m_cls off).at 0 = ~~~l then (s.m_cls off).swap 0 1 else s.m_cls off) = c at hc hremoved
    have h1 : (s.set_cls off c).Visiting F G l cl kept (.CLAUSE b off :: todo) := by
      rcases hc with ⟨hc, _⟩ | ⟨hc, _⟩
      · exact h.reorder hoff (by rw [hc, hlits]) hremoved (fun w => by rw [hc, hlits])
          fun m _ others hw => ⟨others, by rwa [hc, ← hlits], fun _ => Iff.rfl⟩
      · refine h.reorder hoff (by rw [hc, hlits]; exact List.Perm.swap _ _ _) hremoved (fun w => ?_)
          fun m _ others hw => hc ▸ watches_swap (hlits ▸ hw)
        rw [hc, hlits]
        simp [or_comm]
    have hself : (s.set_cls off c).m_cls off = c := by simp [set_cls]
    obtain ⟨c0, c1, hclits, hc0l⟩ : ∃ c0 c1, c.m_lits = c0 :: c1 :: rest ∧ c0 ≠ ~~~l := by
      rcases hc with ⟨hc, hne⟩ | ⟨hc, _, hne⟩
      · exact ⟨w0, w1, hc, hne⟩
      · exact ⟨w1, w0, hc, hne⟩
    have hb1 : b ∈ ((s.set_cls off c).m_cls off).m_lits :=
      (h1.inv.db.watch_ok l b off (mem_update_iff.mpr (.inl ⟨rfl, by simp⟩))).2
    have hat0 : c.at 0 = c0 := by simp [clause.at, hclits]
    have hat1 : c.at 1 = c1 := by simp [clause.at, hclits]
    simp only [hremoved, clause.size, hclits, length_cons, hat0, hat1, Bool.false_eq_true, false_or,
      drop_succ_cons, drop_zero]
    by_cases hc1 : c1 = ~~~l
    · rw [if_neg (by simp [hc1])]
      by_cases htrue : (s.set_cls off c).value c0 = .l_true
      · rw [if_pos htrue]
        refine h1.keep_same hoff (by rw [hself, hclits]; simp) fun _ => ⟨c0, by rw [hself, hclits]; simp, ?_⟩
        exact (h1.inv.trail.value_true c0).mp htrue
      · rw [if_neg htrue]
        have hscan := scan_clause_spec (s := s.set_cls off c) rest []
          ⟨0, s.lvl l.var, 1, 0⟩ ⟨le_rfl, by simp, .inl ⟨rfl, rfl⟩, by simp, by simp⟩
        rw [length_nil, Nat.zero_add] at hscan
        cases hres : (s.set_cls off c).scan_clause rest 2 ⟨0, s.lvl l.var, 1, 0⟩ with
        | error lit =>
          rw [hres] at hscan
          have hlit : lit ∈ ((s.set_cls off c).m_cls off).m_lits := by
            rw [hself, hclits]
            simp [hscan.1]
          exact h1.keep_same hoff hlit fun _ => ⟨lit, hlit, (h1.inv.trail.value_true lit).mp hscan.2⟩
        | ok v =>
          rw [hres] at hscan
          obtain ⟨seen, hpre, hv, hend⟩ := hscan
          exact settle_clause_spec h1 hoff hb1 (by rw [hself, hclits, hc1]) htrue hv hpre hend
    · rw [if_pos (.inr hc1)]
      refine h1.keep_same hoff hb1 fun hmem => ?_
      rw [hself, hclits] at hmem
      simp only [take_succ_cons, take_zero, mem_cons, not_mem_nil, or_false] at hmem
      rcases hmem with hmem | hmem
      · exact absurd hmem.symm hc0l
      · exact absurd hmem.symm hc1

/-- The visit of any watch, binary or of a clause. -/
theorem visit_watch_spec {w : watched} (h : s.Visiting F G l cl kept (w :: todo)) :
    Visited F G l cl kept w todo (s.visit_watch l (s.lvl l.var) w) := by
  cases w with
  | CLAUSE b off => exact visit_clause_spec h
  | BINARY l1 learned =>
    have hin : watched.BINARY l1 learned ∈ Function.update s.m_watches l (kept ++ .BINARY l1 learned :: todo) l :=
      mem_update_iff.mpr (.inl ⟨rfl, by simp⟩)
    obtain ⟨hvar, hbound, hF⟩ := h.inv.db.bin_ok l l1 learned hin
    have hl := h.mem_trail
    simp only [visit_watch]
    cases hval : s.value l1 with
    | l_true => exact h.keep_binary ((h.inv.trail.value_true l1).mp hval)
    | l_undef =>
      have ha := h.inv.assignable_bin (h.inv.db.bin_sym _ _ _ hin)
        (h.inv.trail.toTrailOk.value_false.mpr (by simpa using hl))
      exact (h.assign_core ha hval).keep_binary (by simp)
    | l_false =>
      have hl1 := h.inv.trail.toTrailOk.value_false.mp hval
      refine h.conflict ⟨?_, .inr ?_, by simp [binary], by simp [binary], by simp [binary]⟩
      · simpa [conflict_antecedents, antecedents, binary] using ⟨hl1, hl⟩
      · refine hF.weaken fun x hx => ?_
        simpa [conflict_antecedents, antecedents, binary, or_comm] using hx

/-- Propagation changes the assignment, the order of the literals in clauses and the watch lists. -/
def PropFrame (s s' : solver) : Prop :=
  s' = { s with
    m_assignment := s'.m_assignment, m_justification := s'.m_justification, m_trail := s'.m_trail
    m_qhead := s'.m_qhead, m_inconsistent := s'.m_inconsistent, m_conflict := s'.m_conflict
    m_not_l := s'.m_not_l, m_cls := s'.m_cls, m_watches := s'.m_watches }

variable {s1 s2 : solver} {k : Nat}

theorem PropFrame.trans (h : PropFrame s s1) (h' : PropFrame s1 s2) : PropFrame s s2 := by
  unfold PropFrame at *
  rw [h']
  rw [h]

/-- A visit adds watches to the lists of other literals only. -/
def WatchesGrow (s s' : solver) : Prop := ∀ m w, w ∈ s.m_watches m → w ∈ s'.m_watches m

theorem WatchesGrow.refl (s : solver) : WatchesGrow s s := fun _ _ h => h

theorem WatchesGrow.trans (h : WatchesGrow s s1) (h' : WatchesGrow s1 s2) : WatchesGrow s s2 :=
  fun m w hw => h' m w (h m w hw)

theorem push_watch_grow (m : literal) (w : watched) : WatchesGrow s (s.push_watch m w) := by
  intro m' w' hw'
  by_cases hm : m' = m
  · subst hm
    simp [push_watch, hw']
  · simpa [push_watch, hm] using hw'

/-- What a visit leaves alone. -/
structure VisitFrame (s s' : solver) : Prop where
  frame : PropFrame s s'
  qhead : s'.m_qhead = s.m_qhead
  grow : WatchesGrow s s'
  trail : s.m_trail <+: s'.m_trail

theorem VisitFrame.refl (s : solver) : VisitFrame s s := ⟨rfl, rfl, .refl s, prefix_refl _⟩

theorem VisitFrame.trans (h : VisitFrame s s1) (h' : VisitFrame s1 s2) : VisitFrame s s2 :=
  ⟨h.frame.trans h'.frame, h'.qhead.trans h.qhead, h.grow.trans h'.grow, h.trail.trans h'.trail⟩

theorem set_conflict_frame (j : justification) (not_l : Option literal) : VisitFrame s (s.set_conflict j not_l) := by
  unfold set_conflict
  split
  · exact .refl s
  · exact ⟨rfl, rfl, fun _ _ h => h, prefix_refl _⟩

theorem set_cls_frame (off : clause_offset) (c : clause) : VisitFrame s (s.set_cls off c) :=
  ⟨rfl, rfl, fun _ _ h => h, prefix_refl _⟩

private theorem settle_clause_frame (w : watched) (v : scan_vars) : VisitFrame s (s.settle_clause w off v).1 := by
  have hset : ∀ i, VisitFrame s (s.set_watch i off) := fun i =>
    ⟨rfl, rfl, push_watch_grow (s := s.set_cls off _) _ _, List.prefix_refl _⟩
  have hprop : ∀ (s1 : solver) k, VisitFrame s1 (s1.propagate_clause k off) := fun _ _ =>
    ⟨rfl, rfl, fun _ _ h => h, List.prefix_append _ _⟩
  fun_cases settle_clause s w off v
  case case1 => exact ((hset _).trans (set_cls_frame off _)).trans (hprop _ _)
  case case2 => exact hset _
  case case3 => exact set_conflict_frame _ _
  case case4 => exact (hset _).trans (hprop _ _)
  case case5 => exact hprop _ _

theorem visit_watch_frame (k : Nat) (w : watched) : VisitFrame s (s.visit_watch l k w).1 := by
  cases w with
  | BINARY l1 learned =>
    simp only [visit_watch]
    split
    · exact set_conflict_frame _ _
    · exact ⟨rfl, rfl, fun _ _ h => h, prefix_append _ _⟩
    · exact .refl s
  | CLAUSE b off =>
    rw [visit_watch]
    fun_cases visit_clause s l k b off
    case case1 => exact .refl s
    case case2 | case3 | case4 => exact set_cls_frame off _
    case case5 => exact (set_cls_frame off _).trans (settle_clause_frame _ _)

theorem visit_watches_frame (todo kept : List watched) (s : solver) :
    VisitFrame s (visit_watches l k kept s todo).1 := by
  induction todo generalizing kept s with
  | nil => exact .refl s
  | cons w todo ih =>
    have hvisit := visit_watch_frame (s := s) (l := l) k w
    unfold visit_watches
    generalize s.visit_watch l k w = r at hvisit
    obtain ⟨s1, v⟩ := r
    cases v with
    | keep | drop => exact hvisit.trans (ih _ _)
    | conflict => exact hvisit

theorem visit_watch_binary {s' : solver} {l2 : literal} {b' : Bool} {v : visit}
    (h : s.visit_watch l k (.BINARY l2 b') = (s', v)) : v = .keep (.BINARY l2 b') ∨ v = .conflict := by
  simp only [visit_watch] at h
  split at h <;> simp only [Prod.mk.injEq] at h <;> simp [← h.2]

/-- The visit of a watch list keeps its binary watches. -/
theorem visit_watches_binary {l2 : literal} {b : Bool} (todo kept : List watched) (s : solver)
    (hmem : .BINARY l2 b ∈ kept ++ todo) : .BINARY l2 b ∈ (visit_watches l k kept s todo).2.1 := by
  induction todo generalizing kept s with
  | nil => simpa [visit_watches] using hmem
  | cons w todo ih =>
    unfold visit_watches
    generalize hres : s.visit_watch l k w = r
    obtain ⟨s', v⟩ := r
    cases v with
    | keep | drop =>
      refine ih _ s' ?_
      rcases mem_append.mp hmem with hmem | hmem
      · simp [hmem]
      · rcases mem_cons.mp hmem with rfl | hmem
        · rcases visit_watch_binary hres with heq | heq <;> cases heq <;> simp
        · simp [hmem]
    | conflict => exact hmem

end sat.solver
