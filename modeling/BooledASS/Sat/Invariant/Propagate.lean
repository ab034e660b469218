import BooledASS.Sat.Invariant.VisitWatch

open Cnf List Function

namespace sat.solver

/-- The assignment, the clauses with the watch lists `W` and the current conflict fit together. -/
structure SearchInv (s : solver) (F : Set (List literal)) (G : Prop) (W todo : literal → List watched) :
    Prop where
  visit : s.VisitInv F G W todo
  conflict : s.m_inconsistent → s.ConflictInv F

/-- The invariant of the search but for the conflict. Clauses are only reinitialized when they are binary:
input clauses are added at the base level and variables do not belong to a scope. -/
structure BaseInv (s : solver) (F : Set (List literal)) (G : Prop) : Prop where
  visit : s.VisitInv F G s.m_watches fun _ => []
  reinit : ∀ cw ∈ s.m_clauses_to_reinit, ∃ l1 l2 b, cw = .bin l1 l2 ∧ .BINARY l2 b ∈ s.m_watches (~~~l1)
  var_scope : ∀ v, s.m_var_scope v = 0
  clear : s.MarksClear
  cached : ∀ l, ∀ l2 ∈ (s.m_cached_bins (~~~l)).getD [], Entails F [l, l2] ∧ l2 ≠ ~~~l
  assumptions : ∀ l ∈ s.m_user_scope_literals ++ s.m_assumptions, l.var < s.m_num_vars
  free : G → s.tracking_assumptions = false

/-- The invariant of the search. -/
structure Inv (s : solver) (F : Set (List literal)) (G : Prop) : Prop extends s.BaseInv F G where
  conflict : s.m_inconsistent → s.ConflictInv F

variable {s : solver} {F : Set (List literal)} {G : Prop} {l : literal} {cl : Nat}

theorem Inv.toSearchInv (h : s.Inv F G) : s.SearchInv F G s.m_watches fun _ => [] := ⟨h.visit, h.conflict⟩

/-- The state after the whole watch list of `l`: `ws` is to be written back. -/
def ListVisited (F : Set (List literal)) (G : Prop) (l : literal) (cl : Nat) : solver × List watched × Bool → Prop
  | (s, ws, true) => s.Visiting F G l cl ws []
  | (s, ws, false) => s.m_inconsistent ∧ s.ConflictInv F ∧ s.VisitInv F G (Function.update s.m_watches l ws) fun _ => []

/-- The loop over a watch list. -/
theorem visit_watches_spec (todo kept : List watched) (s : solver) (h : s.Visiting F G l cl kept todo) :
    ListVisited F G l cl (visit_watches l cl kept s todo) ∧ VisitFrame s (visit_watches l cl kept s todo).1 ∧
      ∀ l2 b, .BINARY l2 b ∈ kept ++ todo → .BINARY l2 b ∈ (visit_watches l cl kept s todo).2.1 := by
  refine ⟨?_, visit_watches_frame todo kept s, fun _ _ => visit_watches_binary todo kept s⟩
  induction todo generalizing kept s with
  | nil => exact h
  | cons w todo ih =>
    have hspec := visit_watch_spec h
    rw [h.level] at hspec
    unfold visit_watches
    generalize hres : s.visit_watch l cl w = r at hspec
    obtain ⟨s', v⟩ := r
    cases v with
    | keep w' => exact ih (kept ++ [w']) s' hspec
    | drop => exact ih kept s' hspec
    | conflict => exact hspec

/-- Taking the next literal off the queue: all of its watches are to be visited. -/
theorem Inv.visiting (h : s.Inv F G) (hcons : s.m_inconsistent = false) (hl : s.m_trail[s.m_qhead]? = some l) :
    { s with m_qhead := s.m_qhead + 1 }.Visiting F G l (s.lvl l.var) [] (s.m_watches l) := by
  obtain ⟨hlt, hget⟩ := List.getElem?_eq_some_iff.mp hl
  have ht := h.visit.trail
  have htake : s.m_trail.take (s.m_qhead + 1) = s.m_trail.take s.m_qhead ++ [l] := by
    rw [take_add_one, hl]
    rfl
  refine ⟨⟨?_, ?_, fun hG n k hb => ?_⟩, hcons, rfl, ?_, fun sc hsc => ?_⟩
  · exact ⟨⟨ht.nodup, ht.value_true⟩, ht.bounded, fun sc hsc => Nat.le_succ_of_le (ht.lim_le sc hsc), ht.lim_sorted,
      hlt, ht.level_le, ht.level_lim, ht.unit, fun pre m post htrail => (ht.reasons pre m post htrail).congr rfl rfl⟩
  · rw [nil_append, update_eq_self]
    have hdb := h.visit.db
    refine { hdb with clause_ok := fun off hoff => ?_ }
    exact { hdb.clause_ok off hoff with }
  · rw [nil_append, update_eq_self]
    rcases hb with ⟨sc, hsc, rfl⟩ | ⟨_, rfl, rfl⟩
    · have hg := h.visit.guard hG sc.m_trail_lim k (.inl ⟨sc, hsc, rfl⟩)
      refine ⟨fun m l2 b hm htm => ?_, fun off hoff w hw htm => ?_⟩
      · exact (hg.bin m l2 b hm htm).imp_left fun hmem => by cases hmem
      · exact (hg.cls off hoff w hw htm).imp_left fun ⟨_, hmem⟩ => by cases hmem
    · have hg := h.visit.guard hG s.m_qhead s.scope_lvl (.inr ⟨hcons, rfl, rfl⟩)
      refine ⟨fun m l2 b hm htm => ?_, fun off hoff w hw htm => ?_⟩
      · rw [show ({ s with m_qhead := s.m_qhead + 1 } : solver).m_trail = s.m_trail from rfl, htake] at htm
        rcases mem_append.mp htm with htm | htm
        · exact (hg.bin m l2 b hm htm).imp_left fun hmem => by cases hmem
        · obtain rfl : m = l := by simpa using htm
          exact .inl (by simpa using hm)
      · rw [show ({ s with m_qhead := s.m_qhead + 1 } : solver).m_trail = s.m_trail from rfl, htake] at htm
        rcases mem_append.mp htm with htm | htm
        · exact (hg.cls off hoff w hw htm).imp_left fun ⟨_, hmem⟩ => by cases hmem
        · have heq : ~~~w = l := by simpa using htm
          obtain ⟨x, hx⟩ := h.visit.db.watched off hoff w hw
          rw [heq] at hx ⊢
          exact .inl ⟨x, by simpa using hx⟩
  · exact htake ▸ mem_append_right _ (by simp)
  · intro hmem
    have hlim := ht.lim_le sc hsc
    obtain ⟨i, hi, hieq⟩ := getElem_of_mem hmem
    rw [length_take] at hi
    rw [getElem_take] at hieq
    have hnodup : s.m_trail.Nodup := .of_map _ ht.nodup
    have : i = s.m_qhead := (List.Nodup.getElem_inj_iff hnodup).mp (hieq.trans hget.symm)
    omega

/-- Binary clauses stay in the watch lists. -/
def BinKept (s s' : solver) : Prop := ∀ m l2 b, .BINARY l2 b ∈ s.m_watches m → .BINARY l2 b ∈ s'.m_watches m

theorem BinKept.trans {s1 s2 : solver} (h : BinKept s s1) (h' : BinKept s1 s2) : BinKept s s2 :=
  fun m l2 b hm => h' m l2 b (h m l2 b hm)

/-- Backtracking changes what propagation changes, the scopes and the reinit stack. -/
def PopFrame (s s' : solver) : Prop :=
  s' = { s with
    m_assignment := s'.m_assignment, m_justification := s'.m_justification, m_trail := s'.m_trail
    m_qhead := s'.m_qhead, m_inconsistent := s'.m_inconsistent, m_conflict := s'.m_conflict
    m_not_l := s'.m_not_l, m_cls := s'.m_cls, m_watches := s'.m_watches, m_scopes := s'.m_scopes
    m_clauses_to_reinit := s'.m_clauses_to_reinit }

theorem PropFrame.popFrame {s' : solver} (h : PropFrame s s') : PopFrame s s' := by
  unfold PopFrame
  rw [h]

/-- The invariant of a state that backtracking leads to. -/
theorem BaseInv.of_popFrame {s' : solver} (h : s.BaseInv F G) (hframe : PopFrame s s')
    (hsearch : s'.SearchInv F G s'.m_watches fun _ => [])
    (hreinit : ∀ cw ∈ s'.m_clauses_to_reinit, ∃ l1 l2 b,
      cw = .bin l1 l2 ∧ .BINARY l2 b ∈ s'.m_watches (~~~l1)) : s'.Inv F G where
  visit := hsearch.visit
  conflict := hsearch.conflict
  reinit := hreinit
  var_scope := by
    rw [hframe]
    exact h.var_scope
  clear := by
    rw [hframe]
    exact { h.clear with }
  cached := by
    rw [hframe]
    exact h.cached
  assumptions := by
    rw [hframe]
    exact h.assumptions
  free hG := by
    rw [hframe]
    exact h.free hG

/-- The part of the invariant that propagation does not touch. -/
theorem Inv.of_propFrame {s' : solver} (h : s.Inv F G) (hframe : PropFrame s s') (hbin : BinKept s s')
    (hvisit : s'.VisitInv F G s'.m_watches fun _ => [])
    (hconf : s'.m_inconsistent → s'.ConflictInv F) : s'.Inv F G := by
  refine h.of_popFrame hframe.popFrame ⟨hvisit, hconf⟩ fun cw hcw => ?_
  rw [show s'.m_clauses_to_reinit = s.m_clauses_to_reinit by rw [hframe]] at hcw
  obtain ⟨l1, l2, b, rfl, hb⟩ := h.reinit cw hcw
  exact ⟨l1, l2, b, rfl, hbin _ _ _ hb⟩

/-- One literal of the queue. Its watch list is visited to the end or to a conflict, and what is left of the list is
written back. -/
theorem propagate_literal_spec (h : s.Inv F G) (hcons : s.m_inconsistent = false)
    (hl : s.m_trail[s.m_qhead]? = some l) :
    let r := { s with m_qhead := s.m_qhead + 1 }.propagate_literal l
    r.1.Inv F G ∧ PropFrame s r.1 ∧ BinKept s r.1 ∧ r.1.m_qhead = s.m_qhead + 1 ∧ r.1.m_inconsistent = !r.2 := by
  set s0 : solver := { s with m_qhead := s.m_qhead + 1 } with hs0
  have hvisiting := h.visiting hcons hl
  obtain ⟨hlist, hframe, hbin⟩ := visit_watches_spec _ _ _ hvisiting
  intro r
  have hr : r = ({ (visit_watches l (s0.lvl l.var) [] s0 (s0.m_watches l)).1 with
      m_watches := update (visit_watches l (s0.lvl l.var) [] s0 (s0.m_watches l)).1.m_watches l
        (visit_watches l (s0.lvl l.var) [] s0 (s0.m_watches l)).2.1 },
      (visit_watches l (s0.lvl l.var) [] s0 (s0.m_watches l)).2.2) := rfl
  change ListVisited F G l _ (visit_watches l (s0.lvl l.var) [] s0 (s0.m_watches l)) at hlist
  change VisitFrame s0 (visit_watches l (s0.lvl l.var) [] s0 (s0.m_watches l)).1 at hframe
  change ∀ l2 b, .BINARY l2 b ∈ [] ++ s0.m_watches l →
    .BINARY l2 b ∈ (visit_watches l (s0.lvl l.var) [] s0 (s0.m_watches l)).2.1 at hbin
  generalize visit_watches l (s0.lvl l.var) [] s0 (s0.m_watches l) = res at hlist hframe hbin hr
  obtain ⟨s1, ws, ok⟩ := res
  have hcore : SameCore s1 { s1 with m_watches := update s1.m_watches l ws } :=
    ⟨rfl, rfl, rfl, rfl, rfl, rfl, rfl, rfl, rfl, rfl⟩
  have hpf : PropFrame s r.1 := by
    have hqhead : PropFrame s s0 := rfl
    rw [hr]
    exact hqhead.trans (hframe.frame.trans rfl)
  have hkept : BinKept s r.1 := by
    rw [hr]
    intro m l2 b hm
    by_cases hml : m = l
    · subst hml
      simpa using hbin l2 b hm
    · simpa [hml] using hframe.grow m _ hm
  refine ⟨?_, hpf, hkept, by rw [hr]; exact hframe.qhead, ?_⟩
  · cases ok with
    | true =>
      refine h.of_propFrame hpf hkept ?_ fun hinc => ?_
      · rw [hr]
        have hinv := hlist.inv
        rw [append_nil, update_eq_self] at hinv
        exact hinv.congr hcore id
      · rw [hr] at hinc
        rw [hlist.consistent] at hinc
        cases hinc
    | false =>
      obtain ⟨hinc, hconf, hinv⟩ := hlist
      refine h.of_propFrame hpf hkept ?_ fun _ => ?_
      · rw [hr]
        exact hinv.congr hcore id
      · rw [hr]
        exact { hconf with }
  · rw [hr]
    cases ok with
    | true => exact hlist.consistent
    | false => exact hlist.1

theorem TrailInv.trail_length_le (h : s.TrailInv F G) : s.m_trail.length ≤ s.m_num_vars := by
  have hsub : s.m_trail.map Lit.var ⊆ List.range s.m_num_vars := fun v hv => by
    obtain ⟨m, hm, rfl⟩ := mem_map.mp hv
    exact mem_range.mpr (h.bounded m hm)
  simpa using (subperm_of_subset h.nodup hsub).length_le

/-- Propagation ends: in a conflict, or with the queue worked off. -/
theorem propagate_loop_spec (fuel : Nat) (s : solver) (h : s.Inv F G) (hfuel : s.m_num_vars < fuel + s.m_qhead) :
    ∃ s' b, propagate_loop fuel s = some (s', b) ∧ s'.Inv F G ∧ PropFrame s s' ∧ BinKept s s' ∧
      s'.m_inconsistent = !b ∧ (b → s'.m_qhead = s'.m_trail.length) := by
  induction fuel generalizing s with
  | zero =>
    have h1 := h.visit.trail.trail_length_le
    have h2 := h.visit.trail.qhead_le
    omega
  | succ fuel ih =>
    unfold propagate_loop
    by_cases hinc : s.m_inconsistent
    · rw [if_pos hinc]
      exact ⟨s, false, rfl, h, rfl, fun _ _ _ => id, by simp [hinc], by simp⟩
    · rw [if_neg hinc]
      have hcons : s.m_inconsistent = false := by simpa using hinc
      cases hl : s.m_trail[s.m_qhead]? with
      | none =>
        refine ⟨s, true, rfl, h, rfl, fun _ _ _ => id, by simp [hcons], fun _ => ?_⟩
        exact le_antisymm h.visit.trail.qhead_le (List.getElem?_eq_none_iff.mp hl)
      | some l =>
        obtain ⟨hinv, hpf, hkept, hq, hb⟩ := propagate_literal_spec h hcons hl
        dsimp only
        generalize { s with m_qhead := s.m_qhead + 1 }.propagate_literal l = r at hinv hpf hkept hq hb ⊢
        obtain ⟨s1, ok⟩ := r
        cases ok with
        | false => exact ⟨s1, false, rfl, hinv, hpf, hkept, hb, by simp⟩
        | true =>
          have hn : s1.m_num_vars = s.m_num_vars := by rw [show s1 = _ from hpf]
          obtain ⟨s', b, hrun, hinv', hpf', hkept', hb', hq'⟩ := ih s1 hinv (by
            simp only at hq
            omega)
          exact ⟨s', b, hrun, hinv', hpf.trans hpf', hkept.trans hkept', hb', hq'⟩

theorem propagate_spec (h : s.Inv F G) : ∃ s' b, s.propagate = some (s', b) ∧
    s'.Inv F G ∧ PropFrame s s' ∧ BinKept s s' ∧ s'.m_inconsistent = !b ∧ (b → s'.m_qhead = s'.m_trail.length) :=
  propagate_loop_spec (s.m_num_vars + 1) s h (by omega)

end sat.solver
