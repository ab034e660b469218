import BooledASS.Parallel.BatchManager

open List smt.parallel.batch_manager

namespace smt.parallel

open search_tree

/-- A term of the manager of a thread or of the main context. Terms of different managers are different
objects, whatever they say. -/
inductive term (E : Type) where
  | local_ (e : E)
  | global (e : E)
deriving DecidableEq, Repr

/-- `ast_translation` from the manager of the thread to that of the main context. -/
def l2g {E : Type} : term E → term E
  | .local_ e | .global e => .global e

namespace batch_manager

variable {E M : Type} [DecidableEq E] (cfg : config) (b : batch_manager (term E) M)

/-- `publish_minimized_core` with its translations: the literals of the core are translated before they are
looked for among the assumptions of the minimiser. -/
def publish_translated_core (asms : List (term E)) (source : node_ptr) (original_core_size : Nat)
    (minimized_core : List (term E)) : batch_manager (term E) M :=
  if b.m_state ≠ .is_running ∨ minimized_core.length ≥ original_core_size then b
  else
    let g_core := minimized_core.map l2g
    if (b.m_search_tree.core source).length ≤ g_core.length then b
    else if g_core.all (· ∈ asms) then
      cancel_background_threads
        { b with m_state := .is_unsat, m_unsat_core := b.m_unsat_core ++ minimized_core.map l2g }
    else
      let b := b.tree_backtrack g_core source
      let targets := collect_matching_targets_unlocked b.m_search_tree (some source) g_core.head? g_core
      let b := (targets.foldl (backtrack_targets g_core) (true, b)).2
      (b.cancel_closed_leases_unlocked cfg none).set_closed

variable {b} {A : List E}

omit [DecidableEq E] in
/-- A translated literal is never among the assumptions of the thread. -/
theorem l2g_not_mem_local (A : List E) (t : term E) : l2g t ∉ A.map term.local_ := by
  intro h
  obtain ⟨e, -, he⟩ := mem_map.mp h
  cases t <;> cases he

/-- The test for assumptions passes for the empty core only. -/
theorem publish_translated_core_eq (source : node_ptr) (original_core_size : Nat) (minimized_core : List (term E)) :
    b.publish_translated_core cfg (A.map term.local_) source original_core_size minimized_core =
      b.publish_minimized_core cfg source original_core_size (minimized_core.map l2g) := by
  cases minimized_core with
  | nil => simp [publish_translated_core, publish_minimized_core]
  | cons t ts =>
    have htest : (l2g t :: ts.map l2g).all (· ∈ A.map term.local_) = false := by
      rw [all_cons, decide_eq_false (l2g_not_mem_local A t), Bool.false_and]
    have hlength : (l2g t :: ts.map l2g).length = (t :: ts).length := by simp
    simp only [publish_translated_core, publish_minimized_core, map_cons, htest, hlength, Bool.false_eq_true,
      if_false, List.head?_cons]

end batch_manager

section Unreachable

variable {E M : Type} [DecidableEq E] {b : batch_manager E M} {conflict : List E}

/-- A conflict without a literal of the path is carried past the root. -/
theorem conflict_node_eq_none (t : tree E) {n : node_ptr} (hpath : ∀ a ∈ conflict, t.path_contains a n = false) :
    t.conflict_node conflict n = none := by
  induction n with
  | nil =>
    rw [tree.conflict_node, if_neg]
    simp only [any_eq_true, decide_eq_true_eq, not_exists, not_and]
    intro a ha heq
    simpa [tree.path_contains, heq] using hpath a ha
  | cons turn n ih =>
    rw [tree.conflict_node, if_neg]
    · refine ih fun a ha => ?_
      have h := hpath a ha
      rw [tree.path_contains, Bool.or_eq_false_iff] at h
      exact h.2
    · simp only [any_eq_true, decide_eq_true_eq, not_exists, not_and]
      intro a ha heq
      simpa [tree.path_contains, heq] using hpath a ha

theorem tree_backtrack_unreachable (hconflict : conflict ≠ []) {n : node_ptr} {d : node_data E}
    (hn : b.m_search_tree.get n = some d) (hpath : ∀ a ∈ conflict, b.m_search_tree.path_contains a n = false) :
    (b.tree_backtrack conflict n).unreachable := by
  have hnone : b.m_search_tree.backtrack n conflict = none := by
    simp [tree.backtrack, hn, hconflict, conflict_node_eq_none _ hpath]
  simp only [tree_backtrack, hnone]

/-- The flag stays. -/
theorem unreachable_tree_backtrack (h : b.unreachable) (n : node_ptr) : (b.tree_backtrack conflict n).unreachable := by
  unfold tree_backtrack
  dsimp only
  split
  · rfl
  · exact h

theorem unreachable_backtrack_targets (targets : List node_lease) (acc : Bool × batch_manager E M)
    (h : acc.2.unreachable) : (targets.foldl (backtrack_targets conflict) acc).2.unreachable := by
  induction targets generalizing acc with
  | nil => exact h
  | cons target targets ih =>
    refine ih _ ?_
    unfold backtrack_targets
    split
    · exact h
    · split
      · exact h
      · exact unreachable_tree_backtrack h _

omit [DecidableEq E] in
theorem unreachable_set_closed (h : b.unreachable) (cfg : config) :
    ((b.cancel_closed_leases_unlocked cfg none).set_closed).unreachable := by
  unfold set_closed
  split <;> exact h

end Unreachable

namespace batch_manager

variable {E M : Type} [DecidableEq E]

/-- A minimised core of assumptions, none of which is on the path of its source, is published as it should be only
when it is empty: every other one sends the walk of `backtrack` past the root. -/
theorem publish_assumption_core (cfg : config) (b : batch_manager (term E) M) (A core : List E) (source : node_ptr)
    (original_core_size : Nat) (hrunning : b.m_state = .is_running) (hreach : b.unreachable = false)
    (hreduced : core.length < original_core_size) (hsource : core.length < (b.m_search_tree.core source).length)
    (hpath : ∀ e ∈ core, e ∈ A ∧ b.m_search_tree.path_contains (.global e) source = false) :
    let b' := b.publish_translated_core cfg (A.map .local_) source original_core_size (core.map .local_)
    (b'.m_state = .is_unsat ∧ b'.m_unsat_core = b.m_unsat_core ++ core.map .global ∧ b'.unreachable = false) ↔
      core = [] := by
  have hd : ∃ d, b.m_search_tree.get source = some d := by
    cases hget : b.m_search_tree.get source with
    | none => simp [tree.core, hget] at hsource
    | some d => exact ⟨d, rfl⟩
  obtain ⟨d, hd⟩ := hd
  intro b'
  cases core with
  | nil =>
    have hb' : b' = cancel_background_threads { b with m_state := .is_unsat } := by
      simp only [b', publish_translated_core_eq, publish_minimized_core, map_nil, hrunning]
      rw [if_neg (by simp only [ne_eq, not_true_eq_false, false_or]; omega), if_neg (by omega)]
    simp [hb', cancel_background_threads, hreach]
  | cons e es =>
    refine iff_of_false (fun ⟨_, _, h⟩ => ?_) (by simp)
    have hcore : ((e :: es).map term.local_).map l2g = .global e :: es.map .global := by simp [l2g]
    have hlength : (term.global e :: es.map .global).length = (e :: es).length := by simp
    have hback : (b.tree_backtrack (.global e :: es.map .global) source).unreachable := by
      refine tree_backtrack_unreachable (by simp) hd ?_
      rw [← map_cons]
      intro a ha
      obtain ⟨x, hx, rfl⟩ := mem_map.mp ha
      exact (hpath x hx).2
    have hb' : b'.unreachable := by
      simp only [b', publish_translated_core_eq, hcore, publish_minimized_core]
      rw [if_neg (by simp only [hrunning, ne_eq, not_true_eq_false, false_or]; omega), if_neg (by omega)]
      exact unreachable_set_closed (unreachable_backtrack_targets _ _ hback) cfg
    rw [hb'] at h
    cases h

/-- The left child of the root was closed with its own literal 0 and the assumption 1. -/
def closed_left : batch_manager (term Nat) Unit where
  m_search_tree :=
    { m_root :=
        .mk { m_literal := none, m_status := .active }
          (.mk { m_literal := some (.global 0), m_status := .closed, m_core := [.global 0, .global 1] } .null .null)
          (.mk { m_literal := some (.global 2) } .null .null) }

/-- The empty core is published: the tree is closed and the verdict is unsat without a core. -/
theorem publish_assumption_core_empty :
    let b' := closed_left.publish_translated_core { num_workers := 1 } [.local_ 1] [false] 2 []
    b'.m_state = .is_unsat ∧ b'.m_unsat_core = [] ∧ b'.unreachable = false :=
  (publish_assumption_core { num_workers := 1 } closed_left [1] [] [false] 2 rfl rfl (by decide) (by decide)
    (by simp)).mpr rfl

/-- The minimiser finds that the assumption alone is a core. -/
theorem publish_runs_past_the_root :
    let b' := closed_left.publish_translated_core { num_workers := 1 } [.local_ 1] [false] 2 [.local_ 1]
    b'.m_state = .is_running ∧ b'.m_unsat_core = [] ∧ b'.unreachable := by
  decide

end batch_manager

end smt.parallel
