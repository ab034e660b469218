import BooledASS.Parallel.Tactic

open Function Option Machine Interp smt.parallel.batch_manager

namespace parallel_solver

open search_tree tree smt.parallel

variable {E M : Type}

/-- The workers with the limit of the caller, which is the parent of the limits of the workers. -/
structure solving (E M : Type) where
  p : workers E M := init
  m_cancel : Nat := 0

namespace solving

/-- `set_cancel` on the limit of the caller: the counters of the workers are overwritten. -/
def set_cancel (s : solving E M) (f : Nat) : solving E M :=
  { p := { s.p with b.m_cancel := fun _ => f }, m_cancel := f }

def cancel (s : solving E M) : solving E M := s.set_cancel (s.m_cancel + 1)
def reset_cancel (s : solving E M) : solving E M := s.set_cancel 0

/-- The end of `solve`, after the threads are joined. `again` says whether the caller cancels between the reset and
the reading of its limit, and `over_limit` whether its count is above its limit. -/
def result (s : solving E M) (again over_limit : Bool) : Except exception lbool :=
  let s := s.reset_cancel
  let s := if again then s.cancel else s
  get_result s.p.b (decide (s.m_cancel > 0) || over_limit)

end solving

inductive event (E M : Type) where
  | worker (a : step E M)
  | cancel

variable [DecidableEq E] (I : Interp E M) (cfg : config)

def solving.exec (s : solving E M) : event E M → Option (solving E M)
  | .worker a => (parallel_solver.exec I cfg s.p a).map fun p => { s with p }
  | .cancel => some s.cancel

/-- Whether a worker gives up its lease. -/
def solving.abandons (s : solving E M) : event E M → Bool
  | .worker (.lease_canceled id) => s.p.b.lease_canceled (s.p.m_workers id).lease
  | .worker (.dec_cancel _) => true
  | _ => false

/-- The steps in which no worker gives up its lease. -/
def solving.exec_leased (s : solving E M) (a : event E M) : Option (solving E M) :=
  if s.abandons a then none else s.exec I cfg a

/-- Whether an event is a step of the worker that is not the sharing of a unit. -/
def event.advances (id : Nat) : event E M → Bool
  | .worker (.share_unit _ _) => false
  | .worker a => a.id == id
  | .cancel => false

/-- The steps that a worker has before it when it is cancelled and keeps its lease. -/
def location.rank : location E M → Nat
  | .returned => 0
  | .tested _ => 1
  | .checked _ => 2
  | .checking => 3
  | .leased => 4
  | .start => 5
  | .sharing_units => 6
  | .sharing_conflict _ => 7
  | .deciding _ => 8
  -- not reached then
  | .abandoning => 9

/-- Exceptions do not get out of a check. -/
def location.Caught : location E M → Prop
  | .checked r | .tested r | .deciding r => ∀ ex, r ≠ .throws ex
  | _ => True

section Counters

/-! No call on the batch manager takes a cancellation back. -/

variable {b : batch_manager E M} (id : Nat)

omit [DecidableEq E]

variable {id} in
theorem m_cancel_le_ite {b' : batch_manager E M} {cond : Prop} [Decidable cond] (h : b.m_cancel id ≤ b'.m_cancel id) :
    b.m_cancel id ≤ (if cond then b else b').m_cancel id := by
  split
  · exact le_rfl
  · exact h

theorem m_cancel_le_set_sat (mdl : M) : b.m_cancel id ≤ (b.set_sat mdl).m_cancel id := m_cancel_le_ite (Nat.le_succ _)

theorem m_cancel_le_set_unsat (core : List E) : b.m_cancel id ≤ (b.set_unsat core).m_cancel id :=
  m_cancel_le_ite (Nat.le_succ _)

theorem m_cancel_le_set_exception (is_canceled : Bool) (ex : exception) :
    b.m_cancel id ≤ (set_exception b is_canceled ex).m_cancel id := by
  cases ex with
  | z3_error | z3_exception => exact m_cancel_le_ite (m_cancel_le_ite (Nat.le_succ _))
  | unknown => exact le_rfl

theorem m_cancel_release_lease_unlocked (worker_id : Option Nat) (n : node_ptr) :
    (b.release_lease_unlocked worker_id n).m_cancel = b.m_cancel := by
  fun_cases release_lease_unlocked b worker_id n <;> rfl

theorem m_cancel_release_lease (worker_id : Nat) (lease : node_lease) :
    (release_lease b worker_id lease).m_cancel = b.m_cancel := by
  unfold release_lease
  split
  · rfl
  · exact m_cancel_release_lease_unlocked _ _

variable [DecidableEq E]

theorem m_cancel_tree_backtrack (core : List E) (n : node_ptr) : (b.tree_backtrack core n).m_cancel = b.m_cancel := by
  unfold tree_backtrack
  dsimp only
  split <;> rfl

/-- Signals for canceled leases are only added by `backtrack`, never taken back. -/
theorem m_cancel_le_backtrack (cfg : config) (worker_id : Nat) (core : List E) (lease : node_lease) :
    b.m_cancel id ≤ (backtrack cfg b worker_id core lease).m_cancel id := by
  have hlease : (b.backtrack_lease (some worker_id) core lease).2.m_cancel = b.m_cancel := by
    fun_cases backtrack_lease b (some worker_id) core lease with
    | case1 | case2 => rfl
    | case3 => rw [m_cancel_tree_backtrack, m_cancel_release_lease_unlocked]
  have htold : ∀ b1 : batch_manager E M,
      b1.m_cancel id ≤ (b1.cancel_closed_leases_unlocked cfg (some worker_id)).m_cancel id := by
    intro b1
    simp only [cancel_closed_leases_unlocked]
    split
    · exact Nat.le_succ _
    · exact le_rfl
  have hclosed : ∀ b1 : batch_manager E M, b1.m_cancel id ≤ b1.set_closed.m_cancel id := by
    intro b1
    unfold set_closed
    split
    · exact Nat.le_succ _
    · exact le_rfl
  unfold backtrack
  split
  · exact le_rfl
  · calc b.m_cancel id = (b.backtrack_lease (some worker_id) core lease).2.m_cancel id := by rw [hlease]
      _ ≤ _ := htold _
      _ ≤ _ := hclosed _

omit [DecidableEq E] in
theorem m_cancel_try_split (worker_id : Nat) (lease : node_lease) (atom : E) (effort rand : UInt32) :
    (b.try_split I worker_id lease atom effort rand).m_cancel = b.m_cancel := by
  fun_cases try_split b I worker_id lease atom effort rand with
  | case1 | case2 | case3 => rfl
  | case4 => exact m_cancel_release_lease_unlocked _ _

theorem m_cancel_collect_clause (source : Option Nat) (clause : E) :
    (b.collect_clause source clause).m_cancel = b.m_cancel := by
  unfold collect_clause
  split <;> rfl

theorem m_cancel_collect_global_backbone (backbone : E) (source : Option Nat) :
    (collect_global_backbone b backbone source).2.m_cancel = b.m_cancel := by
  unfold collect_global_backbone
  split
  · rfl
  · exact m_cancel_collect_clause _ _

omit [DecidableEq E] in
theorem m_cancel_get_cube (worker_id : Nat) (is_first_run : Bool) :
    (b.get_cube worker_id is_first_run).2.m_cancel = b.m_cancel := by
  fun_cases get_cube b worker_id is_first_run <;> rfl

end Counters

variable {I cfg} {p p' : workers E M} {id : Nat}

omit [DecidableEq E] in
theorem set_worker_self (w : worker E M) : (p.set_worker id w).m_workers id = w := update_self ..

/-- What a step of a worker that keeps its lease does: the other workers stay, no counter falls, and unless a unit is
shared a cancelled worker has one step less before it. -/
structure Advanced (p p' : workers E M) (id : Nat) (a : step E M) : Prop where
  others : ∀ j, j ≠ id → p'.m_workers j = p.m_workers j
  m_cancel : ∀ j, p.b.m_cancel j ≤ p'.b.m_cancel j
  caught : (p'.m_workers id).loc.Caught
  shares : (∃ unit, a = .share_unit id unit) → p'.m_workers id = p.m_workers id
  rank : (¬ ∃ unit, a = .share_unit id unit) → 0 < p.b.m_cancel id →
    (p'.m_workers id).loc.rank < (p.m_workers id).loc.rank

omit [DecidableEq E] in
theorem Advanced.of_set_worker {b : batch_manager E M} {w : worker E M} {a : step E M}
    (hb : ∀ j, p.b.m_cancel j ≤ b.m_cancel j) (hcaught : w.loc.Caught) (ha : ¬ ∃ unit, a = .share_unit id unit)
    (hrank : 0 < p.b.m_cancel id → w.loc.rank < (p.m_workers id).loc.rank) :
    Advanced p ({ p with b }.set_worker id w) id a where
  others j hj := update_of_ne hj ..
  m_cancel := hb
  caught := by rwa [set_worker_self]
  shares h := absurd h ha
  rank _ hpos := by
    rw [set_worker_self]
    exact hrank hpos

/-- Every step of a worker that does not give up its lease, with the exceptions of its checks caught. Case by case, a
worker with a signal comes nearer to its return. -/
theorem advanced_exec_worker {a : step E M} (ha : a.id = id) (hcaught : (p.m_workers id).loc.Caught)
    (hleased : ({ p := p } : solving E M).abandons (.worker a) = false)
    (hexec : exec_worker I cfg p id (p.m_workers id) a = some p') : Advanced p p' id a := by
  revert hexec
  fun_cases exec_worker I cfg p id (p.m_workers id) a <;> rintro ⟨⟩
  -- `get_cube`
  case case1 hloc b hcube | case2 hloc _ b hcube =>
    have hb := m_cancel_get_cube (b := p.b) id (p.m_workers id).is_first_run
    rw [hcube] at hb
    exact .of_set_worker (fun j => hb ▸ le_rfl) trivial (by simp) fun _ => by simp [hloc, location.rank]
  -- `collect_shared_clauses`, `inc` of a canceled worker, and `next_cube`
  case case4 hloc | case14 hloc _ | case31 hloc =>
    exact .of_set_worker (fun _ => le_rfl) trivial (by simp) fun _ => by simp [hloc, location.rank]
  -- `check_cube`
  case case6 hloc ex =>
    exact .of_set_worker (fun j => m_cancel_le_set_exception j _ ex) (by simp [location.Caught]) (by simp)
      fun _ => by simp [hloc, location.rank]
  case case7 hloc r hthrows =>
    exact .of_set_worker (fun _ => le_rfl) hthrows (by simp) fun _ => by simp [hloc, location.rank]
  -- `lease_canceled` and `dec_cancel`
  case case9 id' _ _ hcanceled =>
    obtain rfl : id' = id := ha
    simp [solving.abandons, hcanceled] at hleased
  case case10 hloc _ =>
    rw [hloc] at hcaught
    exact .of_set_worker (fun _ => le_rfl) hcaught (by simp) fun _ => by simp [hloc, location.rank]
  case case12 => cases hleased
  -- `inc`
  case case15 hloc hzero =>
    rw [hloc] at hcaught
    exact .of_set_worker (fun _ => le_rfl) hcaught (by simp) fun hpos => absurd hpos hzero
  -- `try_split` and `release_lease`
  case case18 atom effort rand hloc _ =>
    have hb := m_cancel_try_split (b := p.b) I id (p.m_workers id).lease atom effort rand
    exact .of_set_worker (fun j => hb ▸ le_rfl) trivial (by simp) fun _ => by simp [hloc, location.rank]
  case case20 hloc =>
    have hb := m_cancel_release_lease (b := p.b) id (p.m_workers id).lease
    exact .of_set_worker (fun j => hb ▸ le_rfl) trivial (by simp) fun _ => by simp [hloc, location.rank]
  -- `report`
  case case22 mdl hloc =>
    exact .of_set_worker (fun j => m_cancel_le_set_sat j mdl) trivial (by simp) fun _ => by simp [hloc, location.rank]
  case case23 core hloc _ _ =>
    exact .of_set_worker (fun j => m_cancel_le_set_unsat j core) trivial (by simp)
      fun _ => by simp [hloc, location.rank]
  case case24 hloc _ _ =>
    exact .of_set_worker (fun j => m_cancel_le_backtrack j cfg _ _ _) trivial (by simp)
      fun _ => by simp [hloc, location.rank]
  -- `share_conflict`
  case case26 hloc b =>
    refine .of_set_worker (fun j => ?_) trivial (by simp) fun _ => by simp [hloc, location.rank]
    unfold b
    split
    · rw [m_cancel_collect_clause]
    · exact le_rfl
  -- `share_unit`
  case case28 id' unit _ _ =>
    obtain rfl : id' = id := ha
    exact ⟨fun _ _ => rfl, fun j => by rw [m_cancel_collect_global_backbone], hcaught, fun _ => rfl,
      (absurd ⟨unit, rfl⟩)⟩

/-- No step lets an exception out of a check. -/
theorem caught_exec {a : step E M} (hcaught : ∀ id, (p.m_workers id).loc.Caught)
    (hexec : parallel_solver.exec I cfg p a = some p') (j : Nat) : (p'.m_workers j).loc.Caught := by
  obtain ⟨-, hexec⟩ := ite_none_left_eq_some.mp hexec
  obtain ⟨-, hexec⟩ := ite_none_right_eq_some.mp hexec
  by_cases hleased : ({ p := p } : solving E M).abandons (.worker a) = false
  · have h := advanced_exec_worker rfl (hcaught _) hleased hexec
    by_cases hj : j = a.id
    · exact hj ▸ h.caught
    · exact h.others j hj ▸ hcaught j
  · have hset : ∃ b w, p' = { p with b }.set_worker a.id w ∧ w.loc.Caught := by
      cases a with
      | lease_canceled id =>
        simp only [exec_worker] at hexec
        split at hexec
        next r hloc =>
          rw [if_pos (by simpa [solving.abandons, step.id] using hleased)] at hexec
          exact ⟨p.b, _, (some.inj hexec).symm, trivial⟩
        next => cases hexec
      | dec_cancel id =>
        simp only [exec_worker] at hexec
        split at hexec
        next => exact ⟨_, _, (some.inj hexec).symm, trivial⟩
        next => cases hexec
      | _ => exact absurd rfl hleased
    obtain ⟨b, w, rfl, hw⟩ := hset
    by_cases hj : j = a.id
    · subst hj
      rwa [set_worker_self]
    · show (update p.m_workers a.id w j).loc.Caught
      rw [update_of_ne hj]
      exact hcaught j

namespace solving

variable {s s' : solving E M}

/-- The state after a cancellation by the caller as long as no worker gives up its lease. -/
structure Cancelled (cfg : config) (s : solving E M) : Prop where
  m_cancel : ∀ id, 0 < s.p.b.m_cancel id
  caught : ∀ id, (s.p.m_workers id).loc.Caught
  rank : ∀ id < cfg.num_workers, (s.p.m_workers id).loc.rank ≤ 8

/-- One event after the cancellation keeps what is known of the limits, and a step of a worker lowers its rank, which
counts the steps that are left to it. -/
theorem Cancelled.exec_leased {a : event E M} (h : s.Cancelled cfg) (hexec : s.exec_leased I cfg a = some s') :
    s'.Cancelled cfg ∧
      ∀ id, (if a.advances id then 1 else 0) + (s'.p.m_workers id).loc.rank ≤ (s.p.m_workers id).loc.rank := by
  obtain ⟨hleased, hexec⟩ := ite_none_left_eq_some.mp hexec
  cases a with
  | cancel =>
    cases hexec
    exact ⟨⟨fun _ => Nat.succ_pos _, h.caught, h.rank⟩, fun id => (Nat.zero_add _).le⟩
  | worker a =>
    obtain ⟨p', hp, rfl⟩ := map_eq_some_iff.mp hexec
    have hcaught := caught_exec h.caught hp
    obtain ⟨-, hp⟩ := ite_none_left_eq_some.mp hp
    obtain ⟨-, hp⟩ := ite_none_right_eq_some.mp hp
    have hstep := advanced_exec_worker rfl (h.caught a.id) (Bool.eq_false_iff.mpr hleased) hp
    have hrank : ∀ id, (if (event.worker a).advances id then 1 else 0) + (p'.m_workers id).loc.rank ≤
        (s.p.m_workers id).loc.rank := by
      intro id
      by_cases hunit : ∃ unit, a = .share_unit a.id unit
      · obtain ⟨unit, hunit⟩ := hunit
        have hsame : p'.m_workers id = s.p.m_workers id := by
          by_cases hid : id = a.id
          · exact hid ▸ hstep.shares ⟨unit, hunit⟩
          · exact hstep.others id hid
        rw [hsame, hunit]
        exact (Nat.zero_add _).le
      · have hadvances : (event.worker a).advances id = (a.id == id) := by
          cases a with
          | share_unit id' unit => exact absurd ⟨unit, rfl⟩ hunit
          | _ => rfl
        rw [hadvances]
        by_cases hid : id = a.id
        · subst hid
          have hlt := hstep.rank hunit (h.m_cancel a.id)
          rw [beq_self_eq_true, if_pos rfl]
          omega
        · rw [hstep.others id hid, beq_eq_false_iff_ne.mpr (Ne.symm hid)]
          simp
    exact ⟨⟨fun id => (h.m_cancel id).trans_le (hstep.m_cancel id), hcaught, fun id hid =>
      (Nat.le_add_left _ _).trans ((hrank id).trans (h.rank id hid))⟩, hrank⟩

/-- Along a run after the cancellation the steps of a worker are paid for by its rank. -/
theorem Cancelled.run {as : List (event E M)}
    (h : s.Cancelled cfg) (hrun : run (solving.exec_leased I cfg) s as = some s') : s'.Cancelled cfg ∧
    ∀ id, as.countP (event.advances id) + (s'.p.m_workers id).loc.rank ≤ (s.p.m_workers id).loc.rank := by
  induction as generalizing s with
  | nil =>
    cases hrun
    exact ⟨h, fun id => by simp⟩
  | cons a as ih =>
    obtain ⟨s1, hstep, hrest⟩ := bind_eq_some_iff.mp hrun
    obtain ⟨h1, hrank1⟩ := h.exec_leased hstep
    obtain ⟨h', hrank⟩ := ih h1 hrest
    refine ⟨h', fun id => ?_⟩
    have h1 := hrank1 id
    have h2 := hrank id
    rw [List.countP_cons]
    omega

/-- A worker that has not returned has a next step, whatever the answer of its solver. -/
theorem Cancelled.progress (h : s.Cancelled cfg) {id : Nat} (hid : id < cfg.num_workers)
    (hloc : (s.p.m_workers id).loc ≠ .returned) (hunreachable : s.p.b.unreachable = false) :
    ∃ a, a.id = id ∧ (parallel_solver.exec I cfg s.p a).isSome := by
  have hcaught := h.caught id
  have hrank := h.rank id hid
  have hexec : ∀ a : step E M, a.id = id → (exec_worker I cfg s.p id (s.p.m_workers id) a).isSome →
      ∃ a, a.id = id ∧ (parallel_solver.exec I cfg s.p a).isSome := by
    rintro a rfl hsome
    exact ⟨a, rfl, by rwa [parallel_solver.exec, if_neg (by simp [hunreachable]), if_pos hid]⟩
  cases hw : (s.p.m_workers id).loc with
  | start =>
    refine hexec (.get_cube id) rfl ?_
    simp only [exec_worker, hw]
    split <;> rfl
  | leased => exact hexec (.collect_shared_clauses id) rfl (by simp [exec_worker, hw])
  | checking => exact hexec (.check_cube id .l_undef) rfl (by simp [exec_worker, hw])
  | checked r =>
    refine hexec (.lease_canceled id) rfl ?_
    simp only [exec_worker, hw]
    split <;> rfl
  | tested r =>
    refine hexec (.inc id) rfl ?_
    simp only [exec_worker, hw]
    split <;> rfl
  | deciding r =>
    cases r with
    | l_undef => exact hexec (.release_lease id) rfl (by simp [exec_worker, hw])
    | l_true mdl => exact hexec (.report id) rfl (by simp [exec_worker, hw])
    | l_false core =>
      refine hexec (.report id) rfl ?_
      simp only [exec_worker, hw]
      split <;> rfl
    | throws ex =>
      rw [hw] at hcaught
      exact absurd rfl (hcaught ex)
  | sharing_conflict core => exact hexec (.share_conflict id) rfl (by simp [exec_worker, hw])
  | sharing_units => exact hexec (.next_cube id) rfl (by simp [exec_worker, hw])
  | abandoning =>
    rw [hw] at hrank
    exact absurd hrank (by simp [location.rank])
  | returned => exact absurd hw hloc

end solving

open solving

/-- The caller cancels while both workers check their cubes. The workers return without a verdict. -/
def cancelled_checks : List (event (Bool → Bool) Bool) :=
  [.worker (.check_cube 0 .l_undef), .worker (.lease_canceled 0), .worker (.inc 0), .worker (.check_cube 1 .l_undef),
    .worker (.lease_canceled 1), .worker (.inc 1)]

/-- Both workers have their cubes. -/
def both_leased : List (event (Bool → Bool) Bool) :=
  [.worker (.get_cube 0), .worker (.collect_shared_clauses 0), .worker (.get_cube 1),
    .worker (.collect_shared_clauses 1)]

end parallel_solver
