import Mathlib.Data.Fintype.Prod
import BooledASS.Parallel.Facts
import BooledASS.Parallel.Leases

open Function List Option Bool Machine Interp smt.parallel.batch_manager

namespace smt.parallel

open search_tree tree

variable {E M : Type} {cfg : config} {s s' : threads E M} {w w' : worker E M} {lease : node_lease}

/-- The worker's lease is the one that is recorded for it. -/
def Lent (w : worker E M) (lease : node_lease) : Prop :=
  ∃ n, w.lease.leased_node = some n ∧ lease.leased_node = some n ∧ lease.cancel_epoch = w.lease.cancel_epoch

/-- The signals that a worker has not answered: the one for its lease. -/
def pending (lease : node_lease) : Nat := if lease.cancel_signaled then 1 else 0

/-- The recorded lease and the cancel counter of a worker at each point of `run`, as long as there is no verdict.
A worker has not returned then. -/
def CancelInv (cfg : config) (lease : node_lease) (m_cancel : Nat) (w : worker E M) : Prop :=
  match w.loc with
  | .leased | .check_cube_start =>
    Lent w lease ∧ m_cancel = pending lease ∧ (cfg.m_global_backbones → lease.cancel_signaled = false)
  | .checking | .checked _ => Lent w lease ∧ m_cancel = pending lease
  | .tested _ | .deciding _ => Lent w lease ∧ m_cancel = 0 ∧ lease.cancel_signaled = false
  | .abandoning => Free lease ∧ m_cancel = 1
  | .start | .backtracked _ _ | .sharing_conflict _ | .sharing_units => Free lease ∧ m_cancel = 0
  | .returned => False

theorem CancelInv.at_loc {m_cancel : Nat} {loc : location E M} (h : CancelInv cfg lease m_cancel w)
    (hloc : w.loc = loc) : CancelInv cfg lease m_cancel { w with loc } := by
  subst hloc
  exact h

/-- The points of `run` at which a signal for the lease is answered: the next test is that of the lease. -/
def interruptible (cfg : config) : location E M → Bool
  | .leased | .check_cube_start => !cfg.m_global_backbones
  | .checking | .checked _ => true
  | _ => false

/-- The signals that the step sends reach workers that will answer them. -/
def Timely [DecidableEq E] (I : Interp E M) (cfg : config) (asms : List E) (s : threads E M) (a : step E M) : Prop :=
  ∀ s', exec I cfg asms s a = some s' → ∀ id < cfg.num_workers, (s.b.m_worker_leases id).cancel_signaled = false →
    (s'.b.m_worker_leases id).cancel_signaled → interruptible cfg (s.workers id).loc

variable {b' : batch_manager E M}

/-- A worker that is told of a canceled lease keeps its invariant if the signal comes while it is at a point where it
can still be interrupted. -/
theorem CancelInv.told {b : batch_manager E M} {id : Nat}
    (h : CancelInv cfg (b.m_worker_leases id) (b.m_cancel id) w) (htold : Told b b' id)
    (htimely : (b.m_worker_leases id).cancel_signaled = false → (b'.m_worker_leases id).cancel_signaled →
      interruptible cfg w.loc) :
    CancelInv cfg (b'.m_worker_leases id) (b'.m_cancel id) w := by
  rcases htold with ⟨hlease, hcancel⟩ | ⟨hnot, -, hlease, hcancel⟩
  · rwa [hlease, hcancel]
  · have hloc := htimely hnot (by rw [hlease])
    rw [hlease, hcancel]
    unfold CancelInv at h ⊢
    cases hw : w.loc <;> rw [hw] at h hloc <;> simp only [interruptible, false_eq_true] at hloc
    -- the counter was zero and is one, and the lease is signaled
    case leased | check_cube_start =>
      obtain ⟨hlent, hpending, -⟩ := h
      refine ⟨hlent, ?_, fun hon => by simp [hon] at hloc⟩
      rw [hpending, pending, hnot]
      rfl
    case checking | checked =>
      obtain ⟨hlent, hpending⟩ := h
      refine ⟨hlent, ?_⟩
      rw [hpending, pending, hnot]
      rfl

/-- The invariant of a run in which every signal is timely. -/
structure RunInv (cfg : config) (s : threads E M) : Prop where
  down : s.b.m_search_tree.m_root.Down
  root_valid : s.b.m_search_tree.Valid []
  root : s.b.m_state = .is_running → ¬ s.b.m_search_tree.Closed []
  leases : s.b.m_state = .is_running → ∀ id < cfg.num_workers, LeaseInv s.b.m_search_tree (s.b.m_worker_leases id)
  workers : s.b.m_state = .is_running → ∀ id < cfg.num_workers,
    CancelInv cfg (s.b.m_worker_leases id) (s.b.m_cancel id) (s.workers id)

/-- No worker is signaled at a wrong point. -/
def TimelySection (cfg : config) (s : threads E M) (b' : batch_manager E M) : Prop :=
  ∀ id < cfg.num_workers, (s.b.m_worker_leases id).cancel_signaled = false →
    (b'.m_worker_leases id).cancel_signaled → interruptible cfg (s.workers id).loc

/-- A section of a thread that is not a worker, or of a worker that keeps its place. -/
theorem RunInv.section (h : RunInv cfg s) (hsec : Section cfg none s.b b')
    (htimely : TimelySection cfg s b') (hb : s'.b = b') (hworkers : s'.workers = s.workers) : RunInv cfg s' := by
  subst hb
  refine ⟨hsec.shuts.down, hsec.shuts.ext.valid _ h.root_valid, fun hrun => hsec.root hrun (h.root (hsec.stays hrun)),
    fun hrun id hid => hsec.leases hrun id hid (by simp) (h.leases (hsec.stays hrun) id hid), fun hrun id hid => ?_⟩
  rw [hworkers]
  exact (h.workers (hsec.stays hrun) id hid).told (hsec.told hrun id (by simp)) (htimely id hid)

/-- A section of a worker, which may change the lease and the counter of this worker. -/
theorem RunInv.section_worker (h : RunInv cfg s) {id : Nat}
    (hsec : Section cfg (some id) s.b b') (htimely : TimelySection cfg s b')
    (hself : b'.m_state = .is_running → s.b.m_state = .is_running → id < cfg.num_workers →
      LeaseInv s.b.m_search_tree (s.b.m_worker_leases id) →
      CancelInv cfg (s.b.m_worker_leases id) (s.b.m_cancel id) (s.workers id) →
      LeaseInv b'.m_search_tree (b'.m_worker_leases id) ∧ CancelInv cfg (b'.m_worker_leases id) (b'.m_cancel id) w') :
    RunInv cfg ({ s with b := b' }.set_worker id w') := by
  have hself' hrun hid :=
    hself hrun (hsec.stays hrun) hid (h.leases (hsec.stays hrun) id hid) (h.workers (hsec.stays hrun) id hid)
  refine ⟨hsec.shuts.down, hsec.shuts.ext.valid _ h.root_valid, fun hrun => hsec.root hrun (h.root (hsec.stays hrun)),
    fun hrun id' hid' => ?_, fun hrun id' hid' => ?_⟩
  · by_cases heq : id' = id
    · subst heq
      exact (hself' hrun hid').1
    · exact hsec.leases hrun id' hid' (by simpa using heq) (h.leases (hsec.stays hrun) id' hid')
  · by_cases heq : id' = id
    · subst heq
      simpa [threads.set_worker] using (hself' hrun hid').2
    · have hold := (h.workers (hsec.stays hrun) id' hid').told (hsec.told hrun id' (by simpa using heq))
        (htimely id' hid')
      simpa [threads.set_worker, heq] using hold

/-- A worker goes on without a section. -/
theorem RunInv.set_worker (h : RunInv cfg s) {id : Nat}
    (hself : s.b.m_state = .is_running → LeaseInv s.b.m_search_tree (s.b.m_worker_leases id) →
      CancelInv cfg (s.b.m_worker_leases id) (s.b.m_cancel id) (s.workers id) →
      CancelInv cfg (s.b.m_worker_leases id) (s.b.m_cancel id) w') :
    RunInv cfg (s.set_worker id w') :=
  h.section_worker (.refl h.down) (fun _ _ h1 h2 => absurd (h1.symm.trans h2) false_ne_true)
    fun _ hrun _ hlease hw => ⟨hlease, hself hrun hlease hw⟩

section GetCube

variable {b : batch_manager E M} {first : Bool}

/-- The node that is chosen is not closed. -/
theorem activate_some {n : node_ptr}
    (hn : (if first then b.m_search_tree.activate_root else b.m_search_tree.activate_best_node).1 = some n)
    (hv : b.m_search_tree.Valid []) :
    ∃ d, (if first then b.m_search_tree.activate_root else b.m_search_tree.activate_best_node).2.get n = some d ∧
      d.m_status ≠ .closed := by
  cases first with
  | true =>
    simp only [if_true, activate_root] at hn ⊢
    split at hn
    next => cases hn
    next hopen =>
      cases hn
      obtain ⟨d, hd⟩ := isSome_iff_exists.mp hv
      rw [if_neg hopen]
      refine ⟨d.mark_new_activation, ?_, by simp [node_data.mark_new_activation]⟩
      rw [get_update_node, hd]
      rfl
  | false =>
    simp only [false_eq_true, if_false, activate_best_node] at hn ⊢
    split at hn
    next => cases hn
    next m hm =>
      cases hn
      obtain ⟨d, hd, -⟩ := best_node_some _ hm
      refine ⟨d.mark_new_activation, ?_, by simp [node_data.mark_new_activation]⟩
      rw [get_update_node, if_pos rfl, hd]
      rfl

/-- A node is found as long as the root is not closed. -/
theorem activate_none
    (hnone : (if first then b.m_search_tree.activate_root else b.m_search_tree.activate_best_node).1 = none)
    (hv : b.m_search_tree.Valid []) : b.m_search_tree.Closed [] := by
  cases first with
  | true =>
    simp only [if_true, activate_root] at hnone
    split at hnone
    next hclosed => exact hclosed
    next => cases hnone
  | false =>
    simp only [false_eq_true, if_false, activate_best_node] at hnone
    split at hnone
    next hbest =>
      obtain ⟨d, hd⟩ := isSome_iff_exists.mp hv
      exact closed_iff.mpr ⟨d, hd, best_node_none _ hd hbest⟩
    next => cases hnone

theorem get_cube_none {id : Nat} (hnone : (b.get_cube id first).1 = none) (hv : b.m_search_tree.Valid [])
    (hrun : b.m_state = .is_running) : b.m_search_tree.Closed [] := by
  revert hnone
  fun_cases get_cube b id first with
  | case1 hclosed => exact fun _ => hclosed
  | case2 _ hstop => exact absurd hrun hstop
  | case3 _ _ _ h => exact fun _ => activate_none h hv
  | case4 => simp

/-- The lease that is handed out is recorded and live. -/
theorem get_cube_some {id : Nat} {lease : node_lease} (hsome : (b.get_cube id first).1 = some lease)
    (hv : b.m_search_tree.Valid []) : (b.get_cube id first).2.m_worker_leases id = lease ∧
    (b.get_cube id first).2.m_cancel = b.m_cancel ∧ lease.cancel_signaled = false ∧ ∃ n, lease.leased_node = some n ∧
    (b.get_cube id first).2.m_search_tree.is_lease_canceled n lease.cancel_epoch = false := by
  revert hsome
  fun_cases get_cube b id first with
  | case1 | case2 | case3 => simp
  | case4 _ _ p n hn lease =>
    intro hsome
    obtain ⟨d, hd, hopen⟩ := activate_some hn hv
    obtain rfl := some.inj hsome
    refine ⟨update_self _ _ _, rfl, rfl, n, rfl, ?_⟩
    refine is_lease_canceled_eq_false.mpr ⟨d, hd, hopen, ?_⟩
    simp [lease, p, lease_of, hd]

end GetCube

section Steps

variable {I : Interp E M} {asms : List E} {b : batch_manager E M} {id : Nat}

/-- At the test of the lease a signal is seen, and without a signal the lease is live. -/
theorem lease_canceled_iff (hrun : b.m_state = .is_running) (hlease : LeaseInv b.m_search_tree (b.m_worker_leases id))
    (hlent : Lent w (b.m_worker_leases id)) : b.lease_canceled w.lease ↔ (b.m_worker_leases id).cancel_signaled := by
  obtain ⟨n, hn, hn', hepoch⟩ := hlent
  have hinv := hlease n hn'
  rw [lease_canceled, is_lease_canceled, hn, ← hepoch]
  simp only [hrun]
  split at hinv
  next hsignaled => exact iff_of_true (is_lease_canceled_of_closed hinv) hsignaled
  next hsignaled => exact iff_of_false (by simp [hinv]) hsignaled

/-- A worker whose lease is not signaled holds a live lease. -/
theorem live_of_lent (hlease : LeaseInv b.m_search_tree (b.m_worker_leases id)) (hlent : Lent w (b.m_worker_leases id))
    (hnot : (b.m_worker_leases id).cancel_signaled = false) : ∃ n, w.lease.leased_node = some n ∧
    (b.m_worker_leases id).leased_node = some n ∧ is_lease_canceled b.m_search_tree w.lease = false := by
  obtain ⟨n, hn, hn', hepoch⟩ := hlent
  have hinv := hlease n hn'
  rw [if_neg (by simp [hnot]), hepoch] at hinv
  exact ⟨n, hn, hn', by rw [is_lease_canceled, hn]; exact hinv⟩

variable {n : node_ptr} {a : step E M}

/-- The lease that is given up. -/
theorem release_lease_self (h : (b.m_worker_leases id).leased_node = some n) :
    (b.release_lease_unlocked (some id) n).m_worker_leases id = {} ∧
      (b.release_lease_unlocked (some id) n).m_cancel = b.m_cancel := by
  rw [release_lease_unlocked, if_pos h]
  exact ⟨update_self _ _ _, rfl⟩

/-- The worker that closes nodes is not signaled itself. -/
theorem cancel_closed_leases_self (b : batch_manager E M) (cfg : config) (id : Nat)
    (hrun : (b.cancel_closed_leases_unlocked cfg (some id)).set_closed.m_state = .is_running) :
    (b.cancel_closed_leases_unlocked cfg (some id)).set_closed.m_worker_leases id = b.m_worker_leases id ∧
      (b.cancel_closed_leases_unlocked cfg (some id)).set_closed.m_cancel id = b.m_cancel id := by
  have hself : to_cancel cfg b.m_search_tree (some id) id (b.m_worker_leases id) = false := by simp [to_cancel]
  rw [set_closed] at hrun ⊢
  split at hrun
  next => cases hrun
  next hopen =>
    rw [if_neg hopen]
    simp [cancel_closed_leases_unlocked, hself]

theorem try_split_self (hrun : b.m_state = .is_running) (hn : lease.leased_node = some n)
    (hn' : (b.m_worker_leases id).leased_node = some n) (hlive : is_lease_canceled b.m_search_tree lease = false)
    (atom : E) (effort rand : UInt32) : (b.try_split I id lease atom effort rand).m_worker_leases id = {} ∧
    (b.try_split I id lease atom effort rand).m_cancel = b.m_cancel := by
  unfold batch_manager.try_split
  rw [hn]
  dsimp only
  rw [if_neg (by simp [hrun]), if_neg (by simp [hlive])]
  exact release_lease_self hn'

variable [DecidableEq E]

theorem backtrack_self (hdown : b.m_search_tree.m_root.Down) (hrun : b.m_state = .is_running)
    (hn : lease.leased_node = some n) (hlive : is_lease_canceled b.m_search_tree lease = false) (core : List E)
    (hrun' : (b.backtrack cfg id core lease).m_state = .is_running) :
    (b.backtrack cfg id core lease).m_worker_leases id = (b.release_lease_unlocked (some id) n).m_worker_leases id ∧
      (b.backtrack cfg id core lease).m_cancel id = (b.release_lease_unlocked (some id) n).m_cancel id := by
  obtain ⟨b', hframe, heq⟩ := backtrack_eq hdown cfg hrun id hn hlive core
  rw [heq] at hrun' ⊢
  have hself := cancel_closed_leases_self _ cfg id hrun'
  rw [hself.1, hself.2, hframe.m_worker_leases, hframe.m_cancel]
  exact ⟨rfl, rfl⟩

theorem enqueue_same (b : batch_manager E M) (cfg : config) (source : Option node_ptr) (core : List E) :
    (b.enqueue_core_minimization cfg source core).m_search_tree = b.m_search_tree ∧
      (b.enqueue_core_minimization cfg source core).m_worker_leases = b.m_worker_leases ∧
      (b.enqueue_core_minimization cfg source core).m_cancel = b.m_cancel := by
  unfold enqueue_core_minimization
  repeat' split
  all_goals exact ⟨rfl, rfl, rfl⟩

theorem collect_clause_same (b : batch_manager E M) (source : Option Nat) (clause : E) :
    (b.collect_clause source clause).m_search_tree = b.m_search_tree ∧
      (b.collect_clause source clause).m_worker_leases = b.m_worker_leases ∧
      (b.collect_clause source clause).m_cancel = b.m_cancel := by
  rw [collect_clause]
  split <;> exact ⟨rfl, rfl, rfl⟩

/-- A step of a worker keeps the invariant on leases and signals. The signals it gives to others have to be timely;
what it does with its own lease is checked case by case. -/
theorem RunInv.exec_worker (h : RunInv cfg s) (hid : id < cfg.num_workers) (ht : TimelySection cfg s s'.b)
    (hexec : exec_worker I cfg asms s id (s.workers id) a = some s') : RunInv cfg s' := by
  revert hexec
  fun_cases parallel.exec_worker I cfg asms s id (s.workers id) a <;> rintro ⟨⟩
  -- `get_cube`
  case case1 hloc b hb =>
    have hsec : Section cfg (some id) s.b _ := section_get_cube h.down id (s.workers id).is_first_run
    rw [hb] at hsec
    refine h.section_worker hsec ht fun _ hrun _ _ _ => ?_
    exact absurd (get_cube_none (congrArg Prod.fst hb) h.root_valid hrun) (h.root hrun)
  case case2 hloc lease b hb =>
    have hsec : Section cfg (some id) s.b _ := section_get_cube h.down id (s.workers id).is_first_run
    rw [hb] at hsec
    refine h.section_worker hsec ht fun _ hrun _ _ hw => ?_
    obtain ⟨hrecord, hcancel, hsignaled, n, hn, hlive⟩ := get_cube_some (congrArg Prod.fst hb) h.root_valid
    rw [hb] at hrecord hcancel hlive
    rw [hrecord, hcancel]
    constructor
    · intro m hm
      rw [if_neg (by simp [hsignaled])]
      exact some.inj (hn.symm.trans hm) ▸ hlive
    · exact ⟨⟨n, hn, hn, rfl⟩, by rw [(hw.at_loc hloc).2, pending, if_neg (by simp [hsignaled])], fun _ => hsignaled⟩
  -- `collect_shared_clauses`, `inc` of a worker that is not canceled, and `next_cube`
  case case4 hloc | case17 hloc _ | case35 hloc => exact h.set_worker fun _ _ hw => (hw.at_loc hloc :)
  -- `collect_backbone_candidates`: the test is passed, since the lease is not signaled
  case case6 hloc hcanceled =>
    refine h.set_worker fun _ _ hw => ?_
    obtain ⟨-, hpending, hnot⟩ := hw.at_loc hloc
    rw [pending, if_neg (by simp [hnot hcanceled.1])] at hpending
    exact absurd hcanceled.2 (by simp [hpending])
  case case7 hloc _ => exact h.set_worker fun _ _ hw => (hw.at_loc hloc).imp_right And.left
  -- `check_cube`
  case case9 r hloc r' b hb =>
    have hsec : Section cfg (some id) s.b _ := section_check h.down (s.b.m_cancel id > 0) r
    have hstop := stopped_check s.b (s.b.m_cancel id > 0) r
    rw [hb] at hsec hstop
    refine h.section_worker hsec ht fun hrun _ _ hlease hw => ?_
    rcases hstop with heq | hstop
    · cases heq
      exact ⟨hlease, (hw.at_loc hloc :)⟩
    · exact absurd hrun hstop.m_state
  -- `lease_canceled`
  case case11 hloc hcanceled =>
    refine h.set_worker fun hrun hlease hw => ?_
    obtain ⟨hlent, hpending⟩ := hw.at_loc hloc
    have hsignaled := (lease_canceled_iff hrun hlease hlent).mp hcanceled
    exact ⟨.inr hsignaled, by rw [hpending, pending, if_pos hsignaled]⟩
  case case12 hloc hlive =>
    refine h.set_worker fun hrun hlease hw => ?_
    obtain ⟨hlent, hpending⟩ := hw.at_loc hloc
    have hsignaled : (s.b.m_worker_leases id).cancel_signaled = false :=
      eq_false_iff.mpr fun h => hlive ((lease_canceled_iff hrun hlease hlent).mpr h)
    exact ⟨hlent, by rw [hpending, pending, if_neg (by simp [hsignaled])], hsignaled⟩
  -- `dec_cancel`
  case case14 hloc =>
    have hsec : Section cfg (some id) s.b { s.b with m_cancel := update s.b.m_cancel id (s.b.m_cancel id - 1) } := by
      refine .of_grows h.down (.refl _) (fun h => h) fun id' hid' => ⟨rfl, ?_⟩
      exact update_of_ne (fun heq => hid' (congrArg some heq)) _ _
    refine h.section_worker hsec ht fun _ _ _ hlease hw => ⟨hlease, (hw.at_loc hloc).1, ?_⟩
    show update s.b.m_cancel id (s.b.m_cancel id - 1) id = 0
    rw [update_self, (hw.at_loc hloc).2]
  -- `inc` of a canceled worker
  case case16 hloc hcanceled => exact h.set_worker fun _ _ hw => absurd hcanceled (by simp [(hw.at_loc hloc).2.1])
  -- `check_again`
  case case19 hloc =>
    refine h.set_worker fun _ _ hw => ?_
    obtain ⟨hlent, hzero, hsignaled⟩ := hw.at_loc hloc
    exact ⟨hlent, by rw [hzero, pending, if_neg (by simp [hsignaled])], fun _ => hsignaled⟩
  -- `try_split`
  case case22 atom effort rand hloc _ =>
    refine h.section_worker (section_try_split h.down I id _ atom effort rand) ht fun _ hrun _ hlease hw => ?_
    obtain ⟨hlent, hzero, hsignaled⟩ := hw.at_loc hloc
    obtain ⟨n, hn, hn', hlive⟩ := live_of_lent hlease hlent hsignaled
    obtain ⟨hrecord, hcancel⟩ := try_split_self (I := I) hrun hn hn' hlive atom effort rand
    rw [hrecord, hcancel]
    exact ⟨(fun _ h => by cases h), .inl rfl, hzero⟩
  -- `report`
  case case24 mdl _ =>
    exact h.section_worker ((stopped_set_sat s.b mdl).section h.down) ht
      fun hrun => absurd hrun (stopped_set_sat s.b mdl).m_state
  case case25 core _ _ =>
    exact h.section_worker ((stopped_set_unsat s.b core).section h.down) ht
      fun hrun => absurd hrun (stopped_set_unsat s.b core).m_state
  case case26 core hloc _ core_to_use =>
    by_cases hrun : s.b.m_state = .is_running
    · obtain ⟨hlent, hzero, hsignaled⟩ := (h.workers hrun id hid).at_loc hloc
      obtain ⟨n, hn, hn', hlive⟩ := live_of_lent (h.leases hrun id hid) hlent hsignaled
      refine h.section_worker ((section_release_lease h.down id n).trans (section_backtrack h.down hrun hn hlive _)) ht
        fun hrun' _ _ _ _ => ?_
      obtain ⟨hrecord, hcancel⟩ := backtrack_self h.down hrun hn hlive _ hrun'
      obtain ⟨hrelease, hcancel'⟩ := release_lease_self hn'
      rw [hrecord, hcancel, hrelease, hcancel']
      exact ⟨(fun _ h => by cases h), .inl rfl, hzero⟩
    · have heq : s.b.backtrack cfg id core_to_use (s.workers id).lease = s.b := by
        rw [batch_manager.backtrack, backtrack_unlocked, if_pos hrun]
      rw [heq]
      exact h.set_worker fun hrun' => absurd hrun' hrun
  -- `enqueue`
  case case28 source core hloc b =>
    unfold b at ht ⊢
    split at ht
    next hmin =>
      rw [if_pos hmin]
      refine h.section_worker (section_enqueue h.down source core) ht fun hrun _ _ hlease hw => ?_
      have hsame := enqueue_same s.b cfg source core
      rw [hsame.1, hsame.2.1, hsame.2.2]
      exact ⟨hlease, (hw.at_loc hloc :)⟩
    next hmin =>
      rw [if_neg hmin]
      exact h.set_worker fun _ _ hw => (hw.at_loc hloc :)
  -- `share_conflict`
  case case30 core hloc b =>
    unfold b at ht ⊢
    split at ht
    next hshare =>
      rw [if_pos hshare]
      refine h.section_worker (section_collect_clause h.down _ _) ht fun hrun _ _ hlease hw => ?_
      have hsame := collect_clause_same s.b (some id) (I.mk_not (I.mk_and core))
      rw [hsame.1, hsame.2.1, hsame.2.2]
      exact ⟨hlease, (hw.at_loc hloc :)⟩
    next hshare =>
      rw [if_neg hshare]
      exact h.set_worker fun _ _ hw => (hw.at_loc hloc :)
  -- `share_unit`
  case case32 unit _ _ => exact h.section (section_collect_global_backbone h.down I unit (some id)) ht rfl rfl

/-- A step of a backbone thread, which has no lease but may close nodes. -/
theorem RunInv.exec_backbones (h : RunInv cfg s) (ht : TimelySection cfg s s'.b)
    (hexec : exec_backbones I cfg s id (s.backbones id) a = some s') : RunInv cfg s' := by
  revert hexec
  fun_cases parallel.exec_backbones I cfg s id (s.backbones id) a <;> rintro ⟨⟩
  case case1 | case7 => exact h.section (.refl h.down) ht rfl rfl
  case case2 backbone => exact h.section (section_collect_global_backbone h.down I backbone none) ht rfl rfl
  -- the answers of `probe_literal` and `check_chunk`
  case case3 core _ hcheck | case8 core _ _ hcheck =>
    obtain ⟨-, rfl⟩ := check_eq hcheck (by simp)
    exact h.section ((stopped_set_unsat s.b core).section h.down) ht rfl rfl
  case case4 hcheck | case9 hcheck =>
    obtain ⟨-, rfl⟩ := check_eq hcheck (by simp)
    exact h.section (section_collect_global_backbone h.down I _ none) ht rfl rfl
  case case5 mdl hcheck | case11 mdl hcheck =>
    obtain ⟨-, rfl⟩ := check_eq hcheck (by simp)
    exact h.section ((stopped_set_sat s.b mdl).section h.down) ht rfl rfl
  case case6 r _ b hcheck _ _ | case12 r _ b hcheck _ _ =>
    have hsec : Section cfg none s.b _ := section_check h.down false r
    rw [hcheck] at hsec
    exact h.section hsec ht rfl rfl
  case case10 hcheck =>
    obtain ⟨-, rfl⟩ := check_eq hcheck (by simp)
    exact h.section (.refl h.down) ht rfl rfl

/-- A step of the minimiser, which has no lease but may close nodes. -/
theorem RunInv.exec_minimizer (h : RunInv cfg s) (ht : TimelySection cfg s s'.b)
    (hexec : exec_minimizer I cfg asms s s.minimizer a = some s') : RunInv cfg s' := by
  revert hexec
  fun_cases parallel.exec_minimizer I cfg asms s s.minimizer a <;> intro hexec <;> try cases hexec
  -- `take_job`
  case case1 =>
    obtain ⟨⟨job, b⟩, hjob, rfl⟩ := map_eq_some_iff.mp hexec
    refine h.section ?_ ht rfl rfl
    revert hjob
    fun_cases wait_for_core_min_job s.b with
    | case1 | case3 => simp
    | case2 =>
      intro hjob
      obtain ⟨-, rfl⟩ := Prod.mk.inj (some.inj hjob)
      exact .of_grows h.down (.refl _) (fun h => h) fun _ _ => ⟨rfl, rfl⟩
  case case3 | case7 | case8 | case9 | case10 | case12 => exact h.section (.refl h.down) ht rfl rfl
  -- `trial` with a model
  case case6 mdl _ => exact h.section ((stopped_set_sat s.b mdl).section h.down) ht rfl rfl
  -- `publish`
  case case14 source size core _ b =>
    refine h.section ?_ ht rfl rfl
    unfold b
    split
    · exact section_publish h.down source size core
    · exact .refl h.down

omit [DecidableEq E] in
theorem RunInv.exec_sls (h : RunInv cfg s) (ht : TimelySection cfg s s'.b)
    (hexec : exec_sls s a = some s') : RunInv cfg s' := by
  revert hexec
  fun_cases parallel.exec_sls s a <;> rintro ⟨⟩
  case case1 mdl => exact h.section ((stopped_set_sat s.b mdl).section h.down) ht rfl rfl
  case case3 msg _ => exact h.section ((stopped_set_exception_msg s.b msg).section h.down) ht rfl rfl
  case case2 | case4 => exact h.section (.refl h.down) ht rfl rfl

theorem RunInv.exec (h : RunInv cfg s) (htimely : Timely I cfg asms s a)
    (hexec : exec I cfg asms s a = some s') : RunInv cfg s' := by
  have ht : TimelySection cfg s s'.b := htimely s' hexec
  revert hexec
  fun_cases parallel.exec I cfg asms s a with
  | case2 _ _ _ hid => exact h.exec_worker hid ht
  | case4 => exact h.exec_backbones ht
  | case6 => exact h.exec_minimizer ht
  | case8 => exact h.exec_sls ht
  | case1 | case3 | case5 | case7 | case9 => simp

end Steps

theorem RunInv.init : RunInv cfg (init : threads E M) where
  down p d hd hclosed := absurd (closed_iff.mpr ⟨d, hd, hclosed⟩) (not_closed_init 1000 p)
  root_valid := rfl
  root _ := nofun
  leases _ _ _ := nofun
  workers _ _ _ := ⟨.inl rfl, rfl⟩

/-- In a run in which the signals for canceled leases reach only workers that are about to test their lease, a
worker returns only after a verdict or an exception, all workers never return without one, and a worker that
checks a cube has no signal but one for the lease of this cube. -/
theorem workers_not_lost [DecidableEq E] (I : Interp E M) (cfg : config) (asms : List E) {s : threads E M}
    (h : Reaches (exec I cfg asms) (Timely I cfg asms) init s) :
    (∀ id < cfg.num_workers, (s.workers id).loc = .returned → s.b.m_state ≠ .is_running) ∧
    (0 < cfg.num_workers → (∀ id < cfg.num_workers, (s.workers id).loc = .returned) →
      s.b.get_result false ≠ .error (.z3_exception "inconsistent end state") ∨ s.b.m_state = .is_exception_msg) ∧
    (∀ id < cfg.num_workers, s.b.m_state = .is_running → (s.workers id).loc = .checking →
      s.b.m_cancel id = pending (s.b.m_worker_leases id) ∧ Lent (s.workers id) (s.b.m_worker_leases id)) := by
  have hinv : RunInv cfg s := h.invariant .init fun s a s' hs ha hexec => hs.exec ha hexec
  have hreturned : ∀ id < cfg.num_workers, (s.workers id).loc = .returned → s.b.m_state ≠ .is_running := by
    intro id hid hloc hrun
    exact (hinv.workers hrun id hid).at_loc hloc
  refine ⟨hreturned, fun hpos hall => ?_, fun id hid hrun hloc => ?_⟩
  · have hstop := hreturned 0 hpos (hall 0 hpos)
    cases hstate : s.b.m_state with
    | is_running => exact absurd hstate hstop
    | is_exception_msg => exact .inr rfl
    | is_sat | is_unsat | is_exception_code => exact .inl (by simp [get_result, hstate])
  · exact ((hinv.workers hrun id hid).at_loc hloc).symm

/-- Two workers and a formula that excludes `x`: worker 0 splits the root on `x` and then the node for `x`, and
worker 1 ends on the node for `x` and not `y` while worker 0 is on the node for `x` and `y`. -/
def two_workers : List (step (Bool × Bool → Bool) (Bool × Bool)) :=
  [.get_cube 0, .collect_shared_clauses 0, .collect_backbone_candidates 0, .check_cube 0 .l_undef,
    .lease_canceled 0, .inc 0,
    .get_cube 1, .collect_shared_clauses 1, .collect_backbone_candidates 1, .check_cube 1 .l_undef,
    .lease_canceled 1, .inc 1,
    .try_split 0 Prod.fst 1500 0, .next_cube 0, .get_cube 0,
    .try_split 1 Prod.fst 1500 0, .next_cube 1, .get_cube 1,
    .collect_shared_clauses 0, .collect_backbone_candidates 0, .check_cube 0 .l_undef, .lease_canceled 0, .inc 0,
    .try_split 0 Prod.snd 2250 0, .next_cube 0, .get_cube 0,
    .collect_shared_clauses 1, .collect_backbone_candidates 1, .check_cube 1 .l_undef, .lease_canceled 1, .inc 1,
    .try_split 1 Prod.snd 2250 0, .next_cube 1, .get_cube 1,
    .collect_shared_clauses 0, .collect_backbone_candidates 0, .check_cube 0 .l_undef,
    .collect_shared_clauses 1, .collect_backbone_candidates 1, .check_cube 1 (.l_false [Prod.fst]),
    .lease_canceled 1, .inc 1]

/-- Whether the run has only checks that are correct for the formula that excludes `x`. -/
def excludes_fst (s : threads (Bool × Bool → Bool) (Bool × Bool)) : step (Bool × Bool → Bool) (Bool × Bool) → Bool
  | .check_cube _ .l_undef => true
  | .check_cube id (.l_false core) => decide (core = [Prod.fst]) && decide (Prod.fst ∈ (s.workers id).cube)
  | .get_cube _ | .collect_shared_clauses _ | .collect_backbone_candidates _ | .lease_canceled _ | .dec_cancel _
  | .inc _ | .try_split _ _ _ _ | .report _ | .next_cube _ => true
  | _ => false

/-- The checks of `excludes_fst` are correct where the first variable is false. -/
theorem checked_of_excludes_fst (s : threads (Bool × Bool → Bool) (Bool × Bool))
    (a : step (Bool × Bool → Bool) (Bool × Bool)) (h : excludes_fst s a) :
    Checked (ofBool (Bool × Bool)) {fun m => !m.1} [] s a := by
  cases a with
  | check_cube id r =>
    cases r with
    | l_false core =>
      simp only [excludes_fst, and_eq_true, decide_eq_true_eq] at h
      obtain ⟨rfl, hmem⟩ := h
      refine ⟨fun e he => mem_singleton.mp he ▸ hmem, ?_⟩
      exact core_ofBool [fun m => !m.1] (fun f hf => .inl (mem_singleton.mp hf)) (by decide)
    | l_undef => trivial
    | _ => cases h
  | get_cube | collect_shared_clauses | collect_backbone_candidates | lease_canceled | dec_cancel | inc | try_split
  | report | next_cube => trivial
  | _ => cases h

def location.is_returned : location E M → Bool
  | .returned => true
  | _ => false

theorem location.eq_returned {loc : location E M} (h : loc.is_returned) : loc = .returned := by
  cases loc <;> first | rfl | cases h

/-- Worker 0 has tested its lease when worker 1 closes the node for `x`: the signal is seen by the next test of the
limit, and worker 0 returns without a verdict. -/
theorem worker_lost_to_late_cancel :
    ∃ s, Reaches (exec (ofBool (Bool × Bool)) { num_workers := 2 } [])
        (Checked (ofBool (Bool × Bool)) {fun m => !m.1} []) init s ∧
      (s.workers 0).loc = .returned ∧ s.b.m_state = .is_running := by
  have hrun : (run
      (fun s a => if excludes_fst s a then exec (ofBool (Bool × Bool)) { num_workers := 2 } [] s a else none)
      init (two_workers ++ [.lease_canceled 0, .report 1, .inc 0])).map
        (fun s => (s.workers 0).loc.is_returned && decide (s.b.m_state = .is_running)) = some true := by
    decide
  obtain ⟨s, hs, hlost⟩ := map_eq_some_iff.mp hrun
  rw [and_eq_true, decide_eq_true_eq] at hlost
  exact ⟨s, .of_guarded_run checked_of_excludes_fst hs, location.eq_returned hlost.1, hlost.2⟩

/-- Whether the signals of the step reach workers that are about to test their lease. -/
def timely (s : threads (Bool × Bool → Bool) (Bool × Bool)) (a : step (Bool × Bool → Bool) (Bool × Bool)) : Bool :=
  match exec (ofBool (Bool × Bool)) { num_workers := 2 } [] s a with
  | none => true
  | some s' => (range 2).all fun id =>
    (s.b.m_worker_leases id).cancel_signaled || !(s'.b.m_worker_leases id).cancel_signaled ||
      interruptible { num_workers := 2 } (s.workers id).loc

theorem timely_spec (s : threads (Bool × Bool → Bool) (Bool × Bool))
    (a : step (Bool × Bool → Bool) (Bool × Bool)) (h : timely s a) :
    Timely (ofBool (Bool × Bool)) { num_workers := 2 } [] s a := by
  intro s' hexec id hid hnot hsignaled
  rw [timely, hexec] at h
  have hall := all_eq_true.mp h id (mem_range.mpr hid)
  simpa [hnot, hsignaled] using hall

/-- When worker 0 tests its lease after worker 1 has closed the node it gives up the cube and goes on. -/
theorem workers_not_lost_two :
    ∃ s, run (fun s a => if timely s a then exec (ofBool (Bool × Bool)) { num_workers := 2 } [] s a
        else none) init (two_workers ++ [.report 1, .lease_canceled 0, .dec_cancel 0]) = some s ∧
      s.b.m_state = .is_running ∧ (s.workers 0).loc ≠ .returned := by
  have hrun : (run (fun s a => if timely s a then exec (ofBool (Bool × Bool)) { num_workers := 2 } [] s a else none)
      init (two_workers ++ [.report 1, .lease_canceled 0, .dec_cancel 0])).map
        (fun s => decide (s.b.m_state = .is_running)) = some true := by
    decide
  obtain ⟨s, hs, hstate⟩ := map_eq_some_iff.mp hrun
  rw [decide_eq_true_eq] at hstate
  refine ⟨s, hs, hstate, fun hloc => ?_⟩
  exact (workers_not_lost _ _ _ (.of_guarded_run timely_spec hs)).1 0 (by decide) hloc hstate

end smt.parallel
