import BooledASS.Parallel.Threads
import BooledASS.Parallel.TreeRun

open Bool smt.parallel.batch_manager

namespace smt.parallel

open search_tree tree

variable {E M : Type} {cfg : config} {t t' : tree E} {lease : node_lease} {b b' b'' : batch_manager E M}
  {src : Option Nat}

/-- A lease that was signaled is on a closed node, and any other lease is not canceled. -/
def LeaseInv (t : tree E) (lease : node_lease) : Prop :=
  ∀ n, lease.leased_node = some n →
    if lease.cancel_signaled then t.Closed n else t.is_lease_canceled n lease.cancel_epoch = false

variable {epoch : UInt32} {n : node_ptr}

theorem is_lease_canceled_eq_false :
    t.is_lease_canceled n epoch = false ↔ ∃ d, t.get n = some d ∧ d.m_status ≠ .closed ∧ d.m_cancel_epoch = epoch := by
  rw [tree.is_lease_canceled]
  cases t.get n with
  | none => simp
  | some d => simp

theorem is_lease_canceled_of_closed (h : t.Closed n) : t.is_lease_canceled n epoch := by
  obtain ⟨d, hd, hclosed⟩ := closed_iff.mp h
  simp [tree.is_lease_canceled, hd, hclosed]

/-- A live lease is canceled by the closing of its node only. -/
theorem closed_of_is_lease_canceled (hlive : t.is_lease_canceled n epoch = false)
    (hext : Extends t t') (hcanceled : t'.is_lease_canceled n epoch) : t'.Closed n := by
  obtain ⟨d, hd, -, hepoch⟩ := is_lease_canceled_eq_false.mp hlive
  obtain ⟨d', hd'⟩ := Option.isSome_iff_exists.mp (hext.valid n (Option.isSome_of_eq_some hd))
  by_contra hopen
  have hopen' : d'.m_status ≠ .closed := fun h => hopen (closed_iff.mpr ⟨d', hd', h⟩)
  have hfalse : t'.is_lease_canceled n epoch = false :=
    is_lease_canceled_eq_false.mpr ⟨d', hd', hopen', (hext.epoch n d d' hd hd' hopen').trans hepoch⟩
  rw [hfalse] at hcanceled
  cases hcanceled

/-- After the tree has grown, a lease that was not signaled is still not canceled, and the node of one that was
signaled is still closed. -/
theorem LeaseInv.grow (h : LeaseInv t lease) (hg : Grows t t') : LeaseInv t' lease := by
  intro n hn
  have hold := h n hn
  split at hold
  next hsignaled =>
    rw [if_pos hsignaled]
    exact hg.closed n hold
  next hsignaled =>
    rw [if_neg hsignaled]
    by_contra hcanceled
    rw [not_eq_false] at hcanceled
    have hclosed := hg.open_ n (closed_of_is_lease_canceled hold hg.toExtends hcanceled)
    rw [is_lease_canceled_of_closed hclosed] at hold
    cases hold

/-- Leases that are given up, or known to be canceled. -/
def Free (lease : node_lease) : Prop := lease.leased_node = none ∨ lease.cancel_signaled

/-- Nothing happens to a worker's lease and counter, or it is told that the lease is canceled. -/
def Told (b b' : batch_manager E M) (id : Nat) : Prop :=
  (b'.m_worker_leases id = b.m_worker_leases id ∧ b'.m_cancel id = b.m_cancel id) ∨
    ((b.m_worker_leases id).cancel_signaled = false ∧ (b.m_worker_leases id).leased_node.isSome ∧
      b'.m_worker_leases id = { b.m_worker_leases id with cancel_signaled := true } ∧
      b'.m_cancel id = b.m_cancel id + 1)

theorem Told.trans {id : Nat} (h : Told b b' id) (h' : Told b' b'' id) : Told b b'' id := by
  rcases h with ⟨h1, h2⟩ | ⟨h1, h2, h3, h4⟩
  · unfold Told at h' ⊢
    rwa [h1, h2] at h'
  · rcases h' with ⟨h5, h6⟩ | ⟨h5, -⟩
    · exact .inr ⟨h1, h2, h5.trans h3, h6.trans h4⟩
    · rw [h3] at h5
      cases h5

/-- What a section that holds the mutex does to the workers other than `src`, as long as there is no verdict. -/
structure Section (cfg : config) (src : Option Nat) (b b' : batch_manager E M) : Prop where
  shuts : Shuts b.m_search_tree b'.m_search_tree
  stays : b'.m_state = .is_running → b.m_state = .is_running
  root : b'.m_state = .is_running → ¬ b.m_search_tree.Closed [] → ¬ b'.m_search_tree.Closed []
  told : b'.m_state = .is_running → ∀ id, some id ≠ src → Told b b' id
  leases : b'.m_state = .is_running → ∀ id < cfg.num_workers, some id ≠ src →
    LeaseInv b.m_search_tree (b.m_worker_leases id) → LeaseInv b'.m_search_tree (b'.m_worker_leases id)

theorem Section.trans (h : Section cfg src b b') (h' : Section cfg src b' b'') : Section cfg src b b'' where
  shuts := h.shuts.trans h'.shuts
  stays hrun := h.stays (h'.stays hrun)
  root hrun hopen := h'.root hrun (h.root (h'.stays hrun) hopen)
  told hrun id hid := (h.told (h'.stays hrun) id hid).trans (h'.told hrun id hid)
  leases hrun id hlt hid hlease := h'.leases hrun id hlt hid (h.leases (h'.stays hrun) id hlt hid hlease)

/-- A section that closes no node and leaves the leases and counters of the other workers. -/
theorem Section.of_grows (hdown : b.m_search_tree.m_root.Down) (hg : Grows b.m_search_tree b'.m_search_tree)
    (hstate : b'.m_state = .is_running → b.m_state = .is_running)
    (hsame : ∀ id, some id ≠ src → b'.m_worker_leases id = b.m_worker_leases id ∧ b'.m_cancel id = b.m_cancel id) :
    Section cfg src b b' where
  shuts := ⟨hg.down hdown, hg.toExtends⟩
  stays := hstate
  root _ hopen hclosed := hopen (hg.open_ [] hclosed)
  told _ id hid := .inl (hsame id hid)
  leases _ id _ hid hlease := (hsame id hid).1 ▸ hlease.grow hg

theorem Section.refl (hdown : b.m_search_tree.m_root.Down) : Section cfg src b b :=
  .of_grows hdown (.refl _) (fun h => h) fun _ _ => ⟨rfl, rfl⟩

/-- After a verdict nothing has to be shown. -/
theorem Section.of_stopped (hshuts : Shuts b.m_search_tree b'.m_search_tree) (hstop : b'.m_state ≠ .is_running) :
    Section cfg src b b' where
  shuts := hshuts
  stays h := absurd h hstop
  root h := absurd h hstop
  told h := absurd h hstop
  leases h := absurd h hstop

/-- A verdict or an exception is recorded. -/
structure Stopped (b b' : batch_manager E M) : Prop where
  m_state : b'.m_state ≠ .is_running
  m_search_tree : b'.m_search_tree = b.m_search_tree

theorem Stopped.ite (h : Stopped b b') : Stopped b (if b.m_state ≠ .is_running then b else b') := by
  split
  next hstop => exact ⟨hstop, rfl⟩
  next => exact h

section Verdicts

variable (b)

theorem stopped_set_sat (mdl : M) : Stopped b (b.set_sat mdl) := .ite ⟨nofun, rfl⟩
theorem stopped_set_unsat (core : List E) : Stopped b (b.set_unsat core) := .ite ⟨nofun, rfl⟩
theorem stopped_set_exception_code (code : Nat) : Stopped b (b.set_exception_code code) := .ite ⟨nofun, rfl⟩
theorem stopped_set_exception_msg (msg : String) : Stopped b (b.set_exception_msg msg) := .ite ⟨nofun, rfl⟩

theorem stopped_set_exception (canceled : Bool) (ex : exception) :
    b.set_exception canceled ex = b ∨ Stopped b (b.set_exception canceled ex) := by
  fun_cases set_exception b canceled ex with
  | case1 | case3 => exact .inl rfl
  | case2 => exact .inr (stopped_set_exception_code b _)
  | case4 | case5 => exact .inr (stopped_set_exception_msg b _)

theorem stopped_check (canceled : Bool) (r : answer E M) :
    (b.check canceled r).2 = b ∨ Stopped b (b.check canceled r).2 := by
  cases r with
  | throws ex => exact stopped_set_exception b canceled ex
  | _ => exact .inl rfl

end Verdicts

section Sections

variable (hdown : b.m_search_tree.m_root.Down)
include hdown

theorem Stopped.section (h : Stopped b b') : Section cfg src b b' := by
  refine .of_stopped ?_ h.m_state
  rw [h.m_search_tree]
  exact .refl hdown

theorem section_check (canceled : Bool) (r : answer E M) : Section cfg src b (b.check canceled r).2 := by
  rcases stopped_check b canceled r with h | h
  · exact h.symm ▸ .refl hdown
  · exact h.section hdown

/-- The tree is changed and nothing else that the workers see. -/
structure Frame (b b' : batch_manager E M) : Prop where
  shuts : Shuts b.m_search_tree b'.m_search_tree
  m_state : b'.m_state = b.m_state
  m_worker_leases : b'.m_worker_leases = b.m_worker_leases
  m_cancel : b'.m_cancel = b.m_cancel

omit hdown in
theorem Frame.trans (h : Frame b b') (h' : Frame b' b'') : Frame b b'' where
  shuts := h.shuts.trans h'.shuts
  m_state := h'.m_state.trans h.m_state
  m_worker_leases := h'.m_worker_leases.trans h.m_worker_leases
  m_cancel := h'.m_cancel.trans h.m_cancel

theorem Frame.refl : Frame b b := ⟨.refl hdown, rfl, rfl, rfl⟩

omit hdown in
/-- The workers whose nodes have been closed are told so. -/
theorem Frame.cancel_closed_leases (h : Frame b b') (cfg : config) (src : Option Nat) :
    Section cfg src b (b'.cancel_closed_leases_unlocked cfg src).set_closed := by
  rw [set_closed]
  split
  next => exact .of_stopped ⟨h.shuts.down, h.shuts.ext⟩ nofun
  next hopen =>
    refine ⟨⟨h.shuts.down, h.shuts.ext⟩, fun hrun => h.m_state ▸ hrun, fun _ _ => hopen, fun _ id _ => ?_,
      fun _ id hlt hsrc hlease n hn => ?_⟩
    · unfold Told cancel_closed_leases_unlocked
      simp only [h.m_worker_leases, h.m_cancel]
      split
      next htold =>
        simp only [to_cancel, and_eq_true, not_eq_true'] at htold
        exact .inr ⟨htold.1.2, htold.1.1.2, rfl, rfl⟩
      next => exact .inl ⟨rfl, rfl⟩
    · have hext := h.shuts.ext
      simp only [cancel_closed_leases_unlocked, h.m_worker_leases] at hn ⊢
      split at hn
      next htold =>
        -- the lease was live, and its node has been closed
        rw [if_pos htold]
        simp only [to_cancel, and_eq_true, not_eq_true'] at htold
        have hlive := hlease n hn
        rw [if_neg (by simp [htold.1.2])] at hlive
        refine closed_of_is_lease_canceled hlive hext ?_
        have hcanceled := htold.2
        rwa [is_lease_canceled, hn] at hcanceled
      next hnot =>
        rw [if_neg hnot]
        have hlive := hlease n hn
        split at hlive
        next hsignaled => rw [if_pos hsignaled]; exact hext.closed n hlive
        next hsignaled =>
          rw [if_neg hsignaled]
          by_contra hcanceled
          rw [not_eq_false] at hcanceled
          refine hnot ?_
          have hid : (some id != src) := by simpa using hsrc
          simp [to_cancel, hlt, hid, hn, hsignaled, is_lease_canceled, hcanceled]

theorem section_release_lease (id : Nat) (n : node_ptr) :
    Section cfg (some id) b (b.release_lease_unlocked (some id) n) := by
  rw [release_lease_unlocked]
  split
  next =>
    refine .of_grows hdown (grows_update_node fun d _ => tame_dec_active_workers d) (fun h => h) fun id' hid => ?_
    have hne : id' ≠ id := fun heq => hid (congrArg some heq)
    exact ⟨Function.update_of_ne hne _ _, rfl⟩
  next => exact .refl hdown

variable [DecidableEq E]

theorem frame_tree_backtrack (core : List E) (n : node_ptr) : Frame b (b.tree_backtrack core n) := by
  rw [tree_backtrack]
  split
  next => exact ⟨.refl hdown, rfl, rfl, rfl⟩
  next t ht => exact ⟨shuts_backtrack hdown ht, rfl, rfl, rfl⟩

/-- Without a call for a target nothing is changed. -/
theorem frame_backtrack_targets (core : List E) (targets : List node_lease) (did : Bool) :
    Frame b (targets.foldl (backtrack_targets core) (did, b)).2 ∧
      ((targets.foldl (backtrack_targets core) (did, b)).1 = false →
        did = false ∧ (targets.foldl (backtrack_targets core) (did, b)).2 = b) := by
  induction targets generalizing b did with
  | nil => exact ⟨.refl hdown, fun h => ⟨h, rfl⟩⟩
  | cons target targets ih =>
    rw [List.foldl_cons]
    fun_cases backtrack_targets core (did, b) target with
    | case1 | case2 => exact ih hdown did
    | case3 n =>
      have hframe := frame_tree_backtrack hdown core n
      obtain ⟨hrec, hdid⟩ := ih hframe.shuts.down true
      exact ⟨hframe.trans hrec, fun h => nomatch (hdid h).1⟩

/-- Conflicts that are applied to other nodes than a leased one. -/
theorem section_backtrack_unlocked (core : List E) (targets : List node_lease) :
    Section cfg none b (b.backtrack_unlocked cfg none core {} targets) := by
  rw [backtrack_unlocked]
  split
  next => exact .refl hdown
  next =>
    obtain ⟨hframe, hdid⟩ := frame_backtrack_targets hdown core targets false
    show Section cfg none b (if !(targets.foldl (backtrack_targets core) (false, b)).1 then _ else _)
    split
    next hnot =>
      rw [not_eq_true'] at hnot
      rw [show (targets.foldl (backtrack_targets core) (b.backtrack_lease none core {})).2 = b from (hdid hnot).2]
      exact .refl hdown
    next => exact hframe.cancel_closed_leases cfg none

/-- The call for a live lease: the lease is given up before nodes are closed. -/
theorem backtrack_eq (cfg : config) (hrun : b.m_state = .is_running) (id : Nat) {n : node_ptr} {lease : node_lease}
    (hn : lease.leased_node = some n) (hlive : is_lease_canceled b.m_search_tree lease = false) (core : List E) :
    ∃ b', Frame (b.release_lease_unlocked (some id) n) b' ∧
      b.backtrack cfg id core lease = (b'.cancel_closed_leases_unlocked cfg (some id)).set_closed := by
  have hrelease : Section cfg (some id) b (b.release_lease_unlocked (some id) n) := section_release_lease hdown id n
  have hframe := frame_tree_backtrack hrelease.shuts.down core n
  obtain ⟨hframe', hdid⟩ := frame_backtrack_targets hframe.shuts.down core
    (collect_matching_targets_unlocked b.m_search_tree lease.leased_node
      (lease.leased_node.bind b.m_search_tree.literal) core) true
  have hlease : b.backtrack_lease (some id) core lease =
      (true, (b.release_lease_unlocked (some id) n).tree_backtrack core n) := by
    unfold backtrack_lease
    rw [hn]
    simp [hlive]
  refine ⟨_, hframe.trans hframe', ?_⟩
  rw [batch_manager.backtrack, backtrack_unlocked, if_neg (by simp [hrun]), hlease]
  refine if_neg fun hnot => ?_
  rw [not_eq_true'] at hnot
  exact nomatch (hdid hnot).1

/-- A worker closes its own node: it has given up its lease before. -/
theorem section_backtrack (hrun : b.m_state = .is_running) {id : Nat} {n : node_ptr} {lease : node_lease}
    (hn : lease.leased_node = some n) (hlive : is_lease_canceled b.m_search_tree lease = false) (core : List E) :
    Section cfg (some id) (b.release_lease_unlocked (some id) n) (b.backtrack cfg id core lease) := by
  obtain ⟨b', hframe, heq⟩ := backtrack_eq hdown cfg hrun id hn hlive core
  rw [heq]
  exact hframe.cancel_closed_leases cfg (some id)

theorem section_collect_clause (source : Option Nat) (clause : E) :
    Section cfg src b (b.collect_clause source clause) := by
  rw [collect_clause]
  split
  next => exact .refl hdown
  next => exact .of_grows hdown (.refl _) (fun h => h) fun _ _ => ⟨rfl, rfl⟩

theorem section_backtrack_full_cube (targets : List node_lease) :
    Section cfg none b (targets.foldl (backtrack_full_cube cfg) b) := by
  induction targets generalizing b with
  | nil => exact .refl hdown
  | cons target targets ih =>
    rw [List.foldl_cons]
    fun_cases backtrack_full_cube cfg b target with
    | case1 | case2 => exact ih hdown
    | case3 n =>
      have hsection : Section cfg none b (b.backtrack_unlocked cfg none (full_path b.m_search_tree n) {} [target]) :=
        section_backtrack_unlocked hdown _ _
      exact hsection.trans (ih hsection.shuts.down)

theorem section_collect_global_backbone (I : Interp E M) (backbone : E) (source : Option Nat) :
    Section cfg none b (b.collect_global_backbone cfg I backbone source).2 := by
  have hinsert : Section cfg none b { b with m_global_backbones := backbone :: b.m_global_backbones } :=
    .of_grows hdown (.refl _) (fun h => h) fun _ _ => ⟨rfl, rfl⟩
  have hclause := hinsert.trans (section_collect_clause hinsert.shuts.down source backbone)
  fun_cases collect_global_backbone cfg b I backbone source with
  | case1 => exact .refl hdown
  | case2 => exact hclause
  | case3 => exact hclause.trans (section_backtrack_full_cube hclause.shuts.down _)
  | case4 => exact hclause.trans (section_backtrack_unlocked hclause.shuts.down _ _)

omit [DecidableEq E] in
theorem section_try_split (I : Interp E M) (id : Nat) (lease : node_lease) (atom : E) (effort rand : UInt32) :
    Section cfg (some id) b (b.try_split I id lease atom effort rand) := by
  fun_cases try_split b I id lease atom effort rand with
  | case1 | case2 | case3 => exact .refl hdown
  | case4 n =>
    have hsplit : Section cfg (some id) b { b with
          m_search_tree :=
            (b.m_search_tree.try_split n lease.cancel_epoch atom (I.mk_not atom) effort rand).2 } :=
      .of_grows hdown (grows_try_split _ _ _ _ _ _ _) (fun h => h) fun _ _ => ⟨rfl, rfl⟩
    exact hsplit.trans (section_release_lease hsplit.shuts.down id n)

theorem section_enqueue (source : Option node_ptr) (core : List E) :
    Section cfg src b (b.enqueue_core_minimization cfg source core) := by
  unfold enqueue_core_minimization
  repeat' split
  all_goals exact .of_grows hdown (.refl _) (fun h => h) fun _ _ => ⟨rfl, rfl⟩

theorem section_publish (source : node_ptr) (size : Nat) (core : List E) :
    Section cfg none b (b.publish_minimized_core cfg source size core) := by
  fun_cases publish_minimized_core cfg b source size core with
  | case1 | case2 => exact .refl hdown
  | case3 => exact .of_stopped (.refl hdown) nofun
  | case4 lit core =>
    have hframe := frame_tree_backtrack hdown (lit :: core) source
    obtain ⟨hframe', -⟩ := frame_backtrack_targets hframe.shuts.down (lit :: core)
      (collect_matching_targets_unlocked (b.tree_backtrack (lit :: core) source).m_search_tree (some source)
        (some lit) (lit :: core)) true
    exact (hframe.trans hframe').cancel_closed_leases cfg none

omit [DecidableEq E] in
theorem section_get_cube (id : Nat) (first : Bool) : Section cfg (some id) b (b.get_cube id first).2 := by
  have hgrow : Grows b.m_search_tree
      (if first then b.m_search_tree.activate_root else b.m_search_tree.activate_best_node).2 := by
    cases first with
    | true => exact grows_activate_root _
    | false => exact grows_activate_best_node _
  fun_cases get_cube b id first with
  | case1 | case2 => exact .refl hdown
  | case3 => exact .of_grows hdown hgrow (fun h => h) fun _ _ => ⟨rfl, rfl⟩
  | case4 =>
    refine .of_grows hdown hgrow (fun h => h) fun id' hid => ?_
    exact ⟨Function.update_of_ne (fun heq => hid (congrArg some heq)) _ _, rfl⟩

end Sections

end smt.parallel
