import BooledASS.Logic.Lists
import BooledASS.Parallel.BatchManager
import BooledASS.Parallel.TreeRun

open List Option smt.parallel.batch_manager

namespace smt.parallel

open search_tree tree

variable {E M : Type} {I : Interp E M} {B : Set E} {asms : List E} {G : M → Prop}

/-- The core is made of assumptions and of literals on the path of the node. -/
def FromPath (asms : List E) (t : tree E) (n : node_ptr) (core : List E) : Prop := ∀ l ∈ core, l ∈ asms ∨ t.OnPath n l

/-- The invariant of the batch manager, for facts that are entailed by `B` and models with the property `G`. -/
structure ManagerInv (I : Interp E M) (B : Set E) (asms : List E) (G : M → Prop) (b : batch_manager E M) :
    Prop where
  tree : Solved I B asms b.m_search_tree
  trail : ∀ sc ∈ b.shared_clause_trail, I.Entails B sc.clause
  global_backbones : ∀ e ∈ b.m_global_backbones, I.Entails B e
  jobs : ∀ job ∈ b.m_core_min_jobs, I.Core B job.core ∧ FromPath asms b.m_search_tree job.source job.core
  conflicts : ∀ c ∈ b.conflicts, FromPath asms b.m_search_tree c.1 c.2
  running : b.m_state = .is_running → b.m_unsat_core = []
  unsat : b.m_state = .is_unsat → I.Core B b.m_unsat_core ∧ ∀ e ∈ b.m_unsat_core, e ∈ asms
  sat : b.m_state = .is_sat → ∃ mdl, b.model = some mdl ∧ G mdl

/-- What a section that holds the mutex leaves. -/
structure Kept (I : Interp E M) (B : Set E) (asms : List E) (G : M → Prop) (b b' : batch_manager E M) : Prop where
  inv : ManagerInv I B asms G b'
  ext : Extends b.m_search_tree b'.m_search_tree

variable {b b' b'' : batch_manager E M} {core : List E} {n : node_ptr} {t : search_tree.tree E} {lease : node_lease}

theorem FromPath.ext {t t' : tree E} (h : FromPath asms t n core)
    (hext : Extends t t') : FromPath asms t' n core := fun l hl => (h l hl).imp_right hext.onPath

theorem Kept.refl (h : ManagerInv I B asms G b) : Kept I B asms G b b := ⟨h, .refl _⟩

theorem Kept.trans (h : Kept I B asms G b b') (h' : Kept I B asms G b' b'') : Kept I B asms G b b'' :=
  ⟨h'.inv, h.ext.trans h'.ext⟩

/-- A new tree. -/
theorem ManagerInv.set_tree (h : ManagerInv I B asms G b)
    (ht : Solved I B asms t) (hext : Extends b.m_search_tree t) : Kept I B asms G b { b with m_search_tree := t } where
  inv :=
    { h with
      tree := ht
      jobs := fun job hjob => ⟨(h.jobs job hjob).1, (h.jobs job hjob).2.ext hext⟩
      conflicts := fun c hc => (h.conflicts c hc).ext hext }
  ext := hext

section Verdicts

section

variable (h : ManagerInv I B asms G b)
include h

theorem ManagerInv.set_sat {mdl : M} (hmdl : G mdl) : Kept I B asms G b (b.set_sat mdl) := by
  rw [batch_manager.set_sat]
  split
  next => exact .refl h
  next => exact ⟨{ h with running := nofun, unsat := nofun, sat := fun _ => ⟨mdl, rfl, hmdl⟩ }, .refl _⟩

theorem ManagerInv.set_exception_code (code : Nat) : Kept I B asms G b (b.set_exception_code code) := by
  rw [batch_manager.set_exception_code]
  split
  next => exact .refl h
  next => exact ⟨{ h with running := nofun, unsat := nofun, sat := nofun }, .refl _⟩

theorem ManagerInv.set_exception_msg (msg : String) : Kept I B asms G b (b.set_exception_msg msg) := by
  rw [batch_manager.set_exception_msg]
  split
  next => exact .refl h
  next => exact ⟨{ h with running := nofun, unsat := nofun, sat := nofun }, .refl _⟩

theorem ManagerInv.set_exception (canceled : Bool) (ex : exception) :
    Kept I B asms G b (b.set_exception canceled ex) := by
  fun_cases batch_manager.set_exception b canceled ex with
  | case1 | case3 => exact .refl h
  | case2 => exact h.set_exception_code _
  | case4 | case5 => exact h.set_exception_msg _

theorem ManagerInv.check (canceled : Bool) (r : answer E M) : Kept I B asms G b (b.check canceled r).2 := by
  cases r with
  | throws ex => exact h.set_exception canceled ex
  | _ => exact .refl h

theorem ManagerInv.set_unsat {core : List E} (hcore : I.Core B core)
    (hasms : ∀ e ∈ core, e ∈ asms) : Kept I B asms G b (b.set_unsat core) := by
  rw [batch_manager.set_unsat]
  split
  next => exact .refl h
  next hrun =>
    have hnil : b.m_unsat_core ++ core = core := by rw [h.running (not_not.mp hrun), nil_append]
    exact ⟨{ h with running := nofun, unsat := fun _ => hnil.symm ▸ ⟨hcore, hasms⟩, sat := nofun }, .refl _⟩

/-- The core of a closed root has assumptions only. -/
theorem ManagerInv.set_closed (hrun : b.m_state = .is_running) : Kept I B asms G b b.set_closed := by
  rw [batch_manager.set_closed]
  split
  next hclosed =>
    have hroot : ∀ e ∈ b.m_search_tree.core [], e ∈ asms := by
      intro e he
      refine (h.tree.inv.core_path [] hclosed e he).resolve_right fun hpath => ?_
      rw [onPath_nil, h.tree.inv.root_null] at hpath
      cases hpath
    have hnil : b.m_unsat_core ++ b.m_search_tree.core [] = b.m_search_tree.core [] := by
      rw [h.running hrun, nil_append]
    have hunsat := hnil.symm ▸ And.intro (h.tree.inv.core [] hclosed) hroot
    exact ⟨{ h with running := nofun, unsat := fun _ => hunsat, sat := nofun }, .refl _⟩
  next => exact .refl h

end

end Verdicts

theorem ManagerInv.cancel_closed_leases (h : ManagerInv I B asms G b) (cfg : config) (w : Option Nat) :
    Kept I B asms G b (b.cancel_closed_leases_unlocked cfg w) := ⟨{ h with }, .refl _⟩

theorem ManagerInv.release_lease (h : ManagerInv I B asms G b) (w : Option Nat) (n : node_ptr) :
    Kept I B asms G b (b.release_lease_unlocked w n) := by
  fun_cases release_lease_unlocked b w n with
  | case1 | case3 => exact .refl h
  | case2 =>
    have htame : ∀ d, b.m_search_tree.get n = some d → Tame (fun d => d.dec_active_workers) d :=
      fun d _ => tame_dec_active_workers d
    have hkept := h.set_tree (h.tree.update_node htame) (grows_update_node htame).toExtends
    exact ⟨{ hkept.inv with }, hkept.ext⟩

theorem release_lease_m_state (w : Option Nat) (n : node_ptr) : (b.release_lease_unlocked w n).m_state = b.m_state := by
  fun_cases release_lease_unlocked b w n <;> rfl

variable [DecidableEq E]

theorem ManagerInv.tree_backtrack (h : ManagerInv I B asms G b) (hcore : I.Core B core)
    (hpath : FromPath asms b.m_search_tree n core) : Kept I B asms G b (b.tree_backtrack core n) := by
  have hinv : ManagerInv I B asms G { b with conflicts := b.conflicts ++ [(n, core)] } :=
    { h with conflicts := Lists.forall_mem_concat h.conflicts hpath }
  rw [batch_manager.tree_backtrack]
  split
  next => exact ⟨{ hinv with }, .refl _⟩
  next t ht =>
    have hkept := hinv.set_tree (backtrack_spec h.tree.inv h.tree.up hcore hpath ht)
      (shuts_backtrack h.tree.inv.down ht).ext
    exact ⟨hkept.inv, hkept.ext⟩

theorem tree_backtrack_m_state (core : List E) (n : node_ptr) : (b.tree_backtrack core n).m_state = b.m_state := by
  rw [tree_backtrack]
  split <;> rfl

/-- What is known of the targets of a conflict. -/
def Targets (asms : List E) (t : search_tree.tree E) (core : List E) (targets : List node_lease) : Prop :=
  ∀ target ∈ targets, ∀ n, target.leased_node = some n → FromPath asms t n core

/-- The core is reported for every node that it closes, one after the other. It stays a core of each target, since the
tree only grows. -/
theorem ManagerInv.backtrack_targets (h : ManagerInv I B asms G b) (hcore : I.Core B core)
    (targets : List node_lease) (htargets : Targets asms b.m_search_tree core targets) (did : Bool) :
    Kept I B asms G b (targets.foldl (backtrack_targets core) (did, b)).2 ∧
      (targets.foldl (backtrack_targets core) (did, b)).2.m_state = b.m_state := by
  induction targets generalizing b did with
  | nil => exact ⟨.refl h, rfl⟩
  | cons target targets ih =>
    have hrest : Targets asms b.m_search_tree core targets := fun target' h' => htargets target' (.tail _ h')
    rw [foldl_cons]
    fun_cases backtrack_targets core (did, b) target with
    | case1 | case2 => exact ih h hrest did
    | case3 n hn =>
      have hkept := h.tree_backtrack hcore (htargets target (by simp) n hn)
      have hrec := ih hkept.inv (fun target' h' m hm => (hrest target' h' m hm).ext hkept.ext) true
      exact ⟨hkept.trans hrec.1, hrec.2.trans (tree_backtrack_m_state core n)⟩

theorem ManagerInv.backtrack_lease (h : ManagerInv I B asms G b) (w : Option Nat) (hcore : I.Core B core)
    (hlease : ∀ n, lease.leased_node = some n → FromPath asms b.m_search_tree n core) :
    Kept I B asms G b (b.backtrack_lease w core lease).2 ∧ (b.backtrack_lease w core lease).2.m_state = b.m_state := by
  fun_cases batch_manager.backtrack_lease b w core lease with
  | case1 | case2 => exact ⟨.refl h, rfl⟩
  | case3 n hn =>
    have hrelease := h.release_lease w n
    exact ⟨hrelease.trans (hrelease.inv.tree_backtrack hcore ((hlease n hn).ext hrelease.ext)),
      (tree_backtrack_m_state core n).trans (release_lease_m_state w n)⟩

/-- Closing the leased node and the other targets with a core that comes from their paths keeps the invariant. -/
theorem ManagerInv.backtrack_unlocked (h : ManagerInv I B asms G b) (cfg : config) (w : Option Nat)
    (hcore : I.Core B core) (hlease : ∀ n, lease.leased_node = some n → FromPath asms b.m_search_tree n core)
    {targets : List node_lease} (htargets : Targets asms b.m_search_tree core targets) :
    Kept I B asms G b (b.backtrack_unlocked cfg w core lease targets) := by
  rw [batch_manager.backtrack_unlocked]
  split
  next => exact .refl h
  next hrun =>
    obtain ⟨hkept, hstate⟩ := h.backtrack_lease w hcore hlease
    obtain ⟨hkept', hstate'⟩ := hkept.inv.backtrack_targets hcore targets
      (fun target ht n hn => (htargets target ht n hn).ext hkept.ext) (b.backtrack_lease w core lease).1
    dsimp only
    split
    next => exact hkept.trans hkept'
    next =>
      have hcancel := hkept'.inv.cancel_closed_leases cfg w
      refine (hkept.trans hkept').trans (hcancel.trans (hcancel.inv.set_closed ?_))
      exact (hstate'.trans hstate).trans (not_not.mp hrun)

/-- The paths of the targets have the whole core. -/
theorem targets_collect_matching (t : search_tree.tree E) (source : Option node_ptr) (lit : Option E) (core : List E) :
    ∀ target ∈ collect_matching_targets_unlocked t source lit core, ∀ n, target.leased_node = some n →
      ∀ l ∈ core, t.OnPath n l := by
  unfold collect_matching_targets_unlocked
  split
  next => simp
  next lit =>
    have hloop (ns : List node_ptr) targets
        (h : ∀ target ∈ targets, ∀ n, target.leased_node = some n → ∀ l ∈ core, t.OnPath n l) :
        ∀ target ∈ ns.foldl
            (fun targets n => if is_target t source core targets n then targets ++ [lease_of t n] else targets) targets,
          ∀ n, target.leased_node = some n → ∀ l ∈ core, t.OnPath n l := by
      induction ns generalizing targets with
      | nil => exact h
      | cons m ns ih =>
        rw [foldl_cons]
        refine ih _ ?_
        split
        next htarget =>
          refine Lists.forall_mem_concat h fun n hn => ?_
          obtain rfl : m = n := some.inj hn
          rw [is_target] at htarget
          have hall : ∀ l ∈ core, t.path_contains l m := by
            simp only [Bool.if_false_left, Bool.and_eq_true] at htarget
            simpa using htarget.2.2.2.1
          exact fun l hl => path_contains_iff.mp (hall l hl)
        next => exact h
    exact hloop _ [] (by simp)

theorem ManagerInv.backtrack (h : ManagerInv I B asms G b) (cfg : config) (w : Nat) (hcore : I.Core B core)
    (hlease : ∀ n, lease.leased_node = some n → FromPath asms b.m_search_tree n core) :
    Kept I B asms G b (b.backtrack cfg w core lease) :=
  h.backtrack_unlocked cfg (some w) hcore hlease fun target ht n hn l hl =>
    .inr (targets_collect_matching _ _ _ _ target ht n hn l hl)

theorem ManagerInv.collect_clause (h : ManagerInv I B asms G b) (source : Option Nat) {clause : E}
    (hclause : I.Entails B clause) : Kept I B asms G b (b.collect_clause source clause) := by
  rw [batch_manager.collect_clause]
  split
  next => exact .refl h
  next => exact ⟨{ h with trail := Lists.forall_mem_concat h.trail hclause }, .refl _⟩

omit [DecidableEq E] in
theorem mem_full_path {l : E} : l ∈ full_path t n ↔ t.OnPath n l := by
  induction n with
  | nil => rw [full_path, onPath_nil, mem_toList]
  | cons turn p ih => rw [full_path, onPath_cons, mem_append, ih, mem_toList]

omit [DecidableEq E] in
theorem onPath_of_mem_path_cube {l : E} (h : l ∈ path_cube t n) : t.OnPath n l := by
  induction n with
  | nil => rwa [path_cube, mem_toList, ← onPath_nil] at h
  | cons turn p ih =>
    rw [path_cube] at h
    rw [onPath_cons]
    split at h
    next => cases h
    next lit hlit =>
      rcases mem_cons.mp h with rfl | h
      · exact .inl hlit
      · exact .inr (ih h)

omit [DecidableEq E] in
/-- The negation of a fact is a core. -/
theorem core_mk_not {e : E} (h : I.Entails B e) : I.Core B [I.mk_not e] := fun m hm =>
  ⟨_, mem_singleton_self _, by rw [I.holds_mk_not, not_not]; exact h m hm⟩

section

variable (h : ManagerInv I B asms G b)
include h

/-- The targets of a backbone have its negation on their paths, so that the negation alone is a core for each of them.
-/
theorem ManagerInv.backtrack_full_cube (cfg : config) {neg : E} (hcore : I.Core B [neg]) (targets : List node_lease)
    (htargets : ∀ target ∈ targets, ∀ n, target.leased_node = some n → b.m_search_tree.OnPath n neg) :
    Kept I B asms G b (targets.foldl (backtrack_full_cube cfg) b) := by
  induction targets generalizing b with
  | nil => exact .refl h
  | cons target targets ih =>
    have hrest := fun target' h' => htargets target' (mem_cons_of_mem target h')
    rw [foldl_cons]
    fun_cases backtrack_full_cube cfg b target with
    | case1 | case2 => exact ih h hrest
    | case3 n hn =>
      have hneg : neg ∈ full_path b.m_search_tree n := mem_full_path.mpr (htargets target (by simp) n hn)
      have hfull : I.Core B (full_path b.m_search_tree n) := hcore.mono fun e he => mem_singleton.mp he ▸ hneg
      have htarget : Targets asms b.m_search_tree (full_path b.m_search_tree n) [target] := by
        intro target' htarget' m hm l hl
        rw [mem_singleton.mp htarget', hn] at hm
        exact .inr (some.inj hm ▸ mem_full_path.mp hl)
      have hkept : Kept I B asms G b (b.backtrack_unlocked cfg none (full_path b.m_search_tree n) {} [target]) :=
        h.backtrack_unlocked cfg none hfull (by simp) htarget
      exact hkept.trans (ih hkept.inv fun target' h' m hm => hkept.ext.onPath (hrest target' h' m hm))

/-- A backbone that is entailed may be shared, and nodes whose path contradicts it may be closed. -/
theorem ManagerInv.collect_global_backbone (cfg : config) (source : Option Nat) {backbone : E}
    (hbackbone : I.Entails B backbone) : Kept I B asms G b (b.collect_global_backbone cfg I backbone source).2 := by
  rw [batch_manager.collect_global_backbone]
  split
  next => exact .refl h
  next =>
    have hinv : ManagerInv I B asms G { b with m_global_backbones := backbone :: b.m_global_backbones } :=
      { h with global_backbones := forall_mem_cons.mpr ⟨hbackbone, h.global_backbones⟩ }
    have hclause := hinv.collect_clause source hbackbone
    have hkept : Kept I B asms G b _ := ⟨hclause.inv, hclause.ext⟩
    have hcore := core_mk_not hbackbone
    have htargets := targets_collect_matching
      (batch_manager.collect_clause { b with m_global_backbones := backbone :: b.m_global_backbones } source
        backbone).m_search_tree none (some (I.mk_not backbone)) [I.mk_not backbone]
    dsimp only
    split
    next => exact hkept
    next =>
      split
      next =>
        exact hkept.trans (hkept.inv.backtrack_full_cube cfg hcore _ fun target ht n hn =>
          htargets target ht n hn _ (mem_singleton_self _))
      next =>
        exact hkept.trans (hkept.inv.backtrack_unlocked cfg none hcore (by simp) fun target ht n hn l hl =>
          .inr (htargets target ht n hn l hl))

theorem ManagerInv.try_split (w : Nat) (lease : node_lease) (atom : E)
    (effort rand : UInt32) : Kept I B asms G b (b.try_split I w lease atom effort rand) := by
  fun_cases batch_manager.try_split b I w lease atom effort rand with
  | case1 | case2 | case3 => exact .refl h
  | case4 n =>
    have hsplit := h.tree.exec (c := .try_split n lease.cancel_epoch atom (I.mk_not atom) effort rand)
      (Interp.complementary_mk_not atom) rfl
    have hkept := h.set_tree hsplit (grows_try_split _ _ _ _ _ _ _).toExtends
    exact hkept.trans (hkept.inv.release_lease (some w) n)

theorem ManagerInv.get_cube (id : Nat) (is_first_run : Bool) : Kept I B asms G b (b.get_cube id is_first_run).2 := by
  have hkept : Kept I B asms G b { b with
      m_search_tree :=
        (if is_first_run then b.m_search_tree.activate_root else b.m_search_tree.activate_best_node).2 } := by
    cases is_first_run with
    | true => exact h.set_tree (h.tree.exec (c := .activate_root) trivial rfl) (grows_activate_root _).toExtends
    | false =>
      exact h.set_tree (h.tree.exec (c := .activate_best_node) trivial rfl) (grows_activate_best_node _).toExtends
  fun_cases batch_manager.get_cube b id is_first_run with
  | case1 | case2 => exact .refl h
  | case3 => exact hkept
  | case4 => exact ⟨{ hkept.inv with }, hkept.ext⟩

omit [DecidableEq E] in
theorem ManagerInv.return_shared_clauses (limit : Nat) (w : Option Nat) :
    ∀ e ∈ b.return_shared_clauses limit w, I.Entails B e := by
  intro e he
  obtain ⟨sc, hsc, rfl⟩ := mem_map.mp he
  exact h.trail sc (mem_of_mem_drop (mem_filter.mp hsc).1)

/-- The literals of the path are above the nearest node with a literal of the core. -/
theorem ManagerInv.enqueue_core_minimization (cfg : config) {source : Option node_ptr}
    (hcore : I.Core B core) (hpath : ∀ n, source = some n → FromPath asms b.m_search_tree n core) :
    Kept I B asms G b (b.enqueue_core_minimization cfg source core) := by
  fun_cases batch_manager.enqueue_core_minimization cfg b source core with
  | case1 | case2 | case3 | case4 => exact .refl h
  | case5 n _ _ m hm =>
    obtain ⟨-, hkeep, -⟩ := conflict_node_spec hm
    have hjob := And.intro hcore fun l hl => (hpath n rfl l hl).imp_right (hkeep l hl)
    exact ⟨{ h with jobs := Lists.forall_mem_concat h.jobs hjob }, .refl _⟩

omit [DecidableEq E] in
/-- The job that is taken from the queue has a core of literals on the path of its source and of assumptions. -/
theorem ManagerInv.wait_for_core_min_job {job : core_min_job E} (hjob : b.wait_for_core_min_job = some (job, b')) :
    Kept I B asms G b b' ∧ I.Core B job.core ∧ FromPath asms b'.m_search_tree job.source job.core := by
  revert hjob
  fun_cases batch_manager.wait_for_core_min_job b with
  | case1 | case3 => exact nofun
  | case2 _ _ job' last hlast hget =>
    intro hjob
    obtain ⟨rfl, rfl⟩ : job' = job ∧ _ = b' := by simpa using hjob
    refine ⟨⟨{ h with jobs := fun job2 h2 => ?_ }, .refl _⟩, h.jobs _ (mem_of_getElem? hget)⟩
    -- the jobs that are left were there before
    rcases mem_or_eq_of_mem_set (mem_of_mem_dropLast h2) with h2 | rfl
    · exact h.jobs job2 h2
    · exact h.jobs _ (mem_of_getLast? hlast)

/-- A core from the path of its source may replace the one that was reported before. -/
theorem ManagerInv.publish_minimized_core (cfg : config) {source : node_ptr} (size : Nat)
    (hcore : I.Core B core) (hpath : FromPath asms b.m_search_tree source core) :
    Kept I B asms G b (b.publish_minimized_core cfg source size core) := by
  fun_cases publish_minimized_core with
  | case1 | case2 => exact .refl h
  | case3 hguard =>
    have hrun : b.m_state = .is_running := by simpa using (not_or.mp hguard).1
    refine ⟨{ h with running := nofun, unsat := fun _ => ?_, sat := nofun }, .refl _⟩
    show I.Core B b.m_unsat_core ∧ ∀ e ∈ b.m_unsat_core, e ∈ asms
    rw [h.running hrun]
    exact ⟨hcore, by simp⟩
  | case4 lit core' hguard =>
    have hrun : b.m_state = .is_running := by simpa using (not_or.mp hguard).1
    have hkept := h.tree_backtrack hcore hpath
    obtain ⟨hkept', hstate⟩ := hkept.inv.backtrack_targets hcore _ (fun target ht n hn l hl =>
      .inr (targets_collect_matching (b.tree_backtrack (lit :: core') source).m_search_tree (some source) (some lit)
        (lit :: core') target ht n hn l hl)) true
    have hcancel := hkept'.inv.cancel_closed_leases cfg none
    refine hkept.trans (hkept'.trans (hcancel.trans (hcancel.inv.set_closed ?_)))
    exact (hstate.trans (tree_backtrack_m_state _ _)).trans hrun

end

end smt.parallel
