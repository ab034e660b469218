import BooledASS.Logic.Formula
import BooledASS.Parallel.SearchTree

namespace smt.parallel

open search_tree

/-- The threads that are started and the switches of the workers. -/
structure config where
  num_workers : Nat
  num_global_bb_threads : Nat := 0
  sls : Bool := false
  core_minimize : Bool := true
  ablate_backtracking : Bool := false
  m_share_units : Bool := true
  m_share_conflicts : Bool := true
  m_max_cube_depth : Nat := 20

def config.m_global_backbones (cfg : config) : Bool := cfg.num_global_bb_threads > 0

/-- Minimisation is switched off in the workers when they give up whole cubes. -/
def config.m_core_minimize (cfg : config) : Bool := cfg.core_minimize && !cfg.ablate_backtracking

structure node_lease where
  leased_node : Option node_ptr := none
  cancel_epoch : UInt32 := 0
  cancel_signaled : Bool := false
deriving DecidableEq

/-- What a check throws. -/
inductive exception where
  | z3_error (error_code : Nat)
  | z3_exception (msg : String)
  | unknown

/-- Whether the text occurs in the message. -/
def strstr (msg text : String) : Bool :=
  (List.range (msg.length + 1)).any fun i => text.toList.isPrefixOf (msg.toList.drop i)

def is_cancellation_exception (msg : String) : Bool := strstr msg "canceled" || strstr msg "cancelled"

/-- The answer of a check, with the model or the core that the context then holds. -/
inductive answer (E M : Type) where
  | l_true (mdl : M)
  | l_false (unsat_core : List E)
  | l_undef
  | throws (ex : exception)

inductive state where
  | is_running
  | is_sat
  | is_unsat
  | is_exception_msg
  | is_exception_code
deriving DecidableEq

structure shared_clause (E : Type) where
  -- `none` for `UINT_MAX`
  source_worker_id : Option Nat
  clause : E

structure core_min_job (E : Type) where
  source : node_ptr
  core : List E

/-- The fields that are guarded by the mutex, with the model and the core of the main context and the cancel
counters of the workers. All threads write their formulas in one way: the translations are left out. -/
structure batch_manager (E M : Type) where
  m_state : state := .is_running
  m_search_tree : tree E := {}
  m_worker_leases : Nat → node_lease := fun _ => {}
  m_exception_code : Nat := 0
  m_exception_msg : String := ""
  shared_clause_trail : List (shared_clause E) := []
  m_global_backbones : List E := []
  m_core_min_jobs : List (core_min_job E) := []
  model : Option M := none
  m_unsat_core : List E := []
  m_cancel : Nat → Nat := fun _ => 0
  -- set where the code is marked as unreachable
  unreachable : Bool := false
  -- ghost: the conflicts passed to the search tree
  conflicts : List (node_ptr × List E) := []

namespace batch_manager

variable {E M : Type} (cfg : config) (b : batch_manager E M)

def cancel_background_threads : batch_manager E M := { b with m_cancel := fun w => b.m_cancel w + 1 }

def set_sat (mdl : M) : batch_manager E M :=
  if b.m_state ≠ .is_running then b
  else cancel_background_threads { b with m_state := .is_sat, model := some mdl }

def set_unsat (unsat_core : List E) : batch_manager E M :=
  if b.m_state ≠ .is_running then b
  else cancel_background_threads { b with m_state := .is_unsat, m_unsat_core := b.m_unsat_core ++ unsat_core }

def set_exception_code (error_code : Nat) : batch_manager E M :=
  if b.m_state ≠ .is_running then b
  else cancel_background_threads { b with m_state := .is_exception_code, m_exception_code := error_code }

def set_exception_msg (msg : String) : batch_manager E M :=
  if b.m_state ≠ .is_running then b
  else cancel_background_threads { b with m_state := .is_exception_msg, m_exception_msg := msg }

/-- The handlers of `check`. -/
def set_exception (is_canceled : Bool) (ex : exception) : batch_manager E M :=
  if is_canceled then b
  else match ex with
    | .z3_error error_code => b.set_exception_code error_code
    | .z3_exception msg => if is_cancellation_exception msg then b else b.set_exception_msg msg
    | .unknown => b.set_exception_msg "unknown exception"

/-- The answer of a check and what is recorded of it; after an exception it is undefined. -/
def check (is_canceled : Bool) : answer E M → answer E M × batch_manager E M
  | .throws ex => (.l_undef, b.set_exception is_canceled ex)
  | r => (r, b)

inductive lbool where
  | l_true
  | l_false
  | l_undef
deriving DecidableEq

/-- `is_canceled` is that of the main context. -/
def get_result (is_canceled : Bool) : Except exception lbool :=
  if is_canceled then .ok .l_undef
  else match b.m_state with
    | .is_running => .error (.z3_exception "inconsistent end state")
    | .is_unsat => .ok .l_false
    | .is_sat => .ok .l_true
    | .is_exception_msg => .error (.z3_exception b.m_exception_msg)
    | .is_exception_code => .error (.z3_error b.m_exception_code)

/-- `worker_id` is `none` for `UINT_MAX`. -/
def release_lease_unlocked (worker_id : Option Nat) (n : node_ptr) : batch_manager E M :=
  match worker_id with
  | none => b
  | some w =>
    if (b.m_worker_leases w).leased_node = some n then
      { b with
        m_search_tree := b.m_search_tree.dec_active_workers n
        m_worker_leases := Function.update b.m_worker_leases w {} }
    else b

end batch_manager

def is_lease_canceled {E : Type} (t : tree E) (lease : node_lease) : Bool :=
  match lease.leased_node with
  | none => true
  | some n => t.is_lease_canceled n lease.cancel_epoch

/-- Whether a worker is told that its lease is canceled. -/
def to_cancel {E : Type} (cfg : config) (t : tree E) (source_worker_id : Option Nat) (w : Nat) (lease : node_lease) :
    Bool :=
  decide (w < cfg.num_workers) && some w != source_worker_id && lease.leased_node.isSome &&
    !lease.cancel_signaled && is_lease_canceled t lease

/-- The literals on the way up to a node without one. -/
def path_cube {E : Type} (t : tree E) : node_ptr → List E
  | [] => (t.literal []).toList
  | turn :: p =>
    match t.literal (turn :: p) with
    | none => []
    | some lit => lit :: path_cube t p

/-- The literals on the way up, without those that are null. -/
def full_path {E : Type} (t : tree E) : node_ptr → List E
  | [] => (t.literal []).toList
  | turn :: p => (t.literal (turn :: p)).toList ++ full_path t p

/-- A node and its epoch, as they are kept in a list of targets. -/
def lease_of {E : Type} (t : tree E) (n : node_ptr) : node_lease :=
  { leased_node := some n, cancel_epoch := ((t.get n).map (·.m_cancel_epoch)).getD 0 }

section Targets

variable {E : Type} [DecidableEq E]

/-- Whether a match is a target: it is not on the branch of the source, its path has the whole core, and no
target is above it. -/
def is_target (t : tree E) (source : Option node_ptr) (core : List E) (targets : List node_lease) (n : node_ptr) :
    Bool :=
  if some n = source then false
  else if is_lease_canceled t (lease_of t n) then false
  else if source.any fun s => s.isSuffixOf n || n.isSuffixOf s then false
  else if !core.all fun c => t.path_contains c n then false
  else !targets.any fun target => target.leased_node.any fun p => p.isSuffixOf n && p != n

def collect_matching_targets_unlocked (t : tree E) (source : Option node_ptr) (lit : Option E) (core : List E) :
    List node_lease :=
  match lit with
  | none => []
  | some lit =>
    (t.find_nonclosed_nodes_with_literal lit).foldl
      (fun targets n => if is_target t source core targets n then targets ++ [lease_of t n] else targets) []

end Targets

namespace batch_manager

variable {E M : Type} (cfg : config) (b : batch_manager E M)

/-- The workers that explore closed nodes are told once for each lease. -/
def cancel_closed_leases_unlocked (source_worker_id : Option Nat) : batch_manager E M :=
  let told w := to_cancel cfg b.m_search_tree source_worker_id w (b.m_worker_leases w)
  { b with
    m_cancel := fun w => if told w then b.m_cancel w + 1 else b.m_cancel w
    m_worker_leases := fun w =>
      if told w then { b.m_worker_leases w with cancel_signaled := true } else b.m_worker_leases w }

/-- The end of the functions that close nodes. -/
def set_closed : batch_manager E M :=
  if b.m_search_tree.is_closed then
    cancel_background_threads
      { b with m_state := .is_unsat, m_unsat_core := b.m_unsat_core ++ b.m_search_tree.get_core_from_root }
  else b

variable [DecidableEq E]

def tree_backtrack (core : List E) (n : node_ptr) : batch_manager E M :=
  let b := { b with conflicts := b.conflicts ++ [(n, core)] }
  match b.m_search_tree.backtrack n core with
  | none => { b with unreachable := true }
  | some t => { b with m_search_tree := t }

/-- The loop over the targets; the flag says whether there was a call. -/
def backtrack_targets (core : List E) (acc : Bool × batch_manager E M) (target : node_lease) :
    Bool × batch_manager E M :=
  match target.leased_node with
  | none => acc
  | some n =>
    if is_lease_canceled acc.2.m_search_tree target then acc else (true, acc.2.tree_backtrack core n)

/-- The call for the leased node, unless the lease is canceled. -/
def backtrack_lease (worker_id : Option Nat) (core : List E) (lease : node_lease) : Bool × batch_manager E M :=
  match lease.leased_node with
  | none => (false, b)
  | some n =>
    if is_lease_canceled b.m_search_tree lease then (false, b)
    else (true, (b.release_lease_unlocked worker_id n).tree_backtrack core n)

def backtrack_unlocked (worker_id : Option Nat) (core : List E) (lease : node_lease) (targets : List node_lease) :
    batch_manager E M :=
  if b.m_state ≠ .is_running then b
  else
    let acc := targets.foldl (backtrack_targets core) (b.backtrack_lease worker_id core lease)
    if !acc.1 then acc.2 else (acc.2.cancel_closed_leases_unlocked cfg worker_id).set_closed

def backtrack (worker_id : Nat) (core : List E) (lease : node_lease) : batch_manager E M :=
  let lit := lease.leased_node.bind fun n => b.m_search_tree.literal n
  b.backtrack_unlocked cfg (some worker_id) core lease
    (collect_matching_targets_unlocked b.m_search_tree lease.leased_node lit core)

def collect_clause (source_worker_id : Option Nat) (clause : E) : batch_manager E M :=
  if b.shared_clause_trail.any fun sc => sc.clause = clause then b
  else { b with shared_clause_trail := b.shared_clause_trail ++ [{ source_worker_id, clause }] }

/-- One round of the loop that gives up the whole path of each target. -/
def backtrack_full_cube (b : batch_manager E M) (target : node_lease) : batch_manager E M :=
  match target.leased_node with
  | none => b
  | some n =>
    if is_lease_canceled b.m_search_tree target then b
    else b.backtrack_unlocked cfg none (full_path b.m_search_tree n) {} [target]

/-- The nodes for the negation of a new backbone are closed. The flag is false if it was known. -/
def collect_global_backbone (I : Interp E M) (backbone : E) (source_worker_id : Option Nat) :
    Bool × batch_manager E M :=
  if backbone ∈ b.m_global_backbones then (false, b)
  else
    let b := { b with m_global_backbones := backbone :: b.m_global_backbones }
    let b := b.collect_clause source_worker_id backbone
    let core := [I.mk_not backbone]
    let targets := collect_matching_targets_unlocked b.m_search_tree none (some (I.mk_not backbone)) core
    if targets.isEmpty then (true, b)
    else if cfg.ablate_backtracking then (true, targets.foldl (backtrack_full_cube cfg) b)
    else (true, b.backtrack_unlocked cfg none core {} targets)

def lease_canceled (lease : node_lease) : Bool :=
  decide (b.m_state = .is_running) && is_lease_canceled b.m_search_tree lease

def try_split (I : Interp E M) (worker_id : Nat) (lease : node_lease) (atom : E) (effort rand : UInt32) :
    batch_manager E M :=
  match lease.leased_node with
  | none => b
  | some n =>
    if b.m_state ≠ .is_running then b
    else if is_lease_canceled b.m_search_tree lease then b
    else
      release_lease_unlocked { b with
          m_search_tree := (b.m_search_tree.try_split n lease.cancel_epoch atom (I.mk_not atom) effort rand).2 }
        (some worker_id) n

/-- The leased node, or `none` when there are no more cubes. -/
def get_cube (id : Nat) (is_first_run : Bool) : Option node_lease × batch_manager E M :=
  if b.m_search_tree.is_closed then (none, b)
  else if b.m_state ≠ .is_running then (none, b)
  else
    let r := if is_first_run then b.m_search_tree.activate_root else b.m_search_tree.activate_best_node
    match r.1 with
    | none => (none, { b with m_search_tree := r.2 })
    | some n =>
      let lease := lease_of r.2 n
      (some lease, { b with m_search_tree := r.2, m_worker_leases := Function.update b.m_worker_leases id lease })

/-- The clauses that the thread has not seen, apart from its own. -/
def return_shared_clauses (worker_limit : Nat) (worker_id : Option Nat) : List E :=
  ((b.shared_clause_trail.drop worker_limit).filter fun sc => sc.source_worker_id ≠ worker_id).map (·.clause)

/-- The nearest node on the way up with a literal of the core. -/
def find_core_source_unlocked (core : List E) (source : node_ptr) : Option node_ptr :=
  b.m_search_tree.conflict_node core source

def enqueue_core_minimization (source : Option node_ptr) (core : List E) : batch_manager E M :=
  match source with
  | none => b
  | some source =>
    if b.m_state ≠ .is_running ∨ cfg.core_minimize = false ∨ core.isEmpty then b
    else if core.length ≤ 1 then b
    else match b.find_core_source_unlocked core source with
      | none => b
      | some source => { b with m_core_min_jobs := b.m_core_min_jobs ++ [{ source, core }] }

/-- The jobs are ranked by the depth of their source and then by the size of their core. -/
def select_best_core_min_job_unlocked : Nat :=
  let rank (i : Nat) : Nat × Nat :=
    match b.m_core_min_jobs[i]? with
    | none => (0, 0)
    | some job => (job.source.length, job.core.length)
  (List.range b.m_core_min_jobs.length).foldl (fun best i =>
      if (rank i).1 > (rank best).1 ∨ ((rank i).1 = (rank best).1 ∧ (rank i).2 > (rank best).2) then i else best) 0

/-- The last job takes the place of the one that is returned. -/
def wait_for_core_min_job : Option (core_min_job E × batch_manager E M) :=
  if b.m_state ≠ .is_running then none
  else
    let best := b.select_best_core_min_job_unlocked
    match b.m_core_min_jobs[best]?, b.m_core_min_jobs.getLast? with
    | some job, some last => some (job, { b with m_core_min_jobs := (b.m_core_min_jobs.set best last).dropLast })
    | _, _ => none

/-- The literals of the core and the assumptions of the minimiser belong to different managers, so that only an
empty core passes the test for assumptions. -/
def publish_minimized_core (source : node_ptr) (original_core_size : Nat) (minimized_core : List E) :
    batch_manager E M :=
  if b.m_state ≠ .is_running ∨ minimized_core.length ≥ original_core_size then b
  else if (b.m_search_tree.core source).length ≤ minimized_core.length then b
  else match minimized_core with
    | [] => cancel_background_threads { b with m_state := .is_unsat }
    | lit :: _ =>
      let b := b.tree_backtrack minimized_core source
      let targets := collect_matching_targets_unlocked b.m_search_tree (some source) (some lit) minimized_core
      let b := (targets.foldl (backtrack_targets minimized_core) (true, b)).2
      (b.cancel_closed_leases_unlocked cfg none).set_closed

end batch_manager

end smt.parallel
