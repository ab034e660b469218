import BooledASS.Parallel.BatchManager

namespace smt.parallel

open search_tree

variable {E M : Type}

/-- Where a worker is in `run`. -/
inductive location (E M : Type) where
  -- before `get_cube`
  | start
  -- before `collect_shared_clauses`
  | leased
  -- at `check_cube_start`
  | check_cube_start
  -- before `check_cube`
  | checking
  -- before the test of the lease
  | checked (r : answer E M)
  -- the lease is canceled, before `dec_cancel`
  | abandoning
  -- the lease was not canceled, before `m.inc()`
  | tested (r : answer E M)
  -- at the switch on the answer
  | deciding (r : answer E M)
  -- after the call of `backtrack`
  | backtracked (source : Option node_ptr) (unsat_core : List E)
  | sharing_conflict (unsat_core : List E)
  | sharing_units
  | returned

/-- The context of a thread holds the assertions and the formulas of `ctx`. -/
structure worker (E M : Type) where
  loc : location E M := .start
  is_first_run : Bool := true
  lease : node_lease := {}
  cube : List E := []
  ctx : List E := []
  m_shared_clause_limit : Nat := 0

structure backbones_worker (E : Type) where
  returned : Bool := false
  ctx : List E := []
  m_shared_clause_limit : Nat := 0
  -- the assumptions of the chunk that is refined
  bb_asms : List E := []

/-- Where the minimiser is. -/
inductive minimizer_location (E : Type) where
  | waiting
  | taken (job : core_min_job E)
  -- the loop of `minimize_unsat_core`
  | minimizing (source : node_ptr) (original_size : Nat) (mus unknown : List E)
  | minimized (source : node_ptr) (original_size : Nat) (core : List E)
  | returned

structure core_minimizer_worker (E : Type) where
  loc : minimizer_location E := .waiting
  ctx : List E := []
  m_shared_clause_limit : Nat := 0

/-- The state of all threads. -/
structure threads (E M : Type) where
  b : batch_manager E M := {}
  workers : Nat → worker E M := fun _ => {}
  backbones : Nat → backbones_worker E := fun _ => {}
  minimizer : core_minimizer_worker E := {}
  sls_returned : Bool := false

/-- The steps of the threads. A step has at most one section that holds the mutex. The answers of checks, the
literals that a context has as units, the atoms that are split on and the chunks of backbone candidates are
given with the step. -/
inductive step (E M : Type) where
  | get_cube (id : Nat)
  | collect_shared_clauses (id : Nat)
  | collect_backbone_candidates (id : Nat)
  | check_cube (id : Nat) (r : answer E M)
  | lease_canceled (id : Nat)
  | dec_cancel (id : Nat)
  | inc (id : Nat)
  | check_again (id : Nat)
  | try_split (id : Nat) (atom : E) (effort rand : UInt32)
  | report (id : Nat)
  | enqueue (id : Nat)
  | share_conflict (id : Nat)
  | share_unit (id : Nat) (unit : E)
  | next_cube (id : Nat)
  | backbone_collect_shared_clauses (id : Nat)
  | backbone_unit (id : Nat) (backbone : E)
  | probe_literal (id : Nat) (e : E) (r : answer E M)
  | next_chunk (id : Nat) (bb_asms : List E)
  | check_chunk (id : Nat) (r : answer E M)
  | take_job
  | minimizer_collect_shared_clauses
  | trial (r : answer E M)
  | stop_trials
  | publish
  | sls (r : answer E M)

section

variable (s : threads E M)

def threads.set_worker (id : Nat) (w : worker E M) : threads E M := { s with workers := Function.update s.workers id w }

def threads.set_backbones (id : Nat) (w : backbones_worker E) : threads E M :=
  { s with backbones := Function.update s.backbones id w }

end

variable [DecidableEq E] (I : Interp E M) (cfg : config) (asms : List E)

/-- The steps of `worker::run`. -/
def exec_worker (s : threads E M) (id : Nat) (w : worker E M) : step E M → Option (threads E M)
  | .get_cube _ =>
    match w.loc with
    | .start =>
      match s.b.get_cube id w.is_first_run with
      | (none, b) => some ({ s with b }.set_worker id { w with loc := .returned, cube := [] })
      | (some lease, b) =>
        some ({ s with b }.set_worker id { w with
            loc := .leased, is_first_run := false, lease
            cube := (lease.leased_node.map (path_cube b.m_search_tree)).getD [] })
    | _ => none
  | .collect_shared_clauses _ =>
    match w.loc with
    | .leased =>
      some (s.set_worker id { w with
          loc := .check_cube_start
          ctx := w.ctx ++ s.b.return_shared_clauses w.m_shared_clause_limit (some id)
          m_shared_clause_limit := s.b.shared_clause_trail.length })
    | _ => none
  | .collect_backbone_candidates _ =>
    match w.loc with
    | .check_cube_start =>
      if cfg.m_global_backbones ∧ s.b.m_cancel id > 0 then some (s.set_worker id { w with loc := .returned })
      else some (s.set_worker id { w with loc := .checking })
    | _ => none
  | .check_cube _ r =>
    match w.loc with
    | .checking =>
      let (r, b) := s.b.check (s.b.m_cancel id > 0) r
      some ({ s with b }.set_worker id { w with loc := .checked r })
    | _ => none
  | .lease_canceled _ =>
    match w.loc with
    | .checked r =>
      if s.b.lease_canceled w.lease then some (s.set_worker id { w with loc := .abandoning, lease := {} })
      else some (s.set_worker id { w with loc := .tested r })
    | _ => none
  | .dec_cancel _ =>
    match w.loc with
    | .abandoning =>
      some ({ s with b.m_cancel := Function.update s.b.m_cancel id (s.b.m_cancel id - 1) }.set_worker id
        { w with loc := .start })
    | _ => none
  | .inc _ =>
    match w.loc with
    | .tested r =>
      if s.b.m_cancel id > 0 then some (s.set_worker id { w with loc := .returned })
      else some (s.set_worker id { w with loc := .deciding r })
    | _ => none
  | .check_again _ =>
    match w.loc with
    | .deciding .l_undef => some (s.set_worker id { w with loc := .check_cube_start })
    | _ => none
  | .try_split _ atom effort rand =>
    match w.loc with
    | .deciding .l_undef =>
      if cfg.m_max_cube_depth ≤ w.cube.length then none
      else
        some ({ s with b := s.b.try_split I id w.lease atom effort rand }.set_worker id
          { w with loc := .sharing_units, lease := {} })
    | _ => none
  | .report _ =>
    match w.loc with
    | .deciding (.l_true mdl) =>
      some ({ s with b := s.b.set_sat mdl }.set_worker id { w with loc := .returned })
    | .deciding (.l_false unsat_core) =>
      if unsat_core.all (· ∈ asms) then
        some ({ s with b := s.b.set_unsat unsat_core }.set_worker id { w with loc := .returned })
      else
        let core_to_use := if cfg.ablate_backtracking then w.cube else unsat_core
        some ({ s with b := s.b.backtrack cfg id core_to_use w.lease }.set_worker id
          { w with loc := .backtracked w.lease.leased_node unsat_core })
    | _ => none
  | .enqueue _ =>
    match w.loc with
    | .backtracked source unsat_core =>
      let b := if cfg.m_core_minimize then s.b.enqueue_core_minimization cfg source unsat_core else s.b
      some ({ s with b }.set_worker id { w with loc := .sharing_conflict unsat_core, lease := {} })
    | _ => none
  | .share_conflict _ =>
    match w.loc with
    | .sharing_conflict unsat_core =>
      let b :=
        if cfg.m_share_conflicts then s.b.collect_clause (some id) (I.mk_not (I.mk_and unsat_core)) else s.b
      some ({ s with b }.set_worker id { w with loc := .sharing_units })
    | _ => none
  | .share_unit _ unit =>
    match w.loc with
    | .sharing_units =>
      if cfg.m_share_units then some { s with b := (s.b.collect_global_backbone cfg I unit (some id)).2 } else none
    | _ => none
  | .next_cube _ =>
    match w.loc with
    | .sharing_units => some (s.set_worker id { w with loc := .start })
    | _ => none
  | _ => none

/-- The checks and the shared facts of the two loops of `backbones_worker`. -/
def exec_backbones (s : threads E M) (id : Nat) (w : backbones_worker E) : step E M → Option (threads E M)
  | .backbone_collect_shared_clauses _ =>
    some (s.set_backbones id { w with
        ctx := w.ctx ++ s.b.return_shared_clauses w.m_shared_clause_limit none
        m_shared_clause_limit := s.b.shared_clause_trail.length })
  | .backbone_unit _ backbone => some { s with b := (s.b.collect_global_backbone cfg I backbone none).2 }
  | .probe_literal _ e r =>
    -- an exception is recorded unless the thread is canceled
    let (r, b) := s.b.check false r
    match r with
    | .l_false unsat_core =>
      if e ∉ unsat_core then some { s with b := b.set_unsat unsat_core }
      else
        some ({ s with b := (b.collect_global_backbone cfg I (I.mk_not e) none).2 }.set_backbones id
          { w with ctx := w.ctx ++ [I.mk_not e] })
    | .l_true mdl => some { s with b := b.set_sat mdl }
    | _ => some { s with b }
  | .next_chunk _ bb_asms => some (s.set_backbones id { w with bb_asms })
  | .check_chunk _ r =>
    let (r, b) := s.b.check false r
    match r with
    | .l_false unsat_core =>
      let bb_asms_in_core := unsat_core.filter (· ∈ w.bb_asms)
      let w' := { w with bb_asms := bb_asms_in_core.foldl List.erase w.bb_asms }
      match bb_asms_in_core with
      | [] => some ({ s with b := b.set_unsat unsat_core }.set_backbones id { w with returned := true })
      | [a] =>
        let r := b.collect_global_backbone cfg I (I.mk_not a) none
        -- a backbone that was known is not asserted
        some ({ s with b := r.2 }.set_backbones id (if r.1 then { w' with ctx := w.ctx ++ [I.mk_not a] } else w'))
      | _ => some ({ s with b }.set_backbones id w')
    | .l_true mdl => some ({ s with b := b.set_sat mdl }.set_backbones id { w with returned := true })
    | _ => some { s with b }
  | _ => none

/-- The formulas of the next check of `minimize_unsat_core`, and the literal that is tried. -/
def trial_of (mus unknown : List E) : Option (E × List E × List E) :=
  unknown.getLast?.map fun lit => (lit, unknown.dropLast, mus ++ unknown.dropLast ++ [I.mk_not lit])

/-- The steps of `core_minimizer_worker::run`. -/
def exec_minimizer (s : threads E M) (w : core_minimizer_worker E) : step E M → Option (threads E M)
  | .take_job =>
    match w.loc with
    | .waiting =>
      (s.b.wait_for_core_min_job).map fun (job, b) =>
        { s with b, minimizer := { w with loc := if job.core.length ≤ 1 then .waiting else .taken job } }
    | _ => none
  | .minimizer_collect_shared_clauses =>
    match w.loc with
    | .taken job =>
      some { s with
        minimizer :=
          { w with
            loc := .minimizing job.source job.core.length [] job.core
            ctx := w.ctx ++ s.b.return_shared_clauses w.m_shared_clause_limit none
            m_shared_clause_limit := s.b.shared_clause_trail.length } }
    | _ => none
  | .trial r =>
    match w.loc with
    | .minimizing source original_size mus unknown =>
      match trial_of I mus unknown with
      | none => none
      | some (lit, unknown, _) =>
        let next mus unknown := { s with minimizer := { w with loc := .minimizing source original_size mus unknown } }
        match r with
        | .l_true mdl =>
          if asms.isEmpty then some { s with b := s.b.set_sat mdl, minimizer := { w with loc := .waiting } }
          else some (next (mus ++ [lit]) unknown)
        | .l_false unsat_core =>
          if I.mk_not lit ∉ unsat_core then
            some (next (unsat_core.filter (· ∈ mus)) (unsat_core.filter (· ∉ mus)))
          else some (next mus unknown)
        | _ => some (next (mus ++ [lit]) unknown)
    | _ => none
  | .stop_trials =>
    -- all literals have been tried, or the thread is canceled
    match w.loc with
    | .minimizing source original_size mus unknown =>
      some { s with minimizer := { w with loc := .minimized source original_size (mus ++ unknown) } }
    | _ => none
  | .publish =>
    match w.loc with
    | .minimized source original_size core =>
      let b :=
        if core.length < original_size then s.b.publish_minimized_core cfg source original_size core else s.b
      some { s with b, minimizer := { w with loc := .waiting } }
    | _ => none
  | _ => none

/-- The local search has the assertions only. -/
def exec_sls (s : threads E M) : step E M → Option (threads E M)
  | .sls r =>
    match r with
    | .l_true mdl => some { s with b := s.b.set_sat mdl, sls_returned := true }
    | .throws (.z3_exception msg) =>
      if strstr msg "unsupported for sls" then some { s with sls_returned := true }
      else some { s with b := s.b.set_exception_msg msg, sls_returned := true }
    | _ => some { s with sls_returned := true }
  | _ => none

/-- The thread that makes a step. -/
inductive thread where
  | worker (id : Nat)
  | backbones (id : Nat)
  | minimizer
  | sls

def step.thread : step E M → thread
  | .get_cube id | .collect_shared_clauses id | .collect_backbone_candidates id | .check_cube id _
  | .lease_canceled id | .dec_cancel id | .inc id | .check_again id | .try_split id _ _ _ | .report id
  | .enqueue id | .share_conflict id | .share_unit id _ | .next_cube id => .worker id
  | .backbone_collect_shared_clauses id | .backbone_unit id _ | .probe_literal id _ _ | .next_chunk id _
  | .check_chunk id _ => .backbones id
  | .take_job | .minimizer_collect_shared_clauses | .trial _ | .stop_trials | .publish => .minimizer
  | .sls _ => .sls

/-- `none` if the thread is not there or is at another point. -/
def exec (s : threads E M) (a : step E M) : Option (threads E M) :=
  if s.b.unreachable then none
  else match a.thread with
    | .worker id => if id < cfg.num_workers then exec_worker I cfg asms s id (s.workers id) a else none
    | .backbones id =>
      if id < cfg.num_global_bb_threads ∧ (s.backbones id).returned = false then
        exec_backbones I cfg s id (s.backbones id) a
      else none
    | .minimizer => if cfg.core_minimize then exec_minimizer I cfg asms s s.minimizer a else none
    | .sls => if cfg.sls ∧ s.sls_returned = false then exec_sls s a else none

/-- The threads after `initialize`. -/
def init : threads E M := { b := { m_search_tree := ({} : tree E).set_effort_unit 1000 } }

end smt.parallel
