import Mathlib.Data.Fintype.Prod
import BooledASS.Parallel.Facts

open List Interp

namespace parallel_solver

open search_tree tree smt.parallel

variable {E M : Type}

/-! The batch manager has the fields of the one of `smt::parallel` without the jobs of the other threads, and the
functions of that one apart from those below. -/

def set_exception (b : batch_manager E M) (is_canceled : Bool) : exception → batch_manager E M
  | .z3_error error_code => if is_canceled then b else b.set_exception_code error_code
  | .z3_exception msg => if is_canceled then b else b.set_exception_msg msg
  | .unknown => b

/-- There are no other targets than the leased node. -/
def backtrack [DecidableEq E] (cfg : config) (b : batch_manager E M) (worker_id : Nat) (core : List E)
    (lease : node_lease) : batch_manager E M :=
  if b.m_state ≠ .is_running then b
  else ((b.backtrack_lease (some worker_id) core lease).2.cancel_closed_leases_unlocked cfg (some worker_id)).set_closed

def release_lease (b : batch_manager E M) (worker_id : Nat) (lease : node_lease) : batch_manager E M :=
  match lease.leased_node with
  | none => b
  | some n => b.release_lease_unlocked (some worker_id) n

/-- A backbone is shared as a clause; no node is closed for it. -/
def collect_global_backbone [DecidableEq E] (b : batch_manager E M) (backbone : E) (source_worker_id : Option Nat) :
    Bool × batch_manager E M :=
  if backbone ∈ b.m_global_backbones then (false, b)
  else
    (true, batch_manager.collect_clause { b with m_global_backbones := backbone :: b.m_global_backbones }
      source_worker_id backbone)

def get_result (b : batch_manager E M) (is_canceled : Bool) : Except exception batch_manager.lbool :=
  if is_canceled then .ok .l_undef
  else match b.m_state with
    | .is_running => .error (.z3_exception "par2: inconsistent end state")
    | .is_sat => .ok .l_true
    | .is_unsat => .ok .l_false
    | .is_exception_msg => .error (.z3_exception b.m_exception_msg)
    | .is_exception_code => .error (.z3_error b.m_exception_code)

/-- Where a worker is in `run`. -/
inductive location (E M : Type) where
  | start
  | leased
  | checking
  | checked (r : answer E M)
  -- the lease is canceled, before `dec_cancel`
  | abandoning
  -- the lease was not canceled, before `m.inc()`
  | tested (r : answer E M)
  | deciding (r : answer E M)
  | sharing_conflict (cube_core : List E)
  | sharing_units
  | returned

/-- The solver of a worker holds the assertions and the formulas of `s`. -/
structure worker (E M : Type) where
  loc : location E M := .start
  is_first_run : Bool := true
  lease : node_lease := {}
  cube : List E := []
  s : List E := []
  m_shared_clause_limit : Nat := 0

structure workers (E M : Type) where
  b : batch_manager E M := {}
  m_workers : Nat → worker E M := fun _ => {}

def workers.set_worker (p : workers E M) (id : Nat) (w : worker E M) : workers E M :=
  { p with m_workers := Function.update p.m_workers id w }

/-- The steps of the workers, with the answers of the solvers, the atoms that `cube` gives and the units of the
trail. -/
inductive step (E M : Type) where
  | get_cube (id : Nat)
  | collect_shared_clauses (id : Nat)
  | check_cube (id : Nat) (r : answer E M)
  | lease_canceled (id : Nat)
  | dec_cancel (id : Nat)
  | inc (id : Nat)
  | try_split (id : Nat) (atom : E) (effort rand : UInt32)
  | release_lease (id : Nat)
  | report (id : Nat)
  | share_conflict (id : Nat)
  | share_unit (id : Nat) (unit : E)
  | next_cube (id : Nat)

def step.id : step E M → Nat
  | .get_cube id | .collect_shared_clauses id | .check_cube id _ | .lease_canceled id | .dec_cancel id | .inc id
  | .try_split id _ _ _ | .release_lease id | .report id | .share_conflict id | .share_unit id _ | .next_cube id => id

variable [DecidableEq E] (I : Interp E M) (cfg : config)

/-- The steps of `worker::run`. -/
def exec_worker (p : workers E M) (id : Nat) (w : worker E M) : step E M → Option (workers E M)
  | .get_cube _ =>
    match w.loc with
    | .start =>
      match p.b.get_cube id w.is_first_run with
      | (none, b) => some ({ p with b }.set_worker id { w with loc := .returned, cube := [] })
      | (some lease, b) =>
        some ({ p with b }.set_worker id { w with
            loc := .leased, is_first_run := false, lease
            cube := (lease.leased_node.map (path_cube b.m_search_tree)).getD [] })
    | _ => none
  | .collect_shared_clauses _ =>
    match w.loc with
    | .leased =>
      some (p.set_worker id { w with
          loc := .checking
          s := w.s ++ p.b.return_shared_clauses w.m_shared_clause_limit (some id)
          m_shared_clause_limit := p.b.shared_clause_trail.length })
    | _ => none
  | .check_cube _ r =>
    match w.loc with
    | .checking =>
      match r with
      | .throws ex =>
        some ({ p with b := set_exception p.b (p.b.m_cancel id > 0) ex }.set_worker id
          { w with loc := .checked .l_undef })
      | r => some (p.set_worker id { w with loc := .checked r })
    | _ => none
  | .lease_canceled _ =>
    match w.loc with
    | .checked r =>
      if p.b.lease_canceled w.lease then some (p.set_worker id { w with loc := .abandoning, lease := {} })
      else some (p.set_worker id { w with loc := .tested r })
    | _ => none
  | .dec_cancel _ =>
    match w.loc with
    | .abandoning =>
      some ({ p with b.m_cancel := Function.update p.b.m_cancel id (p.b.m_cancel id - 1) }.set_worker id
        { w with loc := .start })
    | _ => none
  | .inc _ =>
    match w.loc with
    | .tested r =>
      if p.b.m_cancel id > 0 then some (p.set_worker id { w with loc := .returned })
      else some (p.set_worker id { w with loc := .deciding r })
    | _ => none
  | .try_split _ atom effort rand =>
    match w.loc with
    | .deciding .l_undef =>
      if w.cube.length ≥ cfg.m_max_cube_depth then none
      else
        some ({ p with b := p.b.try_split I id w.lease atom effort rand }.set_worker id
          { w with loc := .sharing_units })
    | _ => none
  | .release_lease _ =>
    -- there is no atom to split on
    match w.loc with
    | .deciding .l_undef =>
      some ({ p with b := release_lease p.b id w.lease }.set_worker id { w with loc := .sharing_units })
    | _ => none
  | .report _ =>
    match w.loc with
    | .deciding (.l_true mdl) =>
      some ({ p with b := p.b.set_sat mdl }.set_worker id { w with loc := .returned })
    | .deciding (.l_false core) =>
      let cube_core := core.filter (· ∈ w.cube)
      if cube_core.isEmpty then
        some ({ p with b := p.b.set_unsat core }.set_worker id { w with loc := .returned })
      else
        some ({ p with b := backtrack cfg p.b id cube_core w.lease }.set_worker id
          { w with loc := .sharing_conflict cube_core })
    | _ => none
  | .share_conflict _ =>
    match w.loc with
    | .sharing_conflict cube_core =>
      let b :=
        if cfg.m_share_conflicts then p.b.collect_clause (some id) (I.mk_or (cube_core.map I.mk_not)) else p.b
      some ({ p with b }.set_worker id { w with loc := .sharing_units })
    | _ => none
  | .share_unit _ unit =>
    match w.loc with
    | .sharing_units =>
      if cfg.m_share_units then some { p with b := (collect_global_backbone p.b unit (some id)).2 } else none
    | _ => none
  | .next_cube _ =>
    match w.loc with
    | .sharing_units => some (p.set_worker id { w with loc := .start })
    | _ => none

def exec (p : workers E M) (a : step E M) : Option (workers E M) :=
  if p.b.unreachable then none
  else if a.id < cfg.num_workers then exec_worker I cfg p a.id (p.m_workers a.id) a
  else none

def init : workers E M := { b := { m_search_tree := ({} : tree E).set_effort_unit 1000 } }

/-! ### Cores -/

/-- Every check is correct for what the solver of the worker was given, and the units of its trail follow. -/
def Checked (F : Set E) (asms : List E) (p : workers E M) : step E M → Prop
  | .check_cube id r => Correct I (held F (p.m_workers id).s) (asms ++ (p.m_workers id).cube) r
  | .share_unit id unit => I.Entails (held F (p.m_workers id).s) unit
  | _ => True

/-- A core with a literal of the cube has no assumption besides the cube. -/
def WithoutAssumptions (p : workers E M) : step E M → Prop
  | .check_cube id (.l_false core) =>
    (∃ c ∈ core, c ∈ (p.m_workers id).cube) → ∀ c ∈ core, c ∈ (p.m_workers id).cube
  | _ => True

variable {I cfg} {F : Set E} {asms : List E} {p p' : workers E M}

/-- The answers that are kept until they are used. -/
def AnswerInv (I : Interp E M) (F : Set E) (asms cube : List E) : answer E M → Prop
  | .l_false core =>
    I.Core F core ∧ (∀ e ∈ core, e ∈ asms ∨ e ∈ cube) ∧ ((∃ c ∈ core, c ∈ cube) → ∀ c ∈ core, c ∈ cube)
  | _ => True

def LocInv (I : Interp E M) (F : Set E) (asms cube : List E) : location E M → Prop
  | .checked r | .tested r | .deciding r => AnswerInv I F asms cube r
  | .sharing_conflict cube_core => I.Core F cube_core
  | _ => True

structure WorkerInv (I : Interp E M) (F : Set E) (asms : List E) (t : tree E) (w : worker E M) : Prop where
  s : ∀ e ∈ w.s, I.Entails F e
  cube : ∀ n, w.lease.leased_node = some n → ∀ l ∈ w.cube, t.OnPath n l
  loc : LocInv I F asms w.cube w.loc

structure WorkersInv (I : Interp E M) (F : Set E) (asms : List E) (p : workers E M) : Prop where
  manager : ManagerInv I F asms (fun _ => True) p.b
  m_workers : ∀ id, WorkerInv I F asms p.b.m_search_tree (p.m_workers id)

omit [DecidableEq E] in
theorem WorkerInv.ext {t t' : tree E} {w : worker E M} (h : WorkerInv I F asms t w) (hext : Extends t t') :
    WorkerInv I F asms t' w :=
  { h with cube := fun n hn l hl => hext.onPath (h.cube n hn l hl) }

omit [DecidableEq E] in
theorem WorkersInv.set_b (h : WorkersInv I F asms p) {b : batch_manager E M}
    (hb : Kept I F asms (fun _ => True) p.b b) : WorkersInv I F asms { p with b } where
  manager := hb.inv
  m_workers id := (h.m_workers id).ext hb.ext

omit [DecidableEq E] in
theorem WorkersInv.set_worker (h : WorkersInv I F asms p) (id : Nat) {w : worker E M}
    (hw : WorkerInv I F asms p.b.m_search_tree w) : WorkersInv I F asms (p.set_worker id w) where
  manager := h.manager
  m_workers id' := by
    by_cases hid : id' = id
    · subst hid
      simpa [workers.set_worker] using hw
    · simpa [workers.set_worker, hid] using h.m_workers id'

section Manager

variable {b : batch_manager E M} (h : ManagerInv I F asms (fun _ => True) b)
include h

omit [DecidableEq E] in
theorem kept_set_exception (canceled : Bool) (ex : exception) :
    Kept I F asms (fun _ => True) b (set_exception b canceled ex) := by
  fun_cases set_exception b canceled ex with
  | case1 | case3 | case5 => exact .refl h
  | case2 => exact h.set_exception_code _
  | case4 => exact h.set_exception_msg _

theorem kept_backtrack (id : Nat) {core : List E} (hcore : I.Core F core) {lease : node_lease}
    (hlease : ∀ n, lease.leased_node = some n → FromPath asms b.m_search_tree n core) :
    Kept I F asms (fun _ => True) b (backtrack cfg b id core lease) := by
  rw [backtrack]
  split
  next => exact .refl h
  next hrun =>
    obtain ⟨hkept, hstate⟩ := h.backtrack_lease (some id) hcore hlease
    have hcancel := hkept.inv.cancel_closed_leases cfg (some id)
    exact hkept.trans (hcancel.trans (hcancel.inv.set_closed (hstate.trans (not_not.mp hrun))))

omit [DecidableEq E] in
theorem kept_release_lease (id : Nat) (lease : node_lease) :
    Kept I F asms (fun _ => True) b (release_lease b id lease) := by
  unfold release_lease
  split
  · exact .refl h
  · exact h.release_lease _ _

theorem kept_collect_global_backbone {backbone : E} (hbackbone : I.Entails F backbone) (source : Option Nat) :
    Kept I F asms (fun _ => True) b (collect_global_backbone b backbone source).2 := by
  rw [collect_global_backbone]
  split
  next => exact .refl h
  next =>
    have hinv : ManagerInv I F asms (fun _ => True) { b with m_global_backbones := backbone :: b.m_global_backbones } :=
      { h with global_backbones := forall_mem_cons.mpr ⟨hbackbone, h.global_backbones⟩ }
    have hclause := hinv.collect_clause source hbackbone
    exact ⟨hclause.inv, hclause.ext⟩

end Manager

/-- A step of a worker keeps the shared clauses entailed and the tree sound. At a report the core has either no
literal of the cube, and is made of assumptions, or literals of the cube only. -/
theorem WorkersInv.exec_worker (h : WorkersInv I F asms p) {a : step E M} {id : Nat} (ha : a.id = id)
    (hchecked : Checked I F asms p a) (hwithout : WithoutAssumptions p a)
    (hexec : exec_worker I cfg p id (p.m_workers id) a = some p') : WorkersInv I F asms p' := by
  have hw := h.m_workers id
  have hloc := hw.loc
  have hF : ∀ f ∈ F, I.Entails F f := fun f hf => .of_mem hf
  -- the worker goes on after a call of the batch manager
  have hmove {b loc} (hkept : Kept I F asms (fun _ => True) p.b b) (hloc : LocInv I F asms (p.m_workers id).cube loc) :
      WorkersInv I F asms ({ p with b }.set_worker id { p.m_workers id with loc }) :=
    (h.set_b hkept).set_worker _ ⟨hw.s, (hw.ext hkept.ext).cube, hloc⟩
  revert hexec
  fun_cases parallel_solver.exec_worker I cfg p id (p.m_workers id) a <;> rintro ⟨⟩
  -- `get_cube`
  case case1 b hb =>
    have hkept := h.manager.get_cube id (p.m_workers id).is_first_run
    rw [hb] at hkept
    exact (h.set_b hkept).set_worker _ ⟨hw.s, by simp, trivial⟩
  case case2 lease b hb =>
    have hkept := h.manager.get_cube id (p.m_workers id).is_first_run
    rw [hb] at hkept
    refine (h.set_b hkept).set_worker _ ⟨hw.s, fun n (hn : lease.leased_node = some n) l hl => ?_, trivial⟩
    rw [hn] at hl
    exact onPath_of_mem_path_cube hl
  -- `collect_shared_clauses`
  case case4 => exact h.set_worker _ ⟨forall_mem_append hw.s (h.manager.return_shared_clauses _ _), hw.cube, trivial⟩
  -- `check_cube`
  case case6 => exact hmove (kept_set_exception h.manager _ _) trivial
  case case7 id' _ r _ =>
    obtain rfl : id' = id := ha
    refine h.set_worker _ ⟨hw.s, hw.cube, ?_⟩
    cases r with
    | l_false core =>
      exact ⟨hchecked.2.cut (entails_held hF hw.s), fun e he => mem_append.mp (hchecked.1 e he), hwithout⟩
    | _ => trivial
  -- `lease_canceled` and `inc`
  case case9 => exact h.set_worker _ ⟨hw.s, by simp, trivial⟩
  case case10 hr _ | case15 hr _ =>
    rw [hr] at hloc
    exact h.set_worker _ ⟨hw.s, hw.cube, hloc⟩
  -- `inc` of a canceled worker, and `next_cube`
  case case14 | case31 => exact h.set_worker _ ⟨hw.s, hw.cube, trivial⟩
  -- `dec_cancel`
  case case12 => exact hmove ⟨{ h.manager with }, .refl _⟩ trivial
  -- `try_split` and `release_lease`
  case case18 => exact hmove (h.manager.try_split ..) trivial
  case case20 => exact hmove (kept_release_lease h.manager ..) trivial
  -- `report`
  case case22 => exact hmove (h.manager.set_sat trivial) trivial
  case case23 core hcore cube_core hnone =>
    rw [hcore] at hloc
    have hasms : ∀ e ∈ core, e ∈ asms := by
      intro e he
      refine (hloc.2.1 e he).resolve_right fun hec => ?_
      exact absurd (mem_filter.mpr ⟨he, decide_eq_true hec⟩) (eq_nil_iff_forall_not_mem.mp (isEmpty_iff.mp hnone) e)
    exact hmove (h.manager.set_unsat hloc.1 hasms) trivial
  case case24 core hcore cube_core hsome =>
    rw [hcore] at hloc
    obtain ⟨hsound, hsub, hcube⟩ := hloc
    -- a core with a literal of the cube is not made smaller by the filter
    have hfilter : cube_core = core := by
      obtain ⟨c, hc⟩ := exists_mem_of_ne_nil _ fun hnil => hsome (isEmpty_iff.mpr hnil)
      obtain ⟨hc, hcc⟩ := mem_filter.mp hc
      exact filter_eq_self.mpr fun e he => decide_eq_true (hcube ⟨c, hc, of_decide_eq_true hcc⟩ e he)
    rw [hfilter]
    refine hmove (kept_backtrack h.manager id hsound fun n hn l hl => ?_) hsound
    exact (hsub l hl).imp_right (hw.cube n hn l)
  -- `share_conflict`
  case case26 hcore b =>
    rw [hcore] at hloc
    refine hmove ?_ trivial
    unfold b
    split
    · exact h.manager.collect_clause _ (Core.entails_or_not hloc)
    · exact .refl h.manager
  -- `share_unit`
  case case28 id' _ _ _ =>
    obtain rfl : id' = id := ha
    exact h.set_b (kept_collect_global_backbone h.manager (Entails.cut hchecked (entails_held hF hw.s)) (some _))

theorem WorkersInv.exec (h : WorkersInv I F asms p) {a : step E M} (hchecked : Checked I F asms p a)
    (hwithout : WithoutAssumptions p a) (hexec : exec I cfg p a = some p') : WorkersInv I F asms p' := by
  rw [parallel_solver.exec, Option.ite_none_left_eq_some, Option.ite_none_right_eq_some] at hexec
  exact h.exec_worker rfl hchecked hwithout hexec.2.2

omit [DecidableEq E] in
theorem WorkersInv.init : WorkersInv I F asms (init : workers E M) where
  manager := (ThreadsInv.init : ThreadsInv I F asms (fun _ => True) smt.parallel.init).manager
  m_workers _ := ⟨by simp [parallel_solver.init], by simp [parallel_solver.init], trivial⟩

omit [DecidableEq E] in
theorem is_unsat_of_get_result {b : batch_manager E M} {canceled : Bool} (h : get_result b canceled = .ok .l_false) :
    b.m_state = .is_unsat := by
  revert h
  fun_cases get_result b canceled <;> simp_all

/-- In every run of the workers in which no core with a literal of its cube has an assumption besides, the core of the
verdict unsat consists of assumptions and is a core of the assertions. The filter that keeps the literals of the cube
loses the assumptions of all other cores. -/
theorem parallel_tactic_core_sound (I : Interp E M) (F : Set E) (asms : List E) (cfg : config) {p : workers E M}
    (h : Machine.Reaches (exec I cfg) (fun p a => Checked I F asms p a ∧ WithoutAssumptions p a) init p)
    (canceled : Bool) (hresult : get_result p.b canceled = .ok .l_false) :
    (∀ e ∈ p.b.m_unsat_core, e ∈ asms) ∧ I.Core F p.b.m_unsat_core := by
  have hinv : WorkersInv I F asms p := h.invariant .init fun p a p' hp ha hexec => hp.exec ha.1 ha.2 hexec
  exact (hinv.manager.unsat (is_unsat_of_get_result hresult)).symm

/-- The steps of a worker for one cube, with the answer of the check. -/
def solve_cube (r : answer E M) : List (step E M) :=
  [.get_cube 0, .collect_shared_clauses 0, .check_cube 0 r, .lease_canceled 0, .inc 0]

/-- Whether the core of a check is the cube of the second variable, or the first variable without the cube. -/
def blames_cube (p : workers (Bool × Bool → Bool) (Bool × Bool)) : step (Bool × Bool → Bool) (Bool × Bool) → Bool
  | .check_cube id (.l_false core) =>
    decide ((p.m_workers id).cube = [fun m => m.2] ∧ core = [fun m => m.2] ∨
      (p.m_workers id).cube = [fun m => !m.2] ∧ core = [fun m => m.1])
  | .check_cube _ .l_undef => true
  | .check_cube .. | .share_unit .. => false
  | _ => true

/-- The checks of `blames_cube` are correct, and no core of a cube has an assumption. -/
theorem checked_of_blames_cube (p : workers (Bool × Bool → Bool) (Bool × Bool))
    (a : step (Bool × Bool → Bool) (Bool × Bool)) (h : blames_cube p a) :
    Checked (ofBool (Bool × Bool)) {fun m => !m.2, fun m => !m.1 || m.2} [fun m => m.1] p a ∧
      WithoutAssumptions p a := by
  cases a with
  | check_cube id r =>
    cases r with
    | l_false core =>
      rcases of_decide_eq_true h with ⟨hcube, rfl⟩ | ⟨hcube, rfl⟩
      · refine ⟨⟨by simp [hcube], ?_⟩, fun _ => by simp [hcube]⟩
        exact core_ofBool [fun m => !m.2] (fun f hf => .inl (.inl (mem_singleton.mp hf))) (by decide)
      · refine ⟨⟨by simp, ?_⟩, fun ⟨c, hc, hmem⟩ => ?_⟩
        · exact core_ofBool [fun m => !m.2, fun m => !m.1 || m.2] (fun f hf => .inl (by simpa using hf)) (by decide)
        · rw [mem_singleton.mp hc, hcube] at hmem
          exact absurd hmem (by decide)
    | l_undef => exact ⟨trivial, trivial⟩
    | _ => cases h
  | share_unit => cases h
  | _ => exact ⟨trivial, trivial⟩

/-- A worker splits on the second variable. The core of the first cube is the cube itself, which is backtracked from,
and the core of the other one is the assumption on the first variable. -/
theorem parallel_tactic_core_sound_split :
    let I := ofBool (Bool × Bool)
    let F : Set (Bool × Bool → Bool) := {fun m => !m.2, fun m => !m.1 || m.2}
    ∃ p, Machine.Reaches (exec I { num_workers := 2 })
        (fun p a => Checked I F [fun m => m.1] p a ∧ WithoutAssumptions p a) init p ∧
      get_result p.b false = .ok .l_false ∧ p.b.m_unsat_core = [fun m => m.1] ∧ I.Core F p.b.m_unsat_core := by
  intro I F
  have hrun : (Machine.run
      (fun p a => if blames_cube p a then exec (ofBool (Bool × Bool)) { num_workers := 2 } p a else none)
      init (solve_cube .l_undef ++ [.try_split 0 (fun m => m.2) 1500 0, .next_cube 0] ++
        solve_cube (.l_false [fun m => m.2]) ++ [.report 0, .share_conflict 0, .next_cube 0] ++
        solve_cube (.l_false [fun m => m.1]) ++ [.report 0])).map
        (fun p => decide (p.b.m_state = .is_unsat) && decide (p.b.m_unsat_core = [fun m => m.1])) = some true := by
    decide
  obtain ⟨p, hp, hend⟩ := Option.map_eq_some_iff.mp hrun
  simp only [Bool.and_eq_true, decide_eq_true_eq] at hend
  obtain ⟨hunsat, hcore⟩ := hend
  have hreach := Machine.Reaches.of_guarded_run checked_of_blames_cube hp
  have hresult : get_result p.b false = .ok .l_false := by simp [get_result, hunsat]
  exact ⟨p, hreach, hresult, hcore, (parallel_tactic_core_sound I F _ _ hreach false hresult).2⟩

/-- Whether the core of a check is the assumption and a cube for the second variable. -/
def blames_fst (p : workers (Bool × Bool → Bool) (Bool × Bool)) : step (Bool × Bool → Bool) (Bool × Bool) → Bool
  | .check_cube id (.l_false core) =>
    decide (core = (fun m => m.1) :: (p.m_workers id).cube ∧
      ((p.m_workers id).cube = [fun m => m.2] ∨ (p.m_workers id).cube = [fun m => !m.2]))
  | .check_cube _ .l_undef => true
  | .check_cube .. | .share_unit .. => false
  | _ => true

/-- `F` has a clause with the assumption for each value of the second variable. -/
theorem checked_of_blames_fst (p : workers (Bool × Bool → Bool) (Bool × Bool))
    (a : step (Bool × Bool → Bool) (Bool × Bool)) (h : blames_fst p a) :
    Checked (ofBool (Bool × Bool)) {fun m => !m.1 || !m.2, fun m => !m.1 || m.2} [fun m => m.1] p a := by
  cases a with
  | check_cube id r =>
    cases r with
    | l_false core =>
      obtain ⟨rfl, hcube⟩ := of_decide_eq_true h
      refine ⟨fun e he => he, ?_⟩
      rcases hcube with hcube | hcube <;> rw [hcube]
      · exact core_ofBool [fun m => !m.1 || !m.2] (fun f hf => .inl (.inl (mem_singleton.mp hf))) (by decide)
      · exact core_ofBool [fun m => !m.1 || m.2] (fun f hf => .inl (.inr (mem_singleton.mp hf))) (by decide)
    | l_undef => trivial
    | _ => cases h
  | share_unit => cases h
  | _ => trivial

def location.is_returned : location E M → Bool
  | .returned => true
  | _ => false

omit [DecidableEq E] in
theorem location.eq_returned {loc : location E M} (h : loc.is_returned) : loc = .returned := by
  cases loc <;> first | rfl | cases h

/-- The two cubes of a split on the second variable are closed with cores that have the assumption on the first;
without it the resolvent is empty, and so is the core, but the assertions are satisfiable. -/
theorem parallel_tactic_core_drops_assumption :
    ∃ p, Machine.Reaches (exec (ofBool (Bool × Bool)) { num_workers := 2 })
        (Checked (ofBool (Bool × Bool)) {fun m => !m.1 || !m.2, fun m => !m.1 || m.2} [fun m => m.1]) init p ∧
      (p.m_workers 0).loc = .returned ∧ (p.m_workers 1).loc = .returned ∧
      get_result p.b false = .ok .l_false ∧ p.b.m_unsat_core = [] ∧
      ¬ (ofBool (Bool × Bool)).Core {fun m => !m.1 || !m.2, fun m => !m.1 || m.2} p.b.m_unsat_core := by
  have hrun : (Machine.run
      (fun p a => if blames_fst p a then exec (ofBool (Bool × Bool)) { num_workers := 2 } p a else none)
      init (solve_cube .l_undef ++ [.try_split 0 (fun m => m.2) 1500 0, .next_cube 0] ++
        solve_cube (.l_false [fun m => m.1, fun m => m.2]) ++ [.report 0, .share_conflict 0, .next_cube 0] ++
        solve_cube (.l_false [fun m => m.1, fun m => !m.2]) ++ [.report 0, .share_conflict 0, .next_cube 0] ++
        [.get_cube 0, .get_cube 1])).map
        (fun p => ((p.m_workers 0).loc.is_returned && (p.m_workers 1).loc.is_returned) &&
          (decide (p.b.m_state = .is_unsat) && decide (p.b.m_unsat_core = []))) = some true := by
    decide
  obtain ⟨p, hp, hend⟩ := Option.map_eq_some_iff.mp hrun
  simp only [Bool.and_eq_true, decide_eq_true_eq] at hend
  obtain ⟨⟨hfirst, hsecond⟩, hunsat, hcore⟩ := hend
  refine ⟨p, .of_guarded_run checked_of_blames_fst hp, location.eq_returned hfirst, location.eq_returned hsecond,
    by simp [get_result, hunsat], hcore, ?_⟩
  rw [hcore]
  exact not_core_ofBool (false, false) (by simp) rfl

end parallel_solver
