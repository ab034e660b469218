import BooledASS.Sat.Gpu.Device

namespace sat

/-- The step of the CPU search that ends an iteration of `basic_search`. -/
inductive search_step where
  | do_restart (num_scopes : Nat)
  | decide (next : literal)
deriving DecidableEq, Repr

/-- What an iteration of `basic_search` gets from the device and from the search heuristics. -/
structure answers where
  poll_status : Bool := false
  units : List (Int × Int) := []
  buffer : Bool := true
  activity : bool_var → Nat := fun _ => 0
  next : search_step

namespace gpu_solver

variable (s : gpu_solver)

/-- `gpu_retrieve_and_inject` is entered when a launch has come to its end and the scope level is not
below that of the launch. The device is asked at every 2048th tick. -/
def retrieves (a : answers) : Bool :=
  match s.m_gpu_state with
  | none => false
  | some g => s.is_sat = .l_undef && !s.core.m_inconsistent && !(s.core.m_qhead < s.core.m_trail.length) &&
      g.async_in_flight && add_u32 s.m_gpu_poll_tick 1 &&& 2047 == 0 && a.poll_status &&
      !(s.core.scope_lvl < s.m_gpu_launch_level)

/-- The first part of the branch for the device; returns whether the loop continues. A launch is in flight
until `gpu_bcp_poll_status` tells that it has come to its end. -/
def poll (a : answers) : Option (gpu_solver × Bool) :=
  match s.m_gpu_state with
  | none => some (s, false)
  | some g =>
    if g.async_in_flight then
      let s := { s with m_gpu_poll_tick := add_u32 s.m_gpu_poll_tick 1 }
      if s.m_gpu_poll_tick &&& 2047 = 0 ∧ a.poll_status then
        let s := { s with m_gpu_state := some { g with async_in_flight := false } }
        if s.core.scope_lvl < s.m_gpu_launch_level then some (s, false)
        else s.gpu_retrieve_and_inject a.units a.activity
      else some (s, false)
    else some (s, false)

/-- The second part: the next launch. -/
def launch (a : answers) : gpu_solver :=
  match s.m_gpu_state with
  | none => s
  | some g =>
    if !g.async_in_flight ∧ !s.core.m_inconsistent ∧ s.core.m_qhead = s.core.m_trail.length ∧
        s.m_gpu_decisions_since_call ≥ s.m_gpu_throttle_interval then
      { s with m_gpu_decisions_since_call := 0, m_gpu_launch_level := s.core.scope_lvl }.gpu_launch_async a.buffer
    else s

/-- A launch leaves the solver alone and keeps the clauses of the device. -/
theorem launch_core (a : answers) : (s.launch a).core = s.core ∧ (s.launch a).is_sat = s.is_sat ∧
    (s.launch a).m_gpu_state.map (·.clauses) = s.m_gpu_state.map (·.clauses) := by
  fun_cases launch s a with
  | case1 | case3 => exact ⟨rfl, rfl, rfl⟩
  | case2 g hg =>
    unfold gpu_launch_async
    rw [hg]
    dsimp only
    split
    · exact ⟨rfl, rfl, by simp⟩
    · exact ⟨rfl, rfl, rfl⟩

/-- A restart undoes some of the scopes; a decision is made for an unassigned variable. -/
def cpu_step : search_step → Option gpu_solver
  | .do_restart num_scopes =>
    if num_scopes ≤ s.core.scope_lvl then (s.core.pop_reinit num_scopes).map fun c => { s with core := c }
    else none
  | .decide next =>
    if next.var < s.core.m_num_vars ∧ s.core.value next = .l_undef then
      some { s with
        core := s.core.decide_lit next
        m_gpu_decisions_since_call := add_u32 s.m_gpu_decisions_since_call 1 }
    else none

/-- An iteration of the loop of `basic_search`. -/
def basic_search_step (a : answers) : Option gpu_solver :=
  if s.is_sat ≠ .l_undef then none
  else if s.core.m_inconsistent then
    s.core.resolve_conflict_core.map fun p => { s with core := p.1, is_sat := p.2 }
  else if s.core.m_qhead < s.core.m_trail.length then s.core.propagate.map fun p => { s with core := p.1 }
  else
    match s.poll a with
    | none => none
    | some (s, true) => some s
    | some (s, false) => (s.launch a).cpu_step a.next

/-- The operations of a run: clauses are added at the base level, where the device is initialised too, and
then there are iterations of the search. Before it initialises the device, `do_simplify` has released the
old one and resets `m_gpu_tried_init`. -/
inductive gpu_op (n : Nat) where
  | mk_clause (lits : List literal)
  | gpu_init_persistent (o : var_order n) (ok : Bool)
  | basic_search (a : answers)

def step {n : Nat} (s : gpu_solver) : gpu_op n → Option gpu_solver
  | .mk_clause lits =>
    if s.core.scope_lvl = 0 ∧ !s.core.m_inconsistent ∧ lits.all (fun l => l.var < s.core.m_num_vars) then
      some { s with core := s.core.mk_clause lits }
    else none
  | .gpu_init_persistent o ok =>
    if s.core.m_num_vars = n ∧ s.core.scope_lvl = 0 ∧ s.m_gpu_state.isNone then
      some ({ s with m_gpu_tried_init := false }.gpu_init_persistent o.tovar_tables ok)
    else none
  | .basic_search a => s.basic_search_step a

/-- The level is noted for the launch. -/
def note_level : gpu_solver :=
  { s with m_launch := s.m_launch.map fun r => { r with min_lvl := min r.min_lvl s.core.scope_lvl } }

def exec {n : Nat} (s : gpu_solver) (o : gpu_op n) : Option gpu_solver := (s.step o).map note_level

def init (cfg : config) (n gpu_threshold : Nat) : gpu_solver :=
  { core := solver.init cfg n, gpu_threshold := gpu_threshold }

end gpu_solver

end sat
