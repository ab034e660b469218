import BooledASS.Sat.Search

namespace sat

namespace solver

/-- The watch that gives a binary clause; each clause is taken at its smaller literal. -/
def collect_watch (redundant learned_only : Bool) (l : literal) : watched → Option (literal × literal)
  | .CLAUSE _ _ => none
  | .BINARY l2 learned =>
    if !redundant ∧ learned then none
    else if redundant ∧ learned_only ∧ !learned then none
    else if literal.index l > literal.index l2 then none
    else some (l, l2)

def collect_bin_clauses (s : solver) (redundant learned_only : Bool) : List (literal × literal) :=
  (List.range (2 * s.m_num_vars)).flatMap fun l_idx =>
    (s.m_watches (to_literal l_idx)).filterMap (collect_watch redundant learned_only (~~~(to_literal l_idx)))

/-- The clauses of the device's matrix, one a row: binary, original and learned ones. -/
def gpu_clauses (s : solver) : List (List literal) :=
  (s.collect_bin_clauses true false).map (fun p => [p.1, p.2]) ++
    ((s.m_clauses.filter fun off => !(s.m_cls off).m_removed) ++
      s.m_learned.filter fun off => !(s.m_cls off).m_removed).map fun off => (s.m_cls off).m_lits

end solver

/-- The tables of a layout that the solver copies: the device's matrix has `K_pad` columns, `var_inv` gives
the column of a variable and `var_perm` the variable of a column. Past the variables `var_perm` gives what
is read there. -/
structure var_tables where
  K_pad : Nat
  var_perm : Nat → Nat
  var_inv : Nat → Nat

/-- Tables that are an order of `nv` variables: each one has a column of its own. -/
structure var_order (nv : Nat) extends var_tables where
  inv_lt : ∀ v < nv, var_inv v < K_pad
  perm_inv : ∀ v < nv, var_perm (var_inv v) = v

/-- What the device holds: the clauses it was initialised with, the assignment buffer by columns, and
whether a launch is in flight. -/
structure GpuBcpPersistentState where
  clauses : List (List literal)
  h_b : Nat → Int := fun _ => 0
  async_in_flight : Bool := false

/-- The solver as a launch found it, and the lowest scope level reached since. -/
structure launch_record where
  core : solver
  min_lvl : Nat

/-- The solver with the fields for the device, and the variable `is_sat` of `basic_search`. `m_launch` is
kept for the statements only; counters that are only displayed are left out. -/
structure gpu_solver where
  core : solver
  is_sat : lbool := .l_undef
  gpu_threshold : Nat := 200000
  m_gpu_state : Option GpuBcpPersistentState := none
  m_gpu_tried_init : Bool := false
  m_gpu_var_perm : Nat → Nat := fun v => v
  m_gpu_var_inv : Nat → Nat := fun v => v
  m_gpu_K_pad : Nat := 0
  m_gpu_throttle_interval : Nat := 8
  m_gpu_decisions_since_call : Nat := 0
  m_gpu_dry_streak : Nat := 0
  m_gpu_launch_level : Nat := 0
  m_gpu_poll_tick : Nat := 0
  m_launch : Option launch_record := none

namespace gpu_solver

variable (s : gpu_solver)

/-- Addition of `unsigned` numbers. -/
def add_u32 (m n : Nat) : Nat := (m + n) % 4294967296

def min_throttle : Nat := if s.m_gpu_K_pad / 2048 < 8 then 8 else s.m_gpu_K_pad / 2048

/-- `ok` tells whether `gpu_bcp_init_persistent` returns a state. Only then are the tables copied and the
throttle set. -/
def gpu_init_persistent_from_layout (o : var_tables) (ok : Bool) : gpu_solver :=
  if ok then
    let s := { s with
      m_gpu_state := some { clauses := s.core.gpu_clauses }
      m_gpu_K_pad := o.K_pad
      m_gpu_var_perm := o.var_perm
      m_gpu_var_inv := o.var_inv }
    { s with m_gpu_throttle_interval := s.min_throttle * 2, m_gpu_tried_init := true }
  else { s with m_gpu_state := none }

/-- The device is set up once, if there are clauses enough. `o` has the tables of the layout that is built
from the clauses. -/
def gpu_init_persistent (o : var_tables) (ok : Bool) : gpu_solver :=
  if s.m_gpu_state.isSome ∨ s.m_gpu_tried_init then s
  else
    let s := { s with m_gpu_tried_init := true }
    let nc := s.core.gpu_clauses.length
    if nc < s.gpu_threshold ∨ s.core.m_num_vars = 0 then s
    else s.gpu_init_persistent_from_layout o ok

/-- The iteration of the loop of `gpu_launch_async` for the variable `v`. -/
def set_buffer_entry (h_b : Nat → Int) (v : Nat) : Nat → Int :=
  let pv := s.m_gpu_var_inv v
  if pv ≥ s.m_gpu_K_pad then h_b
  else
    match s.core.value ⟨v, false⟩ with
    | .l_true => Function.update h_b pv 1
    | .l_false => Function.update h_b pv (-1)
    | .l_undef => h_b

/-- The assignment by columns. -/
def assignment_buffer : Nat → Int := (List.range s.core.m_num_vars).foldl s.set_buffer_entry fun _ => 0

/-- `buffer` tells whether the device gives its assignment buffer. -/
def gpu_launch_async (buffer : Bool) : gpu_solver :=
  match s.m_gpu_state with
  | none => s
  | some g =>
    if !buffer then s
    else { s with
      m_gpu_state := some { g with h_b := s.assignment_buffer, async_in_flight := true }
      m_launch := some ⟨s.core, s.core.scope_lvl⟩ }

/-- The literal of a unit that the device returns as a column and a polarity. -/
def decode_unit (u : Int × Int) : Option literal :=
  if u.1 < 0 ∨ u.1.toNat ≥ s.m_gpu_K_pad then none
  else if s.m_gpu_var_perm u.1.toNat ≥ s.core.m_num_vars then none
  else some ⟨s.m_gpu_var_perm u.1.toNat, u.2 < 0⟩

/-- The first unit that is false. -/
def conflict_literal (units : List (Int × Int)) : Option literal :=
  (units.filterMap s.decode_unit).find? fun lit => s.core.value lit = .l_false

/-- The conflict for a unit `lit` that is false: the decision literal of its level is blamed. -/
def set_gpu_conflict (c : solver) (lit : literal) : Option solver :=
  let L := c.lvl lit.var
  if L = 0 then some (c.set_conflict (.none 0) (some lit))
  else (c.scope_literal (L - 1)).map fun d => c.set_conflict (.binary L (~~~d)) (some lit)

def inject_unit (activity : bool_var → Nat) (threshold : Nat) (p : solver × Nat) (lit : literal) :
    solver × Nat :=
  if p.1.value lit = .l_undef ∧ activity lit.var ≥ threshold then
    (p.1.assign_core lit (.none p.1.scope_lvl), p.2 + 1)
  else p

/-- The call was productive. -/
def halve_throttle : Nat :=
  if s.m_gpu_throttle_interval > s.min_throttle then
    if s.m_gpu_throttle_interval / 2 < s.min_throttle then s.min_throttle else s.m_gpu_throttle_interval / 2
  else s.m_gpu_throttle_interval

/-- The call found nothing. -/
def back_off : gpu_solver :=
  let s := { s with m_gpu_dry_streak := add_u32 s.m_gpu_dry_streak 1 }
  if s.m_gpu_dry_streak ≥ 3 ∧ s.m_gpu_throttle_interval < 65536 then
    { s with m_gpu_throttle_interval := min (s.m_gpu_throttle_interval * 2) 65536 }
  else s

/-- Only the streak and the throttle change. -/
theorem back_off_eq : ∃ interval, s.back_off =
    { s with m_gpu_dry_streak := add_u32 s.m_gpu_dry_streak 1, m_gpu_throttle_interval := interval } := by
  unfold back_off
  dsimp only
  split
  · exact ⟨_, rfl⟩
  · exact ⟨s.m_gpu_throttle_interval, rfl⟩

/-- The least activity of a unit to be injected. `none` stands for a call that does not get one: with a
shift by 28 to 31 the one bit of `16` has left the 32 bits and the division is by 0, and from a shift by 32
on (a dry streak of 64 calls or more) the shift itself is undefined in C++. -/
def activity_threshold (activity : bool_var → Nat) : Option Nat :=
  let max_act := (List.range s.core.m_num_vars).foldl
    (fun max_act v => if activity v > max_act then activity v else max_act) 0
  let shift := s.m_gpu_dry_streak / 2
  if shift ≥ 28 then none
  else
    let divisor := if 16 <<< shift > 4096 then 4096 else 16 <<< shift
    some (if max_act / divisor > 500 then 500 else max_act / divisor)

/-- Returns whether there is a conflict or a literal to propagate. -/
def gpu_retrieve_and_inject (units : List (Int × Int)) (activity : bool_var → Nat) :
    Option (gpu_solver × Bool) :=
  match s.conflict_literal units with
  | some lit => (set_gpu_conflict s.core lit).map fun c =>
      ({ s with core := c, m_gpu_dry_streak := 0, m_gpu_throttle_interval := s.halve_throttle }, true)
  | none =>
    if units.length = 0 then some (s.back_off, false)
    else (s.activity_threshold activity).map fun threshold =>
      let p := (units.filterMap s.decode_unit).foldl (inject_unit activity threshold) (s.core, 0)
      if p.2 > 0 then
        ({ s with
            core := p.1
            m_gpu_dry_streak := 0
            m_gpu_throttle_interval := if p.2 > 50 then s.halve_throttle else s.m_gpu_throttle_interval }, true)
      else (s.back_off, false)

end gpu_solver

end sat
