import BooledASS.Sat.Types

open Function

namespace sat

inductive branching_heuristic where
  | BH_VSIDS
  | BH_CHB
deriving DecidableEq, Repr

structure config where
  m_minimize_lemmas : Bool := true
  m_dyn_sub_res : Bool := true
  m_branching_heuristic : branching_heuristic := .BH_VSIDS
  m_backtrack_scopes : Nat := 100
  m_backtrack_init_conflicts : Nat := 4000
deriving Repr

/-- The part of `sat::solver` that search reads and writes. The two entries of `m_assignment` of a
variable are complementary, so one value a variable is stored. Proof logging, trimming, the
extension and the parallel hooks are off; activities, phases and glue do not occur. -/
structure solver where
  m_config : config := {}
  m_num_vars : Nat := 0
  m_assignment : bool_var → lbool := fun _ => .l_undef
  m_justification : bool_var → justification := fun _ => .none 4294967295
  m_trail : List literal := []
  m_qhead : Nat := 0
  m_scopes : List scope := []
  m_inconsistent : Bool := false
  m_conflict : justification := .none 0
  m_not_l : Option literal := none
  m_cls : clause_offset → clause := fun _ => ⟨[], [], false, false, false, 0⟩
  m_next_off : clause_offset := 0
  m_clauses : List clause_offset := []
  m_learned : List clause_offset := []
  m_watches : literal → List watched := fun _ => []
  m_clauses_to_reinit : List clause_wrapper := []
  m_var_scope : bool_var → Nat := fun _ => 0
  m_mark : bool_var → Bool := fun _ => false
  m_lit_mark : literal → Bool := fun _ => false
  m_unmark : List bool_var := []
  m_lemma : List literal := []
  m_conflict_lvl : Nat := 0
  m_conflicts_since_init : Nat := 0
  m_force_conflict_analysis : Bool := false
  m_assumptions : List literal := []
  m_user_scope_literals : List literal := []
  m_cached_bins : literal → Option (List literal) := fun _ => none

namespace solver

variable (s : solver)

def scope_lvl : Nat := s.m_scopes.length
def at_base_lvl : Bool := s.scope_lvl == 0

def value (l : literal) : lbool :=
  if l.sign then (s.m_assignment l.var).neg else s.m_assignment l.var

/-- The level recorded in the justification of the variable, also when it is unassigned. -/
def lvl (v : bool_var) : Nat := (s.m_justification v).level

def inconsistent : Bool := s.m_inconsistent
def tracking_assumptions : Bool := !s.m_assumptions.isEmpty || !s.m_user_scope_literals.isEmpty

/-- `m_trail[m_scopes[n].m_trail_lim]`. -/
def scope_literal (n : Nat) : Option literal := s.m_scopes[n]?.bind fun sc => s.m_trail[sc.m_trail_lim]?

def set_conflict (c : justification) (not_l : Option literal) : solver :=
  if s.m_inconsistent then s
  else { s with m_inconsistent := true, m_conflict := c, m_not_l := not_l }

/-- The justification of a literal assigned at level 0 is erased. -/
def assign_core (l : literal) (j : justification) : solver :=
  { s with
    m_assignment := update s.m_assignment l.var (if l.sign then .l_false else .l_true)
    m_justification := update s.m_justification l.var (if j.level = 0 then .none 0 else j)
    m_trail := s.m_trail ++ [l] }

def update_assign (l : literal) (j : justification) : solver :=
  if j.level = 0 ∧ s.lvl l.var ≠ 0 then
    { s with m_justification := update s.m_justification l.var j }
  else s

def assign (l : literal) (j : justification) : solver :=
  match s.value l with
  | .l_false => s.set_conflict j (some (~~~l))
  | .l_undef => s.assign_core l j
  | .l_true => s.update_assign l j

def assign_unit (l : literal) : solver := s.assign l (.none 0)
def assign_scoped (l : literal) : solver := s.assign l (.none s.scope_lvl)
def set_cls (off : clause_offset) (c : clause) : solver := { s with m_cls := update s.m_cls off c }

/-- `m_watches[l.index()].push_back(w)`. -/
def push_watch (l : literal) (w : watched) : solver :=
  { s with m_watches := update s.m_watches l (s.m_watches l ++ [w]) }

def is_marked (v : bool_var) : Bool := s.m_mark v
def mark (v : bool_var) : solver := { s with m_mark := update s.m_mark v true }
def reset_mark (v : bool_var) : solver := { s with m_mark := update s.m_mark v false }
def is_marked_lit (l : literal) : Bool := s.m_lit_mark l
def mark_lit (l : literal) : solver := { s with m_lit_mark := update s.m_lit_mark l true }
def unmark_lit (l : literal) : solver := { s with m_lit_mark := update s.m_lit_mark l false }

variable {s} {l m : literal} {j : justification}

@[simp] theorem value_compl : s.value (~~~l) = (s.value l).neg := by cases h : l.sign <;> simp [value, h]

theorem value_assign_core_self : (s.assign_core l j).value l = .l_true := by
  cases h : l.sign <;> simp [value, assign_core, h]

theorem value_assign_core_of_ne (h : m.var ≠ l.var) : (s.assign_core l j).value m = s.value m := by
  simp [value, assign_core, update_of_ne h]

theorem value_assign_core_eq_true :
    (s.assign_core l j).value m = .l_true ↔ m = l ∨ m.var ≠ l.var ∧ s.value m = .l_true := by
  by_cases hvar : m.var = l.var
  · rcases Cnf.Lit.eq_or_eq_compl_of_var_eq hvar with rfl | rfl
    · simp [value_assign_core_self]
    · simp [value_assign_core_self]
  · have hne : m ≠ l := fun h => hvar (by rw [h])
    simp [value_assign_core_of_ne hvar, hvar, hne]

@[simp] theorem assign_core_trail : (s.assign_core l j).m_trail = s.m_trail ++ [l] := rfl

theorem lvl_assign_core_self : (s.assign_core l j).lvl l.var = j.level := by
  by_cases h : j.level = 0 <;> simp [lvl, assign_core, h, justification.none]

theorem justification_assign_core_of_ne {v : bool_var} (h : v ≠ l.var) :
    (s.assign_core l j).m_justification v = s.m_justification v := by
  simp [assign_core, update_of_ne h]

theorem lvl_assign_core_of_ne {v : bool_var} (h : v ≠ l.var) : (s.assign_core l j).lvl v = s.lvl v := by
  rw [lvl, justification_assign_core_of_ne h, lvl]

end solver

end sat
