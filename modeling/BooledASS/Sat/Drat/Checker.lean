import BooledASS.Sat.Types

open Function

namespace sat

inductive status.st where
  | input
  | asserted
  | redundant
  | deleted
deriving DecidableEq, Repr

/-- The status of a clause with the theory that it comes from; `-1` is the SAT solver itself. -/
structure status where
  m_st : status.st
  m_orig : Int := -1
deriving DecidableEq, Repr

namespace status

def is_input (st : status) : Bool := st.m_st = .input
def is_redundant (st : status) : Bool := st.m_st = .redundant
def is_deleted (st : status) : Bool := st.m_st = .deleted
def is_sat (st : status) : Bool := st.m_orig = -1

end status

/-- A clause of `m_alloc` with its address. -/
structure drat.clause where
  ptr : Nat
  lits : List literal
deriving DecidableEq, Repr

structure drat.watched_clause where
  m_clause : drat.clause
  m_l1 : literal
  m_l2 : literal
deriving DecidableEq, Repr

/-- The state of the checker. The checks are on (`m_check` and `m_check_unsat`), so every variable that occurs is
declared. `m_next` is the address of the next clause: no clause is freed while the checker is used. -/
structure drat where
  m_watched_clauses : List drat.watched_clause := []
  m_next : Nat := 0
  m_proof : List (drat.clause × status) := []
  m_units : List (literal × Option drat.clause) := []
  m_watches : literal → List Nat := fun _ => []
  m_assignment : bool_var → lbool := fun _ => .l_undef
  m_inconsistent : Bool := false

namespace drat

variable (s : drat)

def value (l : literal) : lbool :=
  let val := s.m_assignment l.var
  if val = .l_undef ∨ l.sign = false then val else val.neg

def mk_clause (lits : List literal) : drat.clause × drat := (⟨s.m_next, lits⟩, { s with m_next := s.m_next + 1 })

def assign (l : literal) (c : Option drat.clause) : drat :=
  match s.value l with
  | .l_false => { s with m_inconsistent := true }
  | .l_true => s
  | .l_undef =>
    { s with
      m_assignment := update s.m_assignment l.var (if l.sign then .l_false else .l_true)
      m_units := s.m_units ++ [(l, c)] }

/-- `m_watched_clauses[idx] = wc`. -/
def set_watched_clause (idx : Nat) (wc : watched_clause) : drat :=
  { s with m_watched_clauses := s.m_watched_clauses.set idx wc }

/-- `m_watches[l.index()].push_back(idx)`. -/
def push_watch (l : literal) (idx : Nat) : drat := { s with m_watches := update s.m_watches l (s.m_watches l ++ [idx]) }

/-- Whether the visited watch is copied, has moved to another list or ends the loop. -/
inductive visit where
  | keep
  | drop
  | conflict

/-- The watch of the false literal `~l` is made the second one. -/
def watched_clause.order (wc : watched_clause) (l : literal) : watched_clause :=
  if wc.m_l1 = ~~~l then { wc with m_l1 := wc.m_l2, m_l2 := wc.m_l1 } else wc

/-- The body of the loop of `propagate`. -/
def visit_watch (l : literal) (idx : Nat) : drat × visit :=
  match s.m_watched_clauses[idx]? with
  | none => (s, .keep)
  | some wc =>
    let wc := wc.order l
    let s := s.set_watched_clause idx wc
    if s.value wc.m_l1 = .l_true then (s, .keep)
    else
      match wc.m_clause.lits.find? fun lit => lit ≠ wc.m_l1 ∧ lit ≠ wc.m_l2 ∧ s.value lit ≠ .l_false with
      | some lit => ((s.set_watched_clause idx { wc with m_l2 := lit }).push_watch (~~~lit) idx, .drop)
      | none =>
        if s.value wc.m_l1 = .l_false then ({ s with m_inconsistent := true }, .conflict)
        else (s.assign wc.m_l1 (some wc.m_clause), .keep)

/-- The loop over the watch list of `l`; `kept` is what `it2` has left behind. -/
def visit_watches (l : literal) (kept : List Nat) : drat → List Nat → drat × List Nat
  | s, [] => (s, kept)
  | s, idx :: todo =>
    match s.visit_watch l idx with
    | (s, .keep) => visit_watches l (kept ++ [idx]) s todo
    | (s, .drop) => visit_watches l kept s todo
    | (s, .conflict) => (s, kept ++ idx :: todo)

def propagate (l : literal) : drat :=
  let r := visit_watches l [] s (s.m_watches l)
  { r.1 with m_watches := update r.1.m_watches l r.2 }

/-- The loop of `assign_propagate` over the units from position `i` on. -/
def propagate_units : Nat → drat → (i : Nat) → drat
  | 0, s, _ => s
  | fuel + 1, s, i =>
    if s.m_inconsistent then s
    else
      match s.m_units[i]? with
      | none => s
      | some (l, _) => propagate_units fuel (s.propagate l) (i + 1)

/-- The literals of the watched clauses: each of them becomes a unit at most once. -/
def watched_lits : List literal := s.m_watched_clauses.flatMap fun wc => wc.m_clause.lits

def assign_propagate (l : literal) (c : Option drat.clause) : drat :=
  propagate_units (s.watched_lits.length + 2) (s.assign l c) s.m_units.length

/-- The loop of `is_drup` over the literals of the clause. -/
def assign_negated : drat → List literal → drat
  | s, [] => s
  | s, l :: c => if s.m_inconsistent then s else assign_negated (s.assign_propagate (~~~l) none) c

/-- The units from position `num_units` on are taken back. -/
def undo (num_units : Nat) : drat :=
  { s with
    m_assignment := (s.m_units.drop num_units).foldl (fun a u => update a u.1.var .l_undef) s.m_assignment
    m_units := s.m_units.take num_units
    m_inconsistent := false }

def is_drup (c : List literal) : Bool × drat :=
  if s.m_inconsistent then (true, s)
  else if c.isEmpty then (false, s)
  else
    let s1 := s.assign_negated c
    (s1.m_inconsistent, s1.undo s.m_units.length)

/-- `is_drat` returns false at once; a clause that is not verified is `UNREACHABLE`. -/
def verify (c : List literal) : Option drat :=
  if s.m_inconsistent then some s
  else
    match s.is_drup c with
    | (true, s) => some s
    | (false, _) => none

/-- The verification at the start of the functions `append`. -/
def verify_redundant (c : List literal) (st : status) : Option drat :=
  if st.is_redundant ∧ st.is_sat then s.verify c else some s

def append_unit (l : literal) (st : status) : Option drat :=
  (s.verify_redundant [l] st).map fun s =>
    if st.is_deleted then s
    else
      let s := s.assign_propagate l none
      { s with m_units := s.m_units ++ [(l, none)] }

/-- A watched clause is added with its two watches. -/
def attach (c : drat.clause) (l1 l2 : literal) : drat :=
  let idx := s.m_watched_clauses.length
  let s : drat := { s with m_watched_clauses := s.m_watched_clauses ++ [⟨c, l1, l2⟩] }
  (s.push_watch (~~~l1) idx).push_watch (~~~l2) idx

def append_binary (l1 l2 : literal) (st : status) : Option drat :=
  if st.is_deleted then some s
  else
    (s.verify_redundant [l1, l2] st).map fun s =>
      let (c, s) := s.mk_clause [l1, l2]
      let s := { s with m_proof := s.m_proof ++ [(c, st)] }
      let s := s.attach c l1 l2
      if s.value l1 = .l_false ∧ s.value l2 = .l_false then { s with m_inconsistent := true }
      else if s.value l1 = .l_false then s.assign_propagate l2 (some c)
      else if s.value l2 = .l_false then s.assign_propagate l1 (some c)
      else s

/-- Clauses are compared by their address. The watch that is removed is replaced by the last one. -/
def del_watch (c : drat.clause) (l : literal) : drat :=
  let w := s.m_watches (~~~l)
  match w.findIdx? fun idx => (s.m_watched_clauses[idx]?).any fun wc => wc.m_clause.ptr = c.ptr with
  | none => s
  | some i => { s with m_watches := update s.m_watches (~~~l) ((w.set i (w.getLastD 0)).dropLast) }

def append_clause (c : drat.clause) (st : status) : Option drat :=
  (s.verify_redundant c.lits st).map fun s =>
    let s := { s with m_proof := s.m_proof ++ [(c, st)] }
    if st.is_deleted then
      match c.lits with
      | [] => s
      | [l1] => s.del_watch c l1
      | l1 :: l2 :: _ => (s.del_watch c l1).del_watch c l2
    else
      match c.lits.filter fun l => s.value l ≠ .l_false with
      | [] => { s with m_inconsistent := true }
      | [l1] => s.assign_propagate l1 (some c)
      | l1 :: l2 :: _ => s.attach c l1 l2

/-- The calls of the solver: `add()`, `add(literal, bool)` and `del(literal)`, `add(literal, literal, status)` and
`del(literal, literal)`, `add(clause&, status)` and `del` of a clause, `add(unsigned, literal const*, status)`, and
`add(literal_vector const&)`. -/
inductive call where
  | add_empty
  | add_literal (l : literal) (st : status)
  | add_binary (l1 l2 : literal) (st : status)
  | add_clause (c : List literal) (st : status)
  | add_lits (c : List literal) (st : status)
  | add_learned (c : List literal)

def append_new_clause (c : List literal) (st : status) : Option drat :=
  (s.mk_clause c).2.append_clause (s.mk_clause c).1 st

/-- `none` is a clause that is not verified. -/
def exec : call → Option drat
  | .add_empty => s.verify []
  | .add_literal l st => s.append_unit l st
  | .add_binary l1 l2 st => s.append_binary l1 l2 st
  | .add_clause c st => s.append_new_clause c st
  | .add_lits [] st => if st.is_input then some { s with m_inconsistent := true } else s.verify []
  | .add_lits [l] st => s.append_unit l st
  | .add_lits (l1 :: l2 :: c) st => s.append_new_clause (l1 :: l2 :: c) st
  | .add_learned [] => s.verify []
  | .add_learned [l] => s.append_unit l ⟨.redundant, -1⟩
  | .add_learned (l1 :: l2 :: c) =>
    (s.verify (l1 :: l2 :: c)).bind fun s => s.append_new_clause (l1 :: l2 :: c) ⟨.redundant, -1⟩

end drat

end sat
