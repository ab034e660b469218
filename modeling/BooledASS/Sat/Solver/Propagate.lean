import BooledASS.Sat.Solver.Clauses

namespace sat.solver

variable (s : solver)

/-- What becomes of the visited watch: it stays (perhaps with another blocked literal), it has moved
to another watch list, or its clause is in conflict. -/
inductive visit where
  | keep (w : watched)
  | drop
  | conflict
deriving DecidableEq, Repr

/-- The local variables of the scan of `propagate_literal` over `c[2..]`. -/
structure scan_vars where
  undef_index : Nat
  assign_level : Nat
  max_index : Nat
  num_undef : Nat
deriving DecidableEq, Repr

/-- The scan over the literals from position `i` on; `.error lit` is a jump out of the loop at a true
literal. -/
def scan_clause : List literal → (i : Nat) → scan_vars → Except literal scan_vars
  | [], _, acc => .ok acc
  | lit :: rest, i, acc =>
    if acc.num_undef ≤ 1 then
      match s.value lit with
      | .l_true => .error lit
      | .l_undef =>
        scan_clause rest (i + 1) { acc with undef_index := i, num_undef := acc.num_undef + 1 }
      | .l_false =>
        if s.lvl lit.var > acc.assign_level then
          scan_clause rest (i + 1) { acc with assign_level := s.lvl lit.var, max_index := i }
        else scan_clause rest (i + 1) acc
    else .ok acc

def set_watch (idx : Nat) (off : clause_offset) : solver :=
  let c := (s.m_cls off).swap 1 idx
  (s.set_cls off c).push_watch (~~~(c.at 1)) (.CLAUSE (c.at 0) off)

def propagate_clause (assign_level : Nat) (off : clause_offset) : solver :=
  s.assign_core ((s.m_cls off).at 0) (.clause assign_level off)

/-- The part of the `CLAUSE` case after the scan, for a clause whose second watch is false and whose
other literals are not true. -/
def settle_clause (w : watched) (off : clause_offset) (v : scan_vars) : solver × visit :=
  let c0 := (s.m_cls off).at 0
  let assign_level :=
    if s.value c0 = .l_false then max v.assign_level (s.lvl c0.var) else v.assign_level
  if v.undef_index ≠ 0 then
    let s1 := s.set_watch v.undef_index off
    if s1.value c0 = .l_false ∧ v.num_undef = 1 then
      ((s1.set_cls off ((s1.m_cls off).swap 0 1)).propagate_clause assign_level off, .drop)
    else (s1, .drop)
  else if s.value c0 = .l_false then (s.set_conflict (.clause assign_level off) none, .conflict)
  else if v.max_index ≠ 1 then ((s.set_watch v.max_index off).propagate_clause assign_level off, .drop)
  else (s.propagate_clause assign_level off, .keep w)

/-- The `CLAUSE` case of `propagate_literal`, for a watch in the list of `l` of level `curr_level`. -/
def visit_clause (l : literal) (curr_level : Nat) (blocked : literal) (off : clause_offset) :
    solver × visit :=
  if s.value blocked = .l_true then (s, .keep (.CLAUSE blocked off))
  else
    let c := if (s.m_cls off).at 0 = ~~~l then (s.m_cls off).swap 0 1 else s.m_cls off
    let s := s.set_cls off c
    if c.m_removed ∨ c.size = 1 ∨ c.at 1 ≠ ~~~l then (s, .keep (.CLAUSE blocked off))
    else if s.value (c.at 0) = .l_true then (s, .keep (.CLAUSE (c.at 0) off))
    else
      match s.scan_clause (c.m_lits.drop 2) 2 ⟨0, curr_level, 1, 0⟩ with
      | .error lit => (s, .keep (.CLAUSE lit off))
      | .ok v => s.settle_clause (.CLAUSE blocked off) off v

def visit_watch (l : literal) (curr_level : Nat) : watched → solver × visit
  | .BINARY l1 learned =>
    match s.value l1 with
    | .l_false => (s.set_conflict (.binary curr_level (~~~l)) (some (~~~l1)), .conflict)
    | .l_undef => (s.assign_core l1 (.binary curr_level (~~~l)), .keep (.BINARY l1 learned))
    | .l_true => (s, .keep (.BINARY l1 learned))
  | .CLAUSE blocked off => s.visit_clause l curr_level blocked off

/-- The loop over the watch list of `l`: `kept` is what has been written back so far. On a conflict
the current watch and the rest are copied. -/
def visit_watches (l : literal) (curr_level : Nat) (kept : List watched) :
    solver → List watched → solver × List watched × Bool
  | s, [] => (s, kept, true)
  | s, w :: todo =>
    match s.visit_watch l curr_level w with
    | (s, .keep w) => visit_watches l curr_level (kept ++ [w]) s todo
    | (s, .drop) => visit_watches l curr_level kept s todo
    | (s, .conflict) => (s, kept ++ w :: todo, false)

def propagate_literal (l : literal) : solver × Bool :=
  let r := visit_watches l (s.lvl l.var) [] s (s.m_watches l)
  ({ r.1 with m_watches := Function.update r.1.m_watches l r.2.1 }, r.2.2)

/-- The queue loop of `propagate_core`; `none` is out of fuel. -/
def propagate_loop : Nat → solver → Option (solver × Bool)
  | fuel, s =>
    if s.m_inconsistent then some (s, false)
    else
      match s.m_trail[s.m_qhead]? with
      | none => some (s, true)
      | some l =>
        match fuel with
        | 0 => none
        | fuel + 1 =>
          match propagate_literal { s with m_qhead := s.m_qhead + 1 } l with
          | (s, true) => propagate_loop fuel s
          | (s, false) => some (s, false)

/-- Every iteration takes another assigned variable off the queue. -/
def propagate : Option (solver × Bool) := propagate_loop (s.m_num_vars + 1) s

end sat.solver
