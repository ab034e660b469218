import Mathlib.Data.List.Sort
import BooledASS.Sat.Solver.State

namespace sat.solver

variable (s : solver)

/-- Whether a binary watch on `l2` is in the watch list of `l`. -/
def find_binary_watch (l l2 : literal) : Bool :=
  (s.m_watches l).any fun
    | .BINARY l' _ => l' == l2
    | .CLAUSE _ _ => false

def has_variables_to_reinit (lits : List literal) : Bool := lits.any fun l => s.m_var_scope l.var > 0

/-- The binary overload also tests for the base level. -/
def has_variables_to_reinit_bin (l1 l2 : literal) : Bool :=
  !s.at_base_lvl && (s.m_var_scope l1.var > 0 || s.m_var_scope l2.var > 0)

def push_reinit_stack_bin (l1 l2 : literal) : solver :=
  { s with m_clauses_to_reinit := s.m_clauses_to_reinit ++ [.bin l1 l2] }

def push_reinit_stack (off : clause_offset) : solver :=
  { s.set_cls off { s.m_cls off with m_reinit_stack := true } with
    m_clauses_to_reinit := s.m_clauses_to_reinit ++ [.cls off] }

def propagate_bin_clause (l1 l2 : literal) : solver × Bool :=
  if s.value l2 = .l_false ∧ s.value l1 ≠ .l_true then
    (s.assign l1 (.binary (s.lvl l2.var) l2), true)
  else if s.value l1 = .l_false ∧ s.value l2 ≠ .l_true then
    (s.assign l2 (.binary (s.lvl l1.var) l1), true)
  else (s, false)

/-- The two watches of a new binary clause. -/
def watch_bin_clause (l1 l2 : literal) (redundant : Bool) : solver :=
  (s.push_watch (~~~l1) (.BINARY l2 redundant)).push_watch (~~~l2) (.BINARY l1 redundant)

/-- With `redundant` the watch found for the same clause stays as it is: the branch that turns a
learned watch into an irredundant one needs `!redundant`, and is only reached with `redundant`. -/
def mk_bin_clause (l1 l2 : literal) (redundant : Bool) : solver :=
  if redundant ∧ s.find_binary_watch (~~~l1) (~~~l2) ∧ s.value l1 = .l_undef then s.assign_unit l1
  else if redundant ∧ s.find_binary_watch (~~~l2) (~~~l1) ∧ s.value l2 = .l_undef then
    s.assign_unit l2
  else if redundant ∧ s.find_binary_watch (~~~l1) l2 then
    let p := s.propagate_bin_clause l1 l2
    if p.2 ∧ !p.1.at_base_lvl ∧ !redundant then p.1.push_reinit_stack_bin l1 l2
    else if p.1.has_variables_to_reinit_bin l1 l2 then p.1.push_reinit_stack_bin l1 l2
    else p.1
  else
    let p := s.propagate_bin_clause l1 l2
    if p.2 then
      if p.1.at_base_lvl then p.1
      else (p.1.push_reinit_stack_bin l1 l2).watch_bin_clause l1 l2 redundant
    else if p.1.has_variables_to_reinit_bin l1 l2 then
      (p.1.push_reinit_stack_bin l1 l2).watch_bin_clause l1 l2 redundant
    else p.1.watch_bin_clause l1 l2 redundant

/-- One iteration of `select_watch_lit`: the positions of the true literal of least level, of the
last unassigned literal and of the false literal of greatest level seen so far. -/
def select_watch_step (c : clause) (acc : Option Nat × Option Nat × Option Nat) (i : Nat) :
    Option Nat × Option Nat × Option Nat :=
  match s.value (c.at i) with
  | .l_false =>
    match acc.2.2 with
    | none => (acc.1, acc.2.1, some i)
    | some k => if s.lvl (c.at i).var > s.lvl (c.at k).var then (acc.1, acc.2.1, some i) else acc
  | .l_undef => (acc.1, some i, acc.2.2)
  | .l_true =>
    match acc.1 with
    | none => (some i, acc.2)
    | some k => if s.lvl (c.at i).var < s.lvl (c.at k).var then (some i, acc.2) else acc

def select_watch_lit (c : clause) (starting_at : Nat) : Nat :=
  let acc := (List.range' starting_at (c.size - starting_at)).foldl (s.select_watch_step c) (none, none, none)
  match acc.1 with
  | some i => i
  | none =>
    match acc.2.1 with
    | some i => i
    | none => acc.2.2.getD 0

/-- One iteration of `select_learned_watch_lit`, with `max_idx`. -/
def select_learned_step (c : clause) (max_idx : Option Nat) (i : Nat) : Option Nat :=
  match max_idx with
  | none => some i
  | some k => if s.lvl (c.at i).var > s.lvl (c.at k).var then some i else some k

/-- The position from 1 on of the literal with the highest level, the first one of equals. -/
def select_learned_watch_lit (c : clause) : Nat :=
  ((List.range' 1 (c.size - 1)).foldl (s.select_learned_step c) none).getD 0

/-- The highest level of the watch `w` and of the literals from position 2 on. -/
def attach_level (c : clause) (w : literal) : Nat :=
  (c.m_lits.drop 2).foldl (fun level l => max level (s.lvl l.var)) (s.lvl w.var)

/-- The part of `attach_nary_clause` above the base level: pick the watches, then propagate. -/
def attach_select (off : clause_offset) (is_asserting : Bool) : solver :=
  if is_asserting then
    s.set_cls off ((s.m_cls off).swap 1 (s.select_learned_watch_lit (s.m_cls off)))
  else
    let c := (s.m_cls off).swap 0 (s.select_watch_lit (s.m_cls off) 0)
    s.set_cls off (c.swap 1 (s.select_watch_lit c 1))

def attach_propagate (off : clause_offset) : solver × Bool :=
  let c := s.m_cls off
  if s.value (c.at 0) = .l_false then
    (s.assign (c.at 1) (.clause (s.attach_level c (c.at 0)) off), !c.m_learned)
  else if s.value (c.at 1) = .l_false then
    (s.assign (c.at 0) (.clause (s.attach_level c (c.at 1)) off), !c.m_learned)
  else (s, false)

def watch_nary_clause (off : clause_offset) : solver :=
  let c := s.m_cls off
  let block_lit := c.at (c.size / 2)
  (s.push_watch (~~~(c.at 0)) (.CLAUSE block_lit off)).push_watch (~~~(c.at 1)) (.CLAUSE block_lit off)

/-- Returns whether the clause has to be put on the reinit stack. -/
def attach_nary_clause (off : clause_offset) (is_asserting : Bool) : solver × Bool :=
  if s.at_base_lvl then (s.watch_nary_clause off, false)
  else
    let p := (s.attach_select off is_asserting).attach_propagate off
    (p.1.watch_nary_clause off, p.2)

/-- `alloc_clause`: the new clause and its offset. -/
def alloc_clause (lits : List literal) (learned : Bool) : solver × clause_offset :=
  ({ s.set_cls s.m_next_off { m_lits := lits, m_learned := learned } with
      m_next_off := s.m_next_off + 1 }, s.m_next_off)

def mk_nary_clause (lits : List literal) (redundant : Bool) : solver :=
  let a := s.alloc_clause lits redundant
  let p := a.1.attach_nary_clause a.2 redundant
  let s := if p.2 || p.1.has_variables_to_reinit lits then p.1.push_reinit_stack a.2 else p.1
  if redundant then { s with m_learned := s.m_learned ++ [a.2] }
  else { s with m_clauses := s.m_clauses ++ [a.2] }

/-- The loop of `simplify_clause_core` over the sorted literals; `none` is a clause equivalent to
true. Above the base level only literals assigned at level 0 count as assigned. -/
def simplify_loop (lvl0 : Bool) : Option literal → List literal → Option (List literal)
  | _, [] => some []
  | prev, curr :: rest =>
    match (if !lvl0 ∧ s.lvl curr.var > 0 then lbool.l_undef else s.value curr) with
    | .l_false => simplify_loop lvl0 prev rest
    | .l_true => none
    | .l_undef =>
      if prev = some (~~~curr) then none
      else if prev = some curr then simplify_loop lvl0 prev rest
      else (simplify_loop lvl0 (some curr) rest).map (curr :: ·)

def simplify_clause (lits : List literal) : Option (List literal) :=
  s.simplify_loop s.at_base_lvl none (lits.insertionSort fun l m => literal.index l ≤ literal.index m)

/-- The switch on the number of literals that ends `mk_clause_core`. -/
def add_clause (lits : List literal) (redundant : Bool) : solver :=
  match lits with
  | [] => s.set_conflict (.none 0) none
  | [l] => s.assign l (.none 0)
  | [l1, l2] => s.mk_bin_clause l1 l2 redundant
  | _ => s.mk_nary_clause lits redundant

def mk_clause_core (lits : List literal) (redundant : Bool) : solver :=
  if redundant then s.add_clause lits redundant
  else
    match s.simplify_clause lits with
    | none => s
    | some lits => s.add_clause lits redundant

/-- An input clause; it gets the literals of the open user scopes. -/
def mk_clause (lits : List literal) : solver := s.mk_clause_core (lits ++ s.m_user_scope_literals) false

/-- `erase_clause_watch` on the watch list of `l`: the first watch of the clause goes. -/
def erase_clause_watch (l : literal) (off : clause_offset) : solver :=
  { s with
    m_watches := Function.update s.m_watches l ((s.m_watches l).eraseP fun
      | .BINARY _ _ => false
      | .CLAUSE _ off' => off' == off) }

def detach_clause (off : clause_offset) : solver :=
  let c := s.m_cls off
  (s.erase_clause_watch (~~~(c.at 0)) off).erase_clause_watch (~~~(c.at 1)) off

def attach_clause (off : clause_offset) : solver × Bool :=
  let c := s.m_cls off
  s.attach_nary_clause off (c.m_learned && !c.m_reinit_stack)

end sat.solver
