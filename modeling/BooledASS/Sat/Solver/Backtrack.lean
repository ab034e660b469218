import BooledASS.Sat.Solver.Propagate

namespace sat.solver

variable (s : solver)

def push : solver := { s with m_scopes := s.m_scopes ++ [⟨s.m_trail.length, s.m_clauses_to_reinit.length⟩] }

/-- The literals from `old_sz` on whose level survives are pushed again in their old order; the
queue restarts before them. -/
def unassign_vars (old_sz new_lvl : Nat) : solver :=
  let undone := (s.m_trail.drop old_sz).filter fun l => new_lvl < s.lvl l.var
  let replay_assign := (s.m_trail.drop old_sz).filter fun l => s.lvl l.var ≤ new_lvl
  { s with
    m_assignment := fun v => if undone.any (fun l => l.var == v) then .l_undef else s.m_assignment v
    m_trail := s.m_trail.take old_sz ++ replay_assign
    m_qhead := (s.m_trail.take old_sz).length }

/-- One entry of the reinit stack; returns whether it stays on the stack. -/
def reinit_clause : clause_wrapper → solver × Bool
  | .bin l1 l2 =>
    let p := s.propagate_bin_clause l1 l2
    if p.2 ∧ !p.1.at_base_lvl then (p.1, true)
    else (p.1, p.1.has_variables_to_reinit_bin l1 l2 && !p.1.at_base_lvl)
  | .cls off =>
    let p := (s.detach_clause off).attach_clause off
    if p.2 ∧ !p.1.at_base_lvl then (p.1, true)
    else if p.1.has_variables_to_reinit (p.1.m_cls off).m_lits ∧ !p.1.at_base_lvl then (p.1, true)
    else (p.1.set_cls off { p.1.m_cls off with m_reinit_stack := false }, false)

/-- The loop of `reinit_clauses`, with the entries kept so far. -/
def reinit_loop (kept : List clause_wrapper) :
    solver → List clause_wrapper → solver × List clause_wrapper
  | s, [] => (s, kept)
  | s, cw :: rest =>
    let p := s.reinit_clause cw
    reinit_loop (if p.2 then kept ++ [cw] else kept) p.1 rest

def reinit_clauses (old_sz : Nat) : solver :=
  let r := reinit_loop [] s (s.m_clauses_to_reinit.drop old_sz)
  { r.1 with m_clauses_to_reinit := s.m_clauses_to_reinit.take old_sz ++ r.2 }

/-- The part of `pop` before the clauses are reinitialized. `m_scope_lvl` is the length of `m_scopes`,
so the scopes shrink together with it. -/
def unwind (sc : scope) (new_lvl : Nat) : solver :=
  { { s with m_inconsistent := false }.unassign_vars sc.m_trail_lim new_lvl with
    m_scopes := s.m_scopes.take new_lvl }

def pop (num_scopes : Nat) : solver :=
  let new_lvl := s.scope_lvl - num_scopes
  match s.m_scopes[new_lvl]? with
  | none => s
  | some sc => (s.unwind sc new_lvl).reinit_clauses sc.m_clauses_to_reinit_lim

/-- `for (literal lit : ...) { if (inconsistent()) break; assign_scoped(lit); }`. -/
def assign_all_scoped : solver → List literal → solver
  | s, [] => s
  | s, lit :: rest => if s.m_inconsistent then s else assign_all_scoped (s.assign_scoped lit) rest

def reinit_assumptions : Option solver :=
  if s.tracking_assumptions ∧ s.at_base_lvl ∧ !s.m_inconsistent then
    match s.propagate with
    | none => none
    | some (s, false) => some s
    | some (s, true) =>
      let s := s.push.assign_all_scoped (s.m_user_scope_literals.map (~~~·) ++ s.m_assumptions)
      if s.m_inconsistent then some s else s.propagate.map Prod.fst
  else some s

def pop_reinit (num_scopes : Nat) : Option solver := (s.pop num_scopes).reinit_assumptions

end sat.solver
