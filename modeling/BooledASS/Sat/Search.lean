import BooledASS.Logic.Machine
import BooledASS.Sat.Invariant.Resolve

open Cnf

namespace sat.solver

/-- A solver with `n` variables and no clauses. -/
def init (cfg : config) (n : Nat) : solver := { m_config := cfg, m_num_vars := n }

/-- `decide` for the chosen literal: a new scope in which it is assigned. -/
def decide_lit (s : solver) (l : literal) : solver := s.push.assign_scoped l

/-- The operations of the search. -/
inductive op where
  | mk_clause (lits : List literal)
  | decide (next : literal)
  | assign_scoped (l : literal)
  | propagate
  | pop_reinit (num_scopes : Nat)
  | resolve_conflict_core
deriving DecidableEq, Repr

/-- An operation where its callers execute it. A decision is made for an unassigned literal when the
queue has been worked off without a conflict; a conflict is resolved when there is one. -/
def exec (s : solver) : op → Option solver
  | .mk_clause lits => if lits.all (fun l => l.var < s.m_num_vars) then some (s.mk_clause lits) else none
  | .decide next =>
    if next.var < s.m_num_vars ∧ s.value next = .l_undef ∧ s.m_inconsistent = false ∧
        s.m_qhead = s.m_trail.length then some (s.decide_lit next)
    else none
  | .assign_scoped l =>
    if l.var < s.m_num_vars ∧ s.value l = .l_undef then some (s.assign_scoped l) else none
  | .propagate => s.propagate.map Prod.fst
  | .pop_reinit num_scopes => if num_scopes ≤ s.scope_lvl then s.pop_reinit num_scopes else none
  | .resolve_conflict_core => if s.m_inconsistent then s.resolve_conflict_core.map Prod.fst else none

variable {s : solver} {F : Set (List literal)} {G : Prop} {l : literal}

/-- The empty solver satisfies the invariant of the search: it has no clauses, no scopes and an empty trail. -/
theorem init_inv (cfg : config) (n : Nat) : (init cfg n).Inv F G where
  visit :=
    { trail :=
        { nodup := by simp [init]
          value_true := fun l => by cases h : l.sign <;> simp [init, value, h]
          bounded := by simp [init]
          lim_le := by simp [init]
          lim_sorted := by simp [init]
          qhead_le := by simp [init]
          level_le := by simp [init]
          level_lim := by simp [init]
          unit := by simp [init]
          reasons := by simp [init] }
      db :=
        { live_lt := by simp [init, Live]
          clause_ok := by simp [init, Live]
          bin_ok := by simp [init]
          bin_sym := by simp [init]
          watch_ok := by simp [init]
          watched := by simp [init]
          reason_bin := by simp [init]
          reason_cls := by simp [init] }
      guard := fun _ _ _ _ => ⟨by simp [init], by simp [init]⟩ }
  conflict := by simp [init]
  reinit := by simp [init]
  var_scope := by simp [init]
  clear := ⟨by simp [init], by simp [init], rfl⟩
  cached := by simp [init]
  assumptions := by simp [init]
  free := fun _ => rfl

theorem Inv.decide_lit (h : s.Inv F G) (hvar : l.var < s.m_num_vars) (hundef : s.value l = .l_undef)
    (hcons : s.m_inconsistent = false) (hq : s.m_qhead = s.m_trail.length) : (s.decide_lit l).Inv F G := by
  have hvalue : s.push.value l = .l_undef := hundef
  refine (h.push hq hcons).assign_scoped hvar (by simp [scope_lvl, solver.push]) (.inl ?_)
  rw [hvalue]
  simp

/-- A literal may be assigned without a justification at the base level only if it is entailed. -/
theorem Inv.assign_scoped_undef (h : s.Inv F G) (hvar : l.var < s.m_num_vars)
    (hundef : s.value l = .l_undef) (hbase : s.scope_lvl = 0 → Entails F [l]) : (s.assign_scoped l).Inv F G :=
  h.assign ⟨hvar, le_rfl, .inl rfl, hbase, by simp [justification.none], by simp [justification.none]⟩
    (by simp [hundef]) (by simp [hundef])

end sat.solver
