import BooledASS.Sat.Search

open Cnf List

namespace sat.solver

section Loops

variable (s : solver)

/-- One iteration of the first loop of `unassign_vars`, with the assignment and `m_replay_assign`. -/
def unassign_step (new_lvl : Nat) (acc : (bool_var → lbool) × List literal) (l : literal) :
    (bool_var → lbool) × List literal :=
  if s.lvl l.var ≤ new_lvl then (acc.1, acc.2 ++ [l]) else (Function.update acc.1 l.var .l_undef, acc.2)

/-- The loops of `unassign_vars`: the first one goes from the end of the trail down to `old_sz`, the second one
takes `m_replay_assign` from its end. -/
def unassign_loops (old_sz new_lvl : Nat) : solver :=
  let acc := (s.m_trail.drop old_sz).reverse.foldl (s.unassign_step new_lvl) (s.m_assignment, [])
  let m_trail := s.m_trail.take old_sz
  { s with
    m_assignment := acc.1
    m_trail := acc.2.reverse.foldl (fun m_trail lit => m_trail ++ [lit]) m_trail
    m_qhead := m_trail.length }

variable {s}

/-- The first loop in closed form: the variables above the new level lose their value, and the literals at or below it
are collected for the second loop, in the order in which they are met. -/
theorem foldl_unassign_step (new_lvl : Nat) (lits : List literal) (a : bool_var → lbool) (replay : List literal) :
    lits.foldl (s.unassign_step new_lvl) (a, replay) =
      (fun v => if (lits.filter fun l => new_lvl < s.lvl l.var).any (fun l => l.var == v) then .l_undef else a v,
        replay ++ lits.filter fun l => s.lvl l.var ≤ new_lvl) := by
  induction lits generalizing a replay with
  | nil => simp
  | cons l lits ih =>
    rw [foldl_cons, unassign_step]
    split
    next hle =>
      rw [ih]
      simp [hle]
    next hgt =>
      rw [ih]
      simp only [filter_cons, hgt, not_le.mp hgt, decide_false, Bool.false_eq_true, if_false, Prod.mk.injEq, and_true]
      funext v
      by_cases hv : l.var = v
      · subst hv
        simp
      · have hv' : ¬ v = l.var := fun h => hv h.symm
        simp [hv, hv']

/-- The buffer is filled from the end of the trail and emptied from its own end, so that the order stays. -/
theorem unassign_loops_eq (old_sz new_lvl : Nat) :
    s.unassign_loops old_sz new_lvl = s.unassign_vars old_sz new_lvl := by
  have happend : ∀ lits trail : List literal,
      lits.foldl (fun m_trail lit => m_trail ++ [lit]) trail = trail ++ lits := by
    intro lits
    induction lits with
    | nil => simp
    | cons l lits ih => simp [ih]
  unfold unassign_loops unassign_vars
  rw [foldl_unassign_step]
  simp [happend]

end Loops

variable {s s' : solver} {l : literal} {j : justification}

theorem reinit_clauses_appended (old_sz : Nat) : Appended s (s.reinit_clauses old_sz) :=
  (reinit_loop_attached _ _ _).toAppended.trans (.of_eq rfl rfl rfl)

theorem TrailOk.mem_appended (h : s.TrailOk) (happ : Appended s s') {forced : List literal}
    (hforced : s'.m_trail = s.m_trail ++ forced) (hl : l ∈ forced) : s.value l = .l_undef := by
  have hnodup := (happ.ok h).nodup
  rw [hforced, map_append, nodup_append] at hnodup
  rw [h.undef_iff]
  constructor
  · exact fun hmem => hnodup.2.2 _ (mem_map_of_mem hmem) _ (mem_map_of_mem hl) rfl
  · exact fun hmem => hnodup.2.2 _ (mem_map_of_mem hmem) _ (mem_map_of_mem hl) rfl

/-- `pop` keeps the literals of the levels that remain, in their order, and queues those that it moved. The clauses
of the popped scopes that are attached again can only append further literals. -/
theorem pop_restores_trail (h : s.TrailOk) {n : Nat} {sc : scope} (hsc : s.m_scopes[s.scope_lvl - n]? = some sc)
    (hlow : ∀ l ∈ s.m_trail.take sc.m_trail_lim, s.lvl l.var ≤ s.scope_lvl - n) :
    let k := s.scope_lvl - n
    let kept := s.m_trail.filter fun l => s.lvl l.var ≤ k
    let unwound := { s with m_inconsistent := false }.unassign_loops sc.m_trail_lim k
    (unwound.m_trail = kept ∧ kept.Nodup ∧ (∀ l, unwound.value l = .l_true ↔ s.value l = .l_true ∧ s.lvl l.var ≤ k) ∧
      unwound.m_justification = s.m_justification ∧ kept.take unwound.m_qhead = s.m_trail.take sc.m_trail_lim) ∧
    ∃ forced, (s.pop n).m_trail = kept ++ forced ∧ (s.pop n).TrailOk ∧ (s.pop n).m_qhead = unwound.m_qhead ∧
      (∀ l ∈ forced, unwound.value l = .l_undef) ∧
      (s.m_clauses_to_reinit.drop sc.m_clauses_to_reinit_lim = [] →
        forced = [] ∧ (s.pop n).m_assignment = unwound.m_assignment ∧
          (s.pop n).m_justification = s.m_justification) := by
  intro k kept unwound
  have hunwound : unwound = { s with m_inconsistent := false }.unassign_vars sc.m_trail_lim k := unassign_loops_eq _ _
  have hpop : s.pop n = (s.unwind sc k).reinit_clauses sc.m_clauses_to_reinit_lim := by simp only [pop, hsc, k]
  have htrail : (s.unwind sc k).m_trail = kept := unwind_trail hlow
  have hok : (s.unwind sc k).TrailOk := h.unwind hlow
  have hvalue : ∀ l, unwound.value l = (s.unwind sc k).value l := fun l => by rw [hunwound]; rfl
  have happ := reinit_clauses_appended (s := s.unwind sc k) sc.m_clauses_to_reinit_lim
  obtain ⟨forced, hforced⟩ := happ.trail
  refine ⟨⟨by rw [hunwound]; exact htrail, ?_, fun l => ?_, by rw [hunwound]; rfl, ?_⟩, forced, ?_, ?_, ?_, ?_, ?_⟩
  · exact (List.Nodup.of_map _ h.nodup).filter _
  · rw [hvalue, hok.value_true, mem_unwind_trail hlow, h.value_true]
  · rw [← htrail]
    exact take_left
  · rw [hpop, ← hforced, htrail]
  · rw [hpop]
    exact happ.ok hok
  · rw [hpop, happ.qhead]
    rfl
  · intro l hl
    rw [hvalue]
    exact hok.mem_appended happ hforced.symm hl
  · intro hnil
    have hreinit : (s.unwind sc k).reinit_clauses sc.m_clauses_to_reinit_lim =
        { s.unwind sc k with m_clauses_to_reinit := s.m_clauses_to_reinit.take sc.m_clauses_to_reinit_lim ++ [] } := by
      have hdrop : (s.unwind sc k).m_clauses_to_reinit.drop sc.m_clauses_to_reinit_lim = [] := hnil
      unfold reinit_clauses
      rw [hdrop]
      rfl
    rw [hreinit] at hforced
    refine ⟨append_right_eq_self.mp hforced, ?_, ?_⟩
    · rw [hpop, hreinit, hunwound]
      rfl
    · rw [hpop, hreinit]
      rfl

/-- Two decisions, and then a literal that the first of them implies. -/
def late_literal : solver :=
  (((init {} 3).decide_lit ⟨0, false⟩).decide_lit ⟨1, false⟩).assign ⟨2, false⟩ (.binary 1 ⟨0, true⟩)

/-- The literal of level one is kept when the second decision is undone. -/
theorem pop_restores_trail_late : ∃ forced,
    (late_literal.pop 1).m_trail = [⟨0, false⟩, ⟨2, false⟩] ++ forced ∧ (late_literal.pop 1).m_qhead = 1 := by
  have hok : late_literal.TrailOk := by
    have hinit := (init_inv (F := ∅) (G := True) {} 3).visit.trail.toTrailOk
    have hpush : ∀ s : solver, Appended s s.push := fun s => .of_eq rfl rfl rfl
    have hdecide : ∀ s l, Appended s (s.decide_lit l) := fun s l =>
      (hpush s).trans (assign_attached _ _).toAppended
    exact (assign_attached _ _).ok ((hdecide _ _).ok ((hdecide _ _).ok hinit))
  have hsc : late_literal.m_scopes[late_literal.scope_lvl - 1]? = some ⟨1, 0⟩ := rfl
  obtain ⟨-, forced, htrail, -, hqhead, -⟩ := pop_restores_trail hok hsc (by decide)
  exact ⟨forced, htrail, hqhead⟩

/-- A clause that is added with both literals false is attached again by `pop`, and then assigns a literal that was
not assigned before. -/
theorem pop_assigns_reinit_clause : ∃ s, Machine.run exec (init {} 2)
      [.decide ⟨0, true⟩, .propagate, .decide ⟨1, true⟩, .propagate, .mk_clause [⟨0, false⟩, ⟨1, false⟩]] = some s ∧
    s.value ⟨1, false⟩ = .l_false ∧ (s.pop 1).value ⟨1, false⟩ = .l_true :=
  ⟨_, rfl, rfl, rfl⟩

end sat.solver
