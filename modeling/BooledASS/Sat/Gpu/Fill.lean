import BooledASS.Sat.Gpu.Run

open Cnf

namespace sat

namespace solver

variable {s : solver} {l : literal} {b k : Nat}

/-- A literal without watches is taken off the queue and nothing happens. -/
theorem propagate_unwatched {T : List literal} (hcons : s.m_inconsistent = false) (htrail : s.m_trail = T ++ [l])
    (hq : s.m_qhead = T.length) (hw : s.m_watches l = []) :
    s.propagate = some ({ s with m_qhead := s.m_qhead + 1 }, true) := by
  have hl : s.m_trail[s.m_qhead]? = some l := by simp [htrail, hq]
  have hend : s.m_trail[s.m_qhead + 1]? = none := by simp [htrail, hq]
  have hlit : { s with m_qhead := s.m_qhead + 1 }.propagate_literal l =
      ({ s with m_qhead := s.m_qhead + 1 }, true) := by
    simp only [propagate_literal, hw, visit_watches]
    rw [← hw, Function.update_eq_self]
  have hinc : ¬ s.m_inconsistent := by simp [hcons]
  unfold propagate propagate_loop
  rw [if_neg hinc]
  simp only [hl]
  rw [hlit]
  dsimp only
  unfold propagate_loop
  rw [if_neg hinc]
  simp only [hend]

/-- `k` more decisions: the variables from `b` on, each made true in a scope of its own. -/
def filled (s : solver) (b k : Nat) : solver :=
  { s with
    m_assignment := fun v => if b ≤ v ∧ v < b + k then .l_true else s.m_assignment v
    m_justification := fun v => if b ≤ v ∧ v < b + k then .none (s.scope_lvl + (v - b) + 1) else s.m_justification v
    m_trail := s.m_trail ++ (List.range k).map fun i => ⟨b + i, false⟩
    m_qhead := s.m_qhead + k
    m_scopes := s.m_scopes ++ (List.range k).map fun i => ⟨s.m_trail.length + i, s.m_clauses_to_reinit.length⟩ }

/-- The queue is worked off, and the `k` variables from `b` on are unassigned and without watches. -/
structure Fillable (s : solver) (b k : Nat) : Prop where
  cons : s.m_inconsistent = false
  qhead : s.m_qhead = s.m_trail.length
  bound : b + k ≤ s.m_num_vars
  undef : ∀ i < k, s.m_assignment (b + i) = .l_undef
  unwatched : ∀ i < k, s.m_watches ⟨b + i, false⟩ = []

@[simp] theorem filled_zero : s.filled b 0 = s := by
  have hno : ∀ v, ¬ (b ≤ v ∧ v < b) := fun v => by omega
  simp [filled, hno]

theorem filled_scope_lvl : (s.filled b k).scope_lvl = s.scope_lvl + k := by simp [scope_lvl, filled]

theorem filled_value_self : (s.filled b k).value ⟨b + k, false⟩ = s.m_assignment (b + k) := by
  simp [value, filled]

/-- One more decision on a variable without watches: it is assigned, and propagation finds nothing. -/
theorem filled_succ (h : s.Fillable b (k + 1)) :
    ((s.filled b k).decide_lit ⟨b + k, false⟩).propagate = some (s.filled b (k + 1), true) := by
  have hundef : (s.filled b k).value ⟨b + k, false⟩ = .l_undef :=
    filled_value_self.trans (h.undef k (Nat.lt_succ_self k))
  have hlvl : (s.filled b k).push.scope_lvl = s.scope_lvl + k + 1 := by simp [scope_lvl, filled, push, Nat.add_assoc]
  have hdecide : (s.filled b k).decide_lit ⟨b + k, false⟩ =
      (s.filled b k).push.assign_core ⟨b + k, false⟩ (.none (s.scope_lvl + k + 1)) := by
    rw [decide_lit_eq hundef, hlvl]
  have hqhead : (s.filled b k).m_qhead = (s.filled b k).m_trail.length := by simp [filled, h.qhead]
  have hrun := propagate_unwatched (s := (s.filled b k).push.assign_core ⟨b + k, false⟩
    (.none (s.scope_lvl + k + 1))) h.cons rfl hqhead (h.unwatched k (Nat.lt_succ_self k))
  rw [hdecide, hrun]
  have hassign : Function.update (s.filled b k).m_assignment (b + k) .l_true =
      (s.filled b (k + 1)).m_assignment := by
    funext (v : Nat)
    by_cases hv : v = b + k
    · subst hv
      simp [filled]
    · have hiff : b ≤ v ∧ v < b + (k + 1) ↔ b ≤ v ∧ v < b + k := by omega
      simp [filled, hv, hiff]
  have hjust : Function.update (s.filled b k).m_justification (b + k) (.none (s.scope_lvl + k + 1)) =
      (s.filled b (k + 1)).m_justification := by
    funext (v : Nat)
    by_cases hv : v = b + k
    · subst hv
      simp [filled]
    · have hiff : b ≤ v ∧ v < b + (k + 1) ↔ b ≤ v ∧ v < b + k := by omega
      simp [filled, hv, hiff]
  simp only [assign_core, Nat.add_one_ne_zero, justification.none, if_false, Bool.false_eq_true, push]
  simp only [justification.none] at hjust
  rw [hassign, hjust]
  simp [filled, List.range_succ, Nat.add_assoc]

theorem Fillable.mono {k' : Nat} (h : s.Fillable b k) (hle : k' ≤ k) : s.Fillable b k' where
  cons := h.cons
  qhead := h.qhead
  bound := (Nat.add_le_add_left hle b).trans h.bound
  undef i hi := h.undef i (hi.trans_le hle)
  unwatched i hi := h.unwatched i (hi.trans_le hle)

end solver

namespace gpu_solver

variable {s s1 s' : gpu_solver} {n b k : Nat} {ok : gpu_solver → gpu_op n → Prop}

theorem note_level_eq (h : ∀ r, s.m_launch = some r → r.min_lvl ≤ s.core.scope_lvl) : s.note_level = s := by
  have hlaunch : s.m_launch.map (fun r => { r with min_lvl := min r.min_lvl s.core.scope_lvl }) = s.m_launch := by
    cases hr : s.m_launch with
    | none => rfl
    | some r => simp [min_eq_left (h r hr)]
  rw [note_level, hlaunch]

theorem basic_search_step_propagate {a : answers} (hsat : s.is_sat = .l_undef)
    (hcons : s.core.m_inconsistent = false) (hq : s.core.m_qhead < s.core.m_trail.length) :
    s.basic_search_step a = s.core.propagate.map fun p => { s with core := p.1 } := by
  unfold basic_search_step
  rw [if_neg (not_not.mpr hsat), if_neg (by simp [hcons]), if_pos hq]

theorem basic_search_step_quiet {a : answers} (hsat : s.is_sat = .l_undef)
    (hcons : s.core.m_inconsistent = false) (hq : s.core.m_qhead = s.core.m_trail.length)
    (hpoll : s.poll a = some (s1, false)) : s.basic_search_step a = (s1.launch a).cpu_step a.next := by
  unfold basic_search_step
  rw [if_neg (not_not.mpr hsat), if_neg (by simp [hcons]), if_neg (by simp [hq]), hpoll]

theorem basic_search_step_retrieved {a : answers} (hsat : s.is_sat = .l_undef)
    (hcons : s.core.m_inconsistent = false) (hq : s.core.m_trail.length ≤ s.core.m_qhead)
    (hpoll : s.poll a = some (s1, true)) : s.basic_search_step a = some s1 := by
  unfold basic_search_step
  rw [if_neg (not_not.mpr hsat), if_neg (by simp [hcons]), if_neg (not_lt.mpr hq), hpoll]

/-- The search after `k` decisions in a row, with the ticks of the device counted if a launch is in
flight. -/
def filled (s : gpu_solver) (b k ticks : Nat) : gpu_solver :=
  { s with
    core := s.core.filled b k
    m_gpu_poll_tick := s.m_gpu_poll_tick + ticks
    m_gpu_decisions_since_call := s.m_gpu_decisions_since_call + k }

/-- A decision and its propagation, in iterations that leave the device alone. -/
theorem reaches_filled_succ {t t' : Nat} (hfill : s.core.Fillable b (k + 1)) (hsat : s.is_sat = .l_undef)
    (hmin : ∀ r, s.m_launch = some r → r.min_lvl ≤ s.core.scope_lvl)
    (hdec : s.m_gpu_decisions_since_call + k + 1 < 4294967296)
    (hpoll : (s.filled b k t).poll { next := .decide ⟨b + k, false⟩ } = some (s.filled b k t', false))
    (hlaunch : (s.filled b k t').launch { next := .decide ⟨b + k, false⟩ } = s.filled b k t')
    (hok : ∀ s' a, s'.core.m_inconsistent = false → a.units = [] → ok s' (.basic_search a)) :
    Machine.Reaches exec ok (s.filled b k t) (s.filled b (k + 1) t') := by
  have hundef : (s.core.filled b k).value ⟨b + k, false⟩ = .l_undef :=
    solver.filled_value_self.trans (hfill.undef k (Nat.lt_succ_self k))
  have hquiet : (s.core.filled b k).m_qhead = (s.core.filled b k).m_trail.length := by
    simp [solver.filled, hfill.qhead]
  have hdcore := solver.decide_lit_eq hundef
  set d : gpu_solver := { s.filled b k t' with
    core := (s.core.filled b k).decide_lit ⟨b + k, false⟩
    m_gpu_decisions_since_call := s.m_gpu_decisions_since_call + k + 1 } with hd
  have hlvl : d.core.scope_lvl = s.core.scope_lvl + k + 1 := by
    show ((s.core.filled b k).decide_lit ⟨b + k, false⟩).m_scopes.length = _
    rw [hdcore]
    simp [solver.scope_lvl, solver.push, solver.assign_core, solver.filled, Nat.add_assoc]
  have hdecide : (s.filled b k t).basic_search_step { next := .decide ⟨b + k, false⟩ } = some d := by
    have hc : b + k < s.core.m_num_vars ∧ (s.core.filled b k).value ⟨b + k, false⟩ = .l_undef :=
      ⟨Nat.lt_of_succ_le hfill.bound, hundef⟩
    have hadd : add_u32 (s.m_gpu_decisions_since_call + k) 1 = s.m_gpu_decisions_since_call + k + 1 := by
      simp only [add_u32]
      omega
    rw [basic_search_step_quiet (s := s.filled b k t) hsat hfill.cons hquiet hpoll, hlaunch]
    exact (if_pos hc).trans (by rw [hd, ← hadd]; rfl)
  have hcons : d.core.m_inconsistent = false := by
    rw [show d.core = _ from hdcore]
    exact hfill.cons
  have hprop : d.basic_search_step { next := .decide ⟨b + k, false⟩ } = some (s.filled b (k + 1) t') := by
    have hq : d.core.m_qhead < d.core.m_trail.length := by
      rw [show d.core = _ from hdcore]
      simp [solver.assign_core, solver.push, hquiet]
    rw [basic_search_step_propagate (s := d) hsat hcons hq, solver.filled_succ hfill]
    rfl
  have hexec1 : (s.filled b k t).exec (.basic_search (n := n) { next := .decide ⟨b + k, false⟩ }) = some d := by
    have hnote : d.note_level = d := note_level_eq fun r hr => by
      have := hmin r hr
      omega
    simp only [exec, step, hdecide, Option.map_some, hnote]
  have hexec2 : d.exec (.basic_search (n := n) { next := .decide ⟨b + k, false⟩ }) = some (s.filled b (k + 1) t') := by
    have hnote : (s.filled b (k + 1) t').note_level = s.filled b (k + 1) t' := note_level_eq fun r hr => by
      have h1 := hmin r hr
      rw [show (s.filled b (k + 1) t').core = s.core.filled b (k + 1) from rfl, solver.filled_scope_lvl]
      omega
    simp only [exec, step, hprop, Option.map_some, hnote]
  exact .step (.step .refl (hok _ _ hfill.cons rfl) hexec1) (hok _ _ hcons rfl) hexec2

/-- Decisions before the next launch. -/
theorem reaches_filled_idle {g : GpuBcpPersistentState} (hfill : s.core.Fillable b k) (hsat : s.is_sat = .l_undef)
    (hg : s.m_gpu_state = some g) (hidle : g.async_in_flight = false) (hlaunch : s.m_launch = none)
    (hthrottle : s.m_gpu_decisions_since_call + k ≤ s.m_gpu_throttle_interval)
    (hbound : s.m_gpu_throttle_interval < 4294967296)
    (hok : ∀ s' a, s'.core.m_inconsistent = false → a.units = [] → ok s' (.basic_search a)) :
    Machine.Reaches exec ok s (s.filled b k 0) := by
  induction k with
  | zero =>
    have hzero : s.filled b 0 0 = s := by simp [filled]
    rw [hzero]
    exact .refl
  | succ k ih =>
    refine (ih (hfill.mono (Nat.le_succ k)) (by omega)).trans
      (reaches_filled_succ hfill hsat (by simp [hlaunch]) (by omega) ?_ ?_ hok)
    · simp [poll, filled, hg, hidle]
    · have hlt : ¬ s.m_gpu_throttle_interval ≤ s.m_gpu_decisions_since_call + k := by omega
      simp [launch, filled, hg, hlt]

/-- Decisions while a launch is in flight, each one a tick. -/
theorem reaches_filled_flying {g : GpuBcpPersistentState} (hfill : s.core.Fillable b k) (hsat : s.is_sat = .l_undef)
    (hg : s.m_gpu_state = some g) (hfly : g.async_in_flight)
    (hmin : ∀ r, s.m_launch = some r → r.min_lvl ≤ s.core.scope_lvl)
    (hdec : s.m_gpu_decisions_since_call + k < 4294967296) (htick : s.m_gpu_poll_tick + k < 4294967296)
    (hok : ∀ s' a, s'.core.m_inconsistent = false → a.units = [] → ok s' (.basic_search a)) :
    Machine.Reaches exec ok s (s.filled b k k) := by
  induction k with
  | zero =>
    have hzero : s.filled b 0 0 = s := by simp [filled]
    rw [hzero]
    exact .refl
  | succ k ih =>
    refine (ih (hfill.mono (Nat.le_succ k)) (by omega) (by omega)).trans
      (reaches_filled_succ hfill hsat hmin (by omega) ?_ ?_ hok)
    · have hadd : add_u32 (s.m_gpu_poll_tick + k) 1 = s.m_gpu_poll_tick + (k + 1) := by
        simp only [add_u32]
        omega
      simp [poll, filled, hg, hfly, hadd]
    · simp [launch, filled, hg, hfly]

end gpu_solver

/-- The variables in their own order. -/
def identity_order (n K_pad : Nat) (h : n ≤ K_pad) : var_order n :=
  ⟨⟨K_pad, id, id⟩, fun _ hv => hv.trans_le h, fun _ _ => rfl⟩

end sat
