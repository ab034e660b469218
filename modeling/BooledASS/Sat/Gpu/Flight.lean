import BooledASS.Sat.Gpu.Fill

open Cnf List Bool Machine

namespace sat

namespace solver

variable {s : solver} {b k : Nat}

/-- What is to be checked for `Fillable`, variable by variable. -/
def fillable (s : solver) (b k : Nat) : Bool :=
  !s.m_inconsistent && s.m_qhead == s.m_trail.length && decide (b + k ≤ s.m_num_vars) &&
    (range k).all fun i => s.m_assignment (b + i) == .l_undef && s.m_watches ⟨b + i, false⟩ == []

theorem fillable_iff : s.fillable b k ↔ s.Fillable b k := by
  simp only [fillable, and_eq_true, not_eq_true', beq_iff_eq, decide_eq_true_eq, all_eq_true, mem_range]
  constructor
  · rintro ⟨⟨⟨hcons, hq⟩, hbound⟩, hall⟩
    exact ⟨hcons, hq, hbound, fun i hi => (hall i hi).1, fun i hi => (hall i hi).2⟩
  · intro h
    exact ⟨⟨⟨h.cons, h.qhead⟩, h.bound⟩, fun i hi => ⟨h.undef i hi, h.unwatched i hi⟩⟩

/-- The trail tells which variables are assigned: here only variables below `b`. -/
def fillable_above (s : solver) (b k : Nat) : Bool :=
  !s.m_inconsistent && s.m_qhead == s.m_trail.length && decide (b + k ≤ s.m_num_vars) &&
    s.m_trail.all (fun l => decide (l.var < b)) && (range k).all fun i => s.m_watches ⟨b + i, false⟩ == []

theorem TrailOk.fillable (htrail : s.TrailOk) (h : s.fillable_above b k) : s.Fillable b k := by
  simp only [fillable_above, and_eq_true, not_eq_true', beq_iff_eq, decide_eq_true_eq, all_eq_true, mem_range] at h
  obtain ⟨⟨⟨⟨hcons, hq⟩, hbound⟩, hbelow⟩, hwatches⟩ := h
  refine ⟨hcons, hq, hbound, fun i _ => ?_, hwatches⟩
  show s.value ⟨b + i, false⟩ = .l_undef
  cases hv : s.value ⟨b + i, false⟩ with
  | l_undef => rfl
  | l_true => exact absurd (hbelow _ ((htrail.value_true _).mp hv)) (Nat.not_lt.mpr (Nat.le_add_right b i))
  | l_false => exact absurd (hbelow _ (htrail.value_false.mp hv)) (Nat.not_lt.mpr (Nat.le_add_right b i))

/-- The clause is one of the long ones. -/
def has_clause (s : solver) (c : List literal) : Bool :=
  s.m_clauses.any fun off => !(s.m_cls off).m_removed && (s.m_cls off).m_lits == c

theorem mem_gpu_clauses {c : List literal} (h : s.has_clause c) : c ∈ s.gpu_clauses := by
  simp only [has_clause, any_eq_true, and_eq_true, beq_iff_eq] at h
  obtain ⟨off, hoff, hkept, rfl⟩ := h
  exact mem_append_right _ (mem_map_of_mem (mem_append_left _ (mem_filter.mpr ⟨hoff, hkept⟩)))

/-- Of the literals of the conflict level, only the first one on the trail may be without a justification. -/
def decision_first (s : solver) : Bool :=
  (s.m_trail.dropWhile fun m => s.lvl m.var != s.m_conflict_lvl).tail.all fun m =>
    (s.m_justification m.var).get_kind != .NONE

/-- The test on the trail is enough: after the first literal of the conflict level every literal has a reason, so that
a decision of that level is the first one. -/
theorem decisionFirst_of_decision_first (h : s.decision_first) : s.DecisionFirst := by
  intro pre l post htrail hkind hlvl m hm hmlvl
  obtain ⟨pre1, pre2, rfl⟩ := append_of_mem hm
  -- the literal `m` or one before it is the first of the level, so `l` is in the tail
  have hdrop : l ∈ (s.m_trail.dropWhile fun m => s.lvl m.var != s.m_conflict_lvl).tail := by
    have hstop : ∀ xs : List literal, ∃ y ys, (xs ++ m :: (pre2 ++ l :: post)).dropWhile
        (fun m => s.lvl m.var != s.m_conflict_lvl) = y :: (ys ++ l :: post) := by
      intro xs
      induction xs with
      | nil => exact ⟨m, pre2, by simp [hmlvl]⟩
      | cons x xs ih =>
        by_cases hx : s.lvl x.var = s.m_conflict_lvl
        · exact ⟨x, xs ++ m :: pre2, by simp [hx]⟩
        · obtain ⟨y, ys, hys⟩ := ih
          exact ⟨y, ys, by simpa [dropWhile, hx] using hys⟩
    obtain ⟨y, ys, hys⟩ := hstop pre1
    rw [htrail, append_assoc, cons_append, hys]
    simp
  have hnone := all_eq_true.mp h l hdrop
  simp [hkind] at hnone

end solver

namespace gpu_solver

variable {s : gpu_solver} {a : answers} {n b k : Nat} {ok : gpu_solver → gpu_op n → Prop}

/-- The variables of a solver with 2100 variables in their own order. -/
def plain_order : var_order 2100 := identity_order 2100 2112 (by decide)

/-- A decision and its propagation. -/
def decides (l : literal) : List (gpu_op n) :=
  [.basic_search { next := .decide l }, .basic_search { next := .decide l }]

/-- The next launch is at least `k` decisions ahead. -/
def ready (s : gpu_solver) (k : Nat) : Bool :=
  s.is_sat == .l_undef && s.m_gpu_state.any (!·.async_in_flight) && s.m_launch.isNone &&
    decide (s.m_gpu_decisions_since_call + k ≤ s.m_gpu_throttle_interval) &&
    decide (s.m_gpu_throttle_interval < 4294967296)

/-- A launch is in flight, and with `k` more decisions no counter overflows. -/
def waiting (s : gpu_solver) (k : Nat) : Bool :=
  s.is_sat == .l_undef && s.m_gpu_state.any (·.async_in_flight) &&
    s.m_launch.all (fun r => decide (r.min_lvl ≤ s.core.scope_lvl)) &&
    decide (s.m_gpu_decisions_since_call + k < 4294967296) && decide (s.m_gpu_poll_tick + k < 4294967296)

section

variable (hok : ∀ s' a, s'.core.m_inconsistent = false → a.units = [] → ok s' (.basic_search a))
include hok

theorem reaches_waited (hfill : s.core.Fillable b k) (hwait : s.waiting k) :
    Reaches exec ok s (s.filled b k k) := by
  simp only [waiting, and_eq_true, beq_iff_eq, Option.any_eq_true, Option.all_eq_true, decide_eq_true_eq] at hwait
  obtain ⟨⟨⟨⟨hsat, g, hg, hfly⟩, hmin⟩, hdec⟩, htick⟩ := hwait
  exact reaches_filled_flying hfill hsat hg hfly hmin hdec htick hok

theorem reaches_readied (hfill : s.core.Fillable b k) (hready : s.ready k) :
    Reaches exec ok s (s.filled b k 0) := by
  simp only [ready, and_eq_true, beq_iff_eq, Option.any_eq_true, Option.isNone_iff_eq_none, decide_eq_true_eq,
    not_eq_true'] at hready
  obtain ⟨⟨⟨⟨hsat, g, hg, hidle⟩, hlaunch⟩, hdec⟩, hbound⟩ := hready
  exact reaches_filled_idle hfill hsat hg hidle hlaunch hdec hbound hok

/-- In a run the trail is enough to know the variables that are free for decisions. -/
theorem reaches_waited_above {cfg : config} {th : Nat} (hrun : Reaches exec ok (init cfg n th) s)
    (hfill : s.core.fillable_above b k) (hwait : s.waiting k) :
    Reaches exec ok (init cfg n th) (s.filled b k k) :=
  hrun.trans (reaches_waited hok ((gpuInv_of_reaches hrun).base.visit.trail.toTrailOk.fillable hfill) hwait)

end

/-- The solver with its device, which holds the clauses there are now. -/
def opened (s : gpu_solver) : gpu_solver :=
  { s with m_gpu_tried_init := true }.gpu_init_persistent_from_layout plain_order.tovar_tables true

/-- The device may be initialised, and no number of clauses is too small for it. -/
def openable (s : gpu_solver) : Bool :=
  s.core.m_num_vars == 2100 && s.core.scope_lvl == 0 && s.m_gpu_state.isNone && s.m_launch.isNone &&
    s.gpu_threshold == 0

/-- The clauses of the device need not be counted. -/
theorem exec_opened (h : s.openable) : s.exec (.gpu_init_persistent plain_order true) = some s.opened := by
  simp only [openable, and_eq_true, beq_iff_eq, Option.isNone_iff_eq_none] at h
  obtain ⟨⟨⟨⟨hvars, hlvl⟩, hnone⟩, hlaunch⟩, hth⟩ := h
  have hstep : s.step (.gpu_init_persistent plain_order true) = some s.opened := by
    simp [step, gpu_init_persistent, hvars, hlvl, hnone, hth, opened]
  have hnote : s.opened.note_level = s.opened := note_level_eq fun r hr => by
    cases hlaunch.symm.trans hr
  rw [exec, hstep, Option.map_some, hnote]

/-- There is a device and it holds the clauses. -/
def Holds (s : gpu_solver) (rows : List (List literal)) : Prop :=
  ∃ g, s.m_gpu_state = some g ∧ ∀ c ∈ rows, c ∈ g.clauses

variable {clauses rows : List (List literal)}

theorem Holds.exec {o : gpu_op n} {s' : gpu_solver} (h : s.Holds rows) (hexec : s.exec o = some s') :
    s'.Holds rows := by
  obtain ⟨g, hg, hrows⟩ := h
  obtain ⟨g', hg', hclauses⟩ := exec_clauses hexec hg
  exact ⟨g', hg', hclauses ▸ hrows⟩

theorem holds_opened (h : rows.all s.core.has_clause) : s.opened.Holds rows :=
  ⟨_, rfl, fun c hc => solver.mem_gpu_clauses (all_eq_true.mp h c hc)⟩

/-- The clauses are added, the device is initialised, the `k` variables from 10 on are decided, and there are further
operations. Each operation is tested by `p`, and the clauses `rows` are looked up for the device. -/
def launch_run (p : gpu_solver → gpu_op 2100 → Bool) (clauses rows : List (List literal)) (k : Nat)
    (ops : List (gpu_op 2100)) : Option gpu_solver :=
  (run (fun s o => if p s o then s.exec o else none) (init {} 2100 0) (clauses.map .mk_clause)).bind fun s =>
    if p s (.gpu_init_persistent plain_order true) && s.openable && rows.all s.core.has_clause &&
        s.core.fillable 10 k && s.opened.ready k then
      run (fun s o => if p s o then s.exec o else none) (s.opened.filled 10 k 0) ops
    else none

theorem reaches_launch_run {ok : gpu_solver → gpu_op 2100 → Prop} {p : gpu_solver → gpu_op 2100 → Bool}
    {ops : List (gpu_op 2100)} (hp : ∀ s o, p s o → ok s o)
    (hok : ∀ s' a, s'.core.m_inconsistent = false → a.units = [] → ok s' (.basic_search a))
    (h : launch_run p clauses rows k ops = some s) : Reaches exec ok (init {} 2100 0) s ∧ s.Holds rows := by
  obtain ⟨s1, hadd, h⟩ := Option.bind_eq_some_iff.mp h
  obtain ⟨htests, hrun⟩ := Option.ite_none_right_eq_some.mp h
  simp only [and_eq_true, solver.fillable_iff] at htests
  obtain ⟨⟨⟨⟨hp1, hopen⟩, hrows⟩, hfill⟩, hready⟩ := htests
  have hdevice : Reaches exec ok (init {} 2100 0) s1.opened :=
    (Reaches.of_guarded_run hp hadd).step (hp _ _ hp1) (exec_opened hopen)
  have hops : Reaches exec ok (s1.opened.filled 10 k 0) s := .of_guarded_run hp hrun
  refine ⟨(hdevice.trans (reaches_readied hok hfill hready)).trans hops, ?_⟩
  exact hops.invariant (I := fun s => s.Holds rows) (holds_opened hrows) fun _ _ _ h _ hexec => h.exec hexec

/-- The solver when the launch has come to its end. -/
def land (s : gpu_solver) (g : GpuBcpPersistentState) : gpu_solver :=
  { s with
    m_gpu_poll_tick := add_u32 s.m_gpu_poll_tick 1
    m_gpu_state := some { g with async_in_flight := false } }

/-- When the answer of the device is retrieved there is a launch in flight, the solver is consistent and the queue has
been worked off. -/
theorem poll_of_retrieves (h : s.retrieves a) : ∃ g, s.m_gpu_state = some g ∧ g.async_in_flight ∧
    s.is_sat = .l_undef ∧ s.core.m_inconsistent = false ∧ s.core.m_trail.length ≤ s.core.m_qhead ∧
    s.poll a = (s.land g).gpu_retrieve_and_inject a.units a.activity := by
  cases hg : s.m_gpu_state with
  | none => simp [retrieves, hg] at h
  | some g =>
    simp only [retrieves, hg, and_eq_true, decide_eq_true_eq, not_eq_true', beq_iff_eq,
      decide_eq_false_iff_not, not_lt] at h
    obtain ⟨⟨⟨⟨⟨⟨hsat, hcons⟩, hq⟩, hfly⟩, htick⟩, hpoll⟩, hlvl⟩ := h
    refine ⟨g, rfl, hfly, hsat, hcons, hq, ?_⟩
    simp only [poll, hg]
    rw [if_pos hfly, if_pos ⟨htick, hpoll⟩, if_neg (not_lt.mpr hlvl)]
    rfl

/-- The answers of a device that has come to its end with these units. -/
def returned (units : List (Int × Int)) : answers := { poll_status := true, units := units, next := .do_restart 0 }

/-- The device has seen the literals. -/
def sees (s : gpu_solver) (lits : List literal) : Bool :=
  s.m_gpu_state.all fun g => lits.all fun l =>
    decide (l.var < s.core.m_num_vars) && g.h_b (s.m_gpu_var_inv l.var) == if l.sign then -1 else 1

theorem snapshot_of_sees {g : GpuBcpPersistentState} {lits : List literal} (h : s.sees lits)
    (hg : s.m_gpu_state = some g) : ∀ l ∈ lits, s.Snapshot g l := by
  intro l hl
  simp only [sees, hg, Option.all_some, and_eq_true, all_eq_true, decide_eq_true_eq, beq_iff_eq] at h
  exact h l hl

/-- The device may return what follows from some of its clauses and of the literals it has seen. -/
theorem deviceSound_of_holds {units : List (Int × Int)} {lit : literal} {lits : List literal}
    (hunits : units.filterMap s.decode_unit = [lit]) (hrows : s.Holds rows) (hsees : s.sees lits)
    (hent : Entails ({c | c ∈ rows} ∪ {c | ∃ l ∈ lits, c = [l]}) [lit]) : s.DeviceSound (returned units) := by
  intro g hg lit' hlit
  rw [show (returned units).units = units from rfl, hunits, mem_singleton] at hlit
  subst hlit
  obtain ⟨g', hg', hmem⟩ := hrows
  obtain rfl : g' = g := Option.some.inj (hg'.symm.trans hg)
  refine fun σ hσ => hent σ fun c hc => hσ c ?_
  rcases hc with hc | ⟨l, hl, rfl⟩
  · exact .inl (hmem c hc)
  · exact .inr ⟨l, snapshot_of_sees hsees hg l hl, rfl⟩

theorem activity_threshold_zero (h : s.m_gpu_dry_streak = 0) : s.activity_threshold (fun _ => 0) = some 0 := by
  simp [activity_threshold, h]

theorem conflict_literal_of_undef {units : List (Int × Int)} {lit : literal}
    (hunits : units.filterMap s.decode_unit = [lit]) (hundef : s.core.value lit = .l_undef) :
    s.conflict_literal units = none := by
  rw [conflict_literal, hunits]
  simp [hundef]

/-- There is no launch in flight. -/
def Idle (s : gpu_solver) : Prop := ∀ g, s.m_gpu_state = some g → g.async_in_flight = false

/-- A single unit for an unassigned literal is injected. -/
theorem exec_injected {u : Int × Int} {lit : literal} (hret : s.retrieves (returned [u]))
    (hu : [u].filterMap s.decode_unit = [lit]) (hundef : s.core.value lit = .l_undef) (hdry : s.m_gpu_dry_streak = 0) :
    ∃ s', s.exec (.basic_search (n := n) (returned [u])) = some s' ∧ s'.is_sat = .l_undef ∧ s'.Idle ∧
      s'.core = s.core.assign_core lit (.none s.core.scope_lvl) := by
  obtain ⟨g, hg, -, hsat, hcons, hq, hpoll⟩ := poll_of_retrieves hret
  have hland : (s.land g).gpu_retrieve_and_inject [u] (fun _ => 0) = some ({ s.land g with
      core := s.core.assign_core lit (.none s.core.scope_lvl), m_gpu_dry_streak := 0 }, true) := by
    have hu' : [u].filterMap (s.land g).decode_unit = [lit] := hu
    have hconf : (s.land g).conflict_literal [u] = none := conflict_literal_of_undef hu' hundef
    have hinject : inject_unit (fun _ => 0) 0 (s.core, 0) lit =
        (s.core.assign_core lit (.none s.core.scope_lvl), 1) := by simp [inject_unit, hundef]
    simp only [gpu_retrieve_and_inject, hconf, activity_threshold_zero (s := s.land g) hdry, hu', foldl,
      Option.map_some]
    rw [show inject_unit (fun _ => 0) 0 ((s.land g).core, 0) lit = _ from hinject]
    rfl
  rw [show (returned [u]).units = [u] from rfl, show (returned [u]).activity = fun _ => 0 from rfl, hland] at hpoll
  simp only [exec, step]
  rw [basic_search_step_retrieved hsat hcons hq hpoll]
  refine ⟨_, rfl, hsat, fun g' hg' => ?_, rfl⟩
  obtain rfl : { g with async_in_flight := false } = g' := Option.some.inj hg'
  rfl

theorem exec_propagate {c : solver} {p : Bool} (hsat : s.is_sat = .l_undef) (hcons : s.core.m_inconsistent = false)
    (hq : s.core.m_qhead < s.core.m_trail.length) (hrun : s.core.propagate = some (c, p)) :
    ∃ s', s.exec (.basic_search (n := n) a) = some s' ∧ s'.is_sat = .l_undef ∧ (s.Idle → s'.Idle) ∧ s'.core = c := by
  simp only [exec, step, basic_search_step_propagate hsat hcons hq, hrun]
  exact ⟨_, rfl, hsat, id, rfl⟩

/-- A decision with no launch in flight; another launch may be made before it. -/
theorem exec_decide {l : literal} (hsat : s.is_sat = .l_undef) (hcons : s.core.m_inconsistent = false)
    (hq : s.core.m_qhead = s.core.m_trail.length) (hidle : s.Idle) (hvar : l.var < s.core.m_num_vars)
    (hundef : s.core.value l = .l_undef) :
    ∃ s', s.exec (.basic_search (n := n) { next := .decide l }) = some s' ∧ s'.is_sat = .l_undef ∧
      s'.core = s.core.decide_lit l := by
  have hpoll : s.poll { next := .decide l } = some (s, false) := by
    cases hg : s.m_gpu_state with
    | none => simp [poll, hg]
    | some g => simp [poll, hg, hidle g hg]
  obtain ⟨hcore, hsame, -⟩ := s.launch_core { next := .decide l }
  simp only [exec, step, basic_search_step_quiet hsat hcons hq hpoll, cpu_step, hcore]
  rw [if_pos ⟨hvar, hundef⟩]
  exact ⟨_, rfl, hsame.trans hsat, rfl⟩

end gpu_solver

end sat
