import BooledASS.Sat.Gpu.Flight

open Cnf Bool Machine

namespace sat.gpu_solver

variable {s : gpu_solver} {F : Set (List literal)} {a : answers} {n : Nat}

/-- The clauses added are in `F` and the device is sound; nothing is asked of the solver. -/
def Sound (F : Set (List literal)) (s : gpu_solver) : gpu_op n → Prop
  | .mk_clause lits => lits ∈ F
  | .gpu_init_persistent _ _ => True
  | .basic_search a => s.DeviceSound a

theorem deviceSound_of_units_nil (h : a.units = []) : s.DeviceSound a := fun _ _ lit hlit => by
  simp [h] at hlit

theorem blamesLaunch_of_units_nil (h : a.units = []) : s.BlamesLaunch a := fun _ _ lit _ hlit => by
  simp [conflict_literal, h] at hlit

theorem Ok.gpuInv {cfg : config} {th : Nat} (hrun : Reaches (exec (n := n)) (Ok F) (init cfg n th) s) :
    s.GpuInv F :=
  hrun.invariant (I := fun s => s.GpuInv F) (init_gpuInv cfg n th) fun _ _ _ hinv hok hexec =>
    hinv.exec (.inr hok) hexec

/-- The lemmas of the search with the device are entailed: in every run in which false units are blamed on
all that the launch assumed and no conflict has an injected literal inside its level, what
`resolve_conflict_core` learns follows from the clauses. -/
theorem gpu_lemmas_entailed {cfg : config} {th : Nat} {c : List literal}
    (hrun : Reaches (exec (n := n)) (Ok F) (init cfg n th) s)
    (hok : s.Ok F (.basic_search (n := n) a)) (hinc : s.core.m_inconsistent) (hc : s.core.Learns c) :
    Entails F c := by
  have h := Ok.gpuInv hrun
  exact h.base.learns_entails (h.conflict hinc) h.free (hok.2.2 hinc) hc

/-- Clauses are added, and there are no units from the device and no conflicts. -/
def quiet (clauses : List (List literal)) (s : gpu_solver) : gpu_op n → Bool
  | .mk_clause lits => clauses.contains lits
  | .gpu_init_persistent _ _ => true
  | .basic_search a => a.units.isEmpty && !s.core.m_inconsistent

theorem ok_of_quiet {clauses : List (List literal)} {o : gpu_op n} (h : quiet clauses s o) :
    s.Ok {c | c ∈ clauses} o := by
  cases o with
  | mk_clause lits => exact List.contains_iff_mem.mp h
  | gpu_init_persistent o ok => trivial
  | basic_search a =>
    simp only [quiet, and_eq_true, List.isEmpty_iff, not_eq_true'] at h
    exact ⟨deviceSound_of_units_nil h.1, blamesLaunch_of_units_nil h.1, by simp [h.2]⟩

theorem Ok.sound {o : gpu_op n} (h : s.Ok F o) : s.Sound F o := by
  cases o with
  | mk_clause lits => exact h
  | gpu_init_persistent o ok => trivial
  | basic_search a => exact h.1

theorem ok_of_consistent (hcons : s.core.m_inconsistent = false) (hunits : a.units = []) :
    s.Ok F (.basic_search (n := n) a) :=
  ⟨deviceSound_of_units_nil hunits, blamesLaunch_of_units_nil hunits, by simp [hcons]⟩

/-- With `v10` the first two clauses give `v0`, and then `v0` and the variable `v` are in conflict. -/
def inject_clauses (v : bool_var) : List (List literal) :=
  [[⟨10, true⟩, ⟨0, false⟩, ⟨1, false⟩], [⟨10, true⟩, ⟨0, false⟩, ⟨1, true⟩],
    [⟨0, true⟩, ⟨v, true⟩, ⟨2, false⟩], [⟨0, true⟩, ⟨v, true⟩, ⟨2, true⟩]]

/-- The clauses from which the device derives `v0`, as it holds them. -/
def inject_reasons : List (List literal) := [[⟨0, false⟩, ⟨1, false⟩, ⟨10, true⟩], [⟨0, false⟩, ⟨1, true⟩, ⟨10, true⟩]]

theorem inject_entails : Entails ({c | c ∈ inject_reasons} ∪ {c | ∃ l ∈ [⟨10, false⟩], c = [l]})
    [(⟨0, false⟩ : literal)] := by
  intro σ hσ
  have h1 := hσ _ (.inl (.head _))
  have h2 := hσ _ (.inl (.tail _ (.head _)))
  have h3 := hσ _ (.inr ⟨_, (.head _), rfl⟩)
  simp only [Satisfies, Lit.Holds] at h1 h2 h3 ⊢
  cases h : σ 1 <;> simp_all

/-- The decisions `v10` to `v26`, with a launch before the last one. -/
def inject_run (v : bool_var) : Option gpu_solver :=
  launch_run (quiet (inject_clauses v)) (inject_clauses v) inject_reasons 16 (decides ⟨26, false⟩)

/-- After 2047 more decisions the device, launched with `v10`, returns the unassigned variable `v0`. -/
def injects (s : gpu_solver) : Bool :=
  let s' := s.filled 27 2047 2047
  s.core.fillable_above 27 2047 && s.waiting 2047 && s'.sees [⟨10, false⟩] && s'.retrieves (returned [(0, 1)]) &&
    [(0, 1)].filterMap s'.decode_unit == [⟨0, false⟩] && s'.core.value ⟨0, false⟩ == .l_undef &&
    s.m_gpu_dry_streak == 0 && !s.core.m_inconsistent && s.core.m_qhead == s.core.m_trail.length

/-- The solver with the injected unit `v0`. -/
def injected (s : gpu_solver) : solver :=
  (s.filled 27 2047 2047).core.assign_core ⟨0, false⟩ (.none (s.filled 27 2047 2047).core.scope_lvl)

/-- The decisions `v10` to `v25`, a launch, 2048 decisions more, and the unit of the device. Up to here nothing
is wrong. -/
theorem reaches_injected {v : bool_var} (hs : inject_run v = some s) (hinj : s.injects) :
    ∃ s1, Reaches (exec (n := 2100)) (Ok {c | c ∈ inject_clauses v}) (init {} 2100 0) s1 ∧ s1.is_sat = .l_undef ∧
      s1.Idle ∧ s1.core = s.injected ∧ s1.core.m_inconsistent = false ∧
      s1.core.m_qhead < s1.core.m_trail.length := by
  simp only [injects, and_eq_true, beq_iff_eq, not_eq_true'] at hinj
  obtain ⟨⟨⟨⟨⟨⟨⟨⟨hfill, hwait⟩, hsees⟩, hret⟩, hunits⟩, hundef⟩, hdry⟩, hcons⟩, hq⟩ := hinj
  obtain ⟨hopen, hrows⟩ := reaches_launch_run (fun _ _ => ok_of_quiet) (fun _ _ => ok_of_consistent) hs
  have hfly := reaches_waited_above (fun _ _ => ok_of_consistent) hopen hfill hwait
  have hok : (s.filled 27 2047 2047).Ok {c | c ∈ inject_clauses v}
      (.basic_search (n := 2100) (returned [(0, 1)])) := by
    refine ⟨deviceSound_of_holds hunits hrows hsees inject_entails, fun _ _ lit _ hlit => ?_, fun hinc => ?_⟩
    · cases (conflict_literal_of_undef hunits hundef).symm.trans hlit
    · cases hcons.symm.trans hinc
  obtain ⟨s1, hexec, hsat, hidle, hcore⟩ := exec_injected (n := 2100) hret hunits hundef hdry
  refine ⟨s1, .step hfly hok hexec, hsat, hidle, hcore, ?_, ?_⟩
  · rw [hcore]
    exact hcons
  · rw [hcore]
    simp [filled, solver.filled, solver.assign_core, hq]

/-- What is to be checked for a conflict at a positive level from which `c` is learned. -/
def learns (s : solver) (c : List literal) : Bool :=
  s.m_inconsistent && decide (0 < s.analysis_state.m_conflict_lvl) && !decide s.BacktracksOnly &&
    !s.tracking_assumptions && s.analysis_state.conflict_lemma.map (·.m_lemma) == some c

theorem learns_spec {s : solver} {c : List literal} (h : learns s c) : s.m_inconsistent ∧ s.Learns c := by
  simp only [learns, and_eq_true, decide_eq_true_eq, beq_iff_eq, not_eq_true', decide_eq_false_iff_not,
    Option.map_eq_some_iff] at h
  obtain ⟨⟨⟨⟨hinc, hpos⟩, hback⟩, htrack⟩, s1, hs1, hlemma⟩ := h
  refine ⟨hinc, s1, hs1, hlemma, ?_⟩
  rw [solver.resolve_conflict_core_eq hpos (by simp [htrack]), if_neg hback, hs1]
  rfl

/-- After the unit `v0` the decision `v2074` is a conflict, whose lemma has both literals. -/
def blames_both (s : gpu_solver) : Bool :=
  s.injects && s.injected.propagate.any fun p =>
    !p.1.m_inconsistent && p.1.m_qhead == p.1.m_trail.length && decide (2074 < p.1.m_num_vars) &&
    p.1.value ⟨2074, false⟩ == .l_undef && (p.1.decide_lit ⟨2074, false⟩).propagate.any fun q =>
      learns q.1 [⟨2074, true⟩, ⟨0, true⟩] && q.1.analysis_state.decision_first && q.1.value ⟨0, false⟩ == .l_true &&
        (q.1.m_justification 0).get_kind == .NONE && q.1.lvl 0 == 2064 && q.1.analysis_state.m_conflict_lvl == 2065

/-- The unit `v0` is itself a conflict, whose lemma has the last decision only. -/
def blames_last (s : gpu_solver) : Bool :=
  s.injects && s.injected.propagate.any fun p => learns p.1 [⟨2073, true⟩]

theorem inject_runs : (inject_run 2074).any blames_both ∧ (inject_run 2073).any blames_last := by decide +kernel

/-- The unit `v0` is injected at level 2064, and the decision `v2074` of the level above is a conflict with it.
The lemma has both literals. -/
theorem gpu_lemmas_entailed_unit : ∃ s : gpu_solver, s.core.value ⟨0, false⟩ = .l_true ∧
    (s.core.m_justification 0).get_kind = .NONE ∧ s.core.lvl 0 = 2064 ∧ s.core.analysis_state.m_conflict_lvl = 2065 ∧
    s.core.Learns [⟨2074, true⟩, ⟨0, true⟩] ∧
    Entails {c | c ∈ inject_clauses 2074} [⟨2074, true⟩, (⟨0, true⟩ : literal)] := by
  obtain ⟨s, hs, hfacts⟩ := (Option.any_eq_true _ _).mp inject_runs.1
  simp only [blames_both, and_eq_true, Option.any_eq_true, decide_eq_true_eq, beq_iff_eq, not_eq_true',
    Prod.exists] at hfacts
  obtain ⟨hinj, c, b, hprop, ⟨⟨⟨hcons, hq⟩, hvar⟩, hundef⟩, c', b', hprop', hfacts⟩ := hfacts
  obtain ⟨⟨⟨⟨⟨hlearns, hfirst⟩, hvalue⟩, hnone⟩, hlvl⟩, hconflict⟩ := hfacts
  obtain ⟨s1, hreach, hsat1, hidle1, hcore1, hcons1, hq1⟩ := reaches_injected hs hinj
  obtain ⟨s2, hexec2, hsat2, hidle2, rfl⟩ := exec_propagate (n := 2100) (a := returned []) hsat1 hcons1 hq1
    (hcore1 ▸ hprop)
  obtain ⟨s3, hexec3, hsat3, hcore3⟩ := exec_decide (n := 2100) hsat2 hcons hq (hidle2 hidle1) hvar hundef
  rw [solver.decide_lit_eq hundef] at hcore3 hprop'
  have hcons3 : s3.core.m_inconsistent = false := by
    rw [hcore3]
    exact hcons
  have hq3 : s3.core.m_qhead < s3.core.m_trail.length := by
    rw [hcore3]
    simp [solver.assign_core, solver.push, hq]
  obtain ⟨s4, hexec4, -, -, rfl⟩ := exec_propagate (n := 2100) (a := returned []) hsat3 hcons3 hq3 (hcore3 ▸ hprop')
  have hreach4 := ((hreach.step (ok_of_consistent hcons1 rfl) hexec2).step (ok_of_consistent hcons rfl) hexec3).step
    (ok_of_consistent hcons3 rfl) hexec4
  obtain ⟨hinc, hlearns⟩ := learns_spec hlearns
  exact ⟨s4, hvalue, hnone, hlvl, hconflict, hlearns, gpu_lemmas_entailed (a := returned []) hreach4
    ⟨deviceSound_of_units_nil rfl, blamesLaunch_of_units_nil rfl,
      fun _ => solver.decisionFirst_of_decision_first hfirst⟩ hinc hlearns⟩

/-- The literal `v0` was derived at the launch from the decision `v10`, but is injected without a
justification. It is resolved away, and the lemma blames `v2073` alone. -/
theorem gpu_injection_resolved_away : ∃ s : gpu_solver,
    Reaches (exec (n := 2100)) (Sound {c | c ∈ inject_clauses 2073}) (init {} 2100 0) s ∧
    s.core.m_inconsistent ∧ s.core.Learns [⟨2073, true⟩] ∧
    ¬ Entails {c | c ∈ inject_clauses 2073} [(⟨2073, true⟩ : literal)] := by
  obtain ⟨s, hs, hfacts⟩ := (Option.any_eq_true _ _).mp inject_runs.2
  simp only [blames_last, and_eq_true, Option.any_eq_true, Prod.exists] at hfacts
  obtain ⟨hinj, c, b, hprop, hlearns⟩ := hfacts
  obtain ⟨s1, hreach, hsat, -, hcore, hcons, hq⟩ := reaches_injected hs hinj
  obtain ⟨s2, hexec, -, -, rfl⟩ := exec_propagate (n := 2100) (a := returned []) hsat hcons hq (hcore ▸ hprop)
  obtain ⟨hinc, hlearns⟩ := learns_spec hlearns
  refine ⟨s2, (hreach.step (ok_of_consistent hcons rfl) hexec).mono fun _ _ => Ok.sound, hinc, hlearns, fun hent => ?_⟩
  have hmodel : Models (fun v => v == 2073) {c | c ∈ inject_clauses 2073} := by
    show ∀ c ∈ inject_clauses 2073, _
    decide
  exact absurd (hent.holds_of_unit hmodel) (by decide)

end sat.gpu_solver
