import BooledASS.Sat.Gpu.Soundness

open Cnf List Option

namespace sat.gpu_solver

variable {s : gpu_solver} {F : Set (List literal)} {a : answers} {n : Nat}

/-- Where a false unit is found, there is a conflict whose clause blames the decision of its level. -/
theorem GpuInv.exec_conflict (h : s.GpuInv F) {lit : literal} (hret : s.retrieves a)
    (hlit : s.conflict_literal a.units = some lit) : ∃ s', s.exec (.basic_search (n := n) a) = some s' ∧
      (s.core.lvl lit.var = 0 ∧ s'.core = s.core.set_conflict (.none 0) (some lit) ∨
        ∃ d, 0 < s.core.lvl lit.var ∧ s.core.scope_literal (s.core.lvl lit.var - 1) = some d ∧
          s'.core = s.core.set_conflict (.binary (s.core.lvl lit.var) (~~~d)) (some lit)) := by
  obtain ⟨g, hg, -, hsat, hcons, hq, hpoll⟩ := poll_of_retrieves hret
  have hstep : ∀ {c : solver}, gpu_solver.set_gpu_conflict s.core lit = some c →
      ∃ s', s.exec (.basic_search (n := n) a) = some s' ∧ s'.core = c := by
    intro c hc
    have hland : (s.land g).gpu_retrieve_and_inject a.units a.activity = some ({ s.land g with
        core := c, m_gpu_dry_streak := 0, m_gpu_throttle_interval := (s.land g).halve_throttle }, true) := by
      have hlit' : (s.land g).conflict_literal a.units = some lit := hlit
      have hc' : gpu_solver.set_gpu_conflict (s.land g).core lit = some c := hc
      simp only [gpu_retrieve_and_inject, hlit', hc', map_some]
    rw [hland] at hpoll
    simp only [gpu_solver.exec, step]
    rw [basic_search_step_retrieved hsat hcons hq hpoll]
    exact ⟨_, rfl, rfl⟩
  by_cases hzero : s.core.lvl lit.var = 0
  · obtain ⟨s', hexec, hcore⟩ := hstep (if_pos hzero)
    exact ⟨s', hexec, .inl ⟨hzero, hcore⟩⟩
  · have hpos := Nat.pos_of_ne_zero hzero
    have hmem := h.base.visit.trail.toTrailOk.value_false.mp (conflict_literal_spec hlit).2
    have hle := h.base.visit.trail.level_le _ hmem
    rw [Lit.compl_var] at hle
    obtain ⟨d, -, hd⟩ := h.scopes.scope_literal (k := s.core.lvl lit.var - 1) (by omega)
    obtain ⟨s', hexec, hcore⟩ := hstep ((if_neg hzero).trans (by rw [hd, map_some]))
    exact ⟨s', hexec, .inr ⟨d, hpos, hd, hcore⟩⟩

/-- Conflicts made from false units are sound: in every run in which a false unit is blamed on all that the
launch assumed and no conflict has an injected literal inside its level, the clause of such a conflict
follows from the clauses, and the search ends with `l_false` only if these are unsatisfiable. -/
theorem gpu_conflict_entailed {cfg : config} {th : Nat}
    (hrun : Machine.Reaches (exec (n := n)) (Ok F) (init cfg n th) s)
    (hok : s.Ok F (.basic_search (n := n) a)) : (s.is_sat = .l_false → Unsat F) ∧
    ∀ lit, s.retrieves a → s.conflict_literal a.units = some lit →
      ∃ s', s.exec (.basic_search (n := n) a) = some s' ∧
        (s.core.lvl lit.var = 0 ∧ s'.core = s.core.set_conflict (.none 0) (some lit) ∧ Entails F [lit] ∨
          ∃ d, 0 < s.core.lvl lit.var ∧ s.core.scope_literal (s.core.lvl lit.var - 1) = some d ∧
            s'.core = s.core.set_conflict (.binary (s.core.lvl lit.var) (~~~d)) (some lit) ∧
            Entails F [lit, ~~~d]) := by
  have h := Ok.gpuInv hrun
  refine ⟨fun hsat => entails_nil_iff.mp (h.unsat hsat), fun lit hret hlit => ?_⟩
  obtain ⟨hunit, hbin⟩ := h.conflict_clause hret hok.1 hok.2.1 hlit
  obtain ⟨s', hexec, ⟨hzero, hcore⟩ | ⟨d, hpos, hd, hcore⟩⟩ := h.exec_conflict hret hlit
  · exact ⟨s', hexec, .inl ⟨hzero, hcore, hunit hzero⟩⟩
  · exact ⟨s', hexec, .inr ⟨d, hpos, hd, hcore, hbin d hpos hd⟩⟩

/-- The clauses of `x ∨ v0`, for an optional literal `x`, spread over `v1` and `v2`. -/
def spread (x : List literal) : List (List literal) :=
  [x ++ [⟨0, false⟩, ⟨1, false⟩, ⟨2, false⟩], x ++ [⟨0, false⟩, ⟨1, false⟩, ⟨2, true⟩],
    x ++ [⟨0, false⟩, ⟨1, true⟩, ⟨2, false⟩], x ++ [⟨0, false⟩, ⟨1, true⟩, ⟨2, true⟩]]

/-- The clauses of `spread` for the complement of a literal, as the device holds them. -/
def spread_rows (x : List literal) : List (List literal) := (spread []).map fun c => c ++ x.map fun l => ~~~l

/-- With the literal, which the device has seen, they give `v0`. -/
theorem spread_entails (x : List literal) :
    Entails ({c | c ∈ spread_rows x} ∪ {c | ∃ l ∈ x, c = [l]}) [⟨0, false⟩] := by
  intro σ hσ
  have hfalse : ∀ l ∈ x, ¬ (~~~l).Holds σ := by
    intro l hl
    obtain ⟨m, hm, hmσ⟩ := hσ _ (.inr ⟨l, hl, rfl⟩)
    rw [mem_singleton] at hm
    subst hm
    simpa using hmσ
  have hrest : ∀ c ∈ spread [], Satisfies σ c := by
    intro c hc
    obtain ⟨l, hl, hlσ⟩ := hσ _ (.inl (mem_map_of_mem hc))
    rcases mem_append.mp hl with hl | hl
    · exact ⟨l, hl, hlσ⟩
    · obtain ⟨m, hm, rfl⟩ := mem_map.mp hl
      exact absurd hlσ (hfalse m hm)
  simp only [spread, Satisfies, Lit.Holds] at hrest ⊢
  cases hv1 : σ 1 <;> cases hv2 : σ 2 <;> simp_all

/-- After 2047 more decisions the device, launched with the literals `x`, returns `v0`, which is false at the
level `k + 1` with the decision `¬v0`. -/
def finds_conflict (s : gpu_solver) (x : List literal) (k : Nat) : Bool :=
  let s' := s.filled 26 2047 2047
  s.core.fillable_above 26 2047 && s.waiting 2047 && s'.retrieves (returned [(0, 1)]) && s'.sees x &&
    [(0, 1)].filterMap s'.decode_unit == [⟨0, false⟩] && s'.conflict_literal [(0, 1)] == some ⟨0, false⟩ &&
    s'.core.lvl 0 == k + 1 && s'.core.scope_literal k == some ⟨0, true⟩

/-- The decision `¬v0` of the conflict is the only one that the launch has. -/
def blames_launched (s : gpu_solver) : Bool :=
  s.finds_conflict [] 0 && !s.core.m_inconsistent && s.m_launch.any fun r => r.core.m_trail == [⟨0, true⟩]

theorem spread_runs :
    (launch_run (quiet (spread [])) (spread []) (spread_rows []) 15
      (.basic_search { next := .do_restart 15 } :: decides ⟨0, true⟩ ++ decides ⟨10, false⟩)).any blames_launched ∧
    (launch_run (quiet (spread [⟨10, true⟩])) (spread [⟨10, true⟩]) (spread_rows [⟨10, false⟩]) 16
      (decides ⟨0, true⟩)).any (finds_conflict · [⟨10, false⟩] 16) := by
  decide +kernel

/-- The launch has the decision `¬v0` only, which is blamed for the unit `v0`: a restart undoes the decisions
before it. -/
theorem gpu_conflict_entailed_unit : ∃ s : gpu_solver,
    s.retrieves (returned [(0, 1)]) ∧ s.conflict_literal [(0, 1)] = some ⟨0, false⟩ ∧
    ∃ s', s.exec (.basic_search (n := 2100) (returned [(0, 1)])) = some s' ∧
      s'.core = s.core.set_conflict (.binary 1 ⟨0, false⟩) (some ⟨0, false⟩) ∧
      Entails {c | c ∈ spread []} [⟨0, false⟩, (⟨0, false⟩ : literal)] := by
  obtain ⟨s, hs, hfacts⟩ := (any_eq_true _ _).mp spread_runs.1
  simp only [blames_launched, finds_conflict, Bool.and_eq_true, Option.any_eq_true, beq_iff_eq,
    Bool.not_eq_true'] at hfacts
  obtain ⟨⟨⟨⟨⟨⟨⟨⟨⟨hfill, hwait⟩, hret⟩, hsees⟩, hunits⟩, hconf⟩, hlvl⟩, hscope⟩, hcons⟩, r, hr, htrail⟩ := hfacts
  obtain ⟨hopen, hrows⟩ := reaches_launch_run (fun _ _ => ok_of_quiet) (fun _ _ => ok_of_consistent) hs
  have hfly := reaches_waited_above (fun _ _ => ok_of_consistent) hopen hfill hwait
  have hblame : (s.filled 26 2047 2047).BlamesLaunch (returned [(0, 1)]) := by
    intro _ r' lit hr' hlit m hm
    obtain rfl : r = r' := some.inj (hr.symm.trans hr')
    obtain rfl : ⟨0, false⟩ = lit := some.inj (hconf.symm.trans hlit)
    obtain rfl : m = ⟨0, true⟩ := by simpa [htrail] using hm.1
    rw [hlvl]
    exact ⟨by decide, hscope⟩
  obtain ⟨s', hexec, ⟨hzero, -⟩ | ⟨d, -, hd, hcore, hent⟩⟩ := (gpu_conflict_entailed hfly
    ⟨deviceSound_of_holds hunits hrows hsees (spread_entails []), hblame,
      fun hinc => by cases hcons.symm.trans hinc⟩).2 _ hret hconf
  · cases hlvl.symm.trans hzero
  · refine ⟨_, hret, hconf, s', hexec, ?_⟩
    rw [hlvl] at hd hcore
    obtain rfl : ⟨0, true⟩ = d := some.inj (hscope.symm.trans hd)
    exact ⟨hcore, hent⟩

/-- The launch has the decision `v10`, from which the device derives `v0`. The solver has decided `¬v0`
meanwhile, and the conflict blames this decision alone: its clause is the unit `v0`. -/
theorem gpu_conflict_blames_one : ∃ (s : gpu_solver) (a : answers) (lit d : literal),
    Machine.Reaches (exec (n := 2100)) (Sound {c | c ∈ spread [⟨10, true⟩]}) (init {} 2100 0) s ∧ s.DeviceSound a ∧
    s.retrieves a ∧ s.conflict_literal a.units = some lit ∧ 0 < s.core.lvl lit.var ∧
    s.core.scope_literal (s.core.lvl lit.var - 1) = some d ∧
    ¬ Entails {c | c ∈ spread [⟨10, true⟩]} [lit, ~~~d] := by
  obtain ⟨s, hs, hfacts⟩ := (any_eq_true _ _).mp spread_runs.2
  simp only [finds_conflict, Bool.and_eq_true, beq_iff_eq] at hfacts
  obtain ⟨⟨⟨⟨⟨⟨⟨hfill, hwait⟩, hret⟩, hsees⟩, hunits⟩, hconf⟩, hlvl⟩, hscope⟩ := hfacts
  obtain ⟨hopen, hrows⟩ := reaches_launch_run (fun _ _ => ok_of_quiet) (fun _ _ => ok_of_consistent) hs
  have hfly := reaches_waited_above (fun _ _ => ok_of_consistent) hopen hfill hwait
  refine ⟨_, returned [(0, 1)], ⟨0, false⟩, ⟨0, true⟩, hfly.mono fun _ _ => Ok.sound,
    deviceSound_of_holds hunits hrows hsees (spread_entails [⟨10, false⟩]), hret, hconf, hlvl.symm ▸ by decide, ?_,
    fun hent => ?_⟩
  · rw [hlvl]
    exact hscope
  · have hmodel : Models (fun _ => false) {c | c ∈ spread [⟨10, true⟩]} := by
      show ∀ c ∈ spread [⟨10, true⟩], _
      decide
    exact absurd (hent _ hmodel) (by decide)

end sat.gpu_solver
