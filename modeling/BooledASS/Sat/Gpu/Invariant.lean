import BooledASS.Sat.Gpu.Search

open Cnf List

namespace sat

namespace solver

/-- A literal above the base level without a justification: a decision or an injected literal. -/
def Decided (s : solver) (d : literal) : Prop :=
  d ∈ s.m_trail ∧ (s.m_justification d.var).get_kind = .NONE ∧ 0 < s.lvl d.var

variable {s : solver} {F : Set (List literal)} {G : Prop}

/-- Every literal of the trail follows from those without a justification. -/
theorem TrailInv.entailsFrom_decided (h : s.TrailInv F G) : ∀ l ∈ s.m_trail, EntailsFrom F {d | s.Decided d} l := by
  have hdecided : ∀ l ∈ s.m_trail, s.Decided l → EntailsFrom F {d | s.Decided d} l := fun l _ hd a _ hD => hD l hd
  have hrest : ∀ l ∈ s.m_trail, l ∈ {l | ¬ s.Decided l} → EntailsFrom F {d | s.Decided d} l := by
    refine EntailsFrom.of_reasons fun pre l post htrail hl => ?_
    have hmem : l ∈ s.m_trail := by simp [htrail]
    rcases h.reasons pre l post htrail with hnone | ⟨others, -, hfalse, hF, -⟩
    · have hzero : s.lvl l.var = 0 := Nat.eq_zero_of_not_pos fun hpos => hl ⟨hmem, hnone, hpos⟩
      exact ⟨[], fun a ha _ => (h.unit l hmem hzero).holds_of_unit ha, by simp⟩
    · refine ⟨others.map (~~~·), Entails.entailsFrom (by rwa [map_compl_compl]), fun a ha => ?_⟩
      have hpre := hfalse _ (mem_map_compl.mp ha)
      rw [Lit.compl_compl] at hpre
      refine ⟨hpre, ?_⟩
      by_cases hd : s.Decided a
      · exact .inr (hdecided a (by simp [htrail, hpre]) hd)
      · exact .inl hd
  intro l hl
  by_cases hd : s.Decided l
  · exact hdecided l hl hd
  · exact hrest l hl hd

/-- The clauses that the device gets are clauses of the solver. -/
theorem BaseInv.gpu_clauses_entails (h : s.BaseInv F G) : ∀ c ∈ s.gpu_clauses, Entails F c := by
  intro c hc
  rcases mem_append.mp hc with hc | hc
  · obtain ⟨⟨l, l2⟩, hp, rfl⟩ := mem_map.mp hc
    obtain ⟨i, -, hp⟩ := mem_flatMap.mp hp
    obtain ⟨w, hw, hcol⟩ := mem_filterMap.mp hp
    revert hcol
    fun_cases collect_watch with
    | case5 =>
      rintro ⟨⟩
      exact (h.visit.db.bin_ok _ _ _ hw).2.2
    | _ => exact nofun
  · obtain ⟨off, hoff, rfl⟩ := mem_map.mp hc
    refine (h.visit.db.clause_ok off ?_).entails
    rcases mem_append.mp hoff with hoff | hoff
    · exact .inl (mem_filter.mp hoff).1
    · exact .inr (mem_filter.mp hoff).1

/-- From one state to the next, scopes are undone or one more is opened. -/
inductive Follows (s s' : solver) : Prop
  | cut : Cut s s' → Follows s s'
  | opened (n : Nat) : s'.m_scopes = s.m_scopes ++ [⟨s.m_trail.length, n⟩] → s.m_trail <+: s'.m_trail → Follows s s'

/-- What was on the trail at the level `k` stays until the level is undone. -/
theorem Follows.stays {s' : solver} {T : List literal} {k : Nat} (h : Follows s s') (hs : s.ScopesOk)
    (hT : T <+: s.m_trail) (hlim : T.length ≤ s.trail_limit k) (hk : k ≤ s'.scope_lvl) :
    T <+: s'.m_trail ∧ T.length ≤ s'.trail_limit k := by
  have hend : T <+: s'.m_trail → s'.m_scopes[k]? = none → T.length ≤ s'.trail_limit k := fun hp hnone => by
    rw [trail_limit, hnone]
    exact hp.length_le
  cases h with
  | cut hcut =>
    obtain ⟨k', hscopes, htrail⟩ := hcut
    have hk' : k ≤ k' := by
      rw [scope_lvl, hscopes, length_take] at hk
      omega
    have hp : T <+: s'.m_trail := by
      refine .trans ?_ htrail
      rw [prefix_take_iff]
      exact ⟨hT, hlim.trans (hs.limit_mono hk')⟩
    refine ⟨hp, ?_⟩
    rcases hk'.eq_or_lt with rfl | hlt
    · exact hend hp (getElem?_eq_none_iff.mpr (by simp [hscopes]))
    · cases hget : s.m_scopes[k]? with
      | none => exact hend hp (by rw [hscopes, getElem?_take_of_lt hlt, hget])
      | some sc => simpa [trail_limit, hscopes, getElem?_take_of_lt hlt, hget] using hlim
  | opened n hscopes htrail =>
    have hp := hT.trans htrail
    refine ⟨hp, ?_⟩
    rw [trail_limit] at hlim
    by_cases hlt : k < s.scope_lvl
    · rw [trail_limit, hscopes, getElem?_append_left hlt]
      rw [getElem?_eq_getElem hlt] at hlim ⊢
      exact hlim
    · by_cases heq : k = s.scope_lvl
      · subst heq
        simpa [trail_limit, hscopes, scope_lvl] using hT.length_le
      · exact hend hp (getElem?_eq_none_iff.mpr (by simp only [hscopes]; simp [scope_lvl] at *; omega))

end solver

namespace gpu_solver

/-- The literal was true in the assignment that the device was launched with. -/
def Snapshot (s : gpu_solver) (g : GpuBcpPersistentState) (l : literal) : Prop :=
  l.var < s.core.m_num_vars ∧ g.h_b (s.m_gpu_var_inv l.var) = if l.sign then -1 else 1

/-- The device returns only literals that are entailed by its clauses together with the assignment that
it was launched with. -/
def DeviceSound (s : gpu_solver) (a : answers) : Prop :=
  ∀ g, s.m_gpu_state = some g → ∀ lit ∈ a.units.filterMap s.decode_unit,
    Entails ({c | c ∈ g.clauses} ∪ {c | ∃ l, s.Snapshot g l ∧ c = [l]}) [lit]

/-- The launch `r` of the device: the buffer holds the assignment of that time, and as long as the level
has not been undone since, the trail of that time begins the current one. -/
structure LaunchOk (s : gpu_solver) (F : Set (List literal)) (g : GpuBcpPersistentState) (r : launch_record) :
    Prop where
  base : r.core.BaseInv F False
  level : s.m_gpu_launch_level = r.core.scope_lvl
  snapshot : ∀ l, s.Snapshot g l → r.core.value l = .l_true
  min_le : r.min_lvl ≤ s.core.scope_lvl
  stays : r.core.scope_lvl ≤ r.min_lvl → r.core.m_trail <+: s.core.m_trail ∧
    r.core.m_trail.length ≤ s.core.trail_limit r.core.scope_lvl

structure DeviceOk (s : gpu_solver) (F : Set (List literal)) (g : GpuBcpPersistentState) : Prop where
  inv_lt : ∀ v < s.core.m_num_vars, s.m_gpu_var_inv v < s.m_gpu_K_pad
  perm_inv : ∀ v < s.core.m_num_vars, s.m_gpu_var_perm (s.m_gpu_var_inv v) = v
  clauses : ∀ c ∈ g.clauses, Entails F c
  launch : g.async_in_flight → ∃ r, s.m_launch = some r ∧ s.LaunchOk F g r

/-- The invariant of `basic_search` with the device, for the clauses `F`. -/
structure GpuInv (s : gpu_solver) (F : Set (List literal)) : Prop where
  base : s.core.BaseInv F False
  conflict : s.core.m_inconsistent → s.core.Resolvable F
  scopes : s.core.ScopesOk
  free : s.core.tracking_assumptions = false
  unsat : s.is_sat = .l_false → Entails F []
  device : ∀ g, s.m_gpu_state = some g → s.DeviceOk F g

variable {s s' : gpu_solver} {F : Set (List literal)} {g : GpuBcpPersistentState} {r : launch_record}
  {a : answers} {lit : literal}

theorem GpuInv.inv (h : s.GpuInv F) (hcons : s.core.m_inconsistent = false) : s.core.Inv F False :=
  ⟨h.base, fun hinc => by simp [hcons] at hinc⟩

/-- What the device returns is entailed by the clauses together with the literals that had no
justification at the launch. -/
theorem LaunchOk.entailsFrom (h : s.LaunchOk F g r) (hclauses : ∀ c ∈ g.clauses, Entails F c)
    (hlit : Entails ({c | c ∈ g.clauses} ∪ {c | ∃ l, s.Snapshot g l ∧ c = [l]}) [lit]) :
    EntailsFrom F {d | r.core.Decided d} lit := by
  intro σ hσ hD
  refine hlit.holds_of_unit fun c hc => ?_
  rcases hc with hc | ⟨l, hl, rfl⟩
  · exact hclauses c hc σ hσ
  · have hmem := (h.base.visit.trail.value_true l).mp (h.snapshot l hl)
    exact ⟨l, by simp, h.base.visit.trail.entailsFrom_decided l hmem σ hσ hD⟩

/-- After a launch at the base level it is entailed by the clauses. -/
theorem LaunchOk.entails_of_base (h : s.LaunchOk F g r) (hclauses : ∀ c ∈ g.clauses, Entails F c)
    (hlit : Entails ({c | c ∈ g.clauses} ∪ {c | ∃ l, s.Snapshot g l ∧ c = [l]}) [lit])
    (hbase : s.m_gpu_launch_level = 0) : Entails F [lit] := by
  intro σ hσ
  refine ⟨lit, by simp, h.entailsFrom hclauses hlit σ hσ fun d hd => ?_⟩
  have hle := h.base.visit.trail.level_le d hd.1
  have hpos := hd.2.2
  rw [← h.level] at hle
  omega

/-- The fields that describe the device and its launch. -/
structure SameDevice (s s' : gpu_solver) : Prop where
  state : s'.m_gpu_state = s.m_gpu_state
  inv : s'.m_gpu_var_inv = s.m_gpu_var_inv
  perm : s'.m_gpu_var_perm = s.m_gpu_var_perm
  K_pad : s'.m_gpu_K_pad = s.m_gpu_K_pad
  level : s'.m_gpu_launch_level = s.m_gpu_launch_level
  launch : s'.m_launch = s.m_launch

/-- A step of the solver next to the device. -/
theorem GpuInv.core_step (h : s.GpuInv F) (hdev : SameDevice s s') (hbase : s'.core.BaseInv F False)
    (hconf : s'.core.m_inconsistent → s'.core.Resolvable F) (hscopes : s'.core.ScopesOk)
    (hfree : s'.core.tracking_assumptions = false) (hnv : s'.core.m_num_vars = s.core.m_num_vars)
    (hfollows : solver.Follows s.core s'.core) (hunsat : s'.is_sat = .l_false → Entails F []) :
    s'.note_level.GpuInv F where
  base := hbase
  conflict := hconf
  scopes := hscopes
  free := hfree
  unsat := hunsat
  device g hg := by
    have hold := h.device g (hdev.state ▸ hg)
    refine ⟨?_, ?_, hold.clauses, fun hfly => ?_⟩
    · show ∀ v < s'.core.m_num_vars, s'.m_gpu_var_inv v < s'.m_gpu_K_pad
      rw [hnv, hdev.inv, hdev.K_pad]
      exact hold.inv_lt
    · show ∀ v < s'.core.m_num_vars, s'.m_gpu_var_perm (s'.m_gpu_var_inv v) = v
      rw [hnv, hdev.inv, hdev.perm]
      exact hold.perm_inv
    · obtain ⟨r, hr, hok⟩ := hold.launch hfly
      refine ⟨{ r with min_lvl := min r.min_lvl s'.core.scope_lvl }, ?_, hok.base, hdev.level.trans hok.level,
        fun l hl => hok.snapshot l ?_, min_le_right _ _, fun hmin => ?_⟩
      · simp [note_level, hdev.launch, hr]
      · have hl' : l.var < s'.core.m_num_vars ∧ g.h_b (s'.m_gpu_var_inv l.var) = if l.sign then -1 else 1 := hl
        rwa [hnv, hdev.inv] at hl'
      · obtain ⟨h1, h2⟩ := le_min_iff.mp hmin
        obtain ⟨htrail, hlim⟩ := hok.stays h1
        exact hfollows.stays h.scopes htrail hlim h2

end gpu_solver

end sat
