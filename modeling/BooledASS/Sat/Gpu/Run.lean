import BooledASS.Sat.Gpu.Steps
import BooledASS.Sat.Invariant.Vars

open Cnf List Option

namespace sat.gpu_solver

variable {s s1 s' : gpu_solver} {F : Set (List literal)} {a : answers} {units : List (Int × Int)}
  {activity : bool_var → Nat} {b : Bool}

/-- A step of the solver next to the device that only assigns and attaches. -/
theorem GpuInv.grown_step (h : s.GpuInv F) (hdev : SameDevice s s') (hsat : s'.is_sat = s.is_sat)
    (hinv : s'.core.Inv F False) (hgrown : solver.Grown s.core s'.core) : s'.note_level.GpuInv F :=
  h.core_step hdev hinv.toBaseInv (fun hinc => .clause (hinv.conflict hinc)) (h.scopes.cut hgrown.cut)
    (hgrown.frame.tracking_assumptions.trans h.free) hgrown.frame.num_vars (.cut hgrown.cut) (hsat ▸ h.unsat)

theorem GpuInv.back_off (h : s.GpuInv F) : s.back_off.GpuInv F ∧ s.back_off.core = s.core := by
  obtain ⟨interval, heq⟩ := s.back_off_eq
  rw [heq]
  exact ⟨h.congr ⟨rfl, rfl, rfl, rfl, rfl, rfl⟩ rfl rfl, rfl⟩

theorem conflict_literal_spec {lit : literal} (h : s.conflict_literal units = some lit) :
    lit ∈ units.filterMap s.decode_unit ∧ s.core.value lit = .l_false :=
  ⟨mem_of_find?_eq_some h, by simpa using find?_some h⟩

/-- What `gpu_retrieve_and_inject` does when the clauses of its conflicts, and at the base level its
units, are entailed. -/
theorem GpuInv.retrieve (h : s.GpuInv F) (hcons : s.core.m_inconsistent = false)
    (hconf : ∀ lit, s.conflict_literal units = some lit → (s.core.lvl lit.var = 0 → Entails F [lit]) ∧
      ∀ d, 0 < s.core.lvl lit.var → s.core.scope_literal (s.core.lvl lit.var - 1) = some d → Entails F [lit, ~~~d])
    (hbase : s.core.scope_lvl = 0 → ∀ lit ∈ units.filterMap s.decode_unit, Entails F [lit])
    (hrun : s.gpu_retrieve_and_inject units activity = some (s1, b)) :
    (b → s1.note_level.GpuInv F) ∧ (b = false → s1.GpuInv F ∧ s1.core = s.core) := by
  revert hrun
  fun_cases gpu_retrieve_and_inject s units activity with
  | case1 lit hlit =>
    intro hrun
    obtain ⟨c, hc, heq⟩ := map_eq_some_iff.mp hrun
    cases heq
    obtain ⟨hunit, hbin⟩ := hconf lit hlit
    obtain ⟨hcbase, hres, hgrown⟩ := h.set_gpu_conflict hcons (conflict_literal_spec hlit).2 hc hunit hbin
    refine ⟨fun _ => ?_, by simp⟩
    exact h.core_step ⟨rfl, rfl, rfl, rfl, rfl, rfl⟩ hcbase (fun _ => hres) (h.scopes.cut hgrown.cut)
      (hgrown.frame.tracking_assumptions.trans h.free) hgrown.frame.num_vars (.cut hgrown.cut) h.unsat
  | case2 =>
    rintro ⟨⟩
    exact ⟨by simp, fun _ => h.back_off⟩
  | case3 =>
    intro hrun
    obtain ⟨threshold, -, heq⟩ := map_eq_some_iff.mp hrun
    have hvars : ∀ l ∈ units.filterMap s.decode_unit, l.var < s.core.m_num_vars := fun l hl => by
      obtain ⟨u, -, hu⟩ := mem_filterMap.mp hl
      exact decode_unit_var hu
    obtain ⟨hinv, hgrown⟩ := inject_spec activity threshold (units.filterMap s.decode_unit) (s.core, 0)
      (h.inv hcons) hvars hbase
    dsimp only at heq
    split at heq <;> cases heq
    · exact ⟨fun _ => h.grown_step ⟨rfl, rfl, rfl, rfl, rfl, rfl⟩ rfl hinv hgrown, by simp⟩
    · exact ⟨by simp, fun _ => h.back_off⟩

/-- The conflict clauses of a sound device are entailed where the blame is right. -/
theorem GpuInv.conflict_clause (h : s.GpuInv F) (hret : s.retrieves a) (hsound : s.DeviceSound a)
    (hblame : s.BlamesLaunch a) {lit : literal} (hlit : s.conflict_literal a.units = some lit) :
    (s.core.lvl lit.var = 0 → Entails F [lit]) ∧
      ∀ d, 0 < s.core.lvl lit.var → s.core.scope_literal (s.core.lvl lit.var - 1) = some d → Entails F [lit, ~~~d] := by
  cases hg : s.m_gpu_state with
  | none => simp [retrieves, hg] at hret
  | some g =>
    have hfly : g.async_in_flight := by
      simp only [retrieves, hg, Bool.and_eq_true] at hret
      exact hret.1.1.1.2
    have hok := h.device g hg
    obtain ⟨r, hr, hlaunch⟩ := hok.launch hfly
    have hent := hsound g hg lit (conflict_literal_spec hlit).1
    refine ⟨fun hzero σ hσ => ?_, fun d _ hd => hlaunch.conflict_entails hok.clauses hent fun m hm => ?_⟩
    · refine ⟨lit, by simp, hlaunch.entailsFrom hok.clauses hent σ hσ fun m hm => ?_⟩
      exact absurd (hblame hret r lit hr hlit m hm).1 (by omega)
    · exact (some.inj (hd.symm.trans (hblame hret r lit hr hlit m hm).2)).symm

/-- The clauses are unsatisfiable, or the answers are sound and the blame for a false unit is right. -/
def Trusted (s : gpu_solver) (F : Set (List literal)) (a : answers) : Prop :=
  Entails F [] ∨ s.DeviceSound a ∧ s.BlamesLaunch a

/-- If the loop continues, units or a conflict of the device have been injected and the invariant holds in the new
state. Otherwise the solver is as it was. -/
theorem GpuInv.poll (h : s.GpuInv F) (hcons : s.core.m_inconsistent = false)
    (hq : ¬ s.core.m_qhead < s.core.m_trail.length) (hsat : s.is_sat = .l_undef) (hok : s.Trusted F a)
    (hpoll : s.poll a = some (s1, b)) :
    (b → s1.note_level.GpuInv F) ∧ (b = false → s1.GpuInv F ∧ s1.core = s.core) := by
  have hall : Entails F [] → ∀ c, Entails F c := fun hnil c => hnil.weaken (by simp)
  revert hpoll
  fun_cases gpu_solver.poll s a with
  | case1 | case5 => rintro ⟨⟩; exact ⟨by simp, fun _ => ⟨h, rfl⟩⟩
  | case2 g hg =>
    intro hpoll
    obtain ⟨rfl, rfl⟩ := Prod.mk.inj (some.inj hpoll)
    exact ⟨by simp, fun _ => ⟨h.land hg _, rfl⟩⟩
  | case3 g hg hfly _ hready _ hlevel =>
    have hret : s.retrieves a := by
      simp only [retrieves, hg]
      simpa [hsat, hcons, hfly, hready.2] using ⟨⟨not_lt.mp hq, hready.1⟩, not_lt.mp hlevel⟩
    obtain ⟨r, hr, hlaunch⟩ := (h.device g hg).launch hfly
    refine (h.land hg _).retrieve hcons (fun lit hlit => ?_) (fun hzero lit hlit => ?_)
    · rcases hok with hnil | ⟨hsound, hblame⟩
      · exact ⟨fun _ => hall hnil _, fun _ _ _ => hall hnil _⟩
      · exact h.conflict_clause hret hsound hblame hlit
    · rcases hok with hnil | ⟨hsound, hblame⟩
      · exact hall hnil _
      · refine hlaunch.entails_of_base (h.device g hg).clauses (hsound g hg lit hlit) ?_
        have hzero' : s.core.scope_lvl = 0 := hzero
        have hlevel' : ¬ s.core.scope_lvl < s.m_gpu_launch_level := hlevel
        omega
  | case4 =>
    intro hpoll
    obtain ⟨rfl, rfl⟩ := Prod.mk.inj (some.inj hpoll)
    exact ⟨by simp, fun _ => ⟨h.congr ⟨rfl, rfl, rfl, rfl, rfl, rfl⟩ rfl rfl, rfl⟩⟩

/-- An iteration keeps the invariant, when literals without a justification come first of the level of a
conflict. -/
theorem GpuInv.basic_search_step (h : s.GpuInv F) (hok : s.Trusted F a)
    (hfirst : Entails F [] ∨ (s.core.m_inconsistent → s.core.analysis_state.DecisionFirst))
    (hstep : s.basic_search_step a = some s') : s'.note_level.GpuInv F := by
  revert hstep
  fun_cases gpu_solver.basic_search_step s a with
  | case1 | case4 => exact nofun
  | case2 _ hinc =>
    intro hstep
    obtain ⟨c, res, hrun, hres, hcut, hnv, htrack⟩ := h.base.resolve_conflict_core_spec (h.conflict hinc)
      (hfirst.imp_right fun hf => hf hinc) (by simp)
    rw [hrun] at hstep
    cases hstep
    have hcut := hcut h.free
    have hfree := htrack.trans h.free
    have hscopes := h.scopes.cut hcut
    rcases hres with ⟨hinv, rfl⟩ | ⟨rfl, rfl, hnil⟩
    · exact h.core_step ⟨rfl, rfl, rfl, rfl, rfl, rfl⟩ hinv.toBaseInv (fun hinc => .clause (hinv.conflict hinc))
        hscopes hfree hnv (.cut hcut) (by simp)
    · have hbase : s.core.enter_conflict.1.BaseInv F False :=
        h.base.resolveFrame rfl ⟨h.base.clear.mark, h.base.clear.lit_mark, h.base.clear.unmark⟩
      refine h.core_step ⟨rfl, rfl, rfl, rfl, rfl, rfl⟩ hbase (fun _ => ?_) hscopes hfree hnv (.cut hcut)
        fun _ => hnil h.free
      cases h.conflict hinc with
      | clause hc => exact .clause { hc with }
      | flipped_bin not_l l h1 h2 h3 h4 h5 h6 => exact .flipped_bin not_l l h1 h2 h3 h4 h5 h6
      | flipped_unit not_l h1 h2 h3 h4 h5 => exact .flipped_unit not_l h1 h2 h3 h4 h5
  | case3 _ hinc =>
    obtain ⟨c, res, hrun, hinv, -⟩ := solver.propagate_spec (h.inv (Bool.eq_false_of_not_eq_true hinc))
    rw [hrun]
    rintro ⟨⟩
    exact h.grown_step ⟨rfl, rfl, rfl, rfl, rfl, rfl⟩ rfl hinv (solver.propagate_grown hrun)
  | case5 hsat hinc hq s1 hpoll =>
    rintro ⟨⟩
    exact (h.poll (Bool.eq_false_of_not_eq_true hinc) hq (not_not.mp hsat) hok hpoll).1 rfl
  | case6 hsat hinc hq s1 hpoll =>
    have hcons := Bool.eq_false_of_not_eq_true hinc
    obtain ⟨h1, hcore⟩ := (h.poll hcons hq (not_not.mp hsat) hok hpoll).2 rfl
    have hcore' : (s1.launch a).core = s.core := (s1.launch_core a).1.trans hcore
    refine (h1.launch a).cpu_step (by rw [hcore', hcons]) ?_
    rw [hcore']
    exact le_antisymm h.base.visit.trail.qhead_le (not_lt.mp hq)

theorem init_gpuInv (cfg : config) (n gpu_threshold : Nat) : (init cfg n gpu_threshold).GpuInv F where
  base := (solver.init_inv cfg n).toBaseInv
  conflict hinc := by cases hinc
  scopes := ⟨.nil, by simp [init, solver.init]⟩
  free := rfl
  unsat hsat := by cases hsat
  device g hg := by cases hg

/-- An operation with which what is learned stays entailed: the clauses added are in `F`, the device is
sound, the blame for a false unit is right, and literals without a justification come first of the level of
a conflict. -/
def Ok {n : Nat} (F : Set (List literal)) (s : gpu_solver) : gpu_op n → Prop
  | .mk_clause lits => lits ∈ F
  | .gpu_init_persistent _ _ => True
  | .basic_search a => s.DeviceSound a ∧ s.BlamesLaunch a ∧
      (s.core.m_inconsistent → s.core.analysis_state.DecisionFirst)

/-- A device that is set up holds entailed clauses and an order of the variables. -/
theorem GpuInv.gpu_init_persistent_from_layout {n : Nat} (h : s.GpuInv F) (hn : s.core.m_num_vars = n)
    (o : var_order n) (ok : Bool) : (s.gpu_init_persistent_from_layout o.tovar_tables ok).GpuInv F := by
  cases ok with
  | false => exact ⟨h.base, h.conflict, h.scopes, h.free, h.unsat, fun g hg => by cases hg⟩
  | true =>
    refine ⟨h.base, h.conflict, h.scopes, h.free, h.unsat, fun g hg => ?_⟩
    cases hg
    subst hn
    exact ⟨o.inv_lt, o.perm_inv, h.base.gpu_clauses_entails, fun hfly => by cases hfly⟩

theorem GpuInv.gpu_init_persistent {n : Nat} (h : s.GpuInv F) (hn : s.core.m_num_vars = n) (o : var_order n)
    (ok : Bool) : (s.gpu_init_persistent o.tovar_tables ok).GpuInv F := by
  have htried : { s with m_gpu_tried_init := true }.GpuInv F := h.congr ⟨rfl, rfl, rfl, rfl, rfl, rfl⟩ rfl rfl
  fun_cases gpu_solver.gpu_init_persistent s o.tovar_tables ok with
  | case1 => exact h
  | case2 => exact htried
  | case3 => exact htried.gpu_init_persistent_from_layout hn o ok

/-- One step of the search with the device, under the assumption on its answers, or with clauses that are
unsatisfiable anyway. -/
theorem GpuInv.exec {n : Nat} {o : gpu_op n} (h : s.GpuInv F) (hok : Entails F [] ∨ s.Ok F o)
    (hexec : s.exec o = some s') : s'.GpuInv F := by
  obtain ⟨s1, hstep, rfl⟩ := map_eq_some_iff.mp hexec
  cases o with
  | mk_clause lits =>
    simp only [step] at hstep
    split at hstep
    · rename_i hc
      obtain ⟨hbase, hcons, hvars⟩ := hc
      have hcons : s.core.m_inconsistent = false := by simpa using hcons
      cases hstep
      have huser : s.core.m_user_scope_literals = [] := by
        have := h.free
        simp only [solver.tracking_assumptions, Bool.or_eq_false_iff] at this
        simpa using this.2
      have hF : Entails F lits := hok.elim (fun hnil => hnil.weaken (by simp)) .of_mem
      have hinv : (s.core.mk_clause lits).Inv F False := (h.inv hcons).mk_clause hbase
        (by rwa [huser, append_nil]) fun l hl => by
          rw [huser, append_nil] at hl
          simpa using all_eq_true.mp hvars l hl
      have hgrown : solver.Grown s.core (s.core.mk_clause lits) := solver.mk_clause_core_grown _ _
      exact h.grown_step ⟨rfl, rfl, rfl, rfl, rfl, rfl⟩ rfl hinv hgrown
    · cases hstep
  | gpu_init_persistent o ok =>
    simp only [step] at hstep
    split at hstep
    · rename_i hc
      cases hstep
      have hreset : { s with m_gpu_tried_init := false }.GpuInv F := h.congr ⟨rfl, rfl, rfl, rfl, rfl, rfl⟩ rfl rfl
      exact (hreset.gpu_init_persistent hc.1 o ok).note_level
    · cases hstep
  | basic_search a =>
    exact h.basic_search_step (hok.imp_right fun ho => ⟨ho.1, ho.2.1⟩) (hok.imp_right fun ho => ho.2.2) hstep

theorem inject_unit_num_vars (activity : bool_var → Nat) (threshold : Nat) (lits : List literal) (p : solver × Nat) :
    (lits.foldl (inject_unit activity threshold) p).1.m_num_vars = p.1.m_num_vars := by
  induction lits generalizing p with
  | nil => rfl
  | cons l lits ih =>
    rw [foldl_cons, ih]
    unfold inject_unit
    split <;> rfl

/-- A call of the device's results keeps the variables; a call without a result keeps the solver. -/
theorem retrieve_num_vars {units : List (Int × Int)} {activity : bool_var → Nat} {b : Bool}
    (h : s.gpu_retrieve_and_inject units activity = some (s', b)) :
    s'.core.m_num_vars = s.core.m_num_vars ∧ s'.m_gpu_state = s.m_gpu_state ∧ (b = false → s'.core = s.core) := by
  have hback : s.back_off.core.m_num_vars = s.core.m_num_vars ∧ s.back_off.m_gpu_state = s.m_gpu_state ∧
      s.back_off.core = s.core := by
    obtain ⟨interval, heq⟩ := s.back_off_eq
    rw [heq]
    exact ⟨rfl, rfl, rfl⟩
  revert h
  fun_cases gpu_retrieve_and_inject s units activity with
  | case1 lit =>
    intro h
    obtain ⟨c, hc, heq⟩ := map_eq_some_iff.mp h
    cases heq
    refine ⟨?_, rfl, by simp⟩
    have hset : ∀ (c : solver) j l, (c.set_conflict j l).m_num_vars = c.m_num_vars := fun c j l => by
      unfold solver.set_conflict
      split <;> rfl
    unfold set_gpu_conflict at hc
    dsimp only at hc
    split at hc
    · cases hc
      exact hset _ _ _
    · obtain ⟨d, -, rfl⟩ := map_eq_some_iff.mp hc
      exact hset _ _ _
  | case2 =>
    rintro ⟨⟩
    exact ⟨hback.1, hback.2.1, fun _ => hback.2.2⟩
  | case3 =>
    intro h
    obtain ⟨threshold, -, heq⟩ := map_eq_some_iff.mp h
    dsimp only at heq
    split at heq <;> cases heq
    · exact ⟨inject_unit_num_vars _ _ _ _, rfl, by simp⟩
    · exact ⟨hback.1, hback.2.1, fun _ => hback.2.2⟩

/-- A poll makes no variables and keeps the clauses of the device. If the loop does not continue after it, the solver
is as it was. -/
theorem poll_num_vars {b : Bool} (h : s.poll a = some (s', b)) : s'.core.m_num_vars = s.core.m_num_vars ∧
    s'.m_gpu_state.map (·.clauses) = s.m_gpu_state.map (·.clauses) ∧ (b = false → s'.core = s.core) := by
  revert h
  fun_cases poll s a with
  | case1 | case4 | case5 =>
    intro h
    obtain ⟨rfl, rfl⟩ := Prod.mk.inj (some.inj h)
    exact ⟨rfl, rfl, fun _ => rfl⟩
  | case2 g hg =>
    intro h
    obtain ⟨rfl, rfl⟩ := Prod.mk.inj (some.inj h)
    exact ⟨rfl, by rw [hg]; rfl, fun _ => rfl⟩
  | case3 g hg =>
    intro h
    obtain ⟨h1, h2, h3⟩ := retrieve_num_vars h
    exact ⟨h1, by rw [h2, hg]; rfl, h3⟩

theorem decide_lit_num_vars {c : solver} (l : literal) : (c.decide_lit l).m_num_vars = c.m_num_vars :=
  (solver.assign_grown l _).frame.num_vars

theorem cpu_step_num_vars {step : search_step} (h : s.cpu_step step = some s') :
    s'.core.m_num_vars = s.core.m_num_vars ∧ s'.m_gpu_state = s.m_gpu_state := by
  cases step with
  | do_restart num_scopes =>
    simp only [cpu_step] at h
    split at h
    · obtain ⟨c, hc, rfl⟩ := map_eq_some_iff.mp h
      exact ⟨(solver.pop_reinit_searchFrame hc).num_vars, rfl⟩
    · cases h
  | decide next =>
    simp only [cpu_step] at h
    split at h
    · cases h
      exact ⟨decide_lit_num_vars _, rfl⟩
    · cases h

/-- An iteration creates no variables and keeps the clauses of the device. -/
theorem basic_search_step_num_vars (h : s.basic_search_step a = some s') :
    s'.core.m_num_vars = s.core.m_num_vars ∧
      s'.m_gpu_state.map (·.clauses) = s.m_gpu_state.map (·.clauses) := by
  revert h
  fun_cases basic_search_step s a with
  | case1 | case4 => exact nofun
  | case2 =>
    intro h
    obtain ⟨p, hp, rfl⟩ := map_eq_some_iff.mp h
    exact ⟨solver.resolve_conflict_core_num_vars hp, rfl⟩
  | case3 =>
    intro h
    obtain ⟨p, hp, rfl⟩ := map_eq_some_iff.mp h
    exact ⟨(solver.propagate_grown hp).frame.num_vars, rfl⟩
  | case5 _ _ _ s1 hpoll =>
    rintro ⟨⟩
    exact ⟨(poll_num_vars hpoll).1, (poll_num_vars hpoll).2.1⟩
  | case6 _ _ _ s1 hpoll =>
    intro h
    obtain ⟨h1, h2, -⟩ := poll_num_vars hpoll
    obtain ⟨h3, h4⟩ := cpu_step_num_vars h
    obtain ⟨h5, -, h6⟩ := s1.launch_core a
    exact ⟨by rw [h3, h5, h1], by rw [h4, h6, h2]⟩

/-- Once there is a device it keeps its clauses: `gpu_init_persistent` is for a solver without one. -/
theorem exec_clauses {n : Nat} {o : gpu_op n} {g : GpuBcpPersistentState} (hexec : s.exec o = some s')
    (hg : s.m_gpu_state = some g) : ∃ g', s'.m_gpu_state = some g' ∧ g'.clauses = g.clauses := by
  obtain ⟨s1, hstep, rfl⟩ := map_eq_some_iff.mp hexec
  cases o with
  | mk_clause lits =>
    simp only [step] at hstep
    split at hstep <;> cases hstep
    exact ⟨g, hg, rfl⟩
  | gpu_init_persistent o ok => simp [step, hg] at hstep
  | basic_search a =>
    have hclauses := (basic_search_step_num_vars hstep).2
    rw [hg] at hclauses
    exact map_eq_some_iff.mp hclauses

/-- The invariant without any requirement on the steps; nothing is required to be entailed. -/
theorem gpuInv_of_reaches {n : Nat} {ok : gpu_solver → gpu_op n → Prop} {cfg : config} {th : Nat}
    (hrun : Machine.Reaches (exec (n := n)) ok (init cfg n th) s) : s.GpuInv {[]} :=
  hrun.invariant (I := fun s => s.GpuInv {[]}) (init_gpuInv cfg n th) fun _ _ _ hinv _ hexec =>
    hinv.exec (.inl (.of_mem rfl)) hexec

end sat.gpu_solver
