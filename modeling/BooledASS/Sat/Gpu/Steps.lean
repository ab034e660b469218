import BooledASS.Sat.Gpu.Invariant

open Cnf List sat.solver

namespace sat

namespace solver

variable {s : solver} {F : Set (List literal)} {G : Prop}

theorem BaseInv.set_conflict (h : s.BaseInv F G) (j : justification) (not_l : Option literal) :
    (s.set_conflict j not_l).BaseInv F G := by
  unfold solver.set_conflict
  split
  · exact h
  · exact ⟨h.visit.congr ⟨rfl, rfl, rfl, rfl, rfl, rfl, rfl, rfl, rfl, rfl⟩ (by simp), h.reinit, h.var_scope,
      ⟨h.clear.mark, h.clear.lit_mark, h.clear.unmark⟩, h.cached, h.assumptions, h.free⟩

/-- A decision for an unassigned variable is the first literal of a new scope. -/
theorem decide_lit_eq {l : literal} (hundef : s.value l = .l_undef) :
    s.decide_lit l = s.push.assign_core l (.none s.push.scope_lvl) := by
  have hvalue : s.push.value l = .l_undef := hundef
  simp only [decide_lit, assign_scoped, assign, hvalue]

theorem decide_lit_follows {l : literal} (hundef : s.value l = .l_undef) : Follows s (s.decide_lit l) := by
  rw [decide_lit_eq hundef]
  exact .opened _ rfl (prefix_append _ _)

end solver

namespace gpu_solver

variable {s s' : gpu_solver} {F : Set (List literal)} {g : GpuBcpPersistentState} {r : launch_record}
  {a : answers} {lit : literal}

/-- The entry of the assignment buffer for a value. -/
def buffer_entry : lbool → Int
  | .l_true => 1
  | .l_false => -1
  | .l_undef => 0

theorem set_buffer_entry_self {v : Nat} (hlt : s.m_gpu_var_inv v < s.m_gpu_K_pad) {h_b : Nat → Int}
    (hundef : s.core.value ⟨v, false⟩ = .l_undef → h_b (s.m_gpu_var_inv v) = 0) :
    s.set_buffer_entry h_b v (s.m_gpu_var_inv v) = buffer_entry (s.core.value ⟨v, false⟩) := by
  simp only [set_buffer_entry, not_le.mpr hlt]
  cases hval : s.core.value ⟨v, false⟩ with
  | l_true => simp [buffer_entry]
  | l_false => simp [buffer_entry]
  | l_undef => simpa [buffer_entry] using hundef hval

theorem set_buffer_entry_of_ne {v w : Nat} (hne : s.m_gpu_var_inv v ≠ s.m_gpu_var_inv w) (h_b : Nat → Int) :
    s.set_buffer_entry h_b w (s.m_gpu_var_inv v) = h_b (s.m_gpu_var_inv v) := by
  unfold set_buffer_entry
  split
  · rfl
  · cases s.core.value ⟨w, false⟩ with
    | l_true => exact Function.update_of_ne hne _ _
    | l_false => exact Function.update_of_ne hne _ _
    | l_undef => rfl

/-- Each variable has an entry of its own in the assignment buffer. -/
theorem assignment_buffer_eq (hlt : ∀ v < s.core.m_num_vars, s.m_gpu_var_inv v < s.m_gpu_K_pad)
    (hperm : ∀ v < s.core.m_num_vars, s.m_gpu_var_perm (s.m_gpu_var_inv v) = v) {v : Nat} (hv : v < s.core.m_num_vars) :
    s.assignment_buffer (s.m_gpu_var_inv v) = buffer_entry (s.core.value ⟨v, false⟩) := by
  suffices hfold : ∀ (vs : List Nat) h_b, (∀ w ∈ vs, w < s.core.m_num_vars) →
      (v ∉ vs → h_b (s.m_gpu_var_inv v) = buffer_entry (s.core.value ⟨v, false⟩)) →
      (s.core.value ⟨v, false⟩ = .l_undef → h_b (s.m_gpu_var_inv v) = 0) →
      vs.foldl s.set_buffer_entry h_b (s.m_gpu_var_inv v) = buffer_entry (s.core.value ⟨v, false⟩) from
    hfold _ _ (fun w hw => mem_range.mp hw) (absurd (mem_range.mpr hv)) fun _ => rfl
  intro vs
  induction vs with
  | nil => exact fun h_b _ hstart _ => hstart (by simp)
  | cons w vs ih =>
    intro h_b hall hstart hundef
    obtain ⟨hw, hvs⟩ := forall_mem_cons.mp hall
    by_cases hvw : v = w
    · subst hvw
      have hself := set_buffer_entry_self (hlt v hv) hundef
      exact ih _ hvs (fun _ => hself) fun hval => by rw [hself, hval]; rfl
    · have hne : s.m_gpu_var_inv v ≠ s.m_gpu_var_inv w := fun heq =>
        hvw (by rw [← hperm v hv, heq, hperm w hw])
      rw [← set_buffer_entry_of_ne hne h_b] at hstart hundef
      exact ih _ hvs (fun hnot => hstart (by simp [hvw, hnot])) hundef

/-- The buffer holds exactly the literals that are true. -/
theorem buffer_entry_eq_iff {l : literal} :
    buffer_entry (s.core.value ⟨l.var, false⟩) = (if l.sign then -1 else 1) ↔ s.core.value l = .l_true := by
  obtain ⟨v, b⟩ := l
  cases hval : s.core.m_assignment v <;> cases b <;> simp [value, hval, buffer_entry]

theorem GpuInv.note_level (h : s.GpuInv F) : s.note_level.GpuInv F :=
  h.core_step ⟨rfl, rfl, rfl, rfl, rfl, rfl⟩ h.base h.conflict h.scopes h.free rfl (.cut (Grown.refl _).cut) h.unsat

/-- Other fields may change. -/
theorem GpuInv.congr (h : s.GpuInv F) (hdev : SameDevice s s') (hcore : s'.core = s.core)
    (hsat : s'.is_sat = s.is_sat) : s'.GpuInv F := by
  obtain ⟨c, sat, th, st, tried, perm, inv, K, thr, dec, dry, lvl, tick, la⟩ := s'
  obtain ⟨h1, h2, h3, h4, h5, h6⟩ := hdev
  subst h1 h2 h3 h4 h5 h6 hcore hsat
  exact { h with
    device := fun g hg => { h.device g hg with
      launch := fun hfly =>
        have ⟨r, hr, hl⟩ := (h.device g hg).launch hfly
        ⟨r, hr, { hl with }⟩ } }

/-- The launch has come to its end. -/
theorem GpuInv.land (h : s.GpuInv F) (hg : s.m_gpu_state = some g) (tick : Nat) :
    { s with m_gpu_poll_tick := tick, m_gpu_state := some { g with async_in_flight := false } }.GpuInv F where
  __ := h
  device g' hg' := by
    obtain rfl : { g with async_in_flight := false } = g' := by simpa using hg'
    have hok := h.device g hg
    exact ⟨hok.inv_lt, hok.perm_inv, hok.clauses, fun hfly => by cases hfly⟩

/-- A launch copies the assignment and the clauses to the device and leaves the solver alone. -/
theorem GpuInv.launch (h : s.GpuInv F) (a : answers) : (s.launch a).GpuInv F := by
  unfold gpu_solver.launch
  split
  · exact h
  · rename_i g hg
    split
    · have hok := h.device g hg
      unfold gpu_launch_async
      simp only [hg]
      rename_i hc
      split
      · refine ⟨h.base, h.conflict, h.scopes, h.free, h.unsat, fun g' hg' => ?_⟩
        obtain rfl : g = g' := by simpa using hg'
        exact ⟨hok.inv_lt, hok.perm_inv, hok.clauses, fun hfly => by simp [hfly] at hc⟩
      · refine ⟨h.base, h.conflict, h.scopes, h.free, h.unsat, fun g' hg' => ?_⟩
        cases hg'
        refine ⟨hok.inv_lt, hok.perm_inv, hok.clauses, fun _ => ⟨_, rfl, h.base, rfl, fun l hl => ?_, le_rfl,
          fun _ => ⟨prefix_refl _, ?_⟩⟩⟩
        · obtain ⟨hvar, hentry⟩ := hl
          refine buffer_entry_eq_iff.mp (Eq.trans ?_ hentry)
          exact (assignment_buffer_eq hok.inv_lt hok.perm_inv hvar).symm
        · have hnone : s.core.m_scopes[s.core.scope_lvl]? = none := getElem?_eq_none_iff.mpr le_rfl
          simp [trail_limit, hnone]
    · exact h

/-- A step of the search without the device, once the queue has been worked off. -/
theorem GpuInv.cpu_step {n : search_step} (h : s.GpuInv F) (hcons : s.core.m_inconsistent = false)
    (hq : s.core.m_qhead = s.core.m_trail.length) (hstep : s.cpu_step n = some s') : s'.note_level.GpuInv F := by
  cases n with
  | do_restart k =>
    simp only [gpu_solver.cpu_step, pop_reinit_eq k h.free] at hstep
    split at hstep
    · cases hstep
      obtain ⟨hinv, -⟩ := (h.inv hcons).pop_spec (.inr (h.inv hcons).conflict)
      have hframe := pop_searchFrame (s := s.core) k
      have hcut := pop_cut (s := s.core) k
      exact h.core_step ⟨rfl, rfl, rfl, rfl, rfl, rfl⟩ hinv.toBaseInv (fun hinc => .clause (hinv.conflict hinc))
        (h.scopes.cut hcut) (hframe.tracking_assumptions.trans h.free) hframe.num_vars (.cut hcut) h.unsat
    · cases hstep
  | decide next =>
    simp only [gpu_solver.cpu_step] at hstep
    split at hstep
    · rename_i hc
      cases hstep
      have hinv := (h.inv hcons).decide_lit hc.1 hc.2 hcons hq
      have hpush : SearchFrame s.core s.core.push := rfl
      have hframe : SearchFrame s.core (s.core.decide_lit next) := hpush.trans (assign_grown _ _).frame
      exact h.core_step ⟨rfl, rfl, rfl, rfl, rfl, rfl⟩ hinv.toBaseInv (fun hinc => .clause (hinv.conflict hinc))
        (h.scopes.decide_lit hc.2) (hframe.tracking_assumptions.trans h.free) hframe.num_vars
        (decide_lit_follows hc.2) h.unsat
    · cases hstep

theorem decode_unit_var {u : Int × Int} (h : s.decode_unit u = some lit) : lit.var < s.core.m_num_vars := by
  unfold decode_unit at h
  split at h
  · cases h
  · split at h
    · cases h
    · rename_i hvar
      cases h
      exact not_le.mp hvar

/-- Injected literals have no justification; at the base level they have to be entailed. -/
theorem inject_spec (activity : bool_var → Nat) (threshold : Nat) (lits : List literal) (p : solver × Nat)
    (h : p.1.Inv F False) (hvars : ∀ l ∈ lits, l.var < p.1.m_num_vars)
    (hbase : p.1.scope_lvl = 0 → ∀ l ∈ lits, Entails F [l]) :
    (lits.foldl (inject_unit activity threshold) p).1.Inv F False ∧
      Grown p.1 (lits.foldl (inject_unit activity threshold) p).1 := by
  induction lits generalizing p with
  | nil => exact ⟨h, .refl _⟩
  | cons l lits ih =>
    obtain ⟨hvar, hvars⟩ := forall_mem_cons.mp hvars
    have hstep : (inject_unit activity threshold p l).1.Inv F False ∧
        Grown p.1 (inject_unit activity threshold p l).1 := by
      unfold inject_unit
      split
      · rename_i hc
        have heq : p.1.assign_scoped l = p.1.assign_core l (.none p.1.scope_lvl) := by
          simp [assign_scoped, assign, hc.1]
        exact ⟨heq ▸ h.assign_scoped_undef hvar hc.1 fun hzero => hbase hzero l (by simp), heq ▸ assign_grown _ _⟩
      · exact ⟨h, .refl _⟩
    have hlvl : (inject_unit activity threshold p l).1.scope_lvl = p.1.scope_lvl := by
      rw [scope_lvl, hstep.2.scopes, scope_lvl]
    obtain ⟨h1, h2⟩ := ih (inject_unit activity threshold p l) hstep.1
      (by rwa [hstep.2.frame.num_vars]) fun hzero m hm => hbase (hlvl ▸ hzero) m (by simp [hm])
    exact ⟨h1, hstep.2.trans h2⟩

/-- The literals that had no justification at the launch are blamed for a false unit: there is at most one
of them, the literal with which the scope of the unit begins. -/
def BlamesLaunch (s : gpu_solver) (a : answers) : Prop :=
  s.retrieves a → ∀ r lit, s.m_launch = some r → s.conflict_literal a.units = some lit →
    ∀ m, r.core.Decided m → 0 < s.core.lvl lit.var ∧ s.core.scope_literal (s.core.lvl lit.var - 1) = some m

/-- The clause behind the conflict for a false unit is entailed when the blame is right. -/
theorem LaunchOk.conflict_entails {d : literal} (h : s.LaunchOk F g r) (hclauses : ∀ c ∈ g.clauses, Entails F c)
    (hlit : Entails ({c | c ∈ g.clauses} ∪ {c | ∃ l, s.Snapshot g l ∧ c = [l]}) [lit])
    (hblame : ∀ m, r.core.Decided m → m = d) : Entails F [lit, ~~~d] := by
  intro σ hσ
  by_cases hd : d.Holds σ
  · exact ⟨lit, by simp, h.entailsFrom hclauses hlit σ hσ fun m hm => hblame m hm ▸ hd⟩
  · exact ⟨~~~d, by simp, Lit.holds_compl.mpr hd⟩

/-- A false unit gives a conflict that can be resolved. -/
theorem GpuInv.set_gpu_conflict {c : solver} (h : s.GpuInv F) (hcons : s.core.m_inconsistent = false)
    (hfalse : s.core.value lit = .l_false) (hrun : gpu_solver.set_gpu_conflict s.core lit = some c)
    (hunit : s.core.lvl lit.var = 0 → Entails F [lit])
    (hbin : ∀ d, 0 < s.core.lvl lit.var → s.core.scope_literal (s.core.lvl lit.var - 1) = some d →
      Entails F [lit, ~~~d]) :
    c.BaseInv F False ∧ c.Resolvable F ∧ Grown s.core c := by
  have hmem := h.base.visit.trail.toTrailOk.value_false.mp hfalse
  have heq : ∀ j, s.core.set_conflict j (some lit) =
      { s.core with m_inconsistent := true, m_conflict := j, m_not_l := some lit } := fun j => by
    simp [set_conflict, hcons]
  unfold gpu_solver.set_gpu_conflict at hrun
  dsimp only at hrun
  split at hrun
  · rename_i hzero
    cases hrun
    refine ⟨h.base.set_conflict _ _, ?_, (set_conflict_frame _ _).grown⟩
    rw [heq]
    exact .flipped_unit lit rfl rfl hmem hzero (hunit hzero)
  · rename_i hpos
    obtain ⟨d, hd, rfl⟩ := Option.map_eq_some_iff.mp hrun
    obtain ⟨hdmem, hdlvl⟩ := h.base.visit.trail.scope_literal_level h.scopes hd
    rw [Nat.sub_add_cancel (Nat.pos_of_ne_zero hpos)] at hdlvl
    refine ⟨h.base.set_conflict _ _, ?_, (set_conflict_frame _ _).grown⟩
    rw [heq]
    exact .flipped_bin lit (~~~d) rfl rfl hmem (by simpa using hdmem) hdlvl (hbin d (Nat.pos_of_ne_zero hpos) hd)

end gpu_solver

end sat
