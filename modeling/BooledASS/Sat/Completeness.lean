import BooledASS.Sat.Search

open Cnf List Option

namespace sat.solver

/-- All literals of the clause are false. -/
def Falsified (s : solver) (lits : List literal) : Prop := ∀ l ∈ lits, s.value l = .l_false

/-- All literals of the clause are false but one, which is unassigned. -/
def IsUnit (s : solver) (lits : List literal) : Prop :=
  ∃ l ∈ lits, s.value l = .l_undef ∧ ∀ m ∈ lits, m ≠ l → s.value m = .l_false

/-- The clauses of length at least 2 in the database: those of the binary watches, and the others. -/
inductive InDatabase (s : solver) : List literal → Prop
  | bin (l1 l2 : literal) (learned : Bool) : .BINARY l2 learned ∈ s.m_watches (~~~l1) → InDatabase s [l1, l2]
  | cls (off : clause_offset) : off ∈ s.m_clauses ∨ off ∈ s.m_learned → InDatabase s (s.m_cls off).m_lits

/-- No clause of the database is falsified or unit. -/
def PropagationComplete (s : solver) : Prop := ∀ lits, s.InDatabase lits → ¬ s.Falsified lits ∧ ¬ s.IsUnit lits

/-- The literals other than `l` of a clause of the database that justifies `l`. -/
inductive DatabaseReason (s : solver) (l : literal) : justification.kind → List literal → Prop
  | bin (l2 : literal) (learned : Bool) : .BINARY l2 learned ∈ s.m_watches (~~~l) → DatabaseReason s l (.BINARY l2) [l2]
  | cls (off : clause_offset) (others : List literal) : off ∈ s.m_clauses ∨ off ∈ s.m_learned →
      (s.m_cls off).m_lits.Perm (l :: others) → DatabaseReason s l (.CLAUSE off) others

/-- Every propagated literal is justified by a clause whose other literals are false and have the level
of the literal as their greatest level. -/
def LevelsExact (s : solver) : Prop :=
  ∀ l, s.value l = .l_true → (s.m_justification l.var).get_kind ≠ .NONE → ∃ others,
    s.DatabaseReason l (s.m_justification l.var).get_kind others ∧ s.Falsified others ∧ s.LevelMax others (s.lvl l.var)

variable {s s' : solver} {F : Set (List literal)}

theorem TrailOk.true_of_mem (h : s.TrailOk) {l : literal} (hl : l ∈ s.m_trail) : s.value l = .l_true :=
  (h.value_true l).mpr hl

/-- A clause with a true literal is neither falsified nor unit. -/
theorem not_unit_of_true {lits : List literal} {t : literal} (ht : t ∈ lits) (htrue : s.value t = .l_true) :
    ¬ s.Falsified lits ∧ ¬ s.IsUnit lits := by
  refine ⟨fun hf => ?_, fun ⟨l, _, hundef, hothers⟩ => ?_⟩
  · rw [hf t ht] at htrue
    cases htrue
  · by_cases htl : t = l
    · subst htl
      rw [hundef] at htrue
      cases htrue
    · rw [hothers t ht htl] at htrue
      cases htrue

/-- A falsified or unit clause has a false literal among any two different ones. -/
theorem exists_false_watch {lits : List literal} {w0 w1 : literal} (h0 : w0 ∈ lits) (h1 : w1 ∈ lits)
    (hne : w0 ≠ w1) (h : s.Falsified lits ∨ s.IsUnit lits) : s.value w0 = .l_false ∨ s.value w1 = .l_false := by
  rcases h with hf | ⟨l, _, _, hothers⟩
  · exact .inl (hf w0 h0)
  · by_cases hl : w0 = l
    · exact .inr (hothers w1 h1 fun heq => hne (hl.trans heq.symm))
    · exact .inl (hothers w0 h0 hl)

/-- The two watches guard every clause when the queue has been worked off. -/
theorem Inv.propagationComplete (h : s.Inv F True) (hcons : s.m_inconsistent = false)
    (hq : s.m_qhead = s.m_trail.length) : s.PropagationComplete := by
  have hok := h.visit.trail.toTrailOk
  have htake : s.m_trail.take s.m_qhead = s.m_trail := take_of_length_le hq.ge
  have hg := h.visit.guard trivial s.m_qhead s.scope_lvl (.inr ⟨hcons, rfl, rfl⟩)
  intro lits hin
  by_contra hbad
  have hbad : s.Falsified lits ∨ s.IsUnit lits := by tauto
  cases hin with
  | bin l1 l2 b hw =>
    have hvar := (h.visit.db.bin_ok _ _ _ hw).1
    have hsym : .BINARY l1 b ∈ s.m_watches (~~~l2) := by simpa using h.visit.db.bin_sym _ _ _ hw
    have htrue : s.value l1 = .l_true ∨ s.value l2 = .l_true := by
      have hne : l1 ≠ l2 := fun heq => hvar (by simp [heq])
      rcases exists_false_watch (by simp) (by simp) hne hbad with hf | hf
      · have hmem := (hg.bin _ _ _ hw (htake.symm ▸ hok.value_false.mp hf)).resolve_left (by simp)
        exact .inr (hok.true_of_mem hmem.1)
      · have hmem := (hg.bin _ _ _ hsym (htake.symm ▸ hok.value_false.mp hf)).resolve_left (by simp)
        exact .inl (hok.true_of_mem hmem.1)
    rcases htrue with htrue | htrue
    · exact hbad.elim (not_unit_of_true (by simp) htrue).1 (not_unit_of_true (by simp) htrue).2
    · exact hbad.elim (not_unit_of_true (by simp) htrue).1 (not_unit_of_true (by simp) htrue).2
  | cls off hoff =>
    have hc := h.visit.db.clause_ok off hoff
    have htrue : ∃ t ∈ (s.m_cls off).m_lits, s.value t = .l_true := by
      obtain ⟨w0, w1, rest, hlits⟩ : ∃ w0 w1 rest, (s.m_cls off).m_lits = w0 :: w1 :: rest := by
        match hl : (s.m_cls off).m_lits, hc.two_lt with
        | w0 :: w1 :: rest, _ => exact ⟨w0, w1, rest, rfl⟩
      have hne : w0 ≠ w1 := fun heq => by
        have hnodup := hc.nodup
        simp [hlits, heq] at hnodup
      have hguard : ∀ w ∈ (s.m_cls off).m_lits.take 2, s.value w = .l_false →
          ∃ t ∈ (s.m_cls off).m_lits, s.value t = .l_true := by
        intro w hw hf
        obtain ⟨t, ht, hmem, -⟩ := (hg.cls off hoff w hw (htake.symm ▸ hok.value_false.mp hf)).resolve_left (by simp)
        exact ⟨t, ht, hok.true_of_mem hmem⟩
      rcases exists_false_watch (by simp [hlits]) (by simp [hlits]) hne hbad with hf | hf
      · exact hguard w0 (by simp [hlits]) hf
      · exact hguard w1 (by simp [hlits]) hf
    obtain ⟨t, ht, htrue⟩ := htrue
    exact hbad.elim (not_unit_of_true ht htrue).1 (not_unit_of_true ht htrue).2

theorem Watches.perm {l : literal} {lits others : List literal} (h : Watches l lits others) :
    lits.Perm (l :: others) := by
  cases h with
  | first => exact .refl _
  | second w rest => exact .swap _ _ _

theorem Inv.levelsExact (h : s.Inv F True) : s.LevelsExact := by
  intro l htrue hkind
  have hok := h.visit.trail.toTrailOk
  have hl := (h.visit.trail.value_true l).mp htrue
  obtain ⟨pre, post, htrail⟩ := append_of_mem hl
  obtain ⟨others, hreason, hearlier, -, hbound⟩ := (h.visit.trail.reasons pre l post htrail).resolve_left hkind
  refine ⟨others, ?_, fun m hm => hok.value_false.mpr (by simp [htrail, hearlier m hm]),
    hbound.le, hbound.attained trivial⟩
  generalize hk : (s.m_justification l.var).get_kind = kind at hreason
  cases hreason with
  | binary l2 =>
    obtain ⟨b, hb⟩ := h.visit.db.reason_bin l hl l2 hk
    exact .bin l2 b (by simpa using h.visit.db.bin_sym _ _ _ hb)
  | clause off others hw => exact .cls off others (h.visit.db.reason_cls l hl off hk) (Watches.perm hw)

/-- Clauses are added at the base level, and a lemma that is learned without going back to the highest
level of its other literals finds its first literal unassigned. -/
def Regular (s : solver) : op → Prop
  | .mk_clause _ => s.scope_lvl = 0
  | .resolve_conflict_core => ∀ s1, s.analysis_state.conflict_lemma = some s1 → s1.AssertsUnassigned
  | _ => True

/-- One operation keeps the invariant; nothing is required to be entailed here. -/
theorem Inv.exec_regular {o : op} (h : s.Inv {[]} True) (hreg : s.Regular o) (hexec : s.exec o = some s') :
    s'.Inv {[]} True := by
  have hF : Entails {([] : List literal)} [] := .of_mem rfl
  have hall : ∀ lits : List literal, Entails {[]} lits := fun _ => hF.weaken (by simp)
  have hfree : s.m_user_scope_literals = [] := by
    have := h.free trivial
    simp only [tracking_assumptions, Bool.or_eq_false_iff] at this
    simpa using this.2
  revert hexec hreg
  fun_cases exec s o with
  | case1 lits hvars =>
    rintro hreg ⟨⟩
    refine h.mk_clause hreg (hall _) fun l hl => ?_
    rw [hfree, append_nil] at hl
    simpa using all_eq_true.mp hvars l hl
  | case3 next hc =>
    rintro - ⟨⟩
    exact h.decide_lit hc.1 hc.2.1 hc.2.2.1 hc.2.2.2
  | case5 l hc =>
    rintro - ⟨⟩
    exact h.assign_scoped_undef hc.1 hc.2 fun _ => hall _
  | case7 =>
    intro _ hexec
    obtain ⟨s1, b, hrun, h1, -⟩ := propagate_spec h
    rw [hrun] at hexec
    exact some.inj hexec ▸ h1
  | case8 n =>
    intro _ hexec
    obtain ⟨s1, hrun, h1, -⟩ := h.pop_reinit_spec (.inr h.conflict)
    exact some.inj (hrun.symm.trans hexec) ▸ h1
  | case10 hinc =>
    intro hreg hexec
    obtain ⟨s1, r, hrun, h1⟩ := h.resolve_conflict_core_spec hinc (.inl hF) fun _ => hreg
    rw [hrun] at hexec
    exact some.inj hexec ▸ h1
  | case2 | case4 | case6 | case9 | case11 => rintro - ⟨⟩

/-- Propagation is complete under chronological backtracking: in every run whose input clauses are added
at the base level and whose lemmas are asserting, `propagate` ends, and when it returns true no clause is
falsified or unit and every propagated literal has the level of its reason. -/
theorem propagate_complete {cfg : config} {n : Nat} (hrun : Machine.Reaches exec Regular (init cfg n) s) :
    ∃ s' b, s.propagate = some (s', b) ∧ (b → s'.PropagationComplete ∧ s'.LevelsExact) := by
  have h : s.Inv {[]} True := hrun.invariant (I := fun s => s.Inv {[]} True) (init_inv cfg n)
    fun _ _ _ hinv hreg hexec => hinv.exec_regular hreg hexec
  obtain ⟨s1, b, hprop, h1, -, -, hb, hq⟩ := propagate_spec h
  refine ⟨s1, b, hprop, fun htrue => ⟨?_, h1.levelsExact⟩⟩
  subst htrue
  exact h1.propagationComplete (by simpa using hb) (hq rfl)

/-- Whether an operation is `Regular`. -/
def regular (s : solver) : op → Bool
  | .mk_clause _ => s.scope_lvl == 0
  | .resolve_conflict_core => s.analysis_state.conflict_lemma.all fun s1 =>
    match s1.m_lemma with
    | [] => true
    | l0 :: rest => s1.use_backjumping (s1.scope_lvl - s1.backjump_lvl rest) ||
        (s1.backjump l0 rest).all fun s' => s'.value l0 == .l_undef
  | _ => true

theorem regular_spec {o : op} (h : s.regular o) : s.Regular o := by
  cases o with
  | mk_clause lits => exact beq_iff_eq.mp h
  | resolve_conflict_core =>
    intro s1 hs1 l0 rest s' hlemma hjump hback
    simpa [regular, hs1, hlemma, hjump, hback] using h
  | _ => trivial

/-- With `v0` and `v1` the two clauses are in conflict over `v2`. -/
def conflict_run : List op :=
  [.mk_clause [⟨0, true⟩, ⟨1, true⟩, ⟨2, false⟩], .mk_clause [⟨0, true⟩, ⟨1, true⟩, ⟨2, true⟩],
    .decide ⟨3, false⟩, .propagate, .decide ⟨0, false⟩, .propagate, .decide ⟨1, false⟩]

/-- The conflict is resolved, the lemma `¬v1 ∨ ¬v0` is propagated, all scopes are undone and `v1` is decided. -/
def learned_run : List op :=
  conflict_run ++ [.propagate, .resolve_conflict_core, .propagate, .pop_reinit 2, .decide ⟨1, false⟩]

/-- Propagation with a lemma that was learned in a conflict: it gives `¬v0`, at level 1. -/
theorem propagate_complete_learned : ∃ s s', Machine.run exec (init {} 4) learned_run = some s ∧
    s.propagate = some (s', true) ∧ s'.InDatabase [⟨1, true⟩, ⟨0, true⟩] ∧ s'.value ⟨0, true⟩ = .l_true ∧
    s'.lvl 0 = 1 ∧ s'.PropagationComplete ∧ s'.LevelsExact := by
  have hrun : (Machine.run (fun s o => if s.regular o then s.exec o else none) (init {} 4) learned_run).any fun s =>
      s.propagate.any fun p => p.2 && decide (.BINARY ⟨0, true⟩ true ∈ p.1.m_watches ⟨1, false⟩) &&
        p.1.value ⟨0, true⟩ == .l_true && p.1.lvl 0 == 1 := by
    decide +kernel
  simp only [Option.any_eq_true, Bool.and_eq_true, decide_eq_true_eq, beq_iff_eq, Prod.exists] at hrun
  obtain ⟨s, hs, s', b, hprop, ⟨⟨rfl, hlearned⟩, hvalue⟩, hlvl⟩ := hrun
  obtain ⟨s1, b, hprop1, hcomplete⟩ := propagate_complete (Machine.Reaches.of_guarded_run (fun _ _ => regular_spec) hs)
  obtain ⟨rfl, rfl⟩ := Prod.mk.inj (some.inj (hprop.symm.trans hprop1))
  exact ⟨s, s', Machine.run_of_guarded_run hs, hprop, .bin ⟨1, true⟩ ⟨0, true⟩ true hlearned, hvalue, hlvl,
    hcomplete rfl⟩

/-- A binary clause that is added above the base level with a true and a false literal is not put on
the reinit stack. After backtracking to the level of the false literal it is unit, and not propagated. -/
theorem propagate_misses_unit : ∃ s s', Machine.run exec (init {} 2)
      [.decide ⟨0, true⟩, .propagate, .decide ⟨1, false⟩, .propagate, .mk_clause [⟨1, false⟩, ⟨0, false⟩],
        .pop_reinit 1] = some s ∧
    s.propagate = some (s', true) ∧ s'.InDatabase [⟨0, false⟩, ⟨1, false⟩] ∧
    s'.IsUnit [⟨0, false⟩, ⟨1, false⟩] := by
  refine ⟨_, _, rfl, rfl, .bin ⟨0, false⟩ ⟨1, false⟩ false (by decide), ⟨1, false⟩, by decide, rfl, ?_⟩
  intro m hm hne
  obtain rfl : m = ⟨0, false⟩ := by simpa [hne] using hm
  rfl

/-- A total assignment with which `propagate` returns true satisfies every clause. The lemma of a conflict
above the base level is asserting: its literals are false, the first one alone at the conflict level. -/
theorem propagate_outcome {cfg n b} (hrun : Machine.Reaches exec Regular (init cfg n) s)
    (hprop : s.propagate = some (s', b)) : (b → (∀ v < s'.m_num_vars, s'.m_assignment v ≠ .l_undef) →
      ∀ lits, s'.InDatabase lits → ∃ l ∈ lits, s'.value l = .l_true) ∧
    (b = false → 0 < s'.analysis_state.m_conflict_lvl → ∃ s1 l0 L, s'.analysis_state.conflict_lemma = some s1 ∧
      s1.m_lemma = l0 :: L ∧ s'.Falsified (l0 :: L) ∧ s'.lvl l0.var = s'.analysis_state.m_conflict_lvl ∧
      ∀ x ∈ L, s'.lvl x.var < s'.lvl l0.var) := by
  obtain ⟨_, _, hprop', h, -, -, hcons, hq⟩ := propagate_spec (hrun.invariant (I := fun s => s.Inv {[]} True)
    (init_inv cfg n) fun _ _ _ h hreg hexec => h.exec_regular hreg hexec)
  cases hprop'.symm.trans hprop
  have hdb := h.visit.db
  refine ⟨fun hb htotal lits hin => ?_, fun hb hpos => ?_⟩ <;> subst hb
  · have hvars : ∀ l ∈ lits, l.var < s'.m_num_vars := by
      cases hin with
      | bin l1 l2 b hw => simpa using ⟨(hdb.bin_ok _ _ _ (hdb.bin_sym _ _ _ hw)).2.1, (hdb.bin_ok _ _ _ hw).2.1⟩
      | cls off hoff => exact (hdb.clause_ok off hoff).bounded
    by_contra! hno
    refine (h.propagationComplete hcons (hq rfl) lits hin).1 fun l hl => ?_
    have hne := hno l hl
    have hdef := htotal l.var (hvars l hl)
    cases hv : s'.m_assignment l.var <;> cases hs : l.sign <;> simp_all [value, lbool.neg]
  · obtain ⟨s1, c, L, hlemma, -, -, heq, hshape, hlt, -⟩ :=
      h.toBaseInv.conflict_lemma_spec (.clause (h.conflict hcons)) hpos (by simp [h.free trivial])
    have hlvl : s'.lvl c.var = s'.analysis_state.m_conflict_lvl := hshape.uip_level
    have hmem : ∀ x ∈ ~~~c :: L, ~~~x ∈ s'.m_trail :=
      forall_mem_cons.mpr ⟨(Lit.compl_compl c).symm ▸ hshape.uip_mem, hshape.false⟩
    exact ⟨s1, ~~~c, L, hlemma, heq, fun x hx => h.visit.trail.value_false.mpr (hmem x hx), hlvl, hlvl ▸ hlt⟩

/-- The run goes on to decisions for the other two variables. -/
def total_run : List op := learned_run ++ [.propagate, .decide ⟨2, true⟩, .propagate, .decide ⟨3, true⟩]

/-- The conflict of `conflict_run` is at level 3 and has the lemma `¬v1 ∨ ¬v0`, which is false there. At the end of
`total_run` all clauses are satisfied. -/
theorem propagate_outcome_conflict :
    (∃ s s' s1, Machine.run exec (init {} 4) conflict_run = some s ∧ s.propagate = some (s', false) ∧
      s'.analysis_state.conflict_lemma = some s1 ∧ s1.m_lemma = [⟨1, true⟩, ⟨0, true⟩] ∧
      s'.Falsified [⟨1, true⟩, ⟨0, true⟩] ∧ s'.lvl 1 = 3 ∧ s'.lvl 0 < s'.lvl 1) ∧
    ∃ s s', Machine.run exec (init {} 4) total_run = some s ∧ s.propagate = some (s', true) ∧
      ∀ lits, s'.InDatabase lits → ∃ l ∈ lits, s'.value l = .l_true := by
  constructor
  · have hrun : (Machine.run (fun s o => if s.regular o then s.exec o else none) (init {} 4) conflict_run).any fun s =>
        s.propagate.any fun p => !p.2 && p.1.analysis_state.m_conflict_lvl == 3 &&
          p.1.analysis_state.conflict_lemma.any fun s1 => s1.m_lemma == [⟨1, true⟩, ⟨0, true⟩] := by
      decide +kernel
    simp only [Option.any_eq_true, Bool.and_eq_true, Bool.not_eq_true', beq_iff_eq, Prod.exists] at hrun
    obtain ⟨s, hs, s', b, hprop, ⟨rfl, hthree⟩, s1, hlemma, heq⟩ := hrun
    obtain ⟨s1', l0, L, hlemma', heq', hfalse, hlvl, hlt⟩ := (propagate_outcome
      (Machine.Reaches.of_guarded_run (fun _ _ => regular_spec) hs) hprop).2 rfl (by rw [hthree]; decide)
    obtain rfl := some.inj (hlemma.symm.trans hlemma')
    obtain ⟨rfl, rfl⟩ := cons.inj (heq.symm.trans heq')
    exact ⟨s, s', s1, Machine.run_of_guarded_run hs, hprop, hlemma, heq, hfalse, hlvl.trans hthree, hlt _ (.head _)⟩
  · have hrun : (Machine.run (fun s o => if s.regular o then s.exec o else none) (init {} 4) total_run).any fun s =>
        s.propagate.any fun p => p.2 && decide (∀ v < p.1.m_num_vars, p.1.m_assignment v ≠ .l_undef) := by
      decide +kernel
    simp only [Option.any_eq_true, Bool.and_eq_true, decide_eq_true_eq, Prod.exists] at hrun
    obtain ⟨s, hs, s', b, hprop, rfl, htotal⟩ := hrun
    exact ⟨s, s', Machine.run_of_guarded_run hs, hprop, (propagate_outcome
      (Machine.Reaches.of_guarded_run (fun _ _ => regular_spec) hs) hprop).1 rfl htotal⟩

end sat.solver
