import BooledASS.Rewriter.BvBoundsSound

open List Function

namespace bv

namespace bv_bounds_base

variable {s s' : bv_bounds_base} {M : interp} {P Q : interp → Prop} {t r x : expr} {b : interval}

/-- The recorded bounds hold under the assumptions `P`. -/
structure Recorded (P : interp → Prop) (x : expr) (b : interval) : Prop where
  sorted : WellSorted x
  sort_eq : get_sort x = .bitvec b.sz
  bounded : b.Bounded
  mem : ∀ M, P M → b.Mem (eval M x)

def Sound (bound : expr → Option interval) (P : interp → Prop) : Prop := ∀ x b, bound x = some b → Recorded P x b

theorem Recorded.mono (h : Recorded P x b) (hPQ : ∀ M, Q M → P M) : Recorded Q x b :=
  { h with mem := fun M hM => h.mem M (hPQ M hM) }

theorem Sound.mono {bound : expr → Option interval} (h : Sound bound P) (hPQ : ∀ M, Q M → P M) : Sound bound Q :=
  fun x b hb => (h x b hb).mono hPQ

theorem Sound.update {bound : expr → Option interval} (h : Sound bound P) (hx : Recorded P x b) :
    Sound (Function.update bound x (some b)) P := by
  intro y c hc
  by_cases hy : y = x
  · subst hy
    rw [update_self] at hc
    exact Option.some.inj hc ▸ hx
  · rw [update_of_ne hy] at hc
    exact h y c hc

theorem Recorded.le_bound (h : Recorded P x b) (M : interp) : eval M x ≤ interval.bound b.sz :=
  Nat.le_sub_one_of_lt (eval_lt_of_bitvec h.sorted h.sort_eq)

/-! ### Assertions -/

/-- An assertion adds at most one undo entry, which leads back to the bounds before. -/
structure Asserts (s s' : bv_bounds_base) : Prop where
  propagate_eq : s'.m_propagate_eq = s.m_propagate_eq
  undo : s'.m_scopes = s.m_scopes ∧ s'.m_bound = s.m_bound ∨
    ∃ u, s'.m_scopes = u :: s.m_scopes ∧ undo s'.m_bound u = s.m_bound

/-- An asserted bound is intersected with the one on record. The record stays sound for all models of what was
asserted, and if nothing is left there are none. -/
theorem assert_bound_spec (h : Sound s.m_bound P) (hx : Recorded P x b) :
    (∀ s', s.assert_bound x b = some s' → Sound s'.m_bound P ∧ Asserts s s') ∧
      (s.assert_bound x b = none → ∀ M, ¬ P M) := by
  have hmeet {old : interval} (hold : s.m_bound x = some old) := interval.intersect_spec (h x old hold).bounded
    hx.bounded (by simpa using (h x old hold).sort_eq.symm.trans hx.sort_eq)
  fun_cases assert_bound with
  | case1 old hold hempty =>
    have hrec := h x old hold
    exact ⟨nofun, fun _ M hM => (hmeet hold).2 hempty _ (hrec.le_bound M) (hrec.mem M hM) (hx.mem M hM)⟩
  | case2 =>
    refine ⟨?_, nofun⟩
    rintro s' ⟨⟩
    exact ⟨h, rfl, .inl ⟨rfl, rfl⟩⟩
  | case3 old hold intr hintr =>
    have hrec := h x old hold
    have hmeets := (hmeet hold).1 intr hintr
    refine ⟨?_, nofun⟩
    rintro s' ⟨⟩
    refine ⟨h.update ⟨hx.sorted, ?_, hmeets.bounded, fun M hM => ?_⟩, rfl, .inr ⟨_, rfl, ?_⟩⟩
    · rw [hmeets.sz]
      exact hrec.sort_eq
    · exact hmeets.mem _ (hrec.mem M hM) (hx.mem M hM)
    · rw [bv_bounds_base.undo, update_idem, ← hold, update_eq_self]
  | case4 hnew =>
    refine ⟨?_, nofun⟩
    rintro s' ⟨⟩
    refine ⟨h.update hx, rfl, .inr ⟨_, rfl, ?_⟩⟩
    rw [undo, update_idem, ← hnew, update_eq_self]

/-- The bounds after an assertion hold under it. If it is rejected, nothing satisfies it. -/
theorem assert_expr_core_spec (h : Sound s.m_bound P) (ht : WellSorted t) (hsort : get_sort t = .bool) (sign : Bool) :
    (∀ s', s.assert_expr_core t sign = some s' → Sound s'.m_bound (fun M => P M ∧ Holds M t sign) ∧ Asserts s s') ∧
      (s.assert_expr_core t sign = none → ∀ M, P M → ¬ Holds M t sign) := by
  have hmono : Sound s.m_bound fun M => P M ∧ Holds M t sign := h.mono fun M hM => hM.1
  obtain ⟨hsorted, hbool, hstrip⟩ := strip_not_spec ht hsort sign
  unfold assert_expr_core
  dsimp only
  split
  next =>
    refine ⟨fun s' hs' => ?_, by simp⟩
    cases hs'
    exact ⟨hmono, rfl, .inl ⟨rfl, rfl⟩⟩
  next x b hb =>
    have hbounds := is_bound_spec hsorted hb
    split
    next hsign =>
      have hnot M (hM : Holds M t sign) : ¬ b.Mem (eval M x) := by
        intro hmem
        have hone := (hbounds.iff M).mpr hmem
        have hzero := (hstrip M).mp hM
        rw [Holds, hsign, hone] at hzero
        cases hzero
      obtain ⟨hsome, hnone⟩ := interval.negate_spec hbounds.bounded
      split
      next hempty => exact ⟨by simp, fun _ M _ hM => hnot M hM (hnone hempty _ (hbounds.le_bound M))⟩
      next b' hb' =>
        have hneg := hsome b' hb'
        have hrec : Recorded (fun M => P M ∧ Holds M t sign) x b' :=
          ⟨hbounds.sorted, hneg.sz ▸ hbounds.sort_eq, hneg.bounded,
            fun M hM => hneg.mem _ (hbounds.le_bound M) (hnot M hM.2)⟩
        obtain ⟨h1, h2⟩ := assert_bound_spec hmono hrec
        exact ⟨h1, fun hnone M hP hM => h2 hnone M ⟨hP, hM⟩⟩
    next hsign =>
      have hrec : Recorded (fun M => P M ∧ Holds M t sign) x b := by
        refine ⟨hbounds.sorted, hbounds.sort_eq, hbounds.bounded, fun M hM => (hbounds.iff M).mp ?_⟩
        have hone := (hstrip M).mp hM.2
        rwa [Holds, if_neg hsign] at hone
      obtain ⟨h1, h2⟩ := assert_bound_spec hmono hrec
      exact ⟨h1, fun hnone M hP hM => h2 hnone M ⟨hP, hM⟩⟩

/-! ### Simplification -/

theorem zero_patch_arg_spec (h : Sound s.m_bound P) (hM : P M) {arg e : expr} (he : s.zero_patch_arg arg = some e) :
    eval M e = eval M arg := by
  revert he
  fun_cases zero_patch_arg s arg <;> rintro ⟨⟩
  case case2 b hb num_bits hcond =>
    have hmem := (h arg b hb).mem M hM
    rw [interval.Mem, if_pos hcond.1] at hmem
    have hlt : eval M arg < 2 ^ num_bits := Nat.lt_of_le_of_lt hmem.2 Nat.lt_log2_self
    simp only [eval_app, mk_numeral, decl.apply, map_cons, map_nil]
    rw [Nat.zero_mul, Nat.zero_add, Nat.pow_zero, Nat.div_one, Nat.sub_zero, Nat.sub_add_cancel hcond.2.1]
    exact Nat.mod_eq_of_lt hlt

theorem zero_patch_spec (h : Sound s.m_bound P) (hM : P M) (hr : s.zero_patch t = some r) : eval M r = eval M t := by
  revert hr
  fun_cases zero_patch s t <;> rintro ⟨⟩
  have hargs : (t.args.map fun arg => (s.zero_patch_arg arg).getD arg).map (eval M) = t.args.map (eval M) := by
    rw [map_map]
    refine map_congr_left fun arg _ => ?_
    cases harg : s.zero_patch_arg arg with
    | none => simp [harg]
    | some e => simpa [harg] using zero_patch_arg_spec h hM harg
  rw [eval_app, hargs, ← eval_app, Term.app_op_args]

theorem eval_mk_true : eval M mk_true = 1 := eval_app M _ _
theorem eval_mk_false : eval M mk_false = 0 := eval_app M _ _

/-- The answer is the truth value of membership in the interval. -/
theorem simplify_bound_spec (h : Sound s.m_bound P) (hM : P M) (hx : WellSorted x) (hsort : get_sort x = .bitvec b.sz)
    (hb : b.Bounded) (hr : s.simplify_bound x b = some r) : eval M r < 2 ∧ (eval M r = 1 ↔ b.Mem (eval M x)) := by
  have hle : eval M x ≤ interval.bound b.sz := Nat.le_sub_one_of_lt (eval_lt_of_bitvec hx hsort)
  have hsz ctx (hctx : s.m_bound x = some ctx) : b.sz = ctx.sz := by
    have heq := hsort.symm.trans (h x ctx hctx).sort_eq
    simpa using heq
  revert hr
  fun_cases simplify_bound s x b <;> rintro ⟨⟩
  case case1 hfull =>
    rw [Bool.and_eq_true] at hfull
    simp [eval_mk_true, interval.mem_of_is_full hfull.1 hle]
  case case3 ctx hctx himp => simp [eval_mk_true, interval.mem_of_implies himp hle ((h x ctx hctx).mem M hM)]
  case case4 ctx hctx _ hempty =>
    have hrec := h x ctx hctx
    have hnot : ¬ b.Mem (eval M x) := fun hv =>
      (interval.intersect_spec hb hrec.bounded (hsz ctx hctx)).2 hempty _ hle hv (hrec.mem M hM)
    simp [eval_mk_false, hnot]
  case case5 ctx hctx _ intr hintr hsingle =>
    have hrec := h x ctx hctx
    rw [Bool.and_eq_true] at hsingle
    have heq : intr.l = intr.h := by simpa [interval.is_singleton] using hsingle.2
    have hmeets := (interval.intersect_spec hb hrec.bounded (hsz ctx hctx)).1 intr hintr
    have hval : eval M (mk_eq x (mk_numeral intr.l (get_bv_size x))) = if eval M x = intr.l then 1 else 0 := by
      rw [mk_eq, eval_app]
      simp [decl.apply]
    rw [hval]
    refine ⟨ite_lt_two _, eval_eq_one_iff.trans ⟨fun hv => hv ▸ (hmeets.exact heq).1, fun hv => ?_⟩⟩
    have hin := hmeets.mem _ hv (hrec.mem M hM)
    rw [interval.Mem, if_pos (Nat.le_of_eq heq)] at hin
    omega

/-- An odd number of negations in front of a signed comparison that is always true. -/
def NegatesAlwaysTrue (t : expr) : Prop := (strip_not t false).2 ∧ AlwaysTrue (strip_not t false).1

/-- A term that is replaced has the same value in all models of the asserted bounds. A negated signed comparison that
is always true is excluded: its replacement ignores the negation. -/
theorem simplify_core_spec (h : Sound s.m_bound P) (hM : P M) (ht : WellSorted t) (hneg : ¬ NegatesAlwaysTrue t)
    (hr : s.simplify_core t = some r) : eval M r = eval M t := by
  revert hr
  fun_cases simplify_core s t <;> intro hr <;> try cases hr
  -- a bound with one value
  case case1 b hb =>
    obtain ⟨hb, hsingle⟩ := Option.filter_eq_some_iff.mp hb
    have heq : b.l = b.h := by simpa [interval.is_singleton] using hsingle
    have hmem := (h t b hb).mem M hM
    rw [interval.Mem, if_pos (Nat.le_of_eq heq)] at hmem
    rw [eval_mk_numeral]
    omega
  case case2 hpatch => exact zero_patch_spec h hM hpatch
  -- a negated formula, of which the bounds exclude nothing or something
  case case4 hsort p x b hb hcond hempty =>
    obtain ⟨htruth, -⟩ := eval_strip_not ht hsort
    have hbounds := is_bound_spec (strip_not_spec ht hsort false).1 hb
    have hone := (hbounds.iff M).mpr ((interval.negate_spec hbounds.bounded).2 hempty _ (hbounds.le_bound M))
    rw [Bool.and_eq_true] at hcond
    rw [htruth, if_pos hcond.1, hone, eval_mk_false]
  case case5 hsort p x b hb hcond b' hb' =>
    obtain ⟨htruth, hlt⟩ := eval_strip_not ht hsort
    have hbounds := is_bound_spec (strip_not_spec ht hsort false).1 hb
    have hnegates := (interval.negate_spec hbounds.bounded).1 b' hb'
    rw [Bool.and_eq_true] at hcond
    have hproper : b.l ≠ b.h + 1 := fun heq => hneg ⟨hcond.1, hbounds.always_true heq⟩
    obtain ⟨hr2, hr1⟩ := simplify_bound_spec h hM hbounds.sorted (hnegates.sz ▸ hbounds.sort_eq) hnegates.bounded hr
    have hmem : b'.Mem (eval M x) ↔ ¬ b.Mem (eval M x) :=
      ⟨hnegates.exact hcond.2 hproper _, hnegates.mem _ (hbounds.le_bound M)⟩
    rw [hmem, ← hbounds.iff M] at hr1
    rw [htruth, if_pos hcond.1]
    omega
  case case6 hsort p x b hb hcond =>
    obtain ⟨htruth, hlt⟩ := eval_strip_not (M := M) ht hsort
    have hbounds := is_bound_spec (strip_not_spec ht hsort false).1 hb
    obtain ⟨r', hr', rfl⟩ := Option.map_eq_some_iff.mp hr
    obtain ⟨hr2, hr1⟩ := simplify_bound_spec h hM hbounds.sorted hbounds.sort_eq hbounds.bounded hr'
    rw [← hbounds.iff M] at hr1
    have heq : eval M r' = eval M (strip_not t false).1 := by omega
    rw [htruth, ← heq]
    exact apply_ite (eval M) ..

end bv_bounds_base

/-! ### Runs -/

/-- The calls that change the recorded bounds. -/
inductive call where
  | assert_expr_core (t : expr) (sign : Bool)
  | pop_core (num_scopes : Nat)

/-- The component with the formulas that are asserted, each with the number of scopes after its assertion. -/
structure context where
  core : bv_bounds_base
  asserted : List (Nat × expr × Bool)

namespace context

/-- A formula that is rejected leaves no trace. -/
def exec (c : context) : call → Option context
  | .assert_expr_core t sign =>
    match c.core.assert_expr_core t sign with
    | none => some c
    | some core => some ⟨core, (core.m_scopes.length, t, sign) :: c.asserted⟩
  | .pop_core n =>
    some ⟨c.core.pop_core n, c.asserted.filter fun p => p.1 ≤ c.core.m_scopes.length - n⟩

/-- Formulas are Boolean terms, and only scopes that exist are popped. -/
def Proper (c : context) : call → Prop
  | .assert_expr_core t _ => WellSorted t ∧ get_sort t = .bool
  | .pop_core n => n ≤ c.core.m_scopes.length

/-- The formulas that were asserted with at most `n` scopes hold. -/
def HoldUpTo (c : context) (n : Nat) (M : interp) : Prop := ∀ p ∈ c.asserted, p.1 ≤ n → Holds M p.2.1 p.2.2

def Satisfied (c : context) (M : interp) : Prop := ∀ p ∈ c.asserted, Holds M p.2.1 p.2.2

/-- The bounds that are left when `n` scopes are popped. -/
def undone (c : context) (n : Nat) : expr → Option interval :=
  (c.core.m_scopes.take n).foldl bv_bounds_base.undo c.core.m_bound

/-- The bounds of every scope level hold under the formulas asserted up to that level. -/
structure Inv (c : context) : Prop where
  sound : ∀ n ≤ c.core.m_scopes.length, bv_bounds_base.Sound (c.undone n) (c.HoldUpTo (c.core.m_scopes.length - n))
  level_le : ∀ p ∈ c.asserted, p.1 ≤ c.core.m_scopes.length

theorem Inv.current {c : context} (h : c.Inv) : bv_bounds_base.Sound c.core.m_bound c.Satisfied := by
  have hsound := h.sound 0 (Nat.zero_le _)
  exact hsound.mono fun M hM p hp _ => hM p hp

/-- The assertion of a formula adds its bound, with the old one on the undo trail of the current scope. -/
theorem Inv.assert {c : context} (h : c.Inv) {t : expr} {sign : Bool} (ht : WellSorted t) (hsort : get_sort t = .bool)
    {core : bv_bounds_base} (hcore : c.core.assert_expr_core t sign = some core) :
    Inv ⟨core, (core.m_scopes.length, t, sign) :: c.asserted⟩ := by
  obtain ⟨hsound, hasserts⟩ := (bv_bounds_base.assert_expr_core_spec h.current ht hsort sign).1 core hcore
  -- below the new level nothing is added
  have hbelow {n k : Nat} (hn : n < core.m_scopes.length) (hkn : k = n) M
      (hM : HoldUpTo ⟨core, (core.m_scopes.length, t, sign) :: c.asserted⟩ n M) : c.HoldUpTo k M :=
    fun p hp hle => hM p (.tail _ hp) (hkn ▸ hle)
  have htop : bv_bounds_base.Sound core.m_bound
      (HoldUpTo ⟨core, (core.m_scopes.length, t, sign) :: c.asserted⟩ core.m_scopes.length) := by
    refine hsound.mono fun M hM => ⟨fun p hp => hM p (.tail _ hp) ?_, hM _ ((.head _) ..) ?_⟩
    · have hle := h.level_le p hp
      rcases hasserts.undo with ⟨hs, -⟩ | ⟨u, hs, -⟩ <;> rw [hs] <;> simp <;> omega
    · exact le_rfl
  refine ⟨fun n hn => ?_, fun p hp => ?_⟩
  · dsimp only at hn ⊢
    cases n with
    | zero => simpa [undone] using htop
    | succ n =>
      rcases hasserts.undo with ⟨hs, hb⟩ | ⟨u, hs, hb⟩
      · have hold := h.sound (n + 1) (hs ▸ hn)
        rw [undone, ← hs, ← hb] at hold
        exact hold.mono (hbelow (by omega) (by rw [hs]))
      · have hlen : core.m_scopes.length = c.core.m_scopes.length + 1 := by rw [hs, length_cons]
        have hold := h.sound n (by omega)
        have hundone : undone ⟨core, (core.m_scopes.length, t, sign) :: c.asserted⟩ (n + 1) = c.undone n := by
          rw [undone, undone]
          rw [hs, take_succ_cons, foldl_cons, hb]
        rw [hundone]
        exact hold.mono (hbelow (by omega) (by omega))
  · rcases mem_cons.mp hp with rfl | hp
    · exact le_rfl
    · have hle := h.level_le p hp
      rcases hasserts.undo with ⟨hs, -⟩ | ⟨u, hs, -⟩
      · simpa [hs] using hle
      · simp only [hs, length_cons]
        omega

/-- Popping restores the bounds that were on record at the level that remains. -/
theorem Inv.pop {c : context} (h : c.Inv) {n : Nat} (hn : n ≤ c.core.m_scopes.length) :
    Inv ⟨c.core.pop_core n, c.asserted.filter fun p => p.1 ≤ c.core.m_scopes.length - n⟩ := by
  have hempty bound (hb : ∀ x, bound x = none) P :
      bv_bounds_base.Sound bound P := by
    intro x b hxb
    rw [hb x] at hxb
    cases hxb
  unfold bv_bounds_base.pop_core
  split
  next hnil =>
    have hlen : c.core.m_scopes.length = 0 := by simpa using hnil
    have hall : (c.asserted.filter fun p => p.1 ≤ c.core.m_scopes.length - n) = c.asserted := by
      refine filter_eq_self.mpr fun p hp => ?_
      have hle := h.level_le p hp
      simp only [decide_eq_true_eq]
      omega
    rw [hall]
    exact h
  split
  next hzero =>
    refine ⟨fun k hk => ?_, fun p hp => ?_⟩
    · refine hempty _ (fun x => ?_) _
      simp [undone]
    · have hle := (mem_filter.mp hp).2
      simpa [hzero] using hle
  next hpos =>
    refine ⟨fun k hk => ?_, fun p hp => ?_⟩
    · simp only [length_drop] at hk ⊢
      have hold := h.sound (n + k) (by omega)
      have hundone : undone ⟨{ c.core with
          m_scopes := c.core.m_scopes.drop n
          m_bound := (c.core.m_scopes.take n).foldl bv_bounds_base.undo c.core.m_bound },
          c.asserted.filter fun p => p.1 ≤ c.core.m_scopes.length - n⟩ k = c.undone (n + k) := by
        simp only [undone]
        rw [← foldl_append, take_add]
      rw [hundone]
      refine hold.mono fun M hM p hp hle => hM p (mem_filter.mpr ⟨hp, ?_⟩) (by omega)
      simp only [decide_eq_true_eq]
      omega
    · have hle := (mem_filter.mp hp).2
      simpa using hle

def init (propagate_eq : Bool) : context := ⟨{ m_propagate_eq := propagate_eq }, []⟩

theorem Inv.init (propagate_eq : Bool) : Inv (init propagate_eq) := by
  refine ⟨fun n _ x b hb => ?_, by simp [context.init]⟩
  simp [undone, context.init] at hb

theorem Inv.of_reaches {propagate_eq : Bool} {c : context}
    (h : Machine.Reaches exec Proper (context.init propagate_eq) c) :
    c.Inv := by
  refine h.invariant (.init propagate_eq) fun c a c' hc hok hexec => ?_
  cases a with
  | assert_expr_core t sign =>
    simp only [exec] at hexec
    split at hexec
    next => exact Option.some.inj hexec ▸ hc
    next core hcore => exact Option.some.inj hexec ▸ hc.assert hok.1 hok.2 hcore
  | pop_core n => exact Option.some.inj hexec ▸ hc.pop hok

/-- After every sequence of calls a rejected assertion contradicts the asserted formulas, and a simplified term has the
value of the term under them, unless it is an odd number of negations of a signed comparison that is always true. -/
theorem bounds_sound_in_context {propagate_eq : Bool} {c : context}
    (h : Machine.Reaches exec Proper (context.init propagate_eq) c) :
    (∀ t sign, WellSorted t → get_sort t = .bool → c.core.assert_expr_core t sign = none →
      ∀ M, c.Satisfied M → ¬ Holds M t sign) ∧
      ∀ t r, WellSorted t → ¬ bv_bounds_base.NegatesAlwaysTrue t → c.core.simplify_core t = some r →
        ∀ M, c.Satisfied M → eval M r = eval M t := by
  have hinv := Inv.of_reaches h
  refine ⟨fun t sign ht hsort hnone M hM => ?_, fun t r ht hneg hr M hM => ?_⟩
  · exact (bv_bounds_base.assert_expr_core_spec hinv.current ht hsort sign).2 hnone M hM
  · exact bv_bounds_base.simplify_core_spec hinv.current hM ht hneg hr

/-- The context in which `x` of 8 bits is at most 5. -/
def le_five : context := ⟨⟨[⟨.app (.other 0 (.bitvec 8)) [], none⟩],
  Function.update (fun _ => none) (.app (.other 0 (.bitvec 8)) []) (some ⟨0, 5, 8, true⟩), false⟩,
  [(1, .app (.OP_ULEQ 8) [.app (.other 0 (.bitvec 8)) [], mk_numeral 5 8], false)]⟩

theorem reaches_le_five : Machine.Reaches exec Proper (init false) le_five := by
  refine .step (a := .assert_expr_core (.app (.OP_ULEQ 8) [.app (.other 0 (.bitvec 8)) [], mk_numeral 5 8]) false)
    .refl ⟨?_, rfl⟩ rfl
  simp [wellSorted_app, decl.Accepts, decl.range, mk_numeral]

theorem value_zero (range : srt) : range.Value 0 := by
  cases range with
  | bool => exact Nat.two_pos
  | bitvec sz => exact Nat.two_pow_pos sz
  | other n => trivial

/-- All values are 0. -/
def zeros : interp where
  other _ _ _ := 0
  non_app _ _ := 0
  other_value _ range _ := value_zero range
  non_app_value _ range := value_zero range

theorem zeros_satisfied : le_five.Satisfied zeros := by
  intro p hp
  obtain rfl : p = (1, .app (.OP_ULEQ 8) [.app (.other 0 (.bitvec 8)) [], mk_numeral 5 8], false) := by
    simpa [le_five] using hp
  rfl

/-- `not (not (x <=u 9))` becomes true. -/
theorem bounds_sound_in_context_ule :
    le_five.core.simplify_core
        (mk_not (mk_not (.app (.OP_ULEQ 8) [.app (.other 0 (.bitvec 8)) [], mk_numeral 9 8]))) = some mk_true ∧
      eval zeros mk_true =
        eval zeros (mk_not (mk_not (.app (.OP_ULEQ 8) [.app (.other 0 (.bitvec 8)) [], mk_numeral 9 8]))) := by
  have hr : le_five.core.simplify_core
      (mk_not (mk_not (.app (.OP_ULEQ 8) [.app (.other 0 (.bitvec 8)) [], mk_numeral 9 8]))) = some mk_true := by decide
  refine ⟨hr, (bounds_sound_in_context reaches_le_five).2 _ _ ?_ ?_ hr zeros zeros_satisfied⟩
  · simp [wellSorted_app, decl.Accepts, decl.range, mk_numeral, mk_not]
  · rintro ⟨hsign, -⟩
    exact absurd hsign (by decide)

/-- `not (x <=s 127)` becomes true although it is false. -/
theorem simplify_negated_always_true : ∃ c t r M, Machine.Reaches exec Proper (init false) c ∧
    WellSorted t ∧ c.core.simplify_core t = some r ∧ c.Satisfied M ∧ eval M r ≠ eval M t := by
  refine ⟨le_five, mk_not (.app (.OP_SLEQ 8) [.app (.other 0 (.bitvec 8)) [], mk_numeral 127 8]), mk_true, zeros,
    reaches_le_five, ?_, by decide, zeros_satisfied, by decide⟩
  simp [wellSorted_app, decl.Accepts, decl.range, mk_numeral, mk_not]

end context

end bv
