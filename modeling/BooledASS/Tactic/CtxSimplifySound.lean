import BooledASS.Tactic.CtxSimplifyScopes

open List Option Bool

namespace ctx_simplify

variable {U : Type} {K : Set (interp U)} {M : interp U} {F : facts} {e p t r : expr}

/-! ### Values of terms -/

theorem eval_app (M : interp U) (f : decl) (ts : List expr) : eval M (.app f ts) = f.apply M (ts.map (eval M)) :=
  Term.eval_app _ f ts

variable {ts : List expr}

theorem wellSorted_app {f : decl} : WellSorted (.app f ts) ↔ f.Accepts (ts.map get_sort) ∧ ∀ t ∈ ts, WellSorted t :=
  Term.all_app

theorem WellSorted.args (h : WellSorted t) : ∀ a ∈ t.args, WellSorted a := by
  rw [← Term.app_op_args t] at h
  exact (wellSorted_app.mp h).2

theorem accepts_not (h : decl.OP_NOT.Accepts (ts.map get_sort)) : ∃ t, ts = [t] ∧ get_sort t = .bool := by
  match ts with
  | [t] => exact ⟨t, rfl, h⟩
  | [] => simp [decl.Accepts] at h
  | _ :: _ :: _ => simp [decl.Accepts] at h

theorem accepts_eq (h : decl.OP_EQ.Accepts (ts.map get_sort)) : ∃ a b, ts = [a, b] ∧ get_sort a = get_sort b := by
  match ts with
  | [a, b] => exact ⟨a, b, rfl, h⟩
  | [] => simp [decl.Accepts] at h
  | [_] => simp [decl.Accepts] at h
  | _ :: _ :: _ :: _ => simp [decl.Accepts] at h

theorem accepts_ite {range : srt} (h : (decl.OP_ITE range).Accepts (ts.map get_sort)) :
    ∃ c t e, ts = [c, t, e] ∧ get_sort c = .bool ∧ get_sort t = range ∧ get_sort e = range := by
  match ts with
  | [c, t, e] => exact ⟨c, t, e, rfl, h⟩
  | [] => simp [decl.Accepts] at h
  | [_] => simp [decl.Accepts] at h
  | [_, _] => simp [decl.Accepts] at h
  | _ :: _ :: _ :: _ :: _ => simp [decl.Accepts] at h

/-- Well-sorted terms have values of their sort. -/
theorem eval_value (M : interp U) (h : WellSorted e) : (get_sort e).Value (eval M e) := by
  induction e using Term.induct with
  | h f ts ih =>
    obtain ⟨hacc, hts⟩ := wellSorted_app.mp h
    intro hbool
    rw [eval_app]
    cases f with
    | OP_TRUE => exact ⟨_, rfl⟩
    | OP_FALSE => exact ⟨_, rfl⟩
    | OP_NOT => exact ⟨_, rfl⟩
    | OP_OR => exact ⟨_, rfl⟩
    | OP_AND => exact ⟨_, rfl⟩
    | OP_EQ =>
      obtain ⟨a, b, rfl, -⟩ := accepts_eq hacc
      exact ⟨_, rfl⟩
    | OP_ITE range =>
      obtain ⟨c, t, e, rfl, -, ht, he⟩ := accepts_ite hacc
      have hrange : range = .bool := hbool
      simp only [map_cons, map_nil, decl.apply]
      split
      · exact ih t (by simp) (hts t (by simp)) (ht.trans hrange)
      · exact ih e (by simp) (hts e (by simp)) (he.trans hrange)
    | other n range => exact M.other_value n range _ hbool
    | non_app n range => exact M.non_app_value n range hbool

/-- A formula: a well-sorted Boolean term. -/
structure Formula (e : expr) : Prop where
  sorted : WellSorted e
  bool : get_sort e = .bool

theorem Formula.eval_eq_iff (he : Formula e) (hr : Formula r) (b : Bool) :
    eval M r = eval M e ↔ (eval M r = .inl b ↔ eval M e = .inl b) := by
  obtain ⟨v, hv⟩ := eval_value M he.sorted he.bool
  obtain ⟨w, hw⟩ := eval_value M hr.sorted hr.bool
  rw [hv, hw]
  cases v <;> cases w <;> cases b <;> simp

theorem Formula.not_eq_iff (he : Formula e) (b : Bool) : eval M e ≠ .inl b ↔ eval M e = .inl (!b) := by
  obtain ⟨v, hv⟩ := eval_value M he.sorted he.bool
  rw [hv]
  cases v <;> cases b <;> simp

theorem Formula.of_equal (he : Formula e) (h : Equal K F e r) : Formula r := ⟨h.sorted, h.sort_eq.trans he.bool⟩
theorem Formula.mk_true : Formula mk_true := ⟨wellSorted_app.mpr ⟨trivial, by simp⟩, rfl⟩
theorem Formula.mk_false : Formula mk_false := ⟨wellSorted_app.mpr ⟨trivial, by simp⟩, rfl⟩

theorem eval_of_is_true (h : is_true e) : eval M e = .inl true := by
  have hop : e.op = .OP_TRUE := by simpa [is_true] using h
  rw [← Term.app_op_args e, hop]
  rfl

theorem eval_of_is_false (h : is_false e) : eval M e = .inl false := by
  have hop : e.op = .OP_FALSE := by simpa [is_false] using h
  rw [← Term.app_op_args e, hop]
  rfl

@[simp] theorem eval_mk_true : eval M mk_true = .inl true := eval_of_is_true rfl
@[simp] theorem eval_mk_false : eval M mk_false = .inl false := eval_of_is_false rfl

theorem Formula.not_arg (h : Formula (.app .OP_NOT [t])) : Formula t := by
  obtain ⟨hacc, hts⟩ := wellSorted_app.mp h.sorted
  exact ⟨hts t (by simp), hacc⟩

theorem Formula.eval_not_iff (h : Formula t) (b : Bool) :
    eval M (.app .OP_NOT [t]) = .inl b ↔ eval M t = .inl (!b) := by
  obtain ⟨v, hv⟩ := eval_value M h.sorted h.bool
  rw [eval_app, map_singleton, hv]
  cases v <;> cases b <;> simp [decl.apply]

theorem Formula.not (h : Formula t) : Formula (mk_not t) := ⟨wellSorted_app.mpr ⟨h.bool, by simpa using h.sorted⟩, rfl⟩

/-- The disjunction or the conjunction of the arguments. -/
def or_and_op (OR : Bool) : decl := if OR then .OP_OR else .OP_AND

theorem Formula.or_and_args (OR : Bool) (h : WellSorted (.app (or_and_op OR) ts)) : ∀ t ∈ ts, Formula t := by
  obtain ⟨hacc, hts⟩ := wellSorted_app.mp h
  intro t ht
  refine ⟨hts t ht, ?_⟩
  have hmem : get_sort t ∈ ts.map get_sort := mem_map_of_mem ht
  cases OR with
  | true => exact hacc _ hmem
  | false => exact hacc _ hmem

theorem Formula.or_and (OR : Bool) (h : ∀ t ∈ ts, Formula t) : Formula (.app (or_and_op OR) ts) := by
  have hsorts : ∀ a ∈ ts.map get_sort, a = .bool := by
    intro a ha
    obtain ⟨t, ht, rfl⟩ := mem_map.mp ha
    exact (h t ht).bool
  cases OR with
  | true => exact ⟨wellSorted_app.mpr ⟨hsorts, fun t ht => (h t ht).sorted⟩, rfl⟩
  | false => exact ⟨wellSorted_app.mpr ⟨hsorts, fun t ht => (h t ht).sorted⟩, rfl⟩

/-- A disjunction is false when all its arguments are, a conjunction true. -/
theorem eval_or_and {OR : Bool} (h : ∀ t ∈ ts, Formula t) :
    eval M (.app (or_and_op OR) ts) = .inl (!OR) ↔ ∀ t ∈ ts, eval M t = .inl (!OR) := by
  rw [eval_app]
  cases OR with
  | true =>
    have hnot : ∀ t ∈ ts, (eval M t = .inl (!true) ↔ eval M t ≠ .inl true) :=
      fun t ht => ((h t ht).not_eq_iff true).symm
    rw [forall₂_congr hnot]
    simp [or_and_op, decl.apply]
  | false => simp [or_and_op, decl.apply]

/-- What is known of `mk_simplified_app`: the result has the sort and the value of the application. -/
def Rewrites (K : Set (interp U)) (mk_app : decl → List expr → expr) : Prop :=
  ∀ f ts, WellSorted (.app f ts) → Equal K (fun _ => none) (.app f ts) (mk_app f ts)

theorem Equal.trans {r' : expr} (h : Equal K F t r) (h' : Equal K F r r') : Equal K F t r' :=
  ⟨h'.sorted, h'.sort_eq.trans h.sort_eq, fun M hM => (h'.eval_eq M hM).trans (h.eval_eq M hM)⟩

theorem Equal.of_none (h : Equal K (fun _ => none) t r) : Equal K F t r :=
  ⟨h.sorted, h.sort_eq, fun M hM => h.eval_eq M ⟨hM.mem, fun _ _ h => by cases h⟩⟩

/-- Formulas are equal when they have one of the values under the same conditions. -/
theorem Formula.equal (ht : Formula t) (hr : Formula r) (b : Bool)
    (h : ∀ M, Models K M F → (eval M r = .inl b ↔ eval M t = .inl b)) : Equal K F t r :=
  ⟨hr.sorted, hr.bool.trans ht.bool.symm, fun M hM => (ht.eval_eq_iff hr b).mpr (h M hM)⟩

/-- Equal arguments give an equal application. -/
theorem Equal.app {f : decl} {rs : List expr} (h : List.Forall₂ (Equal K F) ts rs) (ht : WellSorted (.app f ts)) :
    Equal K F (.app f ts) (.app f rs) := by
  have hsorts : rs.map get_sort = ts.map get_sort := by
    clear ht
    induction h with
    | nil => rfl
    | cons h _ ih => rw [map_cons, map_cons, h.sort_eq, ih]
  have hsorted : ∀ r ∈ rs, WellSorted r := by
    clear ht hsorts
    induction h with
    | nil => simp
    | cons h _ ih => exact forall_mem_cons.mpr ⟨h.sorted, ih⟩
  refine ⟨wellSorted_app.mpr ⟨?_, hsorted⟩, rfl, fun M hM => ?_⟩
  · rw [hsorts]
    exact (wellSorted_app.mp ht).1
  · have hvals : rs.map (eval M) = ts.map (eval M) := by
      clear ht hsorts hsorted
      induction h with
      | nil => rfl
      | cons h _ ih => rw [map_cons, map_cons, h.eval_eq M hM, ih]
    rw [eval_app, eval_app, hvals]

/-! ### Assertions -/

theorem Formula.strip_not {sign : Bool} (h : Formula p) : Formula (strip_not p sign).1 := by
  induction p, sign using strip_not.induct with
  | case1 t sign ih =>
    rw [ctx_simplify.strip_not]
    exact ih h.not_arg
  | case2 t sign hne =>
    simp only [ctx_simplify.strip_not]
    exact h

theorem eval_strip_not {sign : Bool} (h : Formula p) (heval : eval M p = .inl (!sign)) :
    eval M (strip_not p sign).1 = .inl (!(strip_not p sign).2) := by
  induction p, sign using strip_not.induct with
  | case1 t sign ih => exact ih h.not_arg ((h.not_arg.eval_not_iff _).mp heval)
  | case2 t sign hne =>
    simp only [strip_not]
    exact heval

namespace imp

variable {s : imp} {c : ctx_propagate_assertions} {is_value : expr → Bool} {sign mk_scope : Bool} {val : expr}

/-- The value of a shared term goes into the assertions, in a scope of its own unless one has been opened for it.
Other terms are left out. -/
theorem assert_eq_val_spec (h : c.Extends s.m_simp) (hs : s.m_simp.Inv)
    (hnew : mk_scope = false → s.m_simp.m_scopes ≠ c.m_scopes) (hval : WellSorted val)
    (hsort : get_sort val = get_sort t) :
    ∃ c', s.assert_eq_val t val mk_scope = { s with m_simp := c' } ∧ c'.Inv ∧ c.Extends c' ∧
      ∀ M, Models K M s.m_simp.m_assertions → eval M t = eval M val →
        Models K M c'.m_assertions := by
  unfold assert_eq_val
  split
  next =>
    refine ⟨_, rfl, ?_⟩
    cases mk_scope with
    | true =>
      obtain ⟨hpush, hext⟩ := ctx_propagate_assertions.Extends.push hs
      have hne : s.m_simp.push.m_scopes ≠ c.m_scopes := by
        intro heq
        have hle := h.level_le
        have hlen := congrArg List.length heq
        simp only [ctx_propagate_assertions.push, length_append, length_singleton] at hlen
        simp only [ctx_propagate_assertions.scope_level] at hle
        omega
      obtain ⟨hinv, hext', -⟩ := (h.trans hext).assert_eq_core hpush hne hval hsort
      exact ⟨hinv, hext', fun M hM heq => ctx_propagate_assertions.models_assert_eq_core hM heq⟩
    | false =>
      obtain ⟨hinv, hext', -⟩ := h.assert_eq_core hs (hnew rfl) hval hsort
      exact ⟨hinv, hext', fun M hM heq => ctx_propagate_assertions.models_assert_eq_core hM heq⟩
  next => exact ⟨s.m_simp, rfl, hs, h, fun M hM _ => hM⟩

/-- An equation that is true, with a value on one side, gives the value of the other side. Nothing is asserted for
other formulas. -/
theorem assert_eq_spec (is_value : expr → Bool) (sign mk_scope : Bool) (h : c.Extends s.m_simp) (hs : s.m_simp.Inv)
    (hnew : mk_scope = false → s.m_simp.m_scopes ≠ c.m_scopes) (ht : Formula t) :
    ∃ c', s.assert_eq is_value t sign mk_scope = { s with m_simp := c' } ∧ c'.Inv ∧ c.Extends c' ∧
      ∀ M, Models K M s.m_simp.m_assertions → eval M t = .inl (!sign) →
        Models K M c'.m_assertions := by
  have heq {lhs rhs : expr} (hsign : ¬ sign) (M : interp U)
      (hM : eval M (.app .OP_EQ [lhs, rhs]) = .inl (!sign)) : eval M lhs = eval M rhs := by
    rw [eval_app, eq_false_iff.mpr hsign] at hM
    simpa [decl.apply] using hM
  fun_cases assert_eq with
  | case1 | case4 | case5 => exact ⟨s.m_simp, rfl, hs, h, fun M hM _ => hM⟩
  | case2 lhs rhs hsign =>
    obtain ⟨hacc, hts⟩ := wellSorted_app.mp ht.sorted
    have hsorts : get_sort lhs = get_sort rhs := hacc
    obtain ⟨c', he, hinv, hext, hfacts⟩ := assert_eq_val_spec h hs hnew (hts rhs (by simp)) hsorts.symm
    exact ⟨c', he, hinv, hext, fun M hM hp => hfacts M hM (heq hsign M hp)⟩
  | case3 lhs rhs hsign =>
    obtain ⟨hacc, hts⟩ := wellSorted_app.mp ht.sorted
    obtain ⟨c', he, hinv, hext, hfacts⟩ := assert_eq_val_spec h hs hnew (hts lhs (by simp)) hacc
    exact ⟨c', he, hinv, hext, fun M hM hp => hfacts M hM (heq hsign M hp).symm⟩

/-- Asserting a formula opens a scope for its facts, or does nothing. -/
structure Asserts (K : Set (interp U)) (s s' : imp) (p : expr) (sign : Bool) : Prop where
  inv : s'.Inv K
  extend : s.m_simp.Extends s'.m_simp
  holds : ∀ M, Models K M s.m_simp.m_assertions → eval M p = .inl (!sign) →
    Models K M s'.m_simp.m_assertions

theorem Asserts.refl (h : s.Inv K) : Asserts K s s p sign := ⟨h, .refl _, fun _ hM _ => hM⟩

/-- Negations are taken off before the assertion. The truth value of a shared formula is asserted, and the value that
an equation gives in the same scope. -/
theorem assert_expr_spec (h : s.Inv K) (hp : Formula p) : Asserts K s (s.assert_expr is_value p sign) p sign := by
  have hq : Formula (strip_not p sign).1 := hp.strip_not
  unfold assert_expr
  dsimp only
  split
  next =>
    obtain ⟨hpush, hext⟩ := ctx_propagate_assertions.Extends.push h.simp
    have hval : Formula (if (strip_not p sign).2 then mk_false else mk_true) := by
      split
      · exact .mk_false
      · exact .mk_true
    have hne : s.m_simp.push.m_scopes ≠ s.m_simp.m_scopes := by simp [ctx_propagate_assertions.push]
    obtain ⟨hinv, hext', hscopes⟩ := hext.assert_eq_core hpush hne hval.sorted (hval.bool.trans hq.bool.symm)
    have hfacts (M : interp U) (hM : Models K M s.m_simp.m_assertions) (heval : eval M p = .inl (!sign)) :
        Models K M (s.m_simp.push.assert_eq_core (strip_not p sign).1
          (if (strip_not p sign).2 then mk_false else mk_true)).m_assertions := by
      refine ctx_propagate_assertions.models_assert_eq_core hM ?_
      rw [eval_strip_not hp heval]
      cases (strip_not p sign).2 <;> simp
    rw [← hscopes] at hne
    generalize s.m_simp.push.assert_eq_core (strip_not p sign).1 (if (strip_not p sign).2 then mk_false else mk_true) =
      c1 at hinv hext' hne hfacts
    obtain ⟨c2, he, hinv', hext'', hfacts'⟩ := assert_eq_spec (s := .tick { s with m_simp := c1 }) is_value
      (strip_not p sign).2 false hext' hinv (fun _ => hne) hq
    rw [he]
    exact ⟨h.extend hinv' hext'' _, hext'', fun M hM heval => hfacts' M (hfacts M hM heval) (eval_strip_not hp heval)⟩
  next =>
    obtain ⟨c', he, hinv, hext, hfacts⟩ := assert_eq_spec (s := s.tick) is_value (strip_not p sign).2 true (.refl _)
      h.simp (fun h => absurd h (by decide)) hq
    rw [he]
    exact ⟨h.extend hinv hext _, hext, fun M hM heval => hfacts M hM (eval_strip_not hp heval)⟩

/-! ### The simplifier -/

/-- A call of the simplifier: the facts are those of before, and the result is equal under them. -/
structure Simplifies (K : Set (interp U)) (s : imp) (t : expr) (p : imp × expr) : Prop where
  inv : p.1.Inv K
  simp_eq : p.1.m_simp = s.m_simp
  equal : Equal K s.m_simp.m_assertions t p.2

/-- The simplifier that is called for the parts of a term. -/
def Sound (K : Set (interp U)) (simplify : imp → expr → imp × expr) : Prop :=
  ∀ s t, s.Inv K → WellSorted t → Simplifies K s t (simplify s t)

variable {simplify : imp → expr → imp × expr} {mk_app : decl → List expr → expr} {OR : Bool}

/-- The loop over the arguments: they have the neutral value together when those that are left have. -/
structure Passes (K : Set (interp U)) (OR : Bool) (s : imp) (args : List expr)
    (p : imp × Option (List expr × Bool)) : Prop where
  inv : p.1.Inv K
  extend : s.m_simp.Extends p.1.m_simp
  exit : p.2 = none → ∀ M, Models K M s.m_simp.m_assertions →
    ¬ ∀ a ∈ args, eval M a = .inl (!OR)
  formulas : ∀ q, p.2 = some q → ∀ a ∈ q.1, Formula a
  same : ∀ q, p.2 = some q → ∀ M, Models K M s.m_simp.m_assertions →
    ((∀ a ∈ args, eval M a = .inl (!OR)) ↔ ∀ a ∈ q.1, eval M a = .inl (!OR))
  unmodified : ∀ q, p.2 = some q → q.2 = false → q.1 = args

/-- An argument that was simplified and perhaps asserted, before the rest of the loop. -/
theorem Asserts.iff {s' : imp} {arg new_arg : expr} {rest : List expr} {P : Prop} (h : Asserts K s s' new_arg OR)
    (heq : Equal K s.m_simp.m_assertions arg new_arg) (hM : Models K M s.m_simp.m_assertions)
    (hrest : Models K M s'.m_simp.m_assertions → ((∀ a ∈ rest, eval M a = .inl (!OR)) ↔ P)) :
    (∀ a ∈ arg :: rest, eval M a = .inl (!OR)) ↔ eval M new_arg = .inl (!OR) ∧ P := by
  rw [forall_mem_cons, ← heq.eval_eq M hM]
  exact and_congr_right fun hnew => hrest (h.holds M hM hnew)

/-- The loop leaves such an argument out. -/
theorem eval_of_neutral {t : expr} (h : (OR && is_false t || !OR && is_true t) = true) : eval M t = .inl (!OR) := by
  rcases or_eq_true_iff.mp h with h | h
  · obtain ⟨rfl, hf⟩ := and_eq_true_iff.mp h
    exact eval_of_is_false hf
  · obtain ⟨hOR, ht⟩ := and_eq_true_iff.mp h
    rw [eval_of_is_true ht, hOR]

/-- The loop ends with such an argument. -/
theorem eval_ne_of_absorbing {t : expr} (h : (OR && is_true t || !OR && is_false t) = true) :
    eval M t ≠ .inl (!OR) := by
  rcases or_eq_true_iff.mp h with h | h
  · obtain ⟨rfl, ht⟩ := and_eq_true_iff.mp h
    rw [eval_of_is_true ht]
    simp
  · obtain ⟨hOR, hf⟩ := and_eq_true_iff.mp h
    rw [eval_of_is_false hf, hOR]
    simp

/-- Each argument is simplified under the assumption that those before it do not decide the connective. The loop ends
with `none` as soon as an argument decides it. -/
theorem or_and_loop_spec (hsimp : Sound K simplify) (args : List expr) (hs : s.Inv K) (hargs : ∀ a ∈ args, Formula a) :
    Passes K OR s args (or_and_loop is_value simplify OR s args) := by
  induction args generalizing s with
  | nil =>
    rw [or_and_loop]
    refine ⟨hs, .refl _, by simp, ?_, ?_, ?_⟩
    · rintro q ⟨rfl⟩
      simp
    · rintro q ⟨rfl⟩
      simp
    · rintro q ⟨rfl⟩ -
      rfl
  | cons arg rest ih =>
    obtain ⟨harg, hrest⟩ := forall_mem_cons.mp hargs
    obtain ⟨hinv, hsimp_eq, hequal⟩ := hsimp s arg hs harg.sorted
    have hnew : Formula (simplify s arg).2 := harg.of_equal hequal
    rw [or_and_loop]
    generalize simplify s arg = p at hinv hsimp_eq hequal hnew
    have hassert : Asserts K s (if !rest.isEmpty && !is_true p.2 && !is_false p.2 then p.1.assert_expr is_value p.2 OR
        else p.1) p.2 OR := by
      have hp : Asserts K p.1 (if !rest.isEmpty && !is_true p.2 && !is_false p.2 then p.1.assert_expr is_value p.2 OR
          else p.1) p.2 OR := by
        split
        · exact assert_expr_spec hinv hnew
        · exact .refl hinv
      exact ⟨hp.inv, hsimp_eq ▸ hp.extend, hsimp_eq ▸ hp.holds⟩
    generalize (if !rest.isEmpty && !is_true p.2 && !is_false p.2 then p.1.assert_expr is_value p.2 OR else p.1) =
      s' at hassert
    have hloop := ih hassert.inv hrest
    generalize or_and_loop is_value simplify OR s' rest = r at hloop
    have hexit (hnone : r.2 = none) (M : interp U) (hM : Models K M s.m_simp.m_assertions) :
        ¬ ∀ a ∈ arg :: rest, eval M a = .inl (!OR) := by
      rw [hassert.iff hequal hM fun hM' => iff_false_intro (hloop.exit hnone M hM')]
      exact fun h => h.2
    split_ifs with hskip hstop
    · refine ⟨hloop.inv, hassert.extend.trans hloop.extend, fun hnone => hexit (map_eq_none_iff.mp hnone), ?_, ?_, ?_⟩
      · intro q hq
        obtain ⟨q', hq', rfl⟩ := map_eq_some_iff.mp hq
        exact hloop.formulas q' hq'
      · intro q hq M hM
        obtain ⟨q', hq', rfl⟩ := map_eq_some_iff.mp hq
        rw [hassert.iff hequal hM (hloop.same q' hq' M)]
        exact and_iff_right (eval_of_neutral hskip)
      · intro q hq hmod
        obtain ⟨q', hq', rfl⟩ := map_eq_some_iff.mp hq
        cases hmod
    · refine ⟨hassert.inv, hassert.extend, fun _ M hM hall => ?_, by simp, by simp, by simp⟩
      rw [forall_mem_cons, ← hequal.eval_eq M hM] at hall
      exact eval_ne_of_absorbing hstop hall.1
    · refine ⟨hloop.inv, hassert.extend.trans hloop.extend, fun hnone => hexit (map_eq_none_iff.mp hnone), ?_, ?_, ?_⟩
      · intro q hq
        obtain ⟨q', hq', rfl⟩ := map_eq_some_iff.mp hq
        exact forall_mem_cons.mpr ⟨hnew, hloop.formulas q' hq'⟩
      · intro q hq M hM
        obtain ⟨q', hq', rfl⟩ := map_eq_some_iff.mp hq
        rw [hassert.iff hequal hM (hloop.same q' hq' M), forall_mem_cons]
      · intro q hq hmod
        obtain ⟨q', hq', rfl⟩ := map_eq_some_iff.mp hq
        obtain ⟨hmod', hsame⟩ := or_eq_false_iff.mp hmod
        rw [hloop.unmodified q' hq' hmod', bne_eq_false_iff_eq.mp hsame]

variable {args : List expr}

/-- After the loop the facts are those of before. -/
theorem or_and_pass_spec (is_value : expr → Bool) (OR : Bool) (hsimp : Sound K simplify) (hs : s.Inv K)
    (hargs : ∀ a ∈ args, Formula a) :
    Passes K OR s args (or_and_pass is_value simplify OR s args) ∧
      (or_and_pass is_value simplify OR s args).1.m_simp = s.m_simp := by
  have hloop : Passes K OR s args (or_and_loop is_value simplify OR s args) := or_and_loop_spec hsimp args hs hargs
  have hpop := hloop.inv.pop hs.simp hloop.extend
  have hsimp_eq : (or_and_pass is_value simplify OR s args).1.m_simp = s.m_simp := hpop.2
  refine ⟨⟨hpop.1, ?_, hloop.exit, hloop.formulas, hloop.same, hloop.unmodified⟩, hsimp_eq⟩
  rw [hsimp_eq]
  exact .refl _

theorem formula_decided (OR : Bool) : Formula (decided OR) := by
  cases OR with
  | true => exact .mk_true
  | false => exact .mk_false

theorem eval_decided (M : interp U) (OR : Bool) : eval M (decided OR) ≠ .inl (!OR) := by
  cases OR <;> simp [decided]

/-- Some argument decides the formula. -/
theorem Passes.decided {p : imp × Option (List expr × Bool)} (h : Passes K OR s args p) (hargs : ∀ a ∈ args, Formula a)
    (hnone : p.2 = none) : Equal K s.m_simp.m_assertions (.app (or_and_op OR) args) (decided OR) :=
  (Formula.or_and OR hargs).equal (formula_decided OR) (!OR) fun M hM => by
    rw [eval_or_and hargs]
    exact iff_of_false (eval_decided M OR) (h.exit hnone M hM)

/-- The connective over the arguments that are left is equal to the old one. With one argument left it is that
argument, with none the neutral value. -/
theorem or_and_result_spec (hmk : Rewrites K mk_app) {new_args : List expr} {modified : Bool}
    (hargs : ∀ a ∈ args, Formula a) (hnew : ∀ a ∈ new_args, Formula a) (h : ∀ M, Models K M F →
      ((∀ a ∈ args, eval M a = .inl (!OR)) ↔ ∀ a ∈ new_args, eval M a = .inl (!OR))) :
    Equal K F (.app (or_and_op OR) args) (or_and_result mk_app OR (.app (or_and_op OR) args) modified new_args) := by
  have hform : Formula (.app (or_and_op OR) args) := .or_and OR hargs
  fun_cases or_and_result with
  | case1 => exact .refl hform.sorted
  | case2 =>
    refine hform.equal (formula_decided _) (!OR) fun M hM => ?_
    rw [eval_or_and hargs, h M hM]
    cases OR <;> simp [decided]
  | case3 _ arg =>
    refine hform.equal (hnew arg (by simp)) (!OR) fun M hM => ?_
    rw [eval_or_and hargs, h M hM]
    simp
  | case4 =>
    have hrev : ∀ a ∈ new_args.reverse, Formula a := fun a ha => hnew a (mem_reverse.mp ha)
    have happ : Equal K F (.app (or_and_op OR) args) (.app (or_and_op OR) new_args.reverse) :=
      hform.equal (.or_and OR hrev) (!OR) fun M hM => by
        rw [eval_or_and hargs, eval_or_and hrev, h M hM]
        simp only [mem_reverse]
    exact happ.trans (hmk _ _ happ.sorted).of_none

/-- A result is cached. -/
theorem Inv.cache_simplifies {s' : imp} (h : s'.Inv K) (heq : s'.m_simp = s.m_simp)
    (hr : Equal K s.m_simp.m_assertions t r) : Simplifies K s t (s'.cache t r, r) := by
  obtain ⟨hinv, hsimp⟩ := h.cache_result fun _ => by rwa [heq]
  exact ⟨hinv, hsimp.trans heq, hr⟩

/-- A disjunction or conjunction is equal to the result under the facts of the call, and these are back in place after
it. The arguments are gone through from the left and then from the right. -/
theorem simplify_or_and_spec (OR : Bool) (hsimp : Sound K simplify) (hmk : Rewrites K mk_app) (hs : s.Inv K)
    (ht : WellSorted (.app (or_and_op OR) args)) :
    Simplifies K s (.app (or_and_op OR) args)
      (simplify_or_and is_value mk_app simplify OR s (.app (or_and_op OR) args)) := by
  have hargs : ∀ a ∈ args, Formula a := Formula.or_and_args OR ht
  obtain ⟨hp, hp_eq⟩ := or_and_pass_spec is_value OR hsimp hs hargs
  unfold simplify_or_and
  dsimp only [Term.args_app]
  generalize or_and_pass is_value simplify OR s args = p at hp hp_eq
  split
  next hnone => exact hp.inv.cache_simplifies hp_eq (hp.decided hargs hnone)
  next new_args hsome =>
    have hnew : ∀ a ∈ new_args.1.reverse, Formula a := fun a ha =>
      hp.formulas _ hsome a (mem_reverse.mp ha)
    obtain ⟨hq, hq_eq⟩ := or_and_pass_spec is_value OR hsimp hp.inv hnew
    generalize or_and_pass is_value simplify OR p.1 new_args.1.reverse = q at hq hq_eq
    have hq_eq' : q.1.m_simp = s.m_simp := hq_eq.trans hp_eq
    have hrev (M : interp U) (hM : Models K M s.m_simp.m_assertions) :
        (∀ a ∈ args, eval M a = .inl (!OR)) ↔ ∀ a ∈ new_args.1.reverse, eval M a = .inl (!OR) := by
      rw [hp.same _ hsome M hM]
      simp only [mem_reverse]
    split
    next hnone =>
      refine hq.inv.cache_simplifies hq_eq' ((Formula.or_and OR hargs).equal (formula_decided OR) (!OR) fun M hM => ?_)
      rw [eval_or_and hargs, hrev M hM]
      exact iff_of_false (eval_decided M OR) (hq.exit hnone M (by rwa [hp_eq]))
    next new_new_args hsome' =>
      refine hq.inv.cache_simplifies hq_eq' (or_and_result_spec hmk hargs (hq.formulas _ hsome') fun M hM => ?_)
      rw [hrev M hM]
      exact hq.same _ hsome' M (by rwa [hp_eq])

/-- The arguments are simplified from the left, all under the facts of the call. -/
theorem simplify_args_spec (hsimp : Sound K simplify) (args : List expr) (hs : s.Inv K)
    (hargs : ∀ a ∈ args, WellSorted a) :
    (simplify_args simplify s args).1.Inv K ∧ (simplify_args simplify s args).1.m_simp = s.m_simp ∧
      List.Forall₂ (Equal K s.m_simp.m_assertions) args (simplify_args simplify s args).2 := by
  induction args generalizing s with
  | nil => exact ⟨hs, rfl, .nil⟩
  | cons arg rest ih =>
    obtain ⟨harg, hrest⟩ := forall_mem_cons.mp hargs
    obtain ⟨hinv, heq, hequal⟩ := hsimp s arg hs harg
    obtain ⟨hinv', heq', hequal'⟩ := ih hinv hrest
    rw [heq] at heq' hequal'
    exact ⟨hinv', heq', .cons hequal hequal'⟩

/-- Any other term: its arguments are simplified, and the rewriter makes the term again if one has changed. -/
theorem simplify_app_spec (hsimp : Sound K simplify) (hmk : Rewrites K mk_app) (hs : s.Inv K) (ht : WellSorted t) :
    Simplifies K s t (simplify_app mk_app simplify s t) := by
  obtain ⟨hinv, heq, hequal⟩ := simplify_args_spec hsimp t.args hs ht.args
  refine ⟨hinv, heq, ?_⟩
  unfold simplify_app
  dsimp only
  split
  next => exact .refl ht
  next =>
    have happ := Equal.app hequal (by rwa [Term.app_op_args])
    rw [Term.app_op_args] at happ
    exact happ.trans (hmk _ _ happ.sorted).of_none

/-- A branch is equal under the condition. -/
theorem simplify_branch_spec (is_value : expr → Bool) (sign : Bool) (hsimp : Sound K simplify) (hs : s.Inv K) {c : expr}
    (hc : Formula c) (ht : WellSorted t) :
    (simplify_branch is_value simplify s c sign t).1.Inv K ∧
      (simplify_branch is_value simplify s c sign t).1.m_simp = s.m_simp ∧
      WellSorted (simplify_branch is_value simplify s c sign t).2 ∧
      get_sort (simplify_branch is_value simplify s c sign t).2 = get_sort t ∧
      ∀ M, Models K M s.m_simp.m_assertions → eval M c = .inl (!sign) →
        eval M (simplify_branch is_value simplify s c sign t).2 = eval M t := by
  have hassert : Asserts K s (s.assert_expr is_value c sign) c sign := assert_expr_spec hs hc
  obtain ⟨hinv, heq, hequal⟩ := hsimp _ t hassert.inv ht
  have hpop := hinv.pop hs.simp (by rw [heq]; exact hassert.extend)
  exact ⟨hpop.1, hpop.2, hequal.sorted, hequal.sort_eq, fun M hM hcond => hequal.eval_eq M (hassert.holds M hM hcond)⟩

theorem eval_ite {range : srt} {c e : expr} : eval M (.app (.OP_ITE range) [c, t, e]) =
    open Classical in if eval M c = .inl true then eval M t else eval M e := by
  rfl

/-- The condition is simplified first and may decide for a branch. Otherwise each branch is simplified under the
condition or its negation, which is popped after it. -/
theorem simplify_ite_spec (hsimp : Sound K simplify) (hmk : Rewrites K mk_app) (hs : s.Inv K) {range : srt}
    (ht : WellSorted (.app (.OP_ITE range) args)) :
    Simplifies K s (.app (.OP_ITE range) args)
      (simplify_ite is_value mk_app simplify s (.app (.OP_ITE range) args)) := by
  obtain ⟨hacc, hts⟩ := wellSorted_app.mp ht
  obtain ⟨c, t, e, rfl, hc, hsort_t, hsort_e⟩ := accepts_ite hacc
  have hsc : Formula c := ⟨hts c (by simp), hc⟩
  have hst : WellSorted t := hts t (by simp)
  have hse : WellSorted e := hts e (by simp)
  obtain ⟨hinv, heq, hequal⟩ := hsimp s c hs hsc.sorted
  unfold simplify_ite
  dsimp only [Term.args_app]
  generalize simplify s c = pc at hinv heq hequal
  have hpc : Formula pc.2 := hsc.of_equal hequal
  split
  next htrue =>
    obtain ⟨hinv', heq', hequal'⟩ := hsimp pc.1 t hinv hst
    refine hinv'.cache_simplifies (heq'.trans heq) ⟨hequal'.sorted, hequal'.sort_eq.trans hsort_t, fun M hM => ?_⟩
    rw [hequal'.eval_eq M (by rwa [heq]), eval_ite, ← hequal.eval_eq M hM, if_pos (eval_of_is_true htrue)]
  next =>
    split
    next hfalse =>
      obtain ⟨hinv', heq', hequal'⟩ := hsimp pc.1 e hinv hse
      refine hinv'.cache_simplifies (heq'.trans heq) ⟨hequal'.sorted, hequal'.sort_eq.trans hsort_e, fun M hM => ?_⟩
      rw [hequal'.eval_eq M (by rwa [heq]), eval_ite, ← hequal.eval_eq M hM, eval_of_is_false hfalse, if_neg (by simp)]
    next =>
      obtain ⟨hinv_t, heq_t, hws_t, hsort_t', heval_t⟩ := simplify_branch_spec is_value false hsimp hinv hpc hst
      generalize simplify_branch is_value simplify pc.1 pc.2 false t = pt at hinv_t heq_t hws_t hsort_t' heval_t
      obtain ⟨hinv_e, heq_e, hws_e, hsort_e', heval_e⟩ := simplify_branch_spec is_value true hsimp hinv_t hpc hse
      generalize simplify_branch is_value simplify pt.1 pc.2 true e = pe at hinv_e heq_e hws_e hsort_e' heval_e
      rw [heq_t] at heq_e heval_e
      rw [heq] at heq_t heq_e heval_t heval_e
      have hite : Equal K s.m_simp.m_assertions (.app (.OP_ITE range) [c, t, e])
          (.app (.OP_ITE range) [pc.2, pt.2, pe.2]) := by
        refine ⟨wellSorted_app.mpr ⟨⟨hpc.bool, hsort_t'.trans hsort_t, hsort_e'.trans hsort_e⟩, ?_⟩, rfl,
          fun M hM => ?_⟩
        · simp [hpc.sorted, hws_t, hws_e]
        · rw [eval_ite, eval_ite, ← hequal.eval_eq M hM]
          by_cases hcond : eval M pc.2 = .inl true
          · rw [if_pos hcond, if_pos hcond, heval_t M hM hcond]
          · rw [if_neg hcond, if_neg hcond, heval_e M hM ((hpc.not_eq_iff true).mp hcond)]
      refine hinv_e.cache_simplifies heq_e ?_
      split_ifs with _ hsame
      · exact .refl ht
      · refine ⟨hws_t, hsort_t'.trans hsort_t, fun M hM => ?_⟩
        rw [← hite.eval_eq M hM, eval_ite, ← hsame, ite_self]
      · exact hite.trans (hmk _ _ hite.sorted).of_none

/-- The simplifier is sound at every depth. -/
theorem simplify_sound (is_value : expr → Bool) (hmk : Rewrites K mk_app) (fuel : Nat) :
    Sound K (imp.simplify is_value mk_app fuel) := by
  induction fuel with
  | zero => exact fun s t hs ht => ⟨hs, rfl, .refl ht⟩
  | succ fuel ih =>
    intro s t hs ht
    rw [imp.simplify]
    split
    next => exact ⟨hs, rfl, .refl ht⟩
    next =>
      split
      next e he =>
        obtain ⟨hmem, hunder⟩ := hs.is_cached_spec he
        refine ⟨⟨hs.simp, { hs.cache with },
          forall_mem_cons.mpr ⟨hunder, hs.reuses⟩⟩, rfl, ?_⟩
        rw [← hunder]
        exact hs.cache.valid t e hmem ht
      next =>
        split
        next r hr =>
          obtain ⟨hws, hsort⟩ := hs.simp.sorted t r hr
          exact ⟨hs, rfl, hws, hsort, fun M hM => (hM.holds t r hr).symm⟩
        next =>
          have hs' : ({ s with m_num_steps := s.m_num_steps + 1 }).Inv K := ⟨hs.simp, { hs.cache with }, hs.reuses⟩
          have hcast {p : imp × expr} (h : Simplifies K { s with m_num_steps := s.m_num_steps + 1 } t p) :
              Simplifies K s t p := ⟨h.inv, h.simp_eq, h.equal⟩
          cases t with
          | app f args =>
            dsimp only [Term.op_app]
            refine hcast ?_
            split
            · exact simplify_or_and_spec true ih hmk hs' ht
            · exact simplify_or_and_spec false ih hmk hs' ht
            · exact simplify_ite_spec ih hmk hs' ht
            · exact simplify_app_spec ih hmk hs' ht

end imp

end ctx_simplify
