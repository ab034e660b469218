import BooledASS.Tactic.CtxSimplifyGoal

open List

namespace ctx_simplify

namespace imp

variable {U D : Type} {K : Set (interp U)} {M : interp U} {s : imp} {g : goal D} {c : ctx_propagate_assertions}
  {is_value : expr → Bool}
  {mk_app : decl → List expr → expr}

/-- The facts follow from the formulas that are not yet to be processed: those processed before, and those appended. -/
def Justified (K : Set (interp U)) (s : imp) (g : goal D) (todo : List Nat) : Prop :=
  g.m_inconsistent = false → ∀ M ∈ K, (∀ j p, j ∉ todo → g.m_forms[j]? = some p → Holds M p.1) →
    Models K M s.m_simp.m_assertions

/-- What a loop over the formulas leaves. -/
structure Processed (K : Set (interp U)) (s : imp) (g : goal D) (p : imp × goal D) : Prop where
  inv : p.1.Inv K
  extend : s.m_simp.Extends p.1.m_simp
  sorted : p.2.Sorted
  holds : ∀ M ∈ K, p.2.Holds M ↔ g.Holds M

theorem Processed.refl (hs : s.Inv K) (hg : g.Sorted) : Processed K s g (s, g) := ⟨hs, .refl _, hg, fun _ _ => Iff.rfl⟩

theorem Processed.trans {p q : imp × goal D} (h : Processed K s g p) (h' : Processed K p.1 p.2 q) : Processed K s g q :=
  ⟨h'.inv, h.extend.trans h'.extend, h'.sorted, fun M hK => (h'.holds M hK).trans (h.holds M hK)⟩

/-- One formula: it is simplified under facts that the others justify, and justifies new ones itself. -/
theorem process_form_spec (is_value : expr → Bool) (last : Bool) (hmk : Rewrites K mk_app) (hs : s.Inv K)
    (hg : g.Sorted)
    (hcons : g.m_inconsistent = false) {i : Nat} {rest : List Nat} (hi : i < g.m_forms.length) (hnot : i ∉ rest)
    (hrest : ∀ j ∈ rest, j < g.m_forms.length) (hjust : Justified K s g (i :: rest)) :
    Processed K s g (process_form is_value mk_app last s g i) ∧
      Justified K (process_form is_value mk_app last s g i).1 (process_form is_value mk_app last s g i).2 rest ∧
      ((process_form is_value mk_app last s g i).2.m_inconsistent = false →
        g.m_forms.length ≤ (process_form is_value mk_app last s g i).2.m_forms.length) := by
  have hform : Formula (g.form i) := by
    rw [goal.form_eq hcons hi]
    exact hg _ (getElem_mem hi)
  have hsimp := simplify_sound is_value hmk s.m_max_depth s (g.form i) hs hform.sorted
  unfold process_form
  dsimp only
  generalize simplify is_value mk_app s.m_max_depth s (g.form i) = p at hsimp
  have hnew : Formula p.2 := hform.of_equal hsimp.equal
  have hassert : Asserts K s (if !last && !is_true p.2 && !is_false p.2 && (g.dep i).isNone then
      p.1.assert_expr is_value p.2 false else p.1) p.2 false := by
    have hp : Asserts K p.1 (if !last && !is_true p.2 && !is_false p.2 && (g.dep i).isNone then
        p.1.assert_expr is_value p.2 false else p.1) p.2 false := by
      split
      · exact assert_expr_spec hsimp.inv hnew
      · exact .refl hsimp.inv
    exact ⟨hp.inv, hsimp.simp_eq ▸ hp.extend, hsimp.simp_eq ▸ hp.holds⟩
  have hupdate : goal.Updates g i p.2 (g.update i p.2 (g.dep i)) := goal.update_updates hcons hg hi hnew
  generalize g.update i p.2 (g.dep i) = g' at hupdate
  refine ⟨⟨hassert.inv, hassert.extend, hupdate.sorted hg, fun M hK => hupdate.holds hcons hi fun hothers => ?_⟩,
    ?_, ?_⟩
  · have hfacts : Models K M s.m_simp.m_assertions :=
      hjust hcons M hK fun j q hj hq => hothers j q (fun h => hj (h ▸ (.head _))) hq
    rw [Holds, Holds, hsimp.equal.eval_eq M hfacts]
  · intro hcons' M hK hall
    cases hupdate with
    | inconsistent d _ hinc _ => simp [hinc] at hcons'
    | split e ext hforms _ _ _ himp _ =>
      have hother j (hj : j < g.m_forms.length) (hne : j ≠ i) : g'.m_forms[j]? = g.m_forms[j]? := by
        rw [hforms, getElem?_append_left (by simpa using hj), getElem?_set_ne hne.symm]
      have hfacts : Models K M s.m_simp.m_assertions := by
        refine hjust hcons M hK fun j q hj hq => hall j q (fun h => hj (.tail _ h)) ?_
        obtain ⟨hlt, -⟩ := List.getElem?_eq_some_iff.mp hq
        rwa [hother j hlt fun h => hj (h ▸ (.head _))]
      have he : Holds M e.1 := by
        refine hall i e hnot ?_
        rw [hforms, getElem?_append_left (by simpa using hi), getElem?_set_self hi]
      refine hassert.holds M hfacts (himp M he fun q hq => ?_)
      obtain ⟨k, hk⟩ := mem_iff_getElem?.mp hq
      refine hall (g.m_forms.length + k) q (fun h => ?_) ?_
      · have hlt := hrest _ h
        omega
      · rw [hforms, getElem?_append_right (by simp)]
        simpa using hk
  · intro hcons'
    cases hupdate with
    | inconsistent d _ hinc _ => simp [hinc] at hcons'
    | split e ext hforms _ _ _ _ _ => simp [hforms]

/-- The loop over formulas, in any order of the indices. -/
theorem process_forms_spec (hmk : Rewrites K mk_app) (todo : List Nat) (hs : s.Inv K) (hg : g.Sorted)
    (hnodup : todo.Nodup)
    (htodo : g.m_inconsistent = false → ∀ i ∈ todo, i < g.m_forms.length) (hjust : Justified K s g todo) :
    Processed K s g (process_forms is_value mk_app s g todo) := by
  induction todo generalizing s g with
  | nil => exact .refl hs hg
  | cons i rest ih =>
    rw [process_forms]
    split
    next => exact .refl hs hg
    next hcons =>
      have hcons : g.m_inconsistent = false := by simpa using hcons
      obtain ⟨hnot, hnodup'⟩ := nodup_cons.mp hnodup
      obtain ⟨hi, hrest⟩ := forall_mem_cons.mp (htodo hcons)
      obtain ⟨hstep, hjust', hlen⟩ := process_form_spec is_value rest.isEmpty hmk hs hg hcons hi hnot hrest hjust
      exact hstep.trans (ih hstep.inv hstep.sorted hnodup'
        (fun hcons' j hj => Nat.lt_of_lt_of_le (hrest j hj) (hlen hcons')) hjust')

/-- A pass with its scopes closed. -/
theorem pass_spec (is_value : expr → Bool) (hmk : Rewrites K mk_app) (hs : s.Inv K) (hg : g.Sorted)
    (hempty : s.m_simp = {}) {todo : List Nat}
    (hnodup : todo.Nodup) (htodo : ∀ i ∈ todo, i < g.m_forms.length) :
    (process_forms is_value mk_app s g todo).2.Sorted ∧
      ((process_forms is_value mk_app s g todo).1.pop
        ((process_forms is_value mk_app s g todo).1.scope_level - s.scope_level)).Inv K ∧
      ((process_forms is_value mk_app s g todo).1.pop
        ((process_forms is_value mk_app s g todo).1.scope_level - s.scope_level)).m_simp = {} ∧
      ∀ M ∈ K, (process_forms is_value mk_app s g todo).2.Holds M ↔ g.Holds M := by
  have hjust : Justified K s g todo := by
    refine fun _ M hK _ => ⟨hK, fun t v htv => ?_⟩
    rw [hempty] at htv
    cases htv
  have hproc : Processed K s g (process_forms is_value mk_app s g todo) :=
    process_forms_spec hmk todo hs hg hnodup (fun _ => htodo) hjust
  have hpop := hproc.inv.pop hs.simp hproc.extend
  exact ⟨hproc.sorted, hpop.1, hpop.2.trans hempty, hproc.holds⟩

theorem process_goal_spec (hmk : Rewrites K mk_app) (hs : s.Inv K) (hg : g.Sorted) (hempty : s.m_simp = {}) :
    (process_goal is_value mk_app s g).1.Inv K ∧ (process_goal is_value mk_app s g).1.m_simp = {} ∧
      ∀ M ∈ K, (process_goal is_value mk_app s g).2.Holds M ↔ g.Holds M := by
  obtain ⟨hsorted, hinv, hempty', hholds⟩ := pass_spec is_value hmk hs hg hempty nodup_range fun i hi => mem_range.mp hi
  obtain ⟨-, hinv2, hempty2, hholds2⟩ := pass_spec is_value hmk hinv hsorted hempty'
    (nodup_reverse.mpr nodup_range)
    fun i hi => mem_range.mp (mem_reverse.mp hi)
  exact ⟨hinv2, hempty2, fun M hK => (hholds2 M hK).trans (hholds M hK)⟩

/-- With proofs each formula is simplified by itself, without facts. -/
theorem process_each_spec (hmk : Rewrites K mk_app) (todo : List Nat) (hs : s.Inv K) (hg : g.Sorted)
    (hempty : s.m_simp = {})
    (htodo : g.m_inconsistent = false → ∀ i ∈ todo, i < g.m_forms.length) :
    (process_each is_value mk_app s g todo).1.Inv K ∧ (process_each is_value mk_app s g todo).1.m_simp = {} ∧
      ∀ M ∈ K, (process_each is_value mk_app s g todo).2.Holds M ↔ g.Holds M := by
  induction todo generalizing s g with
  | nil => exact ⟨hs, hempty, fun _ _ => Iff.rfl⟩
  | cons i rest ih =>
    rw [process_each]
    split
    next => exact ⟨hs, hempty, fun _ _ => Iff.rfl⟩
    next hcons =>
      have hcons : g.m_inconsistent = false := by simpa using hcons
      obtain ⟨hi, hrest⟩ := forall_mem_cons.mp (htodo hcons)
      have hform : Formula (g.form i) := by
        rw [goal.form_eq hcons hi]
        exact hg _ (getElem_mem hi)
      have hproc : Simplifies K s (g.form i) (process is_value mk_app s (g.form i)) := by
        have hsimp := simplify_sound is_value hmk s.m_max_depth s (g.form i) hs hform.sorted
        refine ⟨hsimp.inv, hsimp.simp_eq, ?_⟩
        unfold process
        dsimp only
        split
        · exact .refl hform.sorted
        · exact hsimp.equal
      dsimp only
      generalize process is_value mk_app s (g.form i) = p at hproc
      have hnew : Formula p.2 := hform.of_equal hproc.equal
      have hupdate : goal.Updates g i p.2 (g.update i p.2 (g.dep i)) := goal.update_updates hcons hg hi hnew
      generalize g.update i p.2 (g.dep i) = g' at hupdate
      have hholds : ∀ M ∈ K, (g'.Holds M ↔ g.Holds M) := by
        intro M hK
        refine hupdate.holds hcons hi fun _ => ?_
        rw [Holds, Holds, hproc.equal.eval_eq M ⟨hK, by rw [hempty]; intro t v htv; cases htv⟩]
      have htodo' : g'.m_inconsistent = false → ∀ j ∈ rest, j < g'.m_forms.length := by
        intro hcons' j hj
        cases hupdate with
        | inconsistent d _ hinc _ => simp [hinc] at hcons'
        | split e ext hforms _ _ _ _ _ =>
          have hlt := hrest j hj
          simp only [hforms, length_append, length_set]
          omega
      obtain ⟨hinv, hempty', hholds'⟩ := ih hproc.inv (hupdate.sorted hg) (hproc.simp_eq.trans hempty) htodo'
      exact ⟨hinv, hempty', fun M hK => (hholds' M hK).trans (hholds M hK)⟩

/-- A simplifier as the tactic makes it. -/
def init (max_depth max_steps : Nat) (bail_on_blowup : Bool) (shared : Nat → expr → Bool) : imp where
  m_max_depth := max_depth
  m_max_steps := max_steps
  m_bail_on_blowup := bail_on_blowup
  m_shared := shared

theorem init_inv (max_depth max_steps : Nat) (bail_on_blowup : Bool) (shared : Nat → expr → Bool) :
    (init max_depth max_steps bail_on_blowup shared).Inv K where
  simp := ⟨fun _ _ h => (nomatch h), fun _ h => (nomatch h), by simp [init]⟩
  cache := ⟨by simp [init], by simp [init], by simp [init], by simp [init], by simp [init]⟩
  reuses := by simp [init]

theorem run_spec (is_value : expr → Bool) (hmk : Rewrites K mk_app) (hs : s.Inv K) (hg : g.Sorted)
    (hempty : s.m_simp = {}) :
    (run is_value mk_app s g).1.Inv K ∧ (run is_value mk_app s g).1.m_simp = {} ∧
      ∀ M ∈ K, (run is_value mk_app s g).2.Holds M ↔ g.Holds M := by
  have hs' : ({ s with m_num_steps := 0 }).Inv K := ⟨hs.simp, { hs.cache with }, hs.reuses⟩
  fun_cases run with
  | case1 => exact ⟨hs, hempty, fun _ _ => Iff.rfl⟩
  | case2 => exact process_each_spec hmk _ hs' hg hempty fun _ i hi => mem_range.mp hi
  | case3 => exact process_goal_spec hmk hs' hg hempty

/-- The destructor drops the results of the outermost level, the only ones that are left. -/
theorem destroy_spec (hs : s.Inv K) (hempty : s.m_simp = {}) :
    s.destroy.reuses = s.reuses ∧ s.destroy.m_simp = {} ∧ ∀ t, s.destroy.m_cache t = [] := by
  have hlevel : s.scope_level = 0 := by simp [imp.scope_level, hempty, ctx_propagate_assertions.scope_level]
  have hrestored : s.Restored 0 := ⟨hs.cache.descending, hlevel ▸ hs.cache.level_le, hs.cache.count⟩
  obtain ⟨hun, hlt, -, -⟩ := restore_cache_spec hrestored
  have hdestroy : s.destroy = s.restore_cache 0 := by rw [destroy, hlevel, pop, if_pos rfl]
  rw [hdestroy]
  refine ⟨rfl, hempty, fun t => eq_nil_iff_forall_not_mem.mpr fun e he => ?_⟩
  exact absurd (hlt t e he) (Nat.not_lt_zero _)

/-- The tactic returns an equivalent goal, uses a cached result only under the facts under which it was made, and leaves
no scope and no cached result. The goals are equivalent under every interpretation of a class under which
`mk_simplified_app` keeps the value of an application: the interpretations that its theories allow. -/
theorem tactic_preserves (K : Set (interp U)) (hmk : Rewrites K mk_app) (hg : g.Sorted) (max_depth max_steps : Nat)
    (bail_on_blowup : Bool) (shared : Nat → expr → Bool) :
    (∀ M ∈ K, (tactic is_value mk_app (init max_depth max_steps bail_on_blowup shared) g).2.Holds M ↔ g.Holds M) ∧
    (∀ p ∈ (tactic is_value mk_app (init max_depth max_steps bail_on_blowup shared) g).1.reuses, p.1.made_under = p.2) ∧
    (run is_value mk_app (init max_depth max_steps bail_on_blowup shared) g).1.m_simp.m_scopes = [] ∧
    (tactic is_value mk_app (init max_depth max_steps bail_on_blowup shared) g).1.m_simp.m_scopes = [] ∧
    ∀ t, (tactic is_value mk_app (init max_depth max_steps bail_on_blowup shared) g).1.m_cache t = [] := by
  obtain ⟨hinv, hempty, hholds⟩ :=
    run_spec is_value hmk (init_inv max_depth max_steps bail_on_blowup shared) hg rfl
  obtain ⟨hreuses, hsimp, hcache⟩ := destroy_spec hinv hempty
  refine ⟨hholds, fun p hp => hinv.reuses p ?_, by rw [hempty], ?_, hcache⟩
  · exact hreuses ▸ hp
  · exact congrArg ctx_propagate_assertions.m_scopes hsimp

/-- A numeral, or a constant of its sort. -/
def num (n : Nat) : expr := .app (.other n (.other 0)) []

/-- An `m_mk_app` that adds the numerals 1 and 2; the function 9 is addition. -/
def add_numerals (f : decl) (ts : List expr) : expr :=
  if f = .other 9 (.other 0) ∧ ts = [num 1, num 2] then num 3 else .app f ts

/-- The constant 5 equals 1, and the predicate 7 holds of its sum with 2: that sum becomes 3. -/
def sum_goal : goal Unit where
  m_forms := [(.app .OP_EQ [num 5, num 1], none),
    (.app (.other 7 .bool) [.app (.other 9 (.other 0)) [num 5, num 2]], none)]

/-- A goal with `1 + 2`, which the rewriter turns into 3. The theorem applies to every interpretation in which the sum
is 3. -/
theorem tactic_preserves_sum :
    (tactic (· == num 1) add_numerals (init 1024 4294967295 false fun _ _ => true) sum_goal).2.m_forms =
      [(.app .OP_EQ [num 5, num 1], none), (.app (.other 7 .bool) [num 3], none)] ∧
    ∀ M : interp Nat, eval M (.app (.other 9 (.other 0)) [num 1, num 2]) = eval M (num 3) →
      ((tactic (· == num 1) add_numerals (init 1024 4294967295 false fun _ _ => true) sum_goal).2.Holds M ↔
        sum_goal.Holds M) := by
  refine ⟨by decide, fun M hM => ?_⟩
  have hnum (n : Nat) : WellSorted (num n) := wellSorted_app.mpr ⟨trivial, by simp⟩
  have hmk : Rewrites {M : interp Nat | eval M (.app (.other 9 (.other 0)) [num 1, num 2]) = eval M (num 3)}
      add_numerals := by
    intro f ts h
    fun_cases add_numerals with
    | case1 hsum =>
      obtain ⟨rfl, rfl⟩ := hsum
      exact ⟨hnum 3, rfl, fun M hM => hM.mem.symm⟩
    | case2 => exact .refl h
  have hgoal : sum_goal.Sorted := by
    intro r hr
    simp only [sum_goal, mem_cons, not_mem_nil, or_false] at hr
    rcases hr with rfl | rfl
    · exact ⟨wellSorted_app.mpr ⟨rfl, by simp [hnum]⟩, rfl⟩
    · have hsum : WellSorted (.app (.other 9 (.other 0)) [num 5, num 2]) := wellSorted_app.mpr ⟨trivial, by simp [hnum]⟩
      exact ⟨wellSorted_app.mpr ⟨trivial, by simpa using hsum⟩, rfl⟩
  exact (tactic_preserves _ hmk hgoal 1024 4294967295 false fun _ _ => true).1 M hM

end imp

end ctx_simplify
