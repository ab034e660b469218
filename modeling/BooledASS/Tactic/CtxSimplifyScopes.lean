import BooledASS.Logic.Lists
import BooledASS.Tactic.CtxSimplify

open List Function

namespace ctx_simplify

/-! ### Meaning -/

/-- Values are Booleans or elements of `U`. -/
abbrev value (U : Type) := Bool ⊕ U

def srt.Value {U : Type} (range : srt) (v : value U) : Prop := range = .bool → ∃ b, v = .inl b

/-- An interpretation of the functions that are not interpreted here, and of variables and quantifiers. -/
structure interp (U : Type) where
  other : Nat → srt → List (value U) → value U
  non_app : Nat → srt → value U
  other_value : ∀ n (range : srt) vs, range.Value (other n range vs)
  non_app_value : ∀ n (range : srt), range.Value (non_app n range)

open Classical in
noncomputable def decl.apply {U : Type} (M : interp U) : decl → List (value U) → value U
  | .OP_TRUE, _ => .inl true
  | .OP_NOT, vs => .inl (decide (.inl true ∉ vs))
  | .OP_OR, vs => .inl (decide (.inl true ∈ vs))
  | .OP_AND, vs => .inl (decide (∀ v ∈ vs, v = .inl true))
  | .OP_ITE _, [c, t, e] => if c = .inl true then t else e
  | .OP_EQ, [v, w] => .inl (decide (v = w))
  | .other n range, vs => M.other n range vs
  | .non_app n range, _ => M.non_app n range
  | _, _ => .inl false

/-- The sorts of the arguments. -/
def decl.Accepts : decl → List srt → Prop
  | .OP_TRUE, [] | .OP_FALSE, [] | .other _ _, _ | .non_app _ _, [] => True
  | .OP_NOT, [a] => a = .bool
  | .OP_OR, as | .OP_AND, as => ∀ a ∈ as, a = .bool
  | .OP_ITE range, [a, b, c] => a = .bool ∧ b = range ∧ c = range
  | .OP_EQ, [a, b] => a = b
  | _, _ => False

def WellSorted (e : expr) : Prop := e.All fun f ts => f.Accepts (ts.map get_sort)

noncomputable def eval {U : Type} (M : interp U) (e : expr) : value U := Term.eval (decl.apply M) e

def Holds {U : Type} (M : interp U) (e : expr) : Prop := eval M e = .inl true

/-- An interpretation of the class `K` under which every fact of the table holds. The class is what the theories of
the other functions allow. -/
structure Models {U : Type} (K : Set (interp U)) (M : interp U) (F : facts) : Prop where
  mem : M ∈ K
  holds : ∀ t v, F t = some v → eval M t = eval M v

/-- The second term has the sort of the first one, and its value under the facts. -/
structure Equal {U : Type} (K : Set (interp U)) (F : facts) (t r : expr) : Prop where
  sorted : WellSorted r
  sort_eq : get_sort r = get_sort t
  eval_eq : ∀ M, Models K M F → eval M r = eval M t

theorem Equal.refl {U : Type} {K : Set (interp U)} {F : facts} {t : expr} (h : WellSorted t) : Equal K F t t :=
  ⟨h, rfl, fun _ _ => rfl⟩

/-! ### Scopes of facts -/

namespace ctx_propagate_assertions

variable {c c' c'' : ctx_propagate_assertions} {t val : expr}

/-- The facts of the scopes up to a level. -/
def up_to (c : ctx_propagate_assertions) (lvl : Nat) : facts :=
  match c.m_scopes[lvl]? with
  | none => c.m_assertions
  | some n => fun key => if key ∈ c.m_trail.drop n then none else c.m_assertions key

/-- Facts are between terms of one sort; only terms on the trail have one. -/
structure Inv (c : ctx_propagate_assertions) : Prop where
  sorted : ∀ t v, c.m_assertions t = some v → WellSorted v ∧ get_sort v = get_sort t
  trail : ∀ t, (c.m_assertions t).isSome → t ∈ c.m_trail
  scopes : ∀ n ∈ c.m_scopes, n ≤ c.m_trail.length

/-- What assertions do: facts are added in new scopes. -/
structure Extends (c c' : ctx_propagate_assertions) : Prop where
  scopes : ∃ new, c'.m_scopes = c.m_scopes ++ new ∧ (new = [] → c' = c) ∧ ∀ n ∈ new.head?, n = c.m_trail.length
  trail : ∃ new, c'.m_trail = c.m_trail ++ new ∧
    ∀ key, c.m_assertions key = if key ∈ new then none else c'.m_assertions key

theorem Extends.refl (c : ctx_propagate_assertions) : Extends c c :=
  ⟨⟨[], by simp, fun _ => rfl, by simp⟩, ⟨[], by simp, by simp⟩⟩

/-- Assertions after assertions: the new scopes and the new part of the trail are appended to each other. -/
theorem Extends.trans (h : Extends c c') (h' : Extends c' c'') : Extends c c'' := by
  obtain ⟨new1, hs1, he1, hh1⟩ := h.scopes
  obtain ⟨new2, hs2, he2, hh2⟩ := h'.scopes
  obtain ⟨ext1, ht1, ha1⟩ := h.trail
  obtain ⟨ext2, ht2, ha2⟩ := h'.trail
  refine ⟨⟨new1 ++ new2, by rw [hs2, hs1, append_assoc], fun hnil => ?_, fun n hn => ?_⟩,
    ⟨ext1 ++ ext2, by rw [ht2, ht1, append_assoc], fun key => ?_⟩⟩
  · obtain ⟨rfl, rfl⟩ := append_eq_nil_iff.mp hnil
    rw [he2 rfl, he1 rfl]
  · cases new1 with
    | nil =>
      rw [he1 rfl] at hh2
      exact hh2 n hn
    | cons n1 new1 => exact hh1 n hn
  · rw [ha1, ha2]
    simp only [mem_append]
    split
    · rw [if_pos (.inl ‹_›)]
    · split
      · rw [if_pos (.inr ‹_›)]
      · rw [if_neg (by tauto)]

theorem Extends.level_le (h : Extends c c') : c.scope_level ≤ c'.scope_level := by
  obtain ⟨new, hs, -⟩ := h.scopes
  simp [scope_level, hs]

/-- The facts up to an old level are the same. -/
theorem Extends.up_to_eq (h : Extends c c') (hc : c.Inv) {lvl : Nat} (hlvl : lvl ≤ c.scope_level) :
    c'.up_to lvl = c.up_to lvl := by
  obtain ⟨new, hs, he, hh⟩ := h.scopes
  obtain ⟨ext, ht, ha⟩ := h.trail
  rcases Nat.lt_or_eq_of_le hlvl with hlt | rfl
  · have hlt' : lvl < c.m_scopes.length := hlt
    have hle : c.m_scopes[lvl] ≤ c.m_trail.length := hc.scopes _ (getElem_mem hlt')
    unfold up_to
    rw [hs, getElem?_append_left hlt', getElem?_eq_getElem hlt']
    funext key
    dsimp only
    rw [ht, drop_append_of_le_length hle, ha key]
    simp only [mem_append]
    split
    · rename_i hmem
      rcases hmem with hmem | hmem
      · rw [if_pos hmem]
      · rw [if_pos hmem, ite_self]
    · rw [if_neg (by tauto), if_neg (by tauto)]
  · cases new with
    | nil => rw [he rfl]
    | cons n new =>
      have hn : n = c.m_trail.length := hh n rfl
      have hold : c.m_scopes[c.scope_level]? = none := getElem?_eq_none le_rfl
      have hnew : c'.m_scopes[c.scope_level]? = some n := by
        rw [hs, scope_level]
        simp
      unfold up_to
      rw [hold, hnew]
      funext key
      dsimp only
      rw [ht, hn, drop_left, ha key]

/-- To pop as many scopes as have been opened undoes the assertions. Nothing has been asserted if there is no new
scope. -/
theorem Extends.pop_eq (h : Extends c c') : c'.pop (c'.scope_level - c.scope_level) = c ∨
    c'.scope_level - c.scope_level = 0 ∧ c' = c := by
  obtain ⟨new, hs, he, hh⟩ := h.scopes
  obtain ⟨ext, ht, ha⟩ := h.trail
  cases new with
  | nil =>
    obtain rfl := he rfl
    exact .inr ⟨Nat.sub_self _, rfl⟩
  | cons n new =>
    have hn : n = c.m_trail.length := hh n rfl
    have hlevel : c'.scope_level - (c'.scope_level - c.scope_level) = c.m_scopes.length := by
      have hle := h.level_le
      unfold scope_level at hle ⊢
      omega
    have hget : c'.m_scopes[c.m_scopes.length]? = some n := by
      rw [hs]
      simp
    left
    unfold pop
    rw [hlevel, hget]
    dsimp only
    rw [hs, ht, hn, take_left, take_left, drop_left]
    have hfacts : (fun key => if key ∈ ext then none else c'.m_assertions key) = c.m_assertions := by
      funext key
      exact (ha key).symm
    rw [hfacts]

theorem Extends.push (h : c.Inv) : c.push.Inv ∧ Extends c c.push := by
  exact ⟨⟨h.sorted, h.trail, Lists.forall_mem_concat h.scopes le_rfl⟩, ⟨⟨[_], rfl, by simp, by simp⟩,
    ⟨[], by simp [ctx_propagate_assertions.push], fun _ => rfl⟩⟩⟩

/-- A fact is added to a scope that was just opened. -/
theorem Extends.assert_eq_core (h : Extends c c') (hc' : c'.Inv) (hnew : c'.m_scopes ≠ c.m_scopes)
    (hval : WellSorted val)
    (hsort : get_sort val = get_sort t) : (c'.assert_eq_core t val).Inv ∧ Extends c (c'.assert_eq_core t val) ∧
      (c'.assert_eq_core t val).m_scopes = c'.m_scopes := by
  unfold ctx_propagate_assertions.assert_eq_core
  split
  next => exact ⟨hc', h, rfl⟩
  next hnone =>
    have hnone : c'.m_assertions t = none := by simpa using hnone
    refine ⟨⟨fun u v hv => ?_, fun u hu => ?_, fun n hn => ?_⟩, ⟨?_, ?_⟩, rfl⟩
    · dsimp only at hv
      by_cases hu : u = t
      · subst hu
        rw [update_self] at hv
        cases hv
        exact ⟨hval, hsort⟩
      · rw [update_of_ne hu] at hv
        exact hc'.sorted u v hv
    · dsimp only at hu ⊢
      by_cases hut : u = t
      · simp [hut]
      · rw [update_of_ne hut] at hu
        exact mem_append_left _ (hc'.trail u hu)
    · simpa using Nat.le_succ_of_le (hc'.scopes n hn)
    · obtain ⟨new, hs, he, hh⟩ := h.scopes
      refine ⟨new, hs, fun hnil => ?_, hh⟩
      subst hnil
      exact absurd (by simpa using hs) hnew
    · obtain ⟨ext, ht, ha⟩ := h.trail
      refine ⟨ext ++ [t], by simp [ht], fun key => ?_⟩
      rw [ha key]
      by_cases hkey : key = t
      · subst hkey
        simp [hnone]
      · simp [hkey]

theorem models_assert_eq_core {U : Type} {K : Set (interp U)} {M : interp U} (h : Models K M c.m_assertions)
    (heq : eval M t = eval M val) : Models K M (c.assert_eq_core t val).m_assertions := by
  unfold ctx_propagate_assertions.assert_eq_core
  split
  next => exact h
  next =>
    refine ⟨h.mem, fun u v hv => ?_⟩
    by_cases hu : u = t
    · subst hu
      have hval : some val = some v := by simpa using hv
      rwa [← Option.some.inj hval]
    · exact h.holds u v (by simpa [update_of_ne hu] using hv)

end ctx_propagate_assertions

/-! ### The cache -/

namespace imp

variable {U : Type} {K : Set (interp U)} {s : imp} {t : expr}

/-- Results are cached at levels that are open, newest first, each with an undo entry and valid under the facts of its
level. -/
structure CacheInv (K : Set (interp U)) (s : imp) : Prop where
  descending : ∀ t, (s.m_cache t).Pairwise fun e e' => e'.m_lvl ≤ e.m_lvl
  level_le : ∀ t, ∀ e ∈ s.m_cache t, e.m_lvl ≤ s.scope_level
  count : ∀ t lvl, (s.m_cache_undo lvl).count t = (s.m_cache t).countP fun e => e.m_lvl = lvl
  made_under : ∀ t, ∀ e ∈ s.m_cache t, e.made_under = s.m_simp.up_to e.m_lvl
  valid : ∀ t, ∀ e ∈ s.m_cache t, WellSorted t → Equal K e.made_under t e.m_to

structure Inv (K : Set (interp U)) (s : imp) : Prop where
  simp : s.m_simp.Inv
  cache : s.CacheInv K
  reuses : ∀ p ∈ s.reuses, p.1.made_under = p.2

theorem foldl_tail (keys : List expr) (cache : expr → List cached_result) (t : expr) :
    keys.foldl (fun cache key => Function.update cache key (cache key).tail) cache t =
      (cache t).drop (keys.count t) := by
  induction keys generalizing cache with
  | nil => simp
  | cons key keys ih =>
    rw [foldl_cons, ih]
    by_cases hkey : key = t
    · subst hkey
      rw [update_self, count_cons_self, drop_tail]
    · rw [update_of_ne (Ne.symm hkey), count_cons_of_ne hkey]

/-- In a descending list the entries of the top level are in front. -/
theorem mem_drop_count {es : List cached_result} {lvl : Nat} (h : es.Pairwise fun e e' => e'.m_lvl ≤ e.m_lvl)
    (hle : ∀ e ∈ es, e.m_lvl ≤ lvl) (e : cached_result) (he : e ∈ es.drop (es.countP fun e => e.m_lvl = lvl)) :
    e.m_lvl < lvl := by
  induction es with
  | nil => simp at he
  | cons e' es ih =>
    obtain ⟨hhead, htail⟩ := pairwise_cons.mp h
    have hle' : ∀ e ∈ es, e.m_lvl ≤ lvl := fun e he => hle e (.tail _ he)
    by_cases he' : e'.m_lvl = lvl
    · rw [countP_cons_of_pos (by simpa using he')] at he
      exact ih htail hle' he
    · have hlt : e'.m_lvl < lvl := Nat.lt_of_le_of_ne (hle e' (by simp)) he'
      have hmem : e ∈ e' :: es := mem_of_mem_drop he
      rcases mem_cons.mp hmem with rfl | hmem
      · exact hlt
      · exact Nat.lt_of_le_of_lt (hhead e hmem) hlt

/-- The results of a term are ordered by level, so that dropping as many as the last level has leaves those of the
other levels. -/
theorem countP_drop_count {es : List cached_result} {lvl k : Nat} (h : es.Pairwise fun e e' => e'.m_lvl ≤ e.m_lvl)
    (hle : ∀ e ∈ es, e.m_lvl ≤ lvl) (hk : k ≠ lvl) :
    (es.drop (es.countP fun e => e.m_lvl = lvl)).countP (fun e => e.m_lvl = k) = es.countP fun e => e.m_lvl = k := by
  induction es with
  | nil => simp
  | cons e es ih =>
    obtain ⟨hhead, htail⟩ := pairwise_cons.mp h
    have hle' : ∀ e ∈ es, e.m_lvl ≤ lvl := fun e he => hle e (.tail _ he)
    by_cases he : e.m_lvl = lvl
    · have hek : e.m_lvl ≠ k := fun heq => hk (heq.symm.trans he)
      rw [countP_cons_of_pos (by simpa using he), drop_succ_cons, ih htail hle',
        countP_cons_of_neg (by simpa using hek)]
    · have hzero : es.countP (fun e => e.m_lvl = lvl) = 0 := by
        refine countP_eq_zero.mpr fun e' he' => ?_
        have hlt := hhead e' he'
        have hle := hle e (by simp)
        simp only [decide_eq_true_eq]
        omega
      rw [countP_cons_of_neg (by simpa using he), hzero, drop_zero]

/-- The results of all levels up to `lvl` are there, those above it are not. -/
structure Restored (s : imp) (lvl : Nat) : Prop where
  descending : ∀ t, (s.m_cache t).Pairwise fun e e' => e'.m_lvl ≤ e.m_lvl
  level_le : ∀ t, ∀ e ∈ s.m_cache t, e.m_lvl ≤ lvl
  count : ∀ t k, (s.m_cache_undo k).count t = (s.m_cache t).countP fun e => e.m_lvl = k

/-- Restoring leaves everything but the cache alone. -/
structure Uncached (s s' : imp) : Prop where
  frame : s' = { s with m_cache := s'.m_cache, m_cache_undo := s'.m_cache_undo }
  subset : ∀ t, ∀ e ∈ s'.m_cache t, e ∈ s.m_cache t

/-- The undo list of a level has each term as often as the term has results of that level. Going through it drops
these results, and no others. -/
theorem restore_cache_spec {lvl : Nat} (h : s.Restored lvl) : Uncached s (s.restore_cache lvl) ∧
    (∀ t, ∀ e ∈ (s.restore_cache lvl).m_cache t, e.m_lvl < lvl) ∧
    (∀ t, ((s.restore_cache lvl).m_cache t).Pairwise fun e e' => e'.m_lvl ≤ e.m_lvl) ∧
    ∀ t k, ((s.restore_cache lvl).m_cache_undo k).count t =
      ((s.restore_cache lvl).m_cache t).countP fun e => e.m_lvl = k := by
  have hcache t : (s.restore_cache lvl).m_cache t =
      (s.m_cache t).drop ((s.m_cache t).countP fun e => e.m_lvl = lvl) := by
    rw [restore_cache]
    dsimp only
    rw [foldl_tail, count_reverse, h.count t lvl]
  refine ⟨⟨rfl, fun t e he => ?_⟩, fun t e he => ?_, fun t => ?_, fun t k => ?_⟩
  · rw [hcache] at he
    exact mem_of_mem_drop he
  · rw [hcache] at he
    exact mem_drop_count (h.descending t) (h.level_le t) e he
  · rw [hcache]
    exact (h.descending t).drop
  · by_cases hk : k = lvl
    · subst hk
      have hundo : (s.restore_cache k).m_cache_undo k = [] := update_self _ _ _
      rw [hundo, count_nil, eq_comm, countP_eq_zero]
      intro e he
      rw [hcache] at he
      have hlt := mem_drop_count (h.descending t) (h.level_le t) e he
      simp only [decide_eq_true_eq]
      omega
    · have hundo : (s.restore_cache lvl).m_cache_undo k = s.m_cache_undo k := update_of_ne hk _ _
      rw [hundo, hcache, countP_drop_count (h.descending t) (h.level_le t) hk, h.count t k]

theorem Uncached.refl (s : imp) : Uncached s s := ⟨rfl, fun _ _ => id⟩

theorem Uncached.trans {s1 s2 : imp} (h : Uncached s s1) (h' : Uncached s1 s2) : Uncached s s2 := by
  refine ⟨?_, fun t e he => h.subset t e (h'.subset t e he)⟩
  rw [h'.frame, h.frame]

/-- The levels are restored from the last one on. -/
theorem restore_levels_spec {lvl n : Nat} (h : s.Restored lvl) (hn : n ≤ lvl) :
    Uncached s (restore_levels s lvl n) ∧ (restore_levels s lvl n).Restored (lvl - n) := by
  induction n generalizing s lvl with
  | zero => exact ⟨.refl s, h⟩
  | succ n ih =>
    obtain ⟨hun, hlt, hdesc, hcount⟩ := restore_cache_spec h
    have hnext : (s.restore_cache lvl).Restored (lvl - 1) :=
      ⟨hdesc, fun t e he => Nat.le_sub_one_of_lt (hlt t e he), hcount⟩
    obtain ⟨hun', hrest⟩ := ih hnext (by omega)
    refine ⟨hun.trans hun', ?_⟩
    have heq : lvl - (n + 1) = lvl - 1 - n := by omega
    rwa [heq]

/-- Back to an old level: its facts and results are those of before. -/
theorem Inv.pop {c : ctx_propagate_assertions} (h : s.Inv K) (hc : c.Inv) (hext : c.Extends s.m_simp) :
    (s.pop (s.scope_level - c.scope_level)).Inv K ∧ (s.pop (s.scope_level - c.scope_level)).m_simp = c := by
  unfold imp.pop
  split
  next hzero =>
    have heq : s.m_simp = c := by
      obtain ⟨new, hs, he, -⟩ := hext.scopes
      refine he (eq_nil_of_length_eq_zero ?_)
      have hlen : s.scope_level = c.scope_level + new.length := by
        simp [scope_level, ctx_propagate_assertions.scope_level, hs]
      omega
    exact ⟨h, heq⟩
  next hpos =>
    have hsimp : s.m_simp.pop (s.scope_level - c.scope_level) = c := hext.pop_eq.resolve_right fun h0 => hpos h0.1
    rw [hsimp]
    have hrestored : ({ s with m_simp := c }).Restored s.scope_level :=
      ⟨h.cache.descending, h.cache.level_le, h.cache.count⟩
    obtain ⟨hun, hrest⟩ := restore_levels_spec hrestored (Nat.sub_le s.scope_level c.scope_level)
    have hlevel : s.scope_level - (s.scope_level - c.scope_level) = c.scope_level := by omega
    rw [hlevel] at hrest
    generalize restore_levels { s with m_simp := c } s.scope_level (s.scope_level - c.scope_level) = s' at hun hrest ⊢
    have hsimp' : s'.m_simp = c := by rw [hun.frame]
    refine ⟨⟨by rw [hsimp']; exact hc, ⟨hrest.descending, fun t e he => ?_, hrest.count, fun t e he => ?_,
      fun t e he => h.cache.valid t e (hun.subset t e he)⟩, fun p hp => h.reuses p ?_⟩, hsimp'⟩
    · rw [scope_level, hsimp']
      exact hrest.level_le t e he
    · rw [h.cache.made_under t e (hun.subset t e he), hsimp']
      exact hext.up_to_eq hc (hrest.level_le t e he)
    · rw [hun.frame] at hp
      exact hp

theorem up_to_scope_level (c : ctx_propagate_assertions) : c.up_to c.scope_level = c.m_assertions := by
  have hnone : c.m_scopes[c.scope_level]? = none := getElem?_eq_none le_rfl
  rw [ctx_propagate_assertions.up_to, hnone]

/-- A result that holds under the current facts is cached. -/
theorem Inv.cache_result (h : s.Inv K) {r : expr} (hr : WellSorted t → Equal K s.m_simp.m_assertions t r) :
    (s.cache t r).Inv K ∧ (s.cache t r).m_simp = s.m_simp := by
  unfold imp.cache
  split
  next =>
    let entry : cached_result := ⟨r, s.scope_level, s.m_simp.m_assertions⟩
    have hcache : (s.tick.cache_core t r).m_cache = update s.m_cache t (entry :: s.m_cache t) := rfl
    have hundo : (s.tick.cache_core t r).m_cache_undo =
        update s.m_cache_undo s.scope_level (s.m_cache_undo s.scope_level ++ [t]) := rfl
    have hmem u : ∀ e ∈ (s.tick.cache_core t r).m_cache u, u = t ∧ e = entry ∨ e ∈ s.m_cache u := by
      intro e he
      by_cases hu : u = t
      · subst hu
        rw [hcache, update_self] at he
        exact (mem_cons.mp he).imp_left fun h => ⟨rfl, h⟩
      · rw [hcache, update_of_ne hu] at he
        exact .inr he
    refine ⟨⟨h.simp, ⟨fun u => ?_, fun u e he => ?_, fun u lvl => ?_, fun u e he => ?_, fun u e he => ?_⟩, h.reuses⟩,
      rfl⟩
    · by_cases hu : u = t
      · subst hu
        rw [hcache, update_self]
        exact .cons (h.cache.level_le u) (h.cache.descending u)
      · rw [hcache, update_of_ne hu]
        exact h.cache.descending u
    · obtain ⟨rfl, rfl⟩ | he := hmem u e he
      · exact le_rfl
      · exact h.cache.level_le u e he
    · have hold := h.cache.count u lvl
      rw [hcache, hundo]
      by_cases hu : u = t <;> by_cases hl : lvl = s.scope_level
      · subst hu hl
        simp [hold, entry]
      · subst hu
        simp [hold, hl, entry, Ne.symm hl]
      · subst hl
        simp [hold, hu, Ne.symm hu]
      · simp [hold, hl, hu]
    · obtain ⟨rfl, rfl⟩ | he := hmem u e he
      · exact (up_to_scope_level s.m_simp).symm
      · exact h.cache.made_under u e he
    · obtain ⟨rfl, rfl⟩ | he := hmem u e he
      · exact hr
      · exact h.cache.valid u e he
  next => exact ⟨⟨h.simp, { h.cache with }, h.reuses⟩, rfl⟩

/-- A cached result is found at the level of the facts it was made under. -/
theorem Inv.is_cached_spec (h : s.Inv K) {e : cached_result} (he : s.is_cached t = some e) :
    e ∈ s.m_cache t ∧ e.made_under = s.m_simp.m_assertions := by
  revert he
  fun_cases is_cached with
  | case1 | case3 => exact nofun
  | case2 e' es hcache hlvl =>
    rintro ⟨⟩
    have hmem : e ∈ s.m_cache t := by simp [hcache]
    refine ⟨hmem, ?_⟩
    rw [h.cache.made_under t e hmem, hlvl]
    exact up_to_scope_level s.m_simp

/-- New facts leave the cache as it is. -/
theorem Inv.extend (h : s.Inv K) {c : ctx_propagate_assertions} (hc : c.Inv) (hext : s.m_simp.Extends c) (n : Nat) :
    ({ s with m_simp := c, m_clock := n } : imp).Inv K where
  simp := hc
  cache :=
    { descending := h.cache.descending
      level_le := fun t e he => Nat.le_trans (h.cache.level_le t e he) hext.level_le
      count := h.cache.count
      made_under := fun t e he => by
        rw [h.cache.made_under t e he]
        exact (hext.up_to_eq h.simp (h.cache.level_le t e he)).symm
      valid := h.cache.valid }
  reuses := h.reuses

end imp

end ctx_simplify
