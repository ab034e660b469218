import Mathlib.Algebra.Group.Nat.Defs
import Mathlib.Data.List.GetD
import Mathlib.Data.Nat.Log
import BooledASS.Util.SortingNetwork.Network

open List

namespace psort_nw

variable {L V : Type}

/-- The groups of `m + 1` literals, the last of which may be smaller. -/
def groups (m : Nat) : List L → List (List L)
  | [] => []
  | x :: xs => (x :: xs.take m) :: groups m (xs.drop m)
termination_by xs => xs.length
decreasing_by rw [length_drop, length_cons]; omega

theorem length_groups_le (m : Nat) (xs : List L) : (groups m xs).length ≤ xs.length := by
  fun_induction groups m xs with
  | case1 => simp
  | case2 x xs ih =>
    simp only [length_cons, length_drop] at ih ⊢
    omega

theorem length_groups_lt {m : Nat} {xs : List L} (h : m + 2 < xs.length) : (groups (m + 1) xs).length < xs.length := by
  match xs, h with
  | x :: xs, h =>
    have := length_groups_le (m + 1) (xs.drop (m + 1))
    simp only [groups, length_cons, length_drop] at h this ⊢
    omega

def pairs : List L → List (L × L)
  | [] => []
  | x :: xs => xs.map (x, ·) ++ pairs xs

section Model

variable [DecidableEq L] (ctx : psort_expr L V) (full : Bool)

/-- The clauses for a group, and the literals of `ands`. -/
def mk_at_most_1_small (result : L) (p : state L × List L) (xs : List L) : state L × List L :=
  if xs.length = 1 then p
  else
    let s := add_clauses ctx p.1 ((pairs xs).map fun (x, y) => [mk_not ctx result, mk_not ctx x, mk_not ctx y])
    if full then
      let (and_i, s) := fresh ctx s
      (add_clauses ctx s ((range xs.length).map fun i => and_i :: xs.eraseIdx i), p.2 ++ [mk_not ctx and_i])
    else (s, p.2)

/-- The loop over the levels of groups, with `inc_size = m + 2`. -/
def mk_at_most_1_loop (use_ors : Bool) (result : L) (m : Nat) (ins ors : List L) (p : state L × List L) :
    List L × state L × List L :=
  if ins = [] then (ors, p)
  else
    let m := if ins.length + 1 = m + 2 then m + 1 else m
    let p := (groups (m + 1) ins).foldl (mk_at_most_1_small ctx full result) p
    if _h : ins.length ≤ m + 2 then (if use_ors then (groups (m + 1) ins).map (mk_or ctx) else [], p)
    else
      let ors := (groups (m + 1) ins).map (mk_or ctx)
      mk_at_most_1_loop use_ors result m ors ors p
termination_by ins.length
decreasing_by
  rw [length_map]
  exact length_groups_lt (by omega)

/-- The literal, `ors` and the new state. -/
def mk_at_most_1 (xs : List L) (use_ors : Bool) (s : state L) : L × List L × state L :=
  let (result, s) := fresh ctx s
  let (ors, s, ands) := mk_at_most_1_loop ctx full use_ors result 2 xs [] (s, [result])
  (result, ors, if full then add_clause ctx s ands else s)

/-- The clauses that make `bit` the index of a true literal of `ors`. -/
def code_clauses (result : L) (ors : List L) (nbits : Nat) (bit : Nat → L) : List (List L) :=
  ors.zipIdx.flatMap fun (o, i) => (range nbits).map fun k =>
    [mk_not ctx result, mk_not ctx o, if i.testBit k then bit k else mk_not ctx (bit k)]

def mk_at_most_1_bimander (xs : List L) (s : state L) : L × List L × state L :=
  if full then mk_at_most_1 ctx full xs true s
  else
    let (result, s) := fresh ctx s
    let (s, _) := (groups 1 xs).foldl (mk_at_most_1_small ctx full result) (s, [])
    let ors := (groups 1 xs).map (mk_or ctx)
    let nbits := Nat.clog 2 ors.length
    let bit k := ctx.fresh (s.next + k)
    let (_, s) := freshes ctx nbits s
    (result, ors, add_clauses ctx s (code_clauses ctx result ors nbits bit))

/-- The clauses of `mk_ordered_1` that make `y i` the disjunction of `x 0` to `x i` and bound the result from above. -/
def ordered_clauses (is_eq : Bool) (n : Nat) (r : L) (x y : Nat → L) : List (List L) :=
  ((range (n - 2)).map fun i => [mk_not ctx (y i), y (i + 1)]) ++
  ((range (n - 1)).flatMap fun i =>
    [[mk_not ctx (x i), y i], [mk_not ctx r, mk_not ctx (y i), mk_not ctx (x (i + 1))]]) ++
  (if is_eq then [[mk_not ctx r, y (n - 2), x (n - 1)]] else []) ++
  ((range (n - 2)).map fun i => [mk_not ctx (y (i + 1)), x (i + 1), y i]) ++ [[mk_not ctx (y 0), x 0]]

/-- The clauses for two true literals among the first `i + 2`. -/
def two_clauses (n : Nat) (x y two : Nat → L) : List (List L) :=
  [[mk_not ctx (two 0), y 0], [mk_not ctx (two 0), x 1]] ++ (range (n - 2)).flatMap fun i =>
    [[mk_not ctx (two (i + 1)), y (i + 1), two i], [mk_not ctx (two (i + 1)), x (i + 2), two i]]

def mk_ordered_1 (is_eq : Bool) (xs : List L) (s : state L) : L × state L :=
  let n := xs.length
  let x i := xs.getD i ctx.mk_false
  if n ≤ 1 ∧ !is_eq then (ctx.mk_true, s)
  else if n = 0 then (ctx.mk_false, s)
  else if n = 1 then (x 0, s)
  else
    let (r, s) := fresh ctx s
    let y i := ctx.fresh (s.next + i)
    let (_, s) := freshes ctx (n - 1) s
    let s := add_clauses ctx s (ordered_clauses ctx is_eq n r x y)
    if full then
      let two i := ctx.fresh (s.next + i)
      let (_, s) := freshes ctx (n - 1) s
      let s := add_clauses ctx s (two_clauses ctx n x y two)
      if is_eq then
        let (zero, s) := fresh ctx s
        (r, add_clauses ctx s [[mk_not ctx zero, mk_not ctx (x (n - 1))], [mk_not ctx zero, mk_not ctx (y (n - 2))],
          [r, zero, two (n - 2)]])
      else (r, add_clauses ctx s [[r, two (n - 2)]])
    else (r, s)

end Model

variable {ctx : psort_expr L V} {full : Bool} {v : V}

/-- No two of the literals are true. -/
def One (ctx : psort_expr L V) (v : V) (xs : List L) : Prop := xs.Pairwise fun x y => ctx.val v x → ctx.val v y = false

theorem one_iff_countP (xs : List L) : One ctx v xs ↔ xs.countP (ctx.val v) ≤ 1 := by
  induction xs with
  | nil => simp [One]
  | cons x xs ih =>
    rw [One, pairwise_cons, ← One, ih, countP_cons]
    by_cases hx : ctx.val v x
    · have : xs.countP (ctx.val v) = 0 ↔ ∀ y ∈ xs, ctx.val v y = false := by simp
      simp only [hx, forall_const, if_true, ← this]
      omega
    · simp [hx]

theorem one_of_mem_pairs (xs : List L) : One ctx v xs ↔ ∀ p ∈ pairs xs, ctx.val v p.1 → ctx.val v p.2 = false := by
  induction xs with
  | nil => simp [One, pairs]
  | cons x xs ih =>
    rw [One, pairwise_cons, ← One, ih]
    simp [pairs, or_imp, forall_and]

/-- With two true literals, one is left when any literal is taken out. -/
theorem not_one_iff {xs : List L} (hne : xs ≠ []) :
    ¬ One ctx v xs ↔ ∀ i < xs.length, ∃ l ∈ xs.eraseIdx i, ctx.val v l := by
  simp only [One, pairwise_iff_getElem, mem_eraseIdx_iff_getElem?, not_forall, Bool.not_eq_false]
  constructor
  · rintro ⟨i, j, hi, hj, hij, hvi, hvj⟩ k -
    by_cases hk : i = k
    · exact ⟨xs[j], ⟨j, by omega, getElem?_eq_getElem hj⟩, hvj⟩
    · exact ⟨xs[i], ⟨i, hk, getElem?_eq_getElem hi⟩, hvi⟩
  · intro h
    obtain ⟨l, ⟨i, -, hi⟩, hvi⟩ := h 0 (length_pos_iff.mpr hne)
    obtain ⟨hlt, rfl⟩ := List.getElem?_eq_some_iff.mp hi
    obtain ⟨l, ⟨j, hij, hj⟩, hvj⟩ := h i hlt
    obtain ⟨hlt', rfl⟩ := List.getElem?_eq_some_iff.mp hj
    rcases Nat.lt_or_gt_of_ne hij with hji | hij
    · exact ⟨j, i, hlt', hlt, hji, hvj, hvi⟩
    · exact ⟨i, j, hlt, hlt', hij, hvi, hvj⟩

theorem One.index_eq {xs : List L} (h : One ctx v xs) {i j : Nat}
    {x y : L} (hx : xs[i]? = some x) (hy : xs[j]? = some y) (hvx : ctx.val v x) (hvy : ctx.val v y) : i = j := by
  obtain ⟨hi, rfl⟩ := List.getElem?_eq_some_iff.mp hx
  obtain ⟨hj, rfl⟩ := List.getElem?_eq_some_iff.mp hy
  have := pairwise_iff_getElem.mp h i j hi hj
  have := pairwise_iff_getElem.mp h j i hj hi
  grind

section Groups

variable {m : Nat} {xs : List L}

theorem flatten_groups (m : Nat) (xs : List L) : (groups m xs).flatten = xs := by
  fun_induction groups m xs with
  | case1 => rfl
  | case2 x xs ih => rw [flatten_cons, ih, cons_append, take_append_drop]

theorem groups_ne_nil (m : Nat) (xs : List L) : ∀ g ∈ groups m xs, g ≠ [] := by fun_induction groups m xs <;> simp_all

theorem groups_of_le (hne : xs ≠ []) (h : xs.length ≤ m + 1) : groups m xs = [xs] := by
  match xs, hne, h with
  | x :: xs, _, h =>
    have h : xs.length ≤ m := Nat.le_of_succ_le_succ h
    rw [groups, take_of_length_le h, drop_of_length_le h, groups]

theorem groups_subset (m : Nat) (xs : List L) (g : List L) (hg : g ∈ groups m xs) : g ⊆ xs := by
  intro x hx
  rw [← flatten_groups m xs]
  exact mem_flatten_of_mem hg hx

variable [DecidableEq L]

theorem any_map_mk_or (m : Nat) (xs : List L) :
    ((groups m xs).map (mk_or ctx)).any (ctx.val v) = xs.any (ctx.val v) := by
  conv_rhs => rw [← flatten_groups m xs]
  simp [Function.comp_def]

theorem one_flatten (gs : List (List L)) :
    One ctx v gs.flatten ↔ (∀ g ∈ gs, One ctx v g) ∧ One ctx v (gs.map (mk_or ctx)) := by
  rw [One, pairwise_flatten, One, pairwise_map]
  refine and_congr_right fun _ => List.Pairwise.iff fun g g' => ?_
  simp only [val_mk_or, any_eq_true, any_eq_false, Bool.not_eq_true, forall_exists_index, and_imp]
  exact ⟨fun h x hx hvx y hy => h x hx y hy hvx, fun h x hx y hy hvx => h x hx hvx y hy⟩

end Groups

/-- The assignments with `P` agree with `v0` on the literals. -/
def Fixes (ctx : psort_expr L V) (P : V → Prop) (v0 : V) (xs : List L) : Prop :=
  ∀ v, P v → ∀ l ∈ xs, ctx.val v l = ctx.val v0 l

theorem Fixes.one {P : V → Prop} {v0 : V} {xs : List L} (h : Fixes ctx P v0 xs) (hv : P v) :
    One ctx v0 xs ↔ One ctx v xs :=
  List.Pairwise.iff_of_mem fun hx hy => by rw [h v hv _ hx, h v hv _ hy]

theorem Fixes.ors [DecidableEq L] {P : V → Prop} {v0 : V} {xs : List L} (h : Fixes ctx P v0 xs) (m : Nat) :
    Fixes ctx P v0 ((groups m xs).map (mk_or ctx)) := by
  intro v hv l hl
  obtain ⟨g, hg, rfl⟩ := mem_map.mp hl
  rw [val_mk_or, val_mk_or, Bool.eq_iff_iff, any_eq_true, any_eq_true]
  exact exists_congr fun x => and_congr_right fun hx => by rw [h v hv x (groups_subset m xs g hg hx)]

/-- What a part of the encoding adds for the condition `C` on `xs`: the result implies it, and `ands` has a literal that
is true if it fails. -/
structure Enforces (ctx : psort_expr L V) (full : Bool) (result : L) (xs : List L) (C : V → Prop)
    (p p' : state L × List L) : Prop where
  models : ∀ v, p'.1.Models ctx v → p.1.Models ctx v
  sound : ∀ v, p'.1.Models ctx v → ctx.val v result → C v
  ands : ∀ v, p'.1.Models ctx v → C v → (∃ l ∈ p'.2, ctx.val v l) → ∃ l ∈ p.2, ctx.val v l
  complete : ∀ P v0, Fixes ctx P v0 xs → (∀ v, P v → ctx.val v result → C v) → Completes ctx p.1 p'.1 P fun v =>
    (full → ¬ C v → ∃ l ∈ p'.2, ctx.val v l) ∧ ((∃ l ∈ p.2, ctx.val v l) → ∃ l ∈ p'.2, ctx.val v l)

section Enforces

variable {result : L} {xs : List L} {C C' : V → Prop} {p p' p'' : state L × List L}

theorem Enforces.refl (hC : ∀ v, C v) : Enforces ctx full result xs C p p where
  models _ h := h
  sound v _ _ := hC v
  ands _ _ _ h := h
  complete _ _ _ _ := ⟨[], rfl, fun v _ _ => ⟨id, fun _ h => absurd (hC v) h, id⟩⟩

theorem Enforces.trans {ys : List L} (h : Enforces ctx full result xs C p p')
    (h' : Enforces ctx full result ys C' p' p'') (hys : ∀ P v0, Fixes ctx P v0 xs → Fixes ctx P v0 ys) :
    Enforces ctx full result xs (fun v => C v ∧ C' v) p p'' where
  models v hv := h.models v (h'.models v hv)
  sound v hv hr := ⟨h.sound v (h'.models v hv) hr, h'.sound v hv hr⟩
  ands v hv hC hands := h.ands v (h'.models v hv) hC.1 (h'.ands v hv hC.2 hands)
  complete P v0 hP hres := by
    refine ((h.complete P v0 hP fun v hv hr => (hres v hv hr).1).trans (h'.complete _ v0
      (fun v hv => hys P v0 hP v hv.1) fun v hv hr => (hres v hv.1 hr).2)).imp (fun _ => id) ?_
    rintro v - ⟨⟨hnot, hmono⟩, hnot', hmono'⟩
    refine ⟨fun hfull hC => ?_, fun hands => hmono' (hmono hands)⟩
    by_cases h1 : C v
    · exact hnot' hfull fun h2 => hC ⟨h1, h2⟩
    · exact hmono' (hnot hfull h1)

theorem Enforces.congr (h : Enforces ctx full result xs C p p') (hC : ∀ v, C v ↔ C' v) :
    Enforces ctx full result xs C' p p' := by
  obtain rfl : C = C' := funext fun v => propext (hC v)
  exact h

variable [DecidableEq L]

theorem models_pairs {s : state L} : (add_clauses ctx s ((pairs xs).map fun (x, y) =>
      [mk_not ctx result, mk_not ctx x, mk_not ctx y])).Models ctx v ↔
    s.Models ctx v ∧ (ctx.val v result → One ctx v xs) := by
  have hclause (p : L × L) : (∃ l ∈ [mk_not ctx result, mk_not ctx p.1, mk_not ctx p.2], ctx.val v l) ↔
      (ctx.val v result → ctx.val v p.1 → ctx.val v p.2 = false) := by
    cases hr : ctx.val v result <;> cases hp : ctx.val v p.1 <;> simp [hr, hp]
  rw [models_add_clauses, one_of_mem_pairs]
  simp only [forall_mem_map, hclause]
  exact and_congr_right fun _ => ⟨fun h hr p hp => h p hp hr, fun h p hp hr => h hr p hp⟩

theorem models_erased {s : state L} {and_i : L} (hne : xs ≠ []) :
    (add_clauses ctx s ((range xs.length).map fun i => and_i :: xs.eraseIdx i)).Models ctx v ↔
    s.Models ctx v ∧ (ctx.val v and_i ∨ ¬ One ctx v xs) := by
  rw [models_add_clauses, not_one_iff hne]
  simp [← forall_or_left]

/-- The result excludes every pair of a group. With `full`, the clauses that leave out one literal each make a fresh
literal true wherever the group meets the condition, and its negation goes to `ands`. -/
theorem mk_at_most_1_small_enforces (hne : xs ≠ []) (p : state L × List L) :
    Enforces ctx full result xs (One ctx · xs) p (mk_at_most_1_small ctx full result p xs) := by
  unfold mk_at_most_1_small
  split
  next hone =>
    obtain ⟨x, rfl⟩ := length_eq_one_iff.mp hone
    exact .refl fun v => pairwise_singleton _ _
  next =>
    have hpairs (P : V → Prop) (hres : ∀ v, P v → ctx.val v result → One ctx v xs) :=
      Completes.of_models (s := p.1) (next_add_clauses _ _) fun v hv hs => models_pairs.mpr ⟨hs, hres v hv⟩
    cases full with
    | false =>
      exact ⟨fun v hv => (models_pairs.mp hv).1, fun v hv => (models_pairs.mp hv).2, fun _ _ _ h => h,
        fun P _ _ hres => (hpairs P hres).imp (fun _ => id) fun _ _ _ => ⟨nofun, id⟩⟩
    | true =>
      refine ⟨fun v hv => (models_pairs.mp ((models_erased hne).mp hv).1).1,
        fun v hv => (models_pairs.mp ((models_erased hne).mp hv).1).2, fun v hv hone => ?_, fun P v0 hP hres => ?_⟩
      · have hand := ((models_erased hne).mp hv).2.resolve_right (not_not.mpr hone)
        rintro ⟨l, hl, hvl⟩
        refine ⟨l, (mem_append.mp hl).resolve_right fun hl => ?_, hvl⟩
        rw [mem_singleton.mp hl, val_mk_not, hand] at hvl
        cases hvl
      · classical
        refine (((hpairs P hres).trans (.fresh (decide (One ctx v0 xs)))).trans
          (.of_models (next_add_clauses _ _) fun v hv hs =>
          (models_erased hne).mpr ⟨hs, ?_⟩)).imp (fun _ => id) fun v hv hQ => ⟨fun _ hnot => ?_, ?_⟩
        · rw [hv.2.2, decide_eq_true_iff, hP.one hv.1]
          exact em _
        · refine ⟨_, mem_append_right _ (mem_singleton_self _), ?_⟩
          rw [val_mk_not, hQ.1.2, Bool.not_eq_true', decide_eq_false_iff_not, hP.one hv]
          exact hnot
        · exact fun ⟨l, hl, hvl⟩ => ⟨l, mem_append_left _ hl, hvl⟩

theorem mk_at_most_1_groups_enforces (gs : List (List L)) (hne : ∀ g ∈ gs, g ≠ []) (hxs : ∀ g ∈ gs, g ⊆ xs)
    (p : state L × List L) : Enforces ctx full result xs (fun v => ∀ g ∈ gs, One ctx v g) p
      (gs.foldl (mk_at_most_1_small ctx full result) p) := by
  induction gs generalizing p with
  | nil => exact .refl fun v => by simp
  | cons g gs ih =>
    have hg : Enforces ctx full result g (One ctx · g) p _ := mk_at_most_1_small_enforces (hne g (by simp)) p
    have hg' : Enforces ctx full result xs (One ctx · g) p _ := ⟨hg.models, hg.sound, hg.ands, fun P v0 hP =>
      hg.complete P v0 fun v hv l hl => hP v hv l (hxs g (by simp) hl)⟩
    refine (hg'.trans (ih (fun g hg => hne g (by simp [hg])) (fun g hg => hxs g (by simp [hg])) _) fun _ _ => id).congr
      fun v => ?_
    simp

theorem mk_at_most_1_loop_enforces (use_ors : Bool) (m : Nat) (ins ors : List L) (p : state L × List L) :
    Enforces ctx full result ins (One ctx · ins) p (mk_at_most_1_loop ctx full use_ors result m ins ors p).2 := by
  fun_induction mk_at_most_1_loop ctx full use_ors result m ins ors p with
  | case1 => exact .refl fun v => by simp_all [One]
  | case2 m ins ors p hne m' p' hle =>
    refine (mk_at_most_1_groups_enforces _ (groups_ne_nil _ ins) (groups_subset _ ins) p).congr fun v => ?_
    rw [groups_of_le hne hle, forall_mem_singleton]
  | case3 m ins ors p hne m' p' hle ors' ih =>
    refine ((mk_at_most_1_groups_enforces _ (groups_ne_nil _ ins) (groups_subset _ ins) p).trans ih
      fun P v0 hP => hP.ors _).congr fun v => ?_
    rw [← one_flatten, flatten_groups]

theorem mk_at_most_1_loop_ors (m : Nat) (ins ors : List L) (p : state L × List L) (hors : ins = [] → ors = []) :
    (mk_at_most_1_loop ctx full true result m ins ors p).1.any (ctx.val v) = ins.any (ctx.val v) := by
  fun_induction mk_at_most_1_loop ctx full true result m ins ors p with
  | case1 => simp_all
  | case2 m ins ors p hne m' p' hle => rw [if_pos rfl, any_map_mk_or]
  | case3 m ins ors p hne m' p' hle ors' ih => rw [ih id, any_map_mk_or]

end Enforces

/-- The literal implies the condition on `xs` in the models of the clauses, and is true in a model with any values of
`xs` that meet it. If `full` is set, it is equivalent, and there is a model with any values. -/
structure Encodes (ctx : psort_expr L V) (full : Bool) (s : state L) (xs : List L) (C : V → Prop) (r : L × state L) :
    Prop where
  models : ∀ v, r.2.Models ctx v → s.Models ctx v
  sound : ∀ v, r.2.Models ctx v → ctx.val v r.1 → C v
  exact : full → ∀ v, r.2.Models ctx v → C v → ctx.val v r.1
  complete : ∀ P v0, Fixes ctx P v0 xs → (∀ v, P v → full ∨ C v) → Completes ctx s r.2 P fun v => C v → ctx.val v r.1

section Encodes

variable [DecidableEq L] {s : state L} {xs : List L}

omit [DecidableEq L] in
/-- A literal that needs no clauses. -/
theorem Encodes.of_gate {C : V → Prop} {l : L} (h : ∀ v, ctx.val v l ↔ C v) : Encodes ctx full s xs C (l, s) :=
  ⟨fun _ => id, fun v _ => (h v).mp, fun _ v _ => (h v).mpr, fun _ _ _ _ => ⟨[], rfl, fun v _ _ => ⟨id, (h v).mpr⟩⟩⟩

/-- The levels of groups together enforce the condition on all literals. With `full`, the clause of `ands` makes the
result true if no level has failed. -/
theorem mk_at_most_1_encodes (use_ors : Bool) : Encodes ctx full s xs (One ctx · xs)
    ((mk_at_most_1 ctx full xs use_ors s).1, (mk_at_most_1 ctx full xs use_ors s).2.2) := by
  set p := (mk_at_most_1_loop ctx full use_ors (ctx.fresh s.next) 2 xs []
    ((fresh ctx s).2, [ctx.fresh s.next])).2 with hp
  have h : Enforces ctx full (ctx.fresh s.next) xs (One ctx · xs) _ p := mk_at_most_1_loop_enforces use_ors 2 xs [] _
  have hs : (mk_at_most_1 ctx full xs use_ors s).2.2 = if full then add_clause ctx p.1 p.2 else p.1 := rfl
  have hmodels v : (mk_at_most_1 ctx full xs use_ors s).2.2.Models ctx v ↔
      p.1.Models ctx v ∧ (full → ∃ l ∈ p.2, ctx.val v l) := by
    rw [hs]
    cases full <;> simp [models_add_clause]
  refine ⟨fun v hv => h.models v ((hmodels v).mp hv).1, fun v hv => h.sound v ((hmodels v).mp hv).1,
    fun hfull v hv hone => ?_, fun P v0 hP _ => ?_⟩
  · obtain ⟨l, hl, hvl⟩ := h.ands v ((hmodels v).mp hv).1 hone (((hmodels v).mp hv).2 hfull)
    rwa [mem_singleton.mp hl] at hvl
  · classical
    have hnext : (mk_at_most_1 ctx full xs use_ors s).2.2.next = p.1.next := by
      rw [hs]
      split
      · exact next_add_clause _ _
      · rfl
    have hloop := h.complete (fun v => P v ∧ ctx.val v (ctx.fresh s.next) = decide (One ctx v0 xs)) v0
      (fun v hv => hP v hv.1) fun v hv hr => (hP.one hv.1).mp (of_decide_eq_true (hv.2 ▸ hr))
    refine ((Completes.trans (.fresh _) hloop).trans (.of_models hnext fun v hv hm => (hmodels v).mpr
      ⟨hm, fun hfull => ?_⟩)).imp (fun _ => id) fun v hv hQ hone => hQ.1.1.trans (decide_eq_true ((hP.one hv).mpr hone))
    · obtain ⟨hv, hval, hnot, hmono⟩ := hv
      by_cases hone : One ctx v xs
      · exact hmono ⟨_, mem_singleton_self _, hval.trans (decide_eq_true ((hP.one hv).mpr hone))⟩
      · exact hnot hfull hone

section Ordered

variable {is_eq : Bool} {n : Nat} {r : L} {x y two : Nat → L}

/-- One of the literals up to `i` is true. -/
def Some (ctx : psort_expr L V) (v : V) (x : Nat → L) (i : Nat) : Prop := ∃ j ≤ i, ctx.val v (x j)

omit [DecidableEq L] in
theorem some_succ (i : Nat) : Some ctx v x (i + 1) ↔ ctx.val v (x (i + 1)) ∨ Some ctx v x i := by
  simp only [Some, Nat.le_succ_iff, or_and_right, exists_or, exists_eq_left]
  exact or_comm

omit [DecidableEq L] in
theorem some_zero : Some ctx v x 0 ↔ ctx.val v (x 0) := by simp [Some]

/-- There are two true literals among the first `i + 2`. -/
def Two (ctx : psort_expr L V) (v : V) (x : Nat → L) (i : Nat) : Prop := ∃ j ≤ i, Some ctx v x j ∧ ctx.val v (x (j + 1))

/-- A model of the clauses: `y i` is the disjunction of the first `i + 1` literals, and the result excludes two true
literals and, for `is_eq`, none. -/
theorem sat_ordered (hn : 2 ≤ n) : (∀ c ∈ ordered_clauses ctx is_eq n r x y, ∃ l ∈ c, ctx.val v l) ↔
    (∀ i < n - 1, ctx.val v (y i) ↔ Some ctx v x i) ∧ (ctx.val v r →
      ¬ Two ctx v x (n - 2) ∧ (is_eq → Some ctx v x (n - 1))) := by
  obtain ⟨n, rfl⟩ := Nat.exists_eq_add_of_le' hn
  simp only [ordered_clauses, forall_mem_append, forall_mem_map, forall_mem_flatMap, forall_mem_cons,
    exists_mem_cons_iff, mem_range, val_mk_not, mem_ite_nil_right, and_imp]
  constructor
  · rintro ⟨⟨⟨⟨h1, h2⟩, h3⟩, h4⟩, h5⟩
    have hy : ∀ i < n + 1, ctx.val v (y i) ↔ Some ctx v x i := by
      intro i hi
      induction i with
      | zero => grind [some_zero]
      | succ i ih => grind [some_succ]
    refine ⟨hy, fun hr => ⟨fun ⟨i, hi, hsome, hval⟩ => ?_, fun heq => ?_⟩⟩
    · grind
    · have := h3 _ heq (mem_singleton_self _)
      simp only [exists_mem_cons_iff, val_mk_not] at this
      grind [some_succ]
  · rintro ⟨hy, hr⟩
    refine ⟨⟨⟨⟨fun i hi => ?_, fun i hi => ?_⟩, ?_⟩, fun i hi => ?_⟩, ?_⟩
    · grind [some_succ]
    · have : ctx.val v (x i) → Some ctx v x i := fun h => ⟨i, le_rfl, h⟩
      have : Some ctx v x i → ctx.val v (x (i + 1)) → Two ctx v x n := fun h h' => ⟨i, by omega, h, h'⟩
      grind
    · intro c heq hc
      rw [mem_singleton.mp hc]
      simp only [exists_mem_cons_iff, val_mk_not]
      grind [some_succ]
    · grind [some_succ]
    · grind [some_zero]

/-- The clauses of `two` can be met by literals that say whether two of the first `i + 2` are true. In every model the
last of them implies it, and nothing more is needed. -/
theorem sat_two (hn : 2 ≤ n) (hy : ∀ i < n - 1, ctx.val v (y i) ↔ Some ctx v x i) :
    ((∀ i < n - 1, ctx.val v (two i) ↔ Two ctx v x i) → ∀ c ∈ two_clauses ctx n x y two, ∃ l ∈ c, ctx.val v l) ∧
    ((∀ c ∈ two_clauses ctx n x y two, ∃ l ∈ c, ctx.val v l) → ctx.val v (two (n - 2)) → Two ctx v x (n - 2)) := by
  have hsucc i : Two ctx v x (i + 1) ↔ (Some ctx v x (i + 1) ∧ ctx.val v (x (i + 2))) ∨ Two ctx v x i := by
    simp only [Two, Nat.le_succ_iff, or_and_right, exists_or, exists_eq_left]
    exact or_comm
  have hzero : Two ctx v x 0 ↔ Some ctx v x 0 ∧ ctx.val v (x 1) := by simp [Two]
  simp only [two_clauses, forall_mem_append, forall_mem_flatMap, forall_mem_cons, exists_mem_cons_iff, val_mk_not]
  constructor
  · intro htwo
    refine ⟨?_, fun i hi => ?_⟩
    · grind
    · grind
  · rintro ⟨h0, h⟩
    have htwo : ∀ i < n - 1, ctx.val v (two i) → Two ctx v x i := by
      intro i hi
      induction i with
      | zero => grind
      | succ i ih => grind
    exact htwo _ (by omega)

omit [DecidableEq L] in
theorem one_iff_not_two (hn : 2 ≤ xs.length) : One ctx v xs ↔ ¬ Two ctx v (xs.getD · ctx.mk_false) (xs.length - 2) := by
  simp only [One, pairwise_iff_getElem, Two, Some, not_exists, not_and, Bool.not_eq_true]
  constructor
  · rintro h j hj ⟨i, hi, hvi⟩
    rw [getD_eq_getElem _ _ (by omega)] at hvi ⊢
    exact h i (j + 1) _ _ (by omega) hvi
  · intro h i j hi hj hij hvi
    have := h (j - 1) (by omega) ⟨i, by omega, by rwa [getD_eq_getElem _ _ hi]⟩
    rwa [Nat.sub_add_cancel (by omega), getD_eq_getElem _ _ hj] at this

omit [DecidableEq L] in
theorem some_iff_mem (hn : 2 ≤ xs.length) :
    Some ctx v (xs.getD · ctx.mk_false) (xs.length - 1) ↔ ∃ l ∈ xs, ctx.val v l := by
  simp only [Some, mem_iff_getElem]
  constructor
  · rintro ⟨i, hi, hv⟩
    rw [getD_eq_getElem _ _ (by omega)] at hv
    exact ⟨_, ⟨i, by omega, rfl⟩, hv⟩
  · rintro ⟨l, ⟨i, hi, rfl⟩, hv⟩
    exact ⟨i, by omega, by rwa [getD_eq_getElem _ _ hi]⟩

/-- The condition that `mk_ordered_1` encodes. -/
def OrderedCond (ctx : psort_expr L V) (is_eq : Bool) (v : V) (xs : List L) : Prop :=
  One ctx v xs ∧ (is_eq → ∃ l ∈ xs, ctx.val v l)

/-- The encoding of at least two literals, for at most one and for exactly one. -/
theorem mk_ordered_1_encodes_long (hn : 2 ≤ xs.length) :
    Encodes ctx full s xs (OrderedCond ctx is_eq · xs) (mk_ordered_1 ctx full is_eq xs s) := by
  simp only [mk_ordered_1, show ¬ xs.length ≤ 1 by omega, show ¬ xs.length = 0 by omega, show ¬ xs.length = 1 by omega]
  set x : Nat → L := (xs.getD · ctx.mk_false)
  set n := xs.length
  have hcond v : OrderedCond ctx is_eq v xs ↔ ¬ Two ctx v x (n - 2) ∧ (is_eq → Some ctx v x (n - 1)) := by
    rw [OrderedCond, one_iff_not_two hn, some_iff_mem hn]
  set r := ctx.fresh s.next
  set y : Nat → L := fun i => ctx.fresh ((fresh ctx s).2.next + i)
  set s3 := add_clauses ctx (freshes ctx (n - 1) (fresh ctx s).2).2 (ordered_clauses ctx is_eq n r x y)
  have hs3 v : s3.Models ctx v ↔ s.Models ctx v ∧ (∀ i < n - 1, ctx.val v (y i) ↔ Some ctx v x i) ∧
      (ctx.val v r → OrderedCond ctx is_eq v xs) := by
    rw [hcond]
    exact models_add_clauses.trans (and_congr_right fun _ => sat_ordered hn)
  have hvals {P : V → Prop} {v0 v : V} (hP : Fixes ctx P v0 xs) (hv : P v) : (∀ i, Some ctx v0 x i ↔ Some ctx v x i) ∧
      (∀ i, Two ctx v0 x i ↔ Two ctx v x i) ∧ (OrderedCond ctx is_eq v0 xs ↔ OrderedCond ctx is_eq v xs) := by
    have hx i : ctx.val v0 (x i) = ctx.val v (x i) := by
      by_cases hi : i < xs.length
      · simp only [x, getD_eq_getElem _ _ hi]
        exact (hP v hv _ (getElem_mem hi)).symm
      · simp only [x, getD_eq_default _ _ (not_lt.mp hi), ctx.val_false]
    simp only [hcond, Two, Some, hx, implies_true, and_true]
  classical
  have hbase {P : V → Prop} {v0 : V} (hP : Fixes ctx P v0 xs) : Completes ctx s s3 P fun v =>
      (ctx.val v r ↔ OrderedCond ctx is_eq v xs) ∧ ∀ i < n - 1, ctx.val v (y i) ↔ Some ctx v x i := by
    have hQ v hv (h : ctx.val v r = decide (OrderedCond ctx is_eq v0 xs) ∧
        ∀ i < n - 1, ctx.val v (y i) = decide (Some ctx v0 x i)) : (ctx.val v r ↔ OrderedCond ctx is_eq v xs) ∧
          ∀ i < n - 1, ctx.val v (y i) ↔ Some ctx v x i :=
      ⟨by rw [h.1, decide_eq_true_iff, (hvals hP hv).2.2],
        fun i hi => by rw [h.2 i hi, decide_eq_true_iff, (hvals hP hv).1]⟩
    refine (((Completes.fresh _).trans (.freshes (n - 1) _)).trans (.of_models (next_add_clauses _ _) fun v hv hm =>
      (hs3 v).mpr ⟨hm, (hQ v hv.1 hv.2).2, (hQ v hv.1 hv.2).1.mp⟩)).imp (fun _ => id) fun v hv h => hQ v hv h.1
  cases full with
  | false => exact ⟨fun v hv => ((hs3 v).mp hv).1, fun v hv => ((hs3 v).mp hv).2.2, nofun,
      fun P v0 hP _ => (hbase hP).imp (fun _ => id) fun v _ hQ => hQ.1.mpr⟩
  | true =>
    set two : Nat → L := fun i => ctx.fresh (s3.next + i)
    set s5 := add_clauses ctx (freshes ctx (n - 1) s3).2 (two_clauses ctx n x y two)
    have hs5 v (hv : s5.Models ctx v) : s.Models ctx v ∧ (ctx.val v r → OrderedCond ctx is_eq v xs) ∧
        (OrderedCond ctx is_eq v xs → ctx.val v (two (n - 2)) = false) ∧
          (ctx.val v (y (n - 2)) ↔ Some ctx v x (n - 2)) := by
      obtain ⟨hm, htwo⟩ := models_add_clauses.mp hv
      obtain ⟨hm, hy, hr⟩ := (hs3 v).mp hm
      refine ⟨hm, hr, fun hC => Bool.eq_false_iff.mpr fun h => ((hcond v).mp hC).1 ((sat_two hn hy).2 htwo h),
        hy _ (by omega)⟩
    have hfull {P : V → Prop} {v0 : V} (hP : Fixes ctx P v0 xs) : Completes ctx s s5 P fun v =>
        (ctx.val v r ↔ OrderedCond ctx is_eq v xs) ∧ (ctx.val v (y (n - 2)) ↔ Some ctx v x (n - 2)) ∧
          (ctx.val v (two (n - 2)) ↔ Two ctx v x (n - 2)) := by
      refine (((hbase hP).trans (.freshes (n - 1) fun i => decide (Two ctx v0 x i))).trans
        (.of_models (next_add_clauses _ _)
        fun v hv hm => models_add_clauses.mpr ⟨hm, (sat_two hn hv.2.1.2).1 fun i hi => ?_⟩)).imp (fun _ => id)
          fun v hv h => ⟨h.1.1.1, h.1.1.2 _ (by omega), ?_⟩
      · rw [hv.2.2 i hi, decide_eq_true_iff, (hvals hP hv.1).2.1]
      · rw [h.1.2 _ (by omega), decide_eq_true_iff, (hvals hP hv).2.1]
    cases is_eq with
    | false =>
      change Encodes ctx true s xs _ (r, add_clauses ctx s5 [[r, two (n - 2)]])
      refine ⟨fun v hv => (hs5 v (models_add_clauses.mp hv).1).1, fun v hv => (hs5 v (models_add_clauses.mp hv).1).2.1,
        fun _ v hv hC => ?_, fun P v0 hP _ => ((hfull hP).trans (.of_models (next_add_clauses _ _) fun v hv hm =>
          models_add_clauses.mpr ⟨hm, ?_⟩)).imp (fun _ => id) fun v hv hQ => hQ.1.1.mpr⟩
      · obtain ⟨hm, hr⟩ := models_add_clauses.mp hv
        simpa [(hs5 v hm).2.2.1 hC] using hr
      · grind
    | true =>
      set zero := ctx.fresh s5.next
      change Encodes ctx true s xs _ (r, add_clauses ctx (fresh ctx s5).2 [[mk_not ctx zero, mk_not ctx (x (n - 1))],
        [mk_not ctx zero, mk_not ctx (y (n - 2))], [r, zero, two (n - 2)]])
      refine ⟨fun v hv => (hs5 v (models_add_clauses.mp hv).1).1, fun v hv => (hs5 v (models_add_clauses.mp hv).1).2.1,
        fun _ v hv hC => ?_, fun P v0 hP _ => (((hfull hP).trans (.fresh (decide (¬ Some ctx v0 x (n - 1))))).trans
          (.of_models (next_add_clauses _ _) fun v hv hm => models_add_clauses.mpr ⟨hm, ?_⟩)).imp (fun _ => id)
            fun v hv hQ => hQ.1.1.1.mpr⟩
      · obtain ⟨hm, hr⟩ := models_add_clauses.mp hv
        have := (hs5 v hm).2.2
        have : Some ctx v x _ ↔ _ := some_succ (n - 2)
        simp only [forall_mem_cons, exists_mem_cons_iff, val_mk_not] at hr
        grind
      · have : Some ctx v x _ ↔ _ := some_succ (n - 2)
        simp only [forall_mem_cons, exists_mem_cons_iff, val_mk_not]
        grind

theorem mk_ordered_1_encodes :
    Encodes ctx full s xs (OrderedCond ctx is_eq · xs) (mk_ordered_1 ctx full is_eq xs s) := by
  match xs with
  | [] =>
    cases is_eq
    · exact .of_gate fun v => by simp [OrderedCond, One, ctx.val_true]
    · exact .of_gate fun v => by simp [OrderedCond, ctx.val_false]
  | [x] =>
    cases is_eq
    · exact .of_gate fun v => by simp [OrderedCond, One, ctx.val_true]
    · exact .of_gate fun v => by simp [OrderedCond, One]
  | x :: y :: xs => exact mk_ordered_1_encodes_long (by simp)

end Ordered

section Bimander

variable {result : L} {ors : List L} {nbits : Nat} {bit : Nat → L}

theorem sat_codes : (∀ c ∈ code_clauses ctx result ors nbits bit, ∃ l ∈ c, ctx.val v l) ↔
    (ctx.val v result → ∀ (i : Nat) o, ors[i]? = some o → ctx.val v o →
      ∀ k < nbits, ctx.val v (bit k) = i.testBit k) := by
  have hclause o (i k : Nat) : (∃ l ∈ [mk_not ctx result, mk_not ctx o,
    if i.testBit k then bit k else mk_not ctx (bit k)],
      ctx.val v l) ↔ (ctx.val v result → ctx.val v o → ctx.val v (bit k) = i.testBit k) := by
    cases hr : ctx.val v result <;> cases ho : ctx.val v o <;> cases i.testBit k <;> simp [hr, ho]
  simp only [code_clauses, forall_mem_flatMap, forall_mem_map, mem_range, Prod.forall, hclause, mem_zipIdx_iff_getElem?]
  exact ⟨fun h hr i o ho hv k hk => h o i ho k hk hr hv, fun h o i ho k hk hr hv => h hr i o ho hv k hk⟩

omit [DecidableEq L] in
theorem one_of_codes (hbits : ors.length ≤ 2 ^ nbits)
    (h : ∀ (i : Nat) o, ors[i]? = some o → ctx.val v o → ∀ k < nbits, ctx.val v (bit k) = i.testBit k) :
    One ctx v ors := by
  refine pairwise_iff_getElem.mpr fun i j hi hj hij hvi => Bool.eq_false_iff.mpr fun hvj => hij.ne ?_
  refine Nat.eq_of_testBit_eq fun k => ?_
  by_cases hk : k < nbits
  · rw [← h i _ (getElem?_eq_getElem hi) hvi k hk, h j _ (getElem?_eq_getElem hj) hvj k hk]
  · have hpow := hbits.trans (Nat.pow_le_pow_right (by decide) (not_lt.mp hk))
    rw [Nat.testBit_lt_two_pow (hi.trans_le hpow), Nat.testBit_lt_two_pow (hj.trans_le hpow)]

/-- Each group has at most one true literal, and the groups have different codes, so that the code bits exclude all
groups but one. With `full` the encoding is that of `mk_at_most_1`. -/
theorem mk_at_most_1_bimander_encodes : Encodes ctx full s xs (One ctx · xs)
    ((mk_at_most_1_bimander ctx full xs s).1, (mk_at_most_1_bimander ctx full xs s).2.2) := by
  cases full with
  | true => exact mk_at_most_1_encodes true
  | false =>
    set p := (groups 1 xs).foldl (mk_at_most_1_small ctx false (ctx.fresh s.next)) ((fresh ctx s).2, [])
    have h : Enforces ctx false (ctx.fresh s.next) xs (fun v => ∀ g ∈ groups 1 xs, One ctx v g) _ p :=
      mk_at_most_1_groups_enforces _ (groups_ne_nil 1 xs) (groups_subset 1 xs) _
    set ors := (groups 1 xs).map (mk_or ctx)
    have hone v : One ctx v xs ↔ (∀ g ∈ groups 1 xs, One ctx v g) ∧ One ctx v ors := by
      rw [← one_flatten, flatten_groups]
    set nbits := Nat.clog 2 ors.length
    set bit : Nat → L := fun k => ctx.fresh (p.1.next + k)
    change Encodes ctx false s xs _ (ctx.fresh s.next,
      add_clauses ctx (freshes ctx nbits p.1).2 (code_clauses ctx (ctx.fresh s.next) ors nbits bit))
    refine ⟨fun v hv => h.models v (models_add_clauses.mp hv).1, fun v hv hr => ?_, nofun, fun P v0 hP hor => ?_⟩
    · obtain ⟨hm, hcodes⟩ := models_add_clauses.mp hv
      exact (hone v).mpr ⟨h.sound v hm hr, one_of_codes (Nat.le_pow_clog (by decide) _) (sat_codes.mp hcodes hr)⟩
    · have hP' v hv := (hone v).mp ((hor v hv).resolve_left nofun)
      have hloop := h.complete (fun v => P v ∧ ctx.val v (ctx.fresh s.next)) v0 (fun v hv => hP v hv.1)
        fun v hv _ => (hP' v hv.1).1
      classical
      refine (((Completes.trans (.fresh true) hloop).trans (.freshes nbits fun k => decide (∃ (i : Nat) (o : L),
        ors[i]? = some o ∧ ctx.val v0 o ∧ i.testBit k))).trans (.of_models (next_add_clauses _ _)
          fun v hv hm => models_add_clauses.mpr ⟨hm, sat_codes.mpr fun _ i o ho hvo k hk => ?_⟩)).imp (fun _ => id)
            fun v _ hQ _ => hQ.1.1.1
      have hvals {o : L} {i : Nat} (ho : ors[i]? = some o) := hP.ors 1 v hv.1 o (mem_of_getElem? ho)
      rw [hv.2.2 k hk, Bool.eq_iff_iff, decide_eq_true_iff]
      refine ⟨fun ⟨j, o', ho', hvo', hj⟩ => ?_, fun hi => ⟨i, o, ho, hvals ho ▸ hvo, hi⟩⟩
      rwa [(hP' v hv.1).2.index_eq ho ho' hvo (hvals ho' ▸ hvo')]

end Bimander

end Encodes

end psort_nw
