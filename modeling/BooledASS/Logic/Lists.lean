import Mathlib.Order.MinMax

open List

namespace Lists

variable {α κ : Type} {key : α → κ} {xs : List α} {a : α} {p q : α → Bool}

/-- Two filters that differ at one element of a list without repeated keys count one apart. -/
theorem length_filter_of_flip (hnodup : (xs.map key).Nodup) (ha : a ∈ xs) (hagree : ∀ x ∈ xs, key x ≠ key a → p x = q x)
    (hp : p a) (hq : q a = false) : (xs.filter p).length = (xs.filter q).length + 1 := by
  induction xs with
  | nil => cases ha
  | cons y xs ih =>
    rw [map_cons, nodup_cons] at hnodup
    have hfresh : ∀ z ∈ xs, key z ≠ key y := fun z hz h => hnodup.1 (h ▸ mem_map_of_mem hz)
    rcases mem_cons.mp ha with rfl | ha'
    · rw [filter_cons_of_pos hp, filter_cons_of_neg (by simp [hq]), length_cons,
        filter_congr fun z hz => hagree z (.tail _ hz) (hfresh z hz)]
    · have hy : p y = q y := hagree y (by simp) fun h => hnodup.1 (h ▸ mem_map_of_mem ha')
      have hrec := ih hnodup.2 ha' fun z hz => hagree z (.tail _ hz)
      rw [filter_cons, filter_cons, hy]
      split
      · simpa using hrec
      · exact hrec

theorem forall_mem_concat {P : α → Prop} (h : ∀ x ∈ xs, P x) (ha : P a) : ∀ x ∈ xs ++ [a], P x :=
  forall_mem_append.mpr ⟨h, forall_mem_singleton.mpr ha⟩

/-- An element of a list with one more at its end is that one, or splits the list before it. -/
theorem concat_eq_append_cons {pre post : List α} {x : α} (h : xs ++ [a] = pre ++ x :: post) :
    (pre = xs ∧ x = a) ∨ ∃ post', xs = pre ++ x :: post' := by
  rcases eq_nil_or_concat post with rfl | ⟨post', b, rfl⟩
  · obtain ⟨h1, h2⟩ := append_inj' h rfl
    exact .inl ⟨h1.symm, by simpa using h2.symm⟩
  · have h' : xs ++ [a] = (pre ++ x :: post') ++ [b] := by simpa using h
    exact .inr ⟨post', (append_inj' h' rfl).1⟩

/-- An element of a filtered list splits the list itself, with the filtered prefix before it. -/
theorem filter_eq_append_cons {pre post : List α} {x : α} (h : xs.filter p = pre ++ x :: post) :
    ∃ pre' post', xs = pre' ++ x :: post' ∧ pre = pre'.filter p := by
  obtain ⟨ys, zs, rfl, rfl, hzs⟩ := filter_eq_append_iff.mp h
  obtain ⟨us, vs, rfl, hus, -, -⟩ := filter_eq_cons_iff.mp hzs
  have hnil : us.filter p = [] := filter_eq_nil_iff.mpr hus
  exact ⟨ys ++ us, vs, by simp, by simp [hnil]⟩

/-- The running maximum of a loop over a list. -/
theorem foldl_max_spec (f : α → Nat) (xs : List α) (k : Nat) :
    k ≤ xs.foldl (fun k x => max k (f x)) k ∧ (∀ x ∈ xs, f x ≤ xs.foldl (fun k x => max k (f x)) k) ∧
      (xs.foldl (fun k x => max k (f x)) k = k ∨ ∃ x ∈ xs, f x = xs.foldl (fun k x => max k (f x)) k) := by
  induction xs generalizing k with
  | nil => simp
  | cons x xs ih =>
    obtain ⟨h1, h2, h3⟩ := ih (max k (f x))
    refine ⟨(le_max_left _ _).trans h1, forall_mem_cons.mpr ⟨(le_max_right _ _).trans h1, h2⟩, ?_⟩
    rcases h3 with h3 | ⟨y, hy, h3⟩
    · rcases max_choice k (f x) with hk | hx
      · exact .inl (h3.trans hk)
      · exact .inr ⟨x, by simp, hx.symm.trans h3.symm⟩
    · exact .inr ⟨y, .tail _ hy, h3⟩

section Unique

variable [DecidableEq α]

/-- Of equal neighbours one is kept. -/
def unique : List α → List α
  | [] => []
  | [x] => [x]
  | x :: y :: xs => if x = y then unique (y :: xs) else x :: unique (y :: xs)

@[simp] theorem mem_unique (xs : List α) : a ∈ unique xs ↔ a ∈ xs := by
  fun_induction unique xs with
  | case1 => rfl
  | case2 => rfl
  | case3 x xs ih => simp [ih]
  | case4 x y xs hne ih => simp [ih]

/-- Of a sorted list no two equal elements are kept. -/
theorem unique_pairwise {r : α → α → Prop} (hr : ∀ x y, r x y → r y x → x = y) (h : xs.Pairwise r) :
    (unique xs).Pairwise fun x y => r x y ∧ x ≠ y := by
  fun_induction unique xs with
  | case1 => exact .nil
  | case2 => exact pairwise_singleton _ _
  | case3 x xs ih => exact ih (pairwise_cons.mp h).2
  | case4 x y xs hne ih =>
    obtain ⟨hx, htail⟩ := pairwise_cons.mp h
    refine pairwise_cons.mpr ⟨fun z hz => ?_, ih htail⟩
    rw [mem_unique] at hz
    refine ⟨hx z hz, fun hxz => hne ?_⟩
    -- an element equal to `x` comes after `y`, which is then between the two
    rcases mem_cons.mp hz with hzy | hz
    · exact hxz.trans hzy
    · exact hr x y (hx y (by simp)) (hxz ▸ (pairwise_cons.mp htail).1 z hz)

end Unique

end Lists
