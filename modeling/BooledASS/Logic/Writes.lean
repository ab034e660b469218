import Mathlib.Data.List.Basic

/-! A table that is filled by a loop, read back at one index. -/

open Function

namespace Writes

variable {ι κ ω : Type} [DecidableEq κ]

/-- The writes of `val x` at `key x`, in the order of the list. -/
def store (key : ι → κ) (val : ι → ω) (f : κ → ω) (xs : List ι) : κ → ω :=
  xs.foldl (fun f x => update f (key x) (val x)) f

variable {key : ι → κ} {val : ι → ω} {f : κ → ω} {xs : List ι} {k : κ}

theorem store_of_forall_ne (h : ∀ x ∈ xs, key x ≠ k) : store key val f xs k = f k := by
  induction xs generalizing f with
  | nil => rfl
  | cons x xs ih =>
    obtain ⟨hx, htail⟩ := List.forall_mem_cons.mp h
    exact (ih htail).trans (update_of_ne hx.symm _ _)

/-- An entry that is written to has every property that all values written to it have. -/
theorem store_forall {P : ω → Prop} (hP : ∀ x ∈ xs, key x = k → P (val x)) (hx : ∃ x ∈ xs, key x = k) :
    P (store key val f xs k) := by
  induction xs generalizing f with
  | nil => obtain ⟨x, hx, -⟩ := hx; cases hx
  | cons y xs ih =>
    obtain ⟨hy, htail⟩ := List.forall_mem_cons.mp hP
    by_cases hlater : ∃ z ∈ xs, key z = k
    · exact ih htail hlater
    · have hne : ∀ z ∈ xs, key z ≠ k := fun z hz hkey => hlater ⟨z, hz, hkey⟩
      have hkey : key y = k := by
        obtain ⟨x, hx, hk⟩ := hx
        rcases List.mem_cons.mp hx with rfl | hx
        · exact hk
        · exact absurd hk (hne x hx)
      have hread : store key val f (y :: xs) k = val y := by
        refine (store_of_forall_ne hne).trans ?_
        rw [← hkey]
        exact update_self _ _ _
      rw [hread]
      exact hy hkey

/-- An entry is what was written to it, if all writes to it agree. -/
theorem store_of_exists {w : ω} (hagree : ∀ x ∈ xs, key x = k → val x = w) (hx : ∃ x ∈ xs, key x = k) :
    store key val f xs k = w :=
  store_forall (P := (· = w)) hagree hx

/-- A loop that fills two tables fills each of them. -/
theorem foldl_pair {κ' ω' : Type} [DecidableEq κ'] (key : ι → κ) (val : ι → ω) (key' : ι → κ') (val' : ι → ω')
    (f : κ → ω) (g : κ' → ω') (xs : List ι) :
    xs.foldl (fun (p : (κ → ω) × (κ' → ω')) x =>
      (update p.1 (key x) (val x), update p.2 (key' x) (val' x))) (f, g) =
      (store key val f xs, store key' val' g xs) := by
  induction xs generalizing f g with
  | nil => rfl
  | cons x xs ih => exact ih _ _

end Writes
