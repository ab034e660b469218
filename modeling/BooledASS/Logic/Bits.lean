import Mathlib.Data.Nat.Digits.Lemmas
import Mathlib.Algebra.BigOperators.Ring.Finset

open List

namespace Bits

/-- The number that a list of bits stands for, the least significant bit first. -/
def val (bits : List Bool) : Nat := Nat.ofDigits 2 (bits.map Bool.toNat)

@[simp] theorem val_nil : val [] = 0 := rfl

@[simp] theorem val_cons (b : Bool) (bits : List Bool) :
    val (b :: bits) = b.toNat + 2 * val bits := by
  simp [val, Nat.ofDigits_cons]

theorem val_append (low high : List Bool) : val (low ++ high) = val low + 2 ^ low.length * val high := by
  simp [val, Nat.ofDigits_append]

theorem val_lt (bits : List Bool) : val bits < 2 ^ bits.length := by
  induction bits with
  | nil => simp
  | cons b bits ih =>
    have hb := b.toNat_lt
    rw [val_cons, length_cons]
    omega

@[simp] theorem val_replicate_false (n : Nat) : val (replicate n false) = 0 := by
  induction n with
  | zero => rfl
  | succ n ih => simp [replicate_succ, ih]

theorem val_replicate_true (n : Nat) : val (replicate n true) + 1 = 2 ^ n := by
  induction n with
  | zero => rfl
  | succ n ih =>
    rw [replicate_succ, val_cons, Bool.toNat_true]
    omega

/-- The bits of the number are the bits of the list, with zeros above them. -/
theorem testBit_val (bits : List Bool) (i : Nat) : (val bits).testBit i = bits.getD i false := by
  induction bits generalizing i with
  | nil => simp
  | cons b bits ih =>
    cases i with
    | zero => cases b <;> simp
    | succ i =>
      rw [val_cons, Nat.testBit_succ, getD_cons_succ, ← ih]
      congr 1
      have hb := b.toNat_lt
      omega

/-- Bits that agree everywhere with those of a number stand for that number. -/
theorem val_eq_of_testBit {bits : List Bool} {n : Nat} (h : ∀ i, bits.getD i false = n.testBit i) : val bits = n :=
  Nat.eq_of_testBit_eq fun i => by rw [testBit_val, h]

/-- The low bits of a number give the number modulo a power of two. -/
theorem val_testBits (v n : Nat) : val ((range n).map v.testBit) = v % 2 ^ n := by
  apply val_eq_of_testBit
  intro i
  by_cases h : i < n <;> simp [h]

/-! ### Two vectors of one length -/

/-- Induction over two vectors of one length, a pair of bits at a time. -/
@[elab_as_elim]
theorem induction_two {α β : Type} {motive : (as : List α) → (bs : List β) → as.length = bs.length → Prop}
    (nil : motive [] [] rfl)
    (cons : ∀ a as b bs (h : as.length = bs.length), motive as bs h → motive (a :: as) (b :: bs) (congrArg (· + 1) h))
    (as : List α) (bs : List β) (h : as.length = bs.length) : motive as bs h := by
  induction as generalizing bs with
  | nil =>
    cases bs with
    | nil => exact nil
    | cons b bs => cases h
  | cons a as ih =>
    cases bs with
    | nil => cases h
    | cons b bs => exact cons a as b bs (Nat.succ.inj h) (ih bs _)

/-! ### Adders -/

theorem half_adder (a b : Bool) : (xor a b).toNat + 2 * (a && b).toNat = a.toNat + b.toNat := by
  cases a <;> cases b <;> rfl

theorem full_adder (a b c : Bool) :
    (xor a (xor b c)).toNat + 2 * (Bool.atLeastTwo a b c).toNat = a.toNat + b.toNat + c.toNat := by
  cases a <;> cases b <;> cases c <;> rfl

/-- Parity and majority do not depend on the order of the arguments. -/
theorem parity_majority_perm {α : Type} {f : α → Bool} {x y z a b c : α} (h : List.Perm [x, y, z] [a, b, c]) :
    xor (f x) (xor (f y) (f z)) = xor (f a) (xor (f b) (f c)) ∧
      Bool.atLeastTwo (f x) (f y) (f z) = Bool.atLeastTwo (f a) (f b) (f c) := by
  have hsum : (f x).toNat + ((f y).toNat + (f z).toNat) = (f a).toNat + ((f b).toNat + (f c).toNat) := by
    simpa using (h.map fun e => (f e).toNat).sum_eq
  revert hsum
  generalize f x = x, f y = y, f z = z, f a = a, f b = b, f c = c
  revert x y z a b c
  decide

/-! ### The columns of a product -/

theorem toNat_and (a b : Bool) : (a && b).toNat = a.toNat * b.toNat := by cases a <;> cases b <;> rfl

/-- The number of partial products of weight `c` that are set. -/
def column (a b : List Bool) (c : Nat) : Nat :=
  ∑ j ∈ Finset.range (c + 1), (a.getD j false && b.getD (c - j) false).toNat

theorem column_nil (b : List Bool) (c : Nat) : column [] b c = 0 := by simp [column]

theorem column_cons_zero (x : Bool) (a b : List Bool) : column (x :: a) b 0 = (x && b.getD 0 false).toNat := by
  simp [column]

theorem column_cons_succ (x : Bool) (a b : List Bool) (c : Nat) :
    column (x :: a) b (c + 1) = (x && b.getD (c + 1) false).toNat + column a b c := by
  rw [column, Finset.sum_range_succ', add_comm]
  congr 1
  exact Finset.sum_congr rfl fun j _ => by rw [getD_cons_succ, Nat.add_sub_add_right]

/-- The low bits of a number, with their weights, give the number modulo a power of two. -/
theorem sum_bits_mod (b : List Bool) (n : Nat) :
    ∑ c ∈ Finset.range n, 2 ^ c * (b.getD c false).toNat = val b % 2 ^ n := by
  induction n with
  | zero => simp [Nat.mod_one]
  | succ n ih => rw [Finset.sum_range_succ, ih, Nat.mod_pow_succ, ← Nat.toNat_testBit, testBit_val]

/-- The columns below `n`, with their weights, give the product modulo `2 ^ n`. -/
theorem sum_columns_modEq (a b : List Bool) (n : Nat) :
    ∑ c ∈ Finset.range n, 2 ^ c * column a b c ≡ val a * val b [MOD 2 ^ n] := by
  induction a generalizing n with
  | nil =>
    simp [column_nil]
    rfl
  | cons x a ih =>
    cases n with
    | zero => simpa using Nat.modEq_one
    | succ n =>
      have hcolumns : ∑ c ∈ Finset.range (n + 1), 2 ^ c * column (x :: a) b c =
          x.toNat * (∑ c ∈ Finset.range (n + 1), 2 ^ c * (b.getD c false).toNat) +
            2 * ∑ c ∈ Finset.range n, 2 ^ c * column a b c := by
        rw [Finset.sum_range_succ', Finset.sum_range_succ' (fun c => 2 ^ c * (b.getD c false).toNat),
          column_cons_zero, toNat_and, Nat.mul_add, Finset.mul_sum, Finset.mul_sum,
          add_right_comm, ← Finset.sum_add_distrib]
        congr 1
        · refine Finset.sum_congr rfl fun c _ => ?_
          rw [column_cons_succ, toNat_and]
          ring
        · ring
      rw [hcolumns, sum_bits_mod, val_cons, Nat.add_mul, Nat.mul_assoc]
      refine Nat.ModEq.add ((Nat.mod_modEq _ _).mul_left _) ?_
      rw [pow_succ']
      exact (ih n).mul_left' 2

theorem lt_of_testBit {a n i : Nat} (hlt : a < 2 ^ n) (h : a.testBit i) : i < n :=
  (Nat.pow_lt_pow_iff_right Nat.one_lt_two).mp ((Nat.ge_two_pow_of_testBit h).trans_lt hlt)

theorem testBit_of_lt_two_pow_succ {n i : Nat} (h : n < 2 ^ (i + 1)) : n.testBit i = decide (2 ^ i ≤ n) := by
  have hdiv : n / 2 ^ i < 2 := Nat.div_lt_of_lt_mul (by rwa [pow_succ] at h)
  rw [Nat.testBit_eq_decide_div_mod_eq, Nat.mod_eq_of_lt hdiv, decide_eq_decide,
    ← Nat.one_le_div_iff (Nat.two_pow_pos i)]
  omega

/-! ### The size of a product, from the bits that are set -/

theorem two_pow_le_mul_of_testBit {a b s k i : Nat} (ha : a.testBit k)
    (hb : b.testBit i) (hs : s ≤ k + i) : 2 ^ s ≤ a * b :=
  calc 2 ^ s ≤ 2 ^ k * 2 ^ i := by
        rw [← pow_add]
        exact Nat.pow_le_pow_right (by decide) hs
    _ ≤ a * b := Nat.mul_le_mul (Nat.ge_two_pow_of_testBit ha) (Nat.ge_two_pow_of_testBit hb)

/-- If no two set bits have weights that reach `s`, the leading ones do not either. -/
theorem succ_mul_succ_le_of_testBit {a b s : Nat}
    (ha : a ≠ 0) (hb : b ≠ 0) (h : ∀ k i, a.testBit k → b.testBit i → k + i < s) : (a + 1) * (b + 1) ≤ 2 ^ (s + 1) := by
  have htop := h a.log2 b.log2 (Nat.testBit_log2 ha) (Nat.testBit_log2 hb)
  calc (a + 1) * (b + 1) ≤ 2 ^ (a.log2 + 1) * 2 ^ (b.log2 + 1) := Nat.mul_le_mul Nat.lt_log2_self Nat.lt_log2_self
    _ = 2 ^ (a.log2 + b.log2 + 2) := by
        rw [← pow_add]
        congr 1
        omega
    _ ≤ 2 ^ (s + 1) := Nat.pow_le_pow_right (by decide) (by omega)

end Bits
