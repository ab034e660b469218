import BooledASS.Rewriter.BitBlaster.Multiplier
import BooledASS.Rewriter.BitBlaster.Signed

open List

namespace bit_blaster

variable {E M : Type} {R : bool_rewriter E M} {m : M}

section Definitions

variable [DecidableEq E] (C : cfg R) (a_bits b_bits : List E)

/-- `v` after the loop: two leading bits whose weights add up to `sz` or more are set. -/
def mk_umul_no_overflow.leading (R : bool_rewriter E M) (a_bits b_bits : List E) : E :=
  let sz := a_bits.length
  ((range' 1 (sz - 1)).foldl (fun (ovf, v) i =>
      let ovf := R.mk_or ovf (bit R a_bits (sz - i))
      let tmp := R.mk_and ovf (bit R b_bits i)
      (ovf, R.mk_or tmp v))
    (R.mk_false, R.mk_false)).2

def mk_umul_no_overflow : E :=
  let sz := a_bits.length
  let mult_cout := mk_multiplier C (a_bits ++ [R.mk_false]) (b_bits ++ [R.mk_false])
  let overflow1 := bit R mult_cout sz
  let overflow2 := mk_umul_no_overflow.leading R a_bits b_bits
  R.mk_not (R.mk_or overflow1 overflow2)

/-- `v` after the loop, over the bits that differ from the sign. -/
def mk_smul_no_overflow_core.leading (R : bool_rewriter E M) (a_bits b_bits : List E) : E :=
  let sz := a_bits.length
  ((range' 1 (sz - 2)).foldl (fun (a_acc, v) i =>
      let b := R.mk_xor (bit R b_bits (sz - 1)) (bit R b_bits i)
      let a := R.mk_xor (bit R a_bits (sz - 1)) (bit R a_bits (sz - 1 - i))
      let a_acc := R.mk_or a a_acc
      let tmp := R.mk_and a_acc b
      (a_acc, R.mk_or tmp v))
    (R.mk_false, R.mk_false)).2

def mk_smul_no_overflow_core (is_overflow : Bool) : E :=
  let sz := a_bits.length
  let a_msb := bit R a_bits (sz - 1)
  let b_msb := bit R b_bits (sz - 1)
  let mult_cout := mk_multiplier C (a_bits ++ [a_msb]) (b_bits ++ [b_msb])
  -- the two most significant bits are different
  let overflow1 := R.mk_xor (bit R mult_cout sz) (bit R mult_cout (sz - 1))
  let overflow2 := mk_smul_no_overflow_core.leading R a_bits b_bits
  let overflow := R.mk_or overflow1 overflow2
  let sign := if is_overflow then R.mk_iff a_msb b_msb else R.mk_xor a_msb b_msb
  R.mk_not (R.mk_and sign overflow)

def mk_smul_no_overflow : E := mk_smul_no_overflow_core C a_bits b_bits true
def mk_smul_no_underflow : E := mk_smul_no_overflow_core C a_bits b_bits false

end Definitions

/-! ### The triangle of leading bits -/

/-- A loop that accumulates a disjunction of the `x i`, and one of the `y i` conjoined with it, has
    found a `y i` with some `x j` before or at it. -/
theorem triangle {f : E × E → Nat → E × E} {x y : Nat → Bool} (hacc : ∀ s i, R.eval m (f s i).1 = (R.eval m s.1 || x i))
    (hv : ∀ s i, R.eval m (f s i).2 = ((R.eval m s.1 || x i) && y i || R.eval m s.2)) (n : Nat) :
    let s := (range' 1 n).foldl f (R.mk_false, R.mk_false)
    (R.eval m s.1 ↔ ∃ j, 1 ≤ j ∧ j ≤ n ∧ x j) ∧ (R.eval m s.2 ↔ ∃ i j, 1 ≤ j ∧ j ≤ i ∧ i ≤ n ∧ x j ∧ y i) := by
  induction n with
  | zero =>
    refine ⟨⟨by simp, ?_⟩, ⟨by simp, ?_⟩⟩
    · rintro ⟨j, hj, hle, -⟩
      omega
    · rintro ⟨i, j, hj, hle, hi, -⟩
      omega
  | succ n ih =>
    obtain ⟨ihacc, ihv⟩ := ih
    rw [range'_1_concat, foldl_append, foldl_cons, foldl_nil, Nat.add_comm 1]
    have hacc' : (R.eval m (f ((range' 1 n).foldl f (R.mk_false, R.mk_false)) (n + 1)).1 =
        true) ↔ ∃ j, 1 ≤ j ∧ j ≤ n + 1 ∧ x j := by
      rw [hacc, Bool.or_eq_true, ihacc]
      constructor
      · rintro (⟨j, hj, hle, hx⟩ | hx)
        · exact ⟨j, hj, by omega, hx⟩
        · exact ⟨n + 1, by omega, le_rfl, hx⟩
      · rintro ⟨j, hj, hle, hx⟩
        rcases Nat.lt_or_eq_of_le hle with hlt | rfl
        · exact .inl ⟨j, hj, by omega, hx⟩
        · exact .inr hx
    refine ⟨hacc', ?_⟩
    rw [hv, ← hacc, Bool.or_eq_true, Bool.and_eq_true, hacc', ihv]
    constructor
    · rintro (⟨⟨j, hj, hle, hx⟩, hy⟩ | ⟨i, j, hj, hle, hi, hx, hy⟩)
      · exact ⟨n + 1, j, hj, hle, le_rfl, hx, hy⟩
      · exact ⟨i, j, hj, hle, by omega, hx, hy⟩
    · rintro ⟨i, j, hj, hle, hi, hx, hy⟩
      rcases Nat.lt_or_eq_of_le hi with hlt | rfl
      · exact .inr ⟨i, j, hj, hle, by omega, hx, hy⟩
      · exact .inl ⟨⟨j, hj, hle, hx⟩, hy⟩

theorem eval_bit_eq_testBit (bits : List E) (i : Nat) : R.eval m (bit R bits i) = (R.num m bits).testBit i := by
  rw [eval_bit, R.testBit_num]

variable {a_bits b_bits : List E} {sz : Nat}

/-! ### Unsigned -/

/-- Two set bits whose positions add up to the width or more make the product too large. -/
theorem eval_umul_leading (ha : a_bits.length = sz) (hb : b_bits.length = sz) :
    R.eval m (mk_umul_no_overflow.leading R a_bits b_bits) ↔ ∃ k i, sz ≤ k + i ∧ (R.num m a_bits).testBit k ∧
        (R.num m b_bits).testBit i := by
  have h := (triangle (R := R) (m := m)
    (x := fun i => (R.num m a_bits).testBit (sz - i)) (y := ((R.num m b_bits).testBit))
    (f := fun (ovf, v) i =>
      let ovf := R.mk_or ovf (bit R a_bits (sz - i))
      let tmp := R.mk_and ovf (bit R b_bits i)
      (ovf, R.mk_or tmp v))
    (fun s i => by simp [eval_bit_eq_testBit]) (fun s i => by simp [eval_bit_eq_testBit])
    (sz - 1)).2
  simp only [mk_umul_no_overflow.leading, ha]
  rw [h]
  constructor
  · rintro ⟨i, j, hj, hle, hi, hx, hy⟩
    exact ⟨sz - j, i, by omega, hx, hy⟩
  · rintro ⟨k, i, hsz, hx, hy⟩
    have hk := Bits.lt_of_testBit (R.num_lt a_bits) hx
    have hi := Bits.lt_of_testBit (R.num_lt b_bits) hy
    have hkj : sz - (sz - k) = k := by omega
    exact ⟨i, sz - k, by omega, by omega, by omega, by rw [hkj]; exact hx, hy⟩

/-- If no two such bits are set, the product has at most one bit more than the operands, and that bit decides. -/
theorem eval_mk_umul_no_overflow [DecidableEq E] {C : cfg R} (ha : a_bits.length = sz) (hb : b_bits.length = sz) :
    R.eval m (mk_umul_no_overflow C a_bits b_bits) = decide (R.num m a_bits * R.num m b_bits < 2 ^ sz) := by
  have hext : (a_bits ++ [R.mk_false]).length = (b_bits ++ [R.mk_false]).length := by simp [ha, hb]
  have hmul := (num_mk_multiplier (C := C) (m := m) hext (by simp)).2
  simp only [R.num_append, length_append, hb] at hmul
  have htop : R.eval m (bit R (mk_multiplier C (a_bits ++ [R.mk_false])
      (b_bits ++ [R.mk_false])) sz) = (R.num m a_bits * R.num m b_bits).testBit sz := by
    rw [eval_bit_eq_testBit, hmul]
    simp
  have hleading := eval_umul_leading (R := R) (m := m) ha hb
  simp only [mk_umul_no_overflow, ha, R.eval_mk_not, R.eval_mk_or, htop]
  by_cases hv : R.eval m (mk_umul_no_overflow.leading R a_bits b_bits)
  · obtain ⟨k, i, hsz, hk, hi⟩ := hleading.mp hv
    have hge := Bits.two_pow_le_mul_of_testBit hk hi hsz
    simp [hv, hge]
  · have hlt : R.num m a_bits * R.num m b_bits < 2 ^ (sz + 1) := by
      by_cases hzero : R.num m a_bits = 0 ∨ R.num m b_bits = 0
      · rw [mul_eq_zero.mpr hzero]
        exact Nat.two_pow_pos _
      · rw [not_or] at hzero
        have := Bits.succ_mul_succ_le_of_testBit hzero.1 hzero.2 fun k i hk hi => by
          by_contra hge
          exact hv (hleading.mpr ⟨k, i, Nat.le_of_not_lt hge, hk, hi⟩)
        nlinarith
    rw [Bits.testBit_of_lt_two_pow_succ hlt, Bool.eq_false_of_not_eq_true hv, Bool.or_false,
      ← decide_not, decide_eq_decide]
    exact Nat.not_le

/-! ### Signed -/

/-- The number without its sign: a negative number is complemented. -/
def magnitude {sz : Nat} (x : BitVec sz) : Nat :=
  if x.msb then 2 ^ sz - (x.toNat + 1) else x.toNat

theorem toInt_eq_magnitude {sz : Nat} (x : BitVec sz) :
    x.toInt = if x.msb then -(magnitude x + 1 : Int) else magnitude x := by
  have hlt := x.isLt
  rw [BitVec.toInt_eq_msb_cond, magnitude]
  split
  · push_cast [Nat.succ_le_of_lt hlt]
    ring
  · rfl

theorem magnitude_lt {sz : Nat} (hsz : 0 < sz) (x : BitVec sz) : magnitude x < 2 ^ (sz - 1) := by
  have hpow := Nat.two_pow_pred_mul_two hsz
  rw [magnitude, x.msb_eq_decide]
  split
  next h =>
    have := of_decide_eq_true h
    omega
  next h =>
    have := mt decide_eq_true h
    omega

theorem testBit_magnitude {sz i : Nat} (x : BitVec sz) (hi : i < sz) :
    (magnitude x).testBit i = xor x.msb (x.toNat.testBit i) := by
  unfold magnitude
  cases x.msb with
  | false => simp
  | true =>
    rw [if_pos rfl, Nat.testBit_two_pow_sub_succ x.isLt]
    simp [hi]

section Smul

variable {x y : BitVec sz}

section

variable (hsz : 0 < sz)
include hsz

theorem Stands.eval_xor_msb (ha : Stands R m a_bits x) {i : Nat} (hi : i < sz) :
    R.eval m (R.mk_xor (bit R a_bits (sz - 1)) (bit R a_bits i)) = (magnitude x).testBit i := by
  rw [R.eval_mk_xor, ha.msb hsz, testBit_magnitude x hi, eval_bit_eq_testBit, ha.num_eq]

/-- For signed operands the bits are compared with the sign, so that those of the magnitudes count. -/
theorem eval_smul_leading (ha : Stands R m a_bits x) (hb : Stands R m b_bits y) :
    R.eval m (mk_smul_no_overflow_core.leading R a_bits b_bits) ↔
      ∃ k i, sz - 1 ≤ k + i ∧ (magnitude x).testBit k ∧ (magnitude y).testBit i := by
  have h := (triangle (f := fun (a_acc, v) i =>
      let b := R.mk_xor (bit R b_bits (sz - 1)) (bit R b_bits i)
      let a := R.mk_xor (bit R a_bits (sz - 1)) (bit R a_bits (sz - 1 - i))
      let a_acc := R.mk_or a a_acc
      let tmp := R.mk_and a_acc b
      (a_acc, R.mk_or tmp v))
    (fun s i => by rw [R.eval_mk_or, Bool.or_comm])
    (fun s i => by rw [R.eval_mk_or, R.eval_mk_and, R.eval_mk_or, Bool.or_comm (R.eval m s.1)])
    (sz - 2)).2
  simp only [mk_smul_no_overflow_core.leading, ha.length_eq]
  rw [h]
  constructor
  · rintro ⟨i, j, hj, hle, hi, hx, hy⟩
    rw [ha.eval_xor_msb hsz (by omega)] at hx
    rw [hb.eval_xor_msb hsz (by omega)] at hy
    exact ⟨sz - 1 - j, i, by omega, hx, hy⟩
  · rintro ⟨k, i, hki, hx, hy⟩
    have hk := Bits.lt_of_testBit (magnitude_lt hsz x) hx
    have hi := Bits.lt_of_testBit (magnitude_lt hsz y) hy
    have hkj : sz - 1 - (sz - 1 - k) = k := by omega
    refine ⟨i, sz - 1 - k, by omega, by omega, by omega, ?_, ?_⟩
    · rw [hkj, ha.eval_xor_msb hsz (by omega)]
      exact hx
    · rw [hb.eval_xor_msb hsz (by omega)]
      exact hy

/-- What the leading bits say of the product of the magnitudes. -/
theorem magnitudes_of_leading (ha : Stands R m a_bits x) (hb : Stands R m b_bits y) :
    if R.eval m (mk_smul_no_overflow_core.leading R a_bits b_bits) then
      2 ^ (sz - 1) ≤ magnitude x * magnitude y
    else (magnitude x + 1) * (magnitude y + 1) ≤ 2 * 2 ^ (sz - 1) := by
  have hleading := eval_smul_leading hsz ha hb
  split
  · obtain ⟨k, i, hki, hk, hi⟩ := hleading.mp ‹_›
    exact Bits.two_pow_le_mul_of_testBit hk hi hki
  · rename_i hv
    have hx := magnitude_lt hsz x
    have hy := magnitude_lt hsz y
    by_cases hx0 : magnitude x = 0
    · rw [hx0]
      omega
    by_cases hy0 : magnitude y = 0
    · rw [hy0]
      omega
    rw [← pow_succ']
    refine Bits.succ_mul_succ_le_of_testBit hx0 hy0 fun k i hk hi => ?_
    by_contra hge
    exact hv (hleading.mpr ⟨k, i, Nat.le_of_not_lt hge, hk, hi⟩)

/-- A sign-extended number is congruent to the signed number. -/
theorem Stands.num_sign_extend (ha : Stands R m a_bits x) :
    (R.num m (a_bits ++ [bit R a_bits (sz - 1)]) : Int) ≡ x.toInt [ZMOD 2 ^ (sz + 1)] := by
  rw [R.num_append, R.num_cons, R.num_nil, ha.msb hsz, ha.num_eq, ha.length_eq, BitVec.toInt_eq_msb_cond]
  cases x.msb with
  | false => simp
  | true =>
    refine (Int.modEq_iff_dvd.mpr ⟨-1, ?_⟩)
    simp
    ring

/-- The product in one more bit, as a signed number, is the exact product unless that is out of
    its range. -/
theorem Stands.num_mk_multiplier_sign_extend [DecidableEq E] {C : cfg R}
    (ha : Stands R m a_bits x) (hb : Stands R m b_bits y) :
    (R.num m (mk_multiplier C (a_bits ++ [bit R a_bits (sz - 1)])
      (b_bits ++ [bit R b_bits (sz - 1)])) : Int) = x.toInt * y.toInt % 2 ^ (sz + 1) := by
  have hext : (a_bits ++ [bit R a_bits (sz - 1)]).length = (b_bits ++ [bit R b_bits (sz - 1)]).length := by
    simp [ha.length_eq, hb.length_eq]
  rw [(num_mk_multiplier (C := C) (m := m) hext (by simp)).2]
  have hmod := (ha.num_sign_extend (R := R) hsz).mul (hb.num_sign_extend (R := R) hsz)
  rw [length_append, length_singleton, hb.length_eq]
  push_cast
  exact hmod

/-- Two different leading bits: the number is in the middle half of its range. -/
theorem xor_leading_bits {N : Nat} (hN : N < 2 ^ (sz + 1)) :
    xor (N.testBit sz) (N.testBit (sz - 1)) = decide (2 ^ (sz - 1) ≤ N ∧ N < 3 * 2 ^ (sz - 1)) := by
  have hlow : N.testBit (sz - 1) = decide (2 ^ (sz - 1) ≤ N % 2 ^ (sz - 1 + 1)) := by
    rw [← Bits.testBit_of_lt_two_pow_succ (Nat.mod_lt _ (Nat.two_pow_pos _))]
    simp
  rw [Bits.testBit_of_lt_two_pow_succ hN, hlow]
  have hpow := Nat.two_pow_pred_mul_two hsz
  rw [pow_succ, Nat.mul_comm _ 2]
  by_cases hlt : N < 2 * 2 ^ (sz - 1)
  · rw [Nat.mod_eq_of_lt hlt, decide_eq_false (by omega), Bool.false_xor, decide_eq_decide]
    omega
  · have hmod : N % (2 * 2 ^ (sz - 1)) = N - 2 * 2 ^ (sz - 1) := by
      rw [Nat.mod_eq_sub_mod (by omega), Nat.mod_eq_of_lt (by omega)]
    rw [decide_eq_true (by omega), Bool.true_xor, ← decide_not, decide_eq_decide]
    omega

end

theorem emod_of_near {p q : Int} (hlow : -q ≤ p) (hhigh : p < q) : p % q = if p < 0 then p + q else p := by
  split
  · rw [← Int.add_emod_right, Int.emod_eq_of_lt (by omega) (by omega)]
  · exact Int.emod_eq_of_lt (by omega) hhigh

/-- How large the product is, from the product of the magnitudes. -/
theorem product_range (x y : BitVec sz) {h : Nat} (hpos : 0 < h) :
    (h ≤ magnitude x * magnitude y → x.toInt * y.toInt < -h ∨ (h : Int) ≤ x.toInt * y.toInt) ∧
      ((magnitude x + 1) * (magnitude y + 1) ≤ 2 * h →
        -(2 * h : Int) < x.toInt * y.toInt ∧ x.toInt * y.toInt ≤ 2 * h) := by
  have hfactors (hle : h ≤ magnitude x * magnitude y) : 0 < magnitude x ∧ 0 < magnitude y :=
    CanonicallyOrderedAdd.mul_pos.mp (hpos.trans_le hle)
  have hexpand : (magnitude x + 1) * (magnitude y + 1) =
      magnitude x * magnitude y + magnitude x + magnitude y + 1 := by ring
  have hproduct : x.toInt * y.toInt = if x.msb then
        if y.msb then ((magnitude x * magnitude y) : Int) + magnitude x + magnitude y + 1
        else -((magnitude x * magnitude y) + magnitude y)
      else
        if y.msb then -((magnitude x * magnitude y) + magnitude x)
        else (magnitude x * magnitude y) := by
    rw [toInt_eq_magnitude x, toInt_eq_magnitude y]
    cases x.msb <;> cases y.msb <;> simp only [if_true, Bool.false_eq_true, if_false] <;> ring
  rw [hproduct]
  cases x.msb <;> cases y.msb <;> simp only [Bool.false_eq_true] <;>
    exact ⟨fun hle => by have := hfactors hle; omega, fun hle => by omega⟩

/-- The two tests together: the exact product is out of the range of `sz` bits. -/
theorem Stands.eval_overflow [DecidableEq E] {C : cfg R} (hsz : 0 < sz)
    (ha : Stands R m a_bits x) (hb : Stands R m b_bits y) :
    let mult_cout := mk_multiplier C (a_bits ++ [bit R a_bits (sz - 1)]) (b_bits ++ [bit R b_bits (sz - 1)])
    (xor (R.eval m (bit R mult_cout sz)) (R.eval m (bit R mult_cout (sz - 1))) ||
        R.eval m (mk_smul_no_overflow_core.leading R a_bits b_bits)) =
      decide (x.toInt * y.toInt < -2 ^ (sz - 1) ∨ 2 ^ (sz - 1) ≤ x.toInt * y.toInt) := by
  intro mult_cout
  have hN : (R.num m mult_cout : Int) = x.toInt * y.toInt % 2 ^ (sz + 1) := ha.num_mk_multiplier_sign_extend hsz hb
  have hlt : R.num m mult_cout < 2 ^ (sz + 1) := by
    zify
    rw [hN]
    exact Int.emod_lt_of_pos _ (by positivity)
  have hpow : (2 : Int) ^ (sz + 1) = 4 * ((2 ^ (sz - 1) : Nat) : Int) := by
    rw [show sz + 1 = sz - 1 + 2 by omega, pow_add]
    push_cast
    ring
  have hpos := Nat.two_pow_pos (sz - 1)
  obtain ⟨hout, hin⟩ := product_range x y hpos
  have hleading := magnitudes_of_leading hsz ha hb
  have hcast : (2 : Int) ^ (sz - 1) = ((2 ^ (sz - 1) : Nat) : Int) := by push_cast; rfl
  rw [eval_bit_eq_testBit, eval_bit_eq_testBit, xor_leading_bits hsz hlt, hcast]
  split at hleading
  · rename_i hv
    rw [hv, Bool.or_true, decide_eq_true (hout hleading)]
  · rename_i hv
    obtain ⟨hlow, hhigh⟩ := hin hleading
    rw [hpow, emod_of_near (by omega) (by omega)] at hN
    rw [Bool.eq_false_of_not_eq_true hv, Bool.or_false, decide_eq_decide]
    split at hN <;> omega

theorem Stands.eval_smul_core [DecidableEq E] {C : cfg R} (hsz : 0 < sz)
    (ha : Stands R m a_bits x) (hb : Stands R m b_bits y) (is_overflow : Bool) :
    R.eval m (mk_smul_no_overflow_core C a_bits b_bits is_overflow) =
      !((if is_overflow then x.msb == y.msb else xor x.msb y.msb) &&
        decide (x.toInt * y.toInt < -2 ^ (sz - 1) ∨ 2 ^ (sz - 1) ≤ x.toInt * y.toInt)) := by
  have hov := ha.eval_overflow (C := C) hsz hb
  simp only [mk_smul_no_overflow_core, ha.length_eq, R.eval_mk_not, R.eval_mk_and, R.eval_mk_or, R.eval_mk_xor] at hov ⊢
  rw [hov]
  cases is_overflow <;> simp [ha.msb hsz, hb.msb hsz]

/-- A product of one sign is not negative, one of two signs is not positive. -/
theorem product_sign (x y : BitVec sz) : if x.msb == y.msb then 0 ≤ x.toInt * y.toInt else x.toInt * y.toInt ≤ 0 := by
  have hx := toInt_eq_magnitude x
  have hy := toInt_eq_magnitude y
  cases hxm : x.msb <;> cases hym : y.msb <;>
    simp only [hxm, hym, if_true, Bool.false_eq_true, if_false] at hx hy
  · exact mul_nonneg (by omega) (by omega)
  · exact mul_nonpos_of_nonneg_of_nonpos (by omega) (by omega)
  · exact mul_nonpos_of_nonpos_of_nonneg (by omega) (by omega)
  · exact mul_nonneg_of_nonpos_of_nonpos (by omega) (by omega)

end Smul

/-- The three circuits are true exactly if the unsigned product is below `2 ^ sz`, the signed product is at most
`2 ^ (sz - 1) - 1`, and it is at least `-2 ^ (sz - 1)`, for both gate configurations. The two signed ones share the
product of one more bit and differ in the signs that they ask for. -/
theorem overflow_circuits_exact [DecidableEq E] (G : gates R) (m : M) (sz : Nat)
    (a_bits b_bits : List E) (hsz : 0 < sz) (ha : a_bits.length = sz) (hb : b_bits.length = sz) :
    let x := R.bv sz m a_bits
    let y := R.bv sz m b_bits
    (R.eval m (mk_umul_no_overflow G.cfg a_bits b_bits) ↔ x.toNat * y.toNat < 2 ^ sz) ∧
      (R.eval m (mk_smul_no_overflow G.cfg a_bits b_bits) ↔ x.toInt * y.toInt ≤ 2 ^ (sz - 1) - 1) ∧
      (R.eval m (mk_smul_no_underflow G.cfg a_bits b_bits) ↔ -2 ^ (sz - 1) ≤ x.toInt * y.toInt) := by
  intro x y
  have hx : Stands R m a_bits x := .of_length ha
  have hy : Stands R m b_bits y := .of_length hb
  have hsign := product_sign x y
  have hpos : (0 : Int) < 2 ^ (sz - 1) := by positivity
  refine ⟨?_, ?_, ?_⟩
  · rw [eval_mk_umul_no_overflow ha hb, decide_eq_true_eq, hx.num_eq, hy.num_eq]
  · rw [mk_smul_no_overflow, hx.eval_smul_core hsz hy]
    cases hxm : x.msb <;> cases hym : y.msb <;> simp [hxm, hym] at hsign ⊢ <;> omega
  · rw [mk_smul_no_underflow, hx.eval_smul_core hsz hy]
    cases hxm : x.msb <;> cases hym : y.msb <;> simp [hxm, hym] at hsign ⊢ <;> omega

/-- In two bits, minus two times minus two overflows, and as a product of unsigned numbers too. It does not
underflow. -/
theorem overflow_circuits_exact_two_bits :
    let m := fun v : Nat => v % 2 == 1
    let C := (gates.sorted plain.ext_gates).cfg
    ¬ plain.eval m (mk_umul_no_overflow C [.atom 0, .atom 1] [.atom 2, .atom 3]) ∧
      ¬ plain.eval m (mk_smul_no_overflow C [.atom 0, .atom 1] [.atom 2, .atom 3]) ∧
      plain.eval m (mk_smul_no_underflow C [.atom 0, .atom 1] [.atom 2, .atom 3]) := by
  intro m C
  obtain ⟨humul, hover, hunder⟩ := overflow_circuits_exact (.sorted plain.ext_gates) m 2 [.atom 0, .atom 1]
    [.atom 2, .atom 3] (by decide) rfl rfl
  exact ⟨humul.not.mpr (by decide), hover.not.mpr (by decide), hunder.mpr (by decide)⟩

end bit_blaster
