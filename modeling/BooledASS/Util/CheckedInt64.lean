import Mathlib.Data.Int.Basic

namespace checked_int64

abbrev INT64_MIN : Int := -9223372036854775808
abbrev INT64_MAX : Int := 9223372036854775807
abbrev Fits (v : Int) : Prop := INT64_MIN ≤ v ∧ v ≤ INT64_MAX

/-- How an operation ends without a value. -/
inductive failure where
  | overflow_exception
  -- a machine operation whose result does not fit
  | undefined
  | out_of_fuel

abbrev Result := Except failure

def overflow {α : Type} : Result α := .error .overflow_exception

/-- A machine operation on signed words, by its mathematical result. -/
def signed (v : Int) : Result Int := if Fits v then .ok v else .error .undefined

/-- `static_cast<uint64_t>`, and the arithmetic on unsigned words. -/
def uint64 (v : Int) : Int := v % 18446744073709551616

/-- `static_cast<int64_t>` -/
def int64 (u : Int) : Int := (u + 9223372036854775808) % 18446744073709551616 - 9223372036854775808

variable (a b : Int)

def abs : Result Int := if a ≥ 0 then .ok a else if a = INT64_MIN then overflow else signed (-a)
def neg : Result Int := if a = INT64_MIN then overflow else signed (-a)

/-- `operator+=` -/
def add : Result Int :=
  let r := int64 (uint64 (uint64 a + uint64 b))
  if a > 0 ∧ b > 0 ∧ r ≤ 0 then overflow else if a < 0 ∧ b < 0 ∧ r ≥ 0 then overflow else .ok r

/-- `operator-=` -/
def sub : Result Int :=
  let r := int64 (uint64 (uint64 a - uint64 b))
  if a > 0 ∧ b < 0 ∧ r ≤ 0 then overflow else if a < 0 ∧ b > 0 ∧ r ≥ 0 then overflow else .ok r

/-- The operand of the unsigned product. -/
def magnitude : Result Int := if a < 0 then signed (-a) else .ok a

/-- `operator*=` with another object; the first test is that of `INT_MIN` and `INT_MAX`. The source looks at the sign
of `other.m_value` after it has stored the product in `m_value`, so that `a *= a` is another function: from -2^31 down
it makes the product of two negative numbers negative. -/
def mul : Result Int :=
  if -2147483648 < a ∧ a ≤ 2147483647 ∧ -2147483648 < b ∧ b ≤ 2147483647 then signed (a * b)
  else if a = 0 ∨ b = 0 ∨ a = 1 ∨ b = 1 then signed (a * b)
  else if a = INT64_MIN ∨ b = INT64_MIN then overflow
  else do
    let x ← magnitude a
    let y ← magnitude b
    let r := uint64 (x * y)
    if y ≠ 0 ∧ r / y ≠ x ∨ r > INT64_MAX then overflow
    else if a < 0 ∧ b > 0 then signed (-r) else if a > 0 ∧ b < 0 then signed (-r) else .ok r

/-- `operator/=` -/
def quot : Result Int := if b = 0 then overflow else signed (a.tdiv b)

/-- `operator%=`, which is undefined where the quotient is. -/
def rem : Result Int := if b = 0 then overflow else (signed (a.tdiv b)).bind fun _ => .ok (a.tmod b)

def div : Result Int := do
  let result ← quot a b
  if a < 0 then
    let r ← rem a b
    if r ≠ 0 then (if b < 0 then add result 1 else sub result 1) else .ok result
  else .ok result

def mod : Result Int := do
  let result ← rem a b
  if result < 0 then (if b > 0 then add result b else sub result b) else .ok result

def divides : Result Bool := do
  let r ← mod b a
  .ok (decide (r = 0))

def gcd.loop : Nat → Int → Int → Result Int
  | 0, _, _ => .error .out_of_fuel
  | fuel + 1, a, b => if b = 0 then .ok a else (mod a b).bind (loop fuel b)

def gcd (fuel : Nat) : Result Int := do
  let a ← abs a
  let b ← abs b
  if a = 0 then .ok b else gcd.loop fuel a b

/-- The operation throws or returns the value. -/
def Exact {α : Type} (r : Result α) (v : α) : Prop := r = overflow ∨ r = .ok v

namespace Exact

variable {α β : Type} {r : Result α} {v : α}

theorem bind {f : α → Result β} {w : β} (h : Exact r v) (hf : Exact (f v) w) : Exact (r.bind f) w := by
  obtain rfl | rfl := h
  · exact .inl rfl
  · exact hf

theorem guard {c : Prop} [Decidable c] (h : ¬c → Exact r v) : Exact (if c then overflow else r) v := by
  split
  · exact .inl rfl
  · exact h ‹_›

theorem signed {v w : Int} (hw : Fits w) (heq : v = w) : Exact (signed v) w := by
  subst heq
  exact .inr (if_pos hw)

end Exact

variable {a b}

theorem exact_neg (ha : Fits a) : Exact (neg a) (-a) := .guard fun h => .signed (by grind) rfl

theorem exact_abs (ha : Fits a) : Exact (abs a) a.natAbs := by
  unfold abs
  split
  · exact .inr (congrArg _ (by omega))
  · exact .guard fun h => .signed (by grind) (by omega)

theorem exact_add (ha : Fits a) (hb : Fits b) : Exact (add a b) (a + b) :=
  .guard fun h1 => .guard fun h2 => .inr (congrArg _ (by unfold int64 uint64 at *; grind))

theorem exact_sub (ha : Fits a) (hb : Fits b) (h : ¬(a = 0 ∧ b = INT64_MIN)) : Exact (sub a b) (a - b) :=
  .guard fun h1 => .guard fun h2 => .inr (congrArg _ (by unfold int64 uint64 at *; grind))

theorem magnitude_eq (ha : Fits a) (hne : a ≠ INT64_MIN) : magnitude a = .ok a.natAbs := by
  unfold magnitude
  split
  · rw [signed, if_pos (by grind)]
    exact congrArg _ (by omega)
  · exact congrArg _ (by omega)

/-- Operands of 32 bits are multiplied at once. For others the magnitudes are multiplied modulo `2 ^ 64` and an
overflow is found by dividing the product again. -/
theorem exact_mul (ha : Fits a) (hb : Fits b) : Exact (mul a b) (a * b) := by
  unfold mul
  split
  · have hle := Nat.mul_le_mul (show a.natAbs ≤ 2147483648 by omega) (show b.natAbs ≤ 2147483648 by omega)
    rw [← Int.natAbs_mul] at hle
    exact .signed (by grind) rfl
  split
  next hone => exact .signed (by rcases hone with rfl | rfl | rfl | rfl <;> grind) rfl
  next hone =>
    refine .guard fun hmin => ?_
    obtain ⟨ha', hb'⟩ := not_or.mp hmin
    rw [magnitude_eq ha ha', magnitude_eq hb hb']
    refine .guard fun hover => ?_
    obtain ⟨hdiv, hle⟩ := not_or.mp hover
    -- the product did not wrap: divided by one factor it gives the other
    have hr : uint64 (a.natAbs * b.natAbs) = (a * b).natAbs := by
      have hmul := Int.ediv_mul_le (uint64 (a.natAbs * b.natAbs)) (b := b.natAbs) (by omega)
      rw [not_not.mp fun hne => hdiv ⟨by omega, hne⟩] at hmul
      rw [← Int.natCast_mul, ← Int.natAbs_mul, uint64] at *
      omega
    rw [hr] at hle ⊢
    split_ifs with h1 h2
    · have hsign := Int.mul_neg_of_neg_of_pos h1.1 h1.2
      exact .signed (by grind) (by omega)
    · have hsign := Int.mul_neg_of_pos_of_neg h2.1 h2.2
      exact .signed (by grind) (by omega)
    · have hsign : 0 ≤ a * b := by
        rcases Int.lt_or_gt_of_ne (show a ≠ 0 by omega) with ha0 | ha0
        · exact Int.mul_nonneg_of_nonpos_of_nonpos (by omega) (by omega)
        · exact Int.mul_nonneg (by omega) (by omega)
      exact .inr (congrArg _ (by omega))

section Division

variable (ha : Fits a) (h : ¬(a = INT64_MIN ∧ b = -1))
include ha h

/-- The quotient fits with one exception. -/
theorem fits_tdiv : Fits (a.tdiv b) := by
  have hcases : b = 0 ∨ b = 1 ∨ b = -1 ∨ 2 ≤ b.natAbs := by omega
  rcases hcases with rfl | rfl | rfl | hb
  · grind [Int.tdiv_zero]
  · rwa [Int.tdiv_one]
  · rw [Int.tdiv_neg, Int.tdiv_one]
    grind
  · have hle : (a.tdiv b).natAbs ≤ a.natAbs / 2 := Int.natAbs_tdiv a b ▸ Nat.div_le_div_left hb (by decide)
    grind

theorem exact_quot : Exact (quot a b) (a.tdiv b) := .guard fun _ => .signed (fits_tdiv ha h) rfl
theorem exact_rem : Exact (rem a b) (a.tmod b) := .guard fun _ => (Exact.signed (fits_tdiv ha h) rfl).bind (.inr rfl)

/-- The quotient rounds to zero, and is corrected by one if the dividend is negative and the division leaves a rest.
-/
theorem exact_div : Exact (div a b) (a / b) := by
  by_cases hb0 : b = 0
  · subst hb0
    exact .inl rfl
  have hdiv := @Int.tdiv_eq_ediv a b
  refine (exact_quot ha h).bind ?_
  split
  next hneg =>
    refine (exact_rem ha h).bind ?_
    have hdvd := @Int.dvd_iff_tmod_eq_zero b a
    split_ifs with hr hb
    · have hval : a.tdiv b + 1 = a / b := by grind [Int.sign_eq_neg_one_of_neg]
      exact hval ▸ exact_add (fits_tdiv ha h) (by decide)
    · have hval : a.tdiv b - 1 = a / b := by grind [Int.sign_eq_one_of_pos]
      exact hval ▸ exact_sub (fits_tdiv ha h) (by decide) (by grind)
    · exact .inr (congrArg _ (by grind))
  next => exact .inr (congrArg _ (Int.tdiv_eq_ediv_of_nonneg (by omega)))

/-- The remainder is made non-negative by adding the absolute value of the divisor. -/
theorem exact_mod (hb : Fits b) : Exact (mod a b) (a % b) := by
  by_cases hb0 : b = 0
  · subst hb0
    exact .inl rfl
  have hnonneg := Int.emod_nonneg a hb0
  have hlt := Int.emod_lt a hb0
  have hmod := @Int.tmod_eq_emod a b
  refine (exact_rem ha h).bind ?_
  split_ifs with hneg hpos
  · have hval : a.tmod b + b = a % b := by grind
    exact hval ▸ exact_add (by grind) hb
  · have hval : a.tmod b - b = a % b := by grind
    exact hval ▸ exact_sub (by grind) hb (by omega)
  · exact .inr (congrArg _ (by grind))

end Division

theorem exact_gcd_loop {fuel : Nat} (hfuel : b.natAbs < fuel) (ha : Fits a) (hb : Fits b) (hb0 : 0 ≤ b) (ha0 : 0 ≤ a) :
    Exact (gcd.loop fuel a b) (Int.gcd a b) := by
  induction fuel generalizing a b with
  | zero => omega
  | succ fuel ih =>
    unfold gcd.loop
    split
    next h => exact .inr (congrArg _ (by rw [h, Int.gcd_zero_right]; omega))
    next h =>
      have hlt := Int.emod_lt_of_pos a (show 0 < b by omega)
      have hnonneg := Int.emod_nonneg a h
      refine (exact_mod ha (by omega) hb).bind ?_
      rw [← Int.gcd_emod, Int.gcd_comm]
      exact ih (by omega) hb (by grind) hnonneg hb0

/-- The greatest common divisor is exact, or the operation throws because the absolute value of an operand does not
fit. -/
theorem exact_gcd {fuel : Nat} (hfuel : b.natAbs < fuel) (ha : Fits a) (hb : Fits b) :
    Exact (gcd a b fuel) (Int.gcd a b) := by
  by_cases ha' : a = INT64_MIN
  · subst ha'
    exact .inl rfl
  refine (exact_abs ha).bind ?_
  by_cases hb' : b = INT64_MIN
  · subst hb'
    exact .inl rfl
  refine (exact_abs hb).bind ?_
  split
  next h => exact .inr (congrArg _ (by simp_all))
  next =>
    exact exact_gcd_loop hfuel (by grind) (by grind) (by omega) (by omega)

/-- What does not throw is exact, apart from zero minus the least number and the quotient of the least number by minus
one. -/
theorem operations_exact_iff (a b : Int) (ha : Fits a) (hb : Fits b) :
    Exact (add a b) (a + b) ∧ Exact (mul a b) (a * b) ∧ Exact (neg a) (-a) ∧ Exact (abs a) a.natAbs ∧
    (∀ fuel > b.natAbs, Exact (gcd a b fuel) (Int.gcd a b)) ∧
    (Exact (sub a b) (a - b) ↔ ¬(a = 0 ∧ b = INT64_MIN)) ∧
    (Exact (quot a b) (a.tdiv b) ↔ ¬(a = INT64_MIN ∧ b = -1)) ∧
    (Exact (rem a b) (a.tmod b) ↔ ¬(a = INT64_MIN ∧ b = -1)) ∧
    (Exact (div a b) (a / b) ↔ ¬(a = INT64_MIN ∧ b = -1)) ∧
    (Exact (mod a b) (a % b) ↔ ¬(a = INT64_MIN ∧ b = -1)) ∧
    (Exact (divides b a) (decide (b ∣ a)) ↔ ¬(a = INT64_MIN ∧ b = -1)) := by
  refine ⟨exact_add ha hb, exact_mul ha hb, exact_neg ha, exact_abs ha, fun fuel hfuel => exact_gcd hfuel ha hb,
    ⟨?_, exact_sub ha hb⟩, ⟨?_, exact_quot ha⟩, ⟨?_, exact_rem ha⟩, ⟨?_, exact_div ha⟩,
    ⟨?_, fun h => exact_mod ha h hb⟩,
    ?_, fun h => (exact_mod ha h hb).bind (.inr (congrArg _ (decide_eq_decide.mpr Int.dvd_iff_emod_eq_zero.symm)))⟩
  all_goals
    rintro he ⟨rfl, rfl⟩
    rcases he with he | he <;> cases he

/-- The Euclidean quotient of minus seven by two. -/
theorem operations_exact_iff_seven : Exact (div (-7) 2) (-7 / 2) :=
  (operations_exact_iff (-7) 2 (by decide) (by decide)).2.2.2.2.2.2.2.2.1.mpr (by decide)

/-- Zero minus the least number wraps, and the quotient of the least number by minus one is undefined. -/
theorem sub_wraps_to_min : sub 0 INT64_MIN = .ok INT64_MIN ∧
    quot INT64_MIN (-1) = .error .undefined ∧ ¬ Exact (sub 0 INT64_MIN) (0 - INT64_MIN) := by
  refine ⟨rfl, rfl, ?_⟩
  rintro (h | h) <;> cases h

end checked_int64
