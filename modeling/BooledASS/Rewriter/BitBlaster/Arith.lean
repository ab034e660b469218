import BooledASS.Rewriter.BitBlaster.Gates

open List Bool Bits

namespace bit_blaster

variable {E M : Type} {R : bool_rewriter E M} {m : M}

/-- The number that a vector of bits stands for in a model. -/
def bool_rewriter.num (R : bool_rewriter E M) (m : M) (bits : List E) : Nat := val (bits.map (R.eval m))

/-- The bit of weight `i`. -/
def bit (R : bool_rewriter E M) (bits : List E) (i : Nat) : E := bits.getD i R.mk_false

theorem eval_bit (bits : List E) (i : Nat) : R.eval m (bit R bits i) = (bits.map (R.eval m)).getD i false := by
  by_cases hi : i < bits.length <;> simp [bit, hi]

namespace bool_rewriter

@[simp] theorem num_nil : R.num m [] = 0 := rfl

@[simp] theorem num_cons (b : E) (bits : List E) :
    R.num m (b :: bits) = (R.eval m b).toNat + 2 * R.num m bits := by
  simp [num]

theorem num_append (low high : List E) : R.num m (low ++ high) = R.num m low + 2 ^ low.length * R.num m high := by
  simp [num, val_append]

theorem num_lt (bits : List E) : R.num m bits < 2 ^ bits.length := by simpa [num] using val_lt (bits.map (R.eval m))

theorem testBit_num (bits : List E) (i : Nat) : (R.num m bits).testBit i = (bits.map (R.eval m)).getD i false :=
  testBit_val _ i

@[simp] theorem num_replicate_false (n : Nat) : R.num m (replicate n R.mk_false) = 0 := by simp [num]

end bool_rewriter

/-! ### Numerals -/

section Numerals

variable (R)

/-- The `n` low bits of `v`: blocks of 32 while more than 32 remain, then one at a time. -/
def num2bits (v n : Nat) : List E :=
  if n = 0 then []
  else if 32 < n then
    (range 32).map (fun j => if (v % 2 ^ 32).testBit j then R.mk_true else R.mk_false) ++ num2bits (v / 2 ^ 32) (n - 32)
  else (if v % 2 = 0 then R.mk_false else R.mk_true) :: num2bits (v / 2) (n - 1)
termination_by n

variable {R}

@[simp] theorem length_num2bits (v n : Nat) : (num2bits R v n).length = n := by
  fun_induction num2bits R v n with
  | case1 => rfl
  | case2 v n _ _ ih =>
    rw [length_append, length_map, length_range]
    omega
  | case3 v n _ _ ih =>
    rw [length_cons]
    omega

/-- The bits of a numeral, taken from the lowest one on by repeated division. -/
theorem num_num2bits (v n : Nat) : R.num m (num2bits R v n) = v % 2 ^ n := by
  fun_induction num2bits R v n with
  | case1 => simp [Nat.mod_one]
  | case2 v n _ hn ih =>
    have hblock : ((range 32).map fun j =>
        if (v % 2 ^ 32).testBit j then R.mk_true else R.mk_false).map (R.eval m) =
          (range 32).map (v % 2 ^ 32).testBit := by
      simp [apply_ite (R.eval m)]
    rw [R.num_append, ih, bool_rewriter.num, hblock, val_testBits, Nat.mod_mod, length_map, length_range]
    have hpow : 2 ^ n = 2 ^ 32 * 2 ^ (n - 32) := by rw [← pow_add]; congr 1; omega
    rw [hpow, Nat.mod_mul]
  | case3 v n hn _ ih =>
    have hpow : 2 ^ n = 2 * 2 ^ (n - 1) := by rw [← pow_succ']; congr 1; omega
    rw [R.num_cons, ih, hpow, Nat.mod_mul]
    congr 1
    split
    · simp [*]
    · have : v % 2 = 1 := by omega
      simp [this]

variable [DecidableEq E] (R)

def is_numeral.loop (i r : Nat) : List E → Option Nat
  | [] => some r
  | b :: bits =>
    if R.is_true b then loop (i + 1) (r + 2 ^ i) bits
    else if R.is_false b then loop (i + 1) r bits
    else none

/-- The number that constant bits stand for; `none` if a bit is not a constant. -/
def is_numeral (bits : List E) : Option Nat := is_numeral.loop R 0 0 bits

def is_minus_one (bits : List E) : Bool := bits.all R.is_true

variable {R} {bits : List E}

theorem is_numeral.loop_eq {i r n : Nat} (h : loop R i r bits = some n) : n = r + 2 ^ i * R.num m bits := by
  induction bits generalizing i r with
  | nil => simpa [loop] using h.symm
  | cons b bits ih =>
    rw [loop] at h
    split at h
    · rename_i hb
      rw [ih h, R.num_cons, bool_rewriter.eval_of_is_true hb, toNat_true]
      ring
    · split at h
      · rename_i hb
        rw [ih h, R.num_cons, bool_rewriter.eval_of_is_false hb, toNat_false]
        ring
      · cases h

/-- A numeral is the value of its bits in every model. -/
theorem num_of_is_numeral {n : Nat} (h : is_numeral R bits = some n) (m : M) : R.num m bits = n := by
  simpa using (is_numeral.loop_eq h).symm

theorem is_numeral.loop_isSome {i r : Nat} (h : ∀ b ∈ bits, R.is_bool_const b) : ∃ n, loop R i r bits = some n := by
  induction bits generalizing i r with
  | nil => exact ⟨r, rfl⟩
  | cons b bits ih =>
    have hb := h b (by simp)
    have hrest := fun e he => h e (mem_cons_of_mem b he)
    rw [bool_rewriter.is_bool_const, or_eq_true] at hb
    rw [loop]
    split
    · exact ih hrest
    · rw [if_pos (hb.resolve_left ‹_›)]
      exact ih hrest

theorem is_numeral_of_consts (h : ∀ b ∈ bits, R.is_bool_const b) : ∃ n, is_numeral R bits = some n :=
  is_numeral.loop_isSome h

theorem num_of_is_minus_one (h : is_minus_one R bits) : R.num m bits + 1 = 2 ^ bits.length := by
  have hbits : bits.map (R.eval m) = replicate bits.length true := by
    rw [eq_replicate_iff]
    refine ⟨by simp, fun v hv => ?_⟩
    obtain ⟨b, hb, rfl⟩ := mem_map.mp hv
    exact bool_rewriter.eval_of_is_true (all_eq_true.mp h b hb) m
  rw [bool_rewriter.num, hbits, val_replicate_true]

end Numerals

/-! ### Negation, addition, subtraction -/

def mk_neg.loop (R : bool_rewriter E M) (cin : E) : List E → List E
  | [] => []
  | [a] => [R.mk_xor (R.mk_not a) cin]
  | a :: a_bits =>
    let not_a := R.mk_not a
    -- `mk_half_adder`
    R.mk_xor not_a cin :: loop R (R.mk_and not_a cin) a_bits

def mk_neg (R : bool_rewriter E M) (a_bits : List E) : List E := mk_neg.loop R R.mk_true a_bits

variable (C : cfg R)

def mk_adder.loop (cin : E) : List E → List E → List E
  | [a], [b] => [C.mk_xor3 a b cin]
  | a :: a_bits, b :: b_bits =>
    -- `mk_full_adder`
    C.mk_xor3 a b cin :: loop (C.mk_carry a b cin) a_bits b_bits
  | _, _ => []

def mk_adder (a_bits b_bits : List E) : List E := mk_adder.loop C R.mk_false a_bits b_bits

/-- The difference bits and the carry out of the last full adder. -/
def mk_subtracter.loop (cin : E) : List E → List E → List E × E
  | a :: a_bits, b :: b_bits =>
    let not_b := R.mk_not b
    let (out_bits, cout) := loop (C.mk_carry a not_b cin) a_bits b_bits
    (C.mk_xor3 a not_b cin :: out_bits, cout)
  | _, _ => ([], cin)

def mk_subtracter (a_bits b_bits : List E) : List E × E := mk_subtracter.loop C R.mk_true a_bits b_bits

@[simp] theorem mk_neg.length_loop (cin : E) (a_bits : List E) :
    (mk_neg.loop R cin a_bits).length = a_bits.length := by
  fun_induction mk_neg.loop R cin a_bits <;> simp_all

@[simp] theorem length_mk_neg (a_bits : List E) : (mk_neg R a_bits).length = a_bits.length := mk_neg.length_loop _ _

/-- The half adders add the carry to the complement, up to a carry out of the last bit. -/
theorem mk_neg.num_loop (cin : E) (a_bits : List E) :
    ∃ cout, R.num m (mk_neg.loop R cin a_bits) + 2 ^ a_bits.length * cout + R.num m a_bits + 1 =
      2 ^ a_bits.length + (R.eval m cin).toNat := by
  fun_induction loop R cin a_bits with
  | case1 cin => exact ⟨(R.eval m cin).toNat, by simp; omega⟩
  | case2 cin a =>
    refine ⟨(!R.eval m a && R.eval m cin).toNat, ?_⟩
    have h := half_adder (!R.eval m a) (R.eval m cin)
    have hnot : (!R.eval m a).toNat + (R.eval m a).toNat = 1 := by cases R.eval m a <;> rfl
    simp only [R.num_cons, R.num_nil, R.eval_mk_xor, R.eval_mk_not, length_singleton]
    omega
  | case3 cin a a_bits _ not_a ih =>
    obtain ⟨cout, ih⟩ := ih
    refine ⟨cout, ?_⟩
    have h := half_adder (!R.eval m a) (R.eval m cin)
    have hnot : (!R.eval m a).toNat + (R.eval m a).toNat = 1 := by cases R.eval m a <;> rfl
    simp only [not_a, R.eval_mk_and, R.eval_mk_not] at ih
    simp only [R.num_cons, R.eval_mk_xor, R.eval_mk_not, length_cons, not_a, pow_succ, mul_right_comm _ 2 cout]
    omega

theorem num_mk_neg (a_bits : List E) :
    R.num m (mk_neg R a_bits) = (2 ^ a_bits.length - R.num m a_bits) % 2 ^ a_bits.length := by
  obtain ⟨cout, h⟩ := mk_neg.num_loop (m := m) R.mk_true a_bits
  have hlt := R.num_lt (m := m) (mk_neg R a_bits)
  rw [length_mk_neg] at hlt
  rw [R.eval_mk_true, toNat_true] at h
  have hsum : 2 ^ a_bits.length - R.num m a_bits = R.num m (mk_neg R a_bits) + 2 ^ a_bits.length * cout := by
    rw [mk_neg]
    omega
  rw [hsum, Nat.add_mul_mod_self_left, Nat.mod_eq_of_lt hlt]

variable {C} {a_bits b_bits e_bits t_bits : List E} {cin c : E}

@[simp] theorem mk_adder.loop_cons {a b : E} (hne : a_bits ≠ []) :
    mk_adder.loop C cin (a :: a_bits) (b :: b_bits) =
      C.mk_xor3 a b cin :: mk_adder.loop C (C.mk_carry a b cin) a_bits b_bits := by
  cases a_bits with
  | nil => exact (hne rfl).elim
  | cons => rfl

theorem mk_adder.length_loop (hlen : a_bits.length = b_bits.length) :
    (mk_adder.loop C cin a_bits b_bits).length = a_bits.length := by
  induction a_bits, b_bits, hlen using induction_two generalizing cin with
  | nil => rfl
  | cons a a_bits b b_bits hlen ih =>
    by_cases hne : a_bits = []
    · subst hne
      obtain rfl := eq_nil_of_length_eq_zero hlen.symm
      rfl
    · rw [loop_cons hne, length_cons, length_cons, ih]

@[simp] theorem length_mk_adder (hlen : a_bits.length = b_bits.length) :
    (mk_adder C a_bits b_bits).length = a_bits.length :=
  mk_adder.length_loop hlen

/-- The full adders add the vectors and the carry, up to a carry out of the last bit. -/
theorem mk_adder.num_loop (cin : E) (hlen : a_bits.length = b_bits.length) :
    ∃ cout, R.num m (mk_adder.loop C cin a_bits b_bits) + 2 ^ a_bits.length * cout =
      R.num m a_bits + R.num m b_bits + (R.eval m cin).toNat := by
  induction a_bits, b_bits, hlen using induction_two generalizing cin with
  | nil => exact ⟨(R.eval m cin).toNat, by simp [loop]⟩
  | cons a a_bits b b_bits hlen ih =>
    have h := full_adder (R.eval m a) (R.eval m b) (R.eval m cin)
    by_cases hne : a_bits = []
    · subst hne
      obtain rfl := eq_nil_of_length_eq_zero hlen.symm
      refine ⟨(atLeastTwo (R.eval m a) (R.eval m b) (R.eval m cin)).toNat, ?_⟩
      simp only [loop, R.num_cons, R.num_nil, C.eval_mk_xor3, length_singleton]
      omega
    · obtain ⟨cout, ih⟩ := ih (C.mk_carry a b cin)
      refine ⟨cout, ?_⟩
      rw [C.eval_mk_carry] at ih
      simp only [loop_cons hne, R.num_cons, C.eval_mk_xor3, length_cons, pow_succ, mul_right_comm _ 2 cout]
      omega

section

variable (hlen : a_bits.length = b_bits.length)
include hlen

theorem num_mk_adder : R.num m (mk_adder C a_bits b_bits) = (R.num m a_bits + R.num m b_bits) % 2 ^ a_bits.length := by
  obtain ⟨cout, h⟩ := mk_adder.num_loop R.mk_false hlen
  have hlt := R.num_lt (m := m) (mk_adder C a_bits b_bits)
  rw [length_mk_adder hlen] at hlt
  rw [R.eval_mk_false, toNat_false, Nat.add_zero] at h
  rw [← h, Nat.add_mul_mod_self_left, ← mk_adder, Nat.mod_eq_of_lt hlt]

theorem mk_subtracter.length_loop : (mk_subtracter.loop C cin a_bits b_bits).1.length = a_bits.length := by
  induction a_bits, b_bits, hlen using induction_two generalizing cin with
  | nil => rfl
  | cons a a_bits b b_bits hlen ih => simp [loop, ih]

@[simp] theorem length_mk_subtracter :
    (mk_subtracter C a_bits b_bits).1.length = a_bits.length :=
  mk_subtracter.length_loop hlen

end

/-- Subtraction adds the complement of the second operand, which is `2 ^ n - 1` less that operand, and the carry into
the lowest bit. -/
theorem mk_subtracter.num_loop (cin : E) (hlen : a_bits.length = b_bits.length) :
    R.num m (loop C cin a_bits b_bits).1 +
        2 ^ a_bits.length * (R.eval m (loop C cin a_bits b_bits).2).toNat + R.num m b_bits + 1 =
      R.num m a_bits + 2 ^ a_bits.length + (R.eval m cin).toNat := by
  induction a_bits, b_bits, hlen using induction_two generalizing cin with
  | nil =>
    simp only [loop, R.num_nil, length_nil]
    omega
  | cons a a_bits b b_bits hlen ih =>
    have ih := ih (C.mk_carry a (R.mk_not b) cin)
    have h := full_adder (R.eval m a) (!R.eval m b) (R.eval m cin)
    have hnot : (!R.eval m b).toNat + (R.eval m b).toNat = 1 := by cases R.eval m b <;> rfl
    rw [C.eval_mk_carry, R.eval_mk_not] at ih
    simp only [loop, R.num_cons, C.eval_mk_xor3, R.eval_mk_not, length_cons, pow_succ,
      mul_right_comm _ 2 (Bool.toNat _)]
    omega

/-- The carry out of a subtraction says that no borrow was needed, and then the difference bits
    are the difference. -/
theorem mk_subtracter_spec (hlen : a_bits.length = b_bits.length) :
    R.eval m (mk_subtracter C a_bits b_bits).2 = decide (R.num m b_bits ≤ R.num m a_bits) ∧
      (R.num m b_bits ≤ R.num m a_bits →
        R.num m (mk_subtracter C a_bits b_bits).1 = R.num m a_bits - R.num m b_bits) := by
  have h := mk_subtracter.num_loop (C := C) (m := m) R.mk_true hlen
  have hlt := R.num_lt (m := m) (mk_subtracter C a_bits b_bits).1
  rw [length_mk_subtracter hlen] at hlt
  rw [R.eval_mk_true, toNat_true, ← mk_subtracter] at h
  cases hcout : R.eval m (mk_subtracter C a_bits b_bits).2 with
  | true =>
    rw [hcout, toNat_true] at h
    exact ⟨by simp; omega, fun _ => by omega⟩
  | false =>
    rw [hcout, toNat_false] at h
    exact ⟨by simp; omega, fun _ => by omega⟩

/-! ### Selection, comparison, extension -/

def mk_multiplexer (R : bool_rewriter E M) (c : E) (t_bits e_bits : List E) : List E :=
  zipWith (R.mk_ite c) t_bits e_bits

def mk_eq (R : bool_rewriter E M) (a_bits b_bits : List E) : E := R.mk_and_args (zipWith R.mk_iff a_bits b_bits)

/-- The first `sz` bits, then `n` zeros. -/
def mk_zero_extend (R : bool_rewriter E M) (sz : Nat) (a_bits : List E) (n : Nat) : List E :=
  a_bits.take sz ++ replicate n R.mk_false

def mk_abs [DecidableEq E] (R : bool_rewriter E M) (a_bits : List E) : List E :=
  let a_msb := bit R a_bits (a_bits.length - 1)
  if R.is_false a_msb then a_bits
  else if R.is_true a_msb then mk_neg R a_bits
  else mk_multiplexer R a_msb (mk_neg R a_bits) a_bits

section

variable (hlen : t_bits.length = e_bits.length)
include hlen

@[simp] theorem length_mk_multiplexer :
    (mk_multiplexer R c t_bits e_bits).length = t_bits.length := by
  simp [mk_multiplexer, hlen]

theorem eval_mk_multiplexer :
    (mk_multiplexer R c t_bits e_bits).map (R.eval m) =
      if R.eval m c then t_bits.map (R.eval m) else e_bits.map (R.eval m) := by
  induction t_bits, e_bits, hlen using induction_two with
  | nil => simp [mk_multiplexer]
  | cons t t_bits e e_bits hlen ih =>
    rw [mk_multiplexer] at ih ⊢
    rw [zipWith_cons_cons, map_cons, ih, R.eval_mk_ite]
    split <;> rfl

theorem num_mk_multiplexer :
    R.num m (mk_multiplexer R c t_bits e_bits) = if R.eval m c then R.num m t_bits else R.num m e_bits := by
  rw [bool_rewriter.num, eval_mk_multiplexer hlen, apply_ite val]
  rfl

end

theorem eval_mk_eq (hlen : a_bits.length = b_bits.length) :
    R.eval m (mk_eq R a_bits b_bits) = decide (R.num m a_bits = R.num m b_bits) := by
  rw [mk_eq, R.eval_mk_and_args]
  induction a_bits, b_bits, hlen using induction_two with
  | nil => simp
  | cons a a_bits b b_bits hlen ih =>
    rw [zipWith_cons_cons, all_cons, R.eval_mk_iff, R.num_cons, R.num_cons]
    cases R.eval m a <;> cases R.eval m b <;> simp <;> omega

theorem num_mk_zero_extend {sz n : Nat} (hsz : sz ≤ a_bits.length) :
    R.num m (mk_zero_extend R sz a_bits n) = R.num m a_bits % 2 ^ sz := by
  have hsplit := R.num_append (m := m) (a_bits.take sz) (a_bits.drop sz)
  have hlt := R.num_lt (m := m) (a_bits.take sz)
  rw [length_take_of_le hsz] at hsplit hlt
  rw [take_append_drop] at hsplit
  rw [mk_zero_extend, R.num_append, R.num_replicate_false, Nat.mul_zero, Nat.add_zero, hsplit,
    Nat.add_mul_mod_self_left, Nat.mod_eq_of_lt hlt]

/-- The leading bit is set exactly for the numbers from half the range on. -/
theorem eval_msb (bits : List E) (hsz : 0 < bits.length) :
    R.eval m (bit R bits (bits.length - 1)) = decide (2 ^ (bits.length - 1) ≤ R.num m bits) := by
  obtain ⟨low, b, rfl⟩ := (eq_nil_or_concat bits).resolve_left (ne_nil_of_length_pos hsz)
  have hlow := R.num_lt (m := m) low
  rw [concat_eq_append, R.num_append]
  cases hb : R.eval m b <;> simp [bit, hb, hlow]

end bit_blaster
