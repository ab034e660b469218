import Mathlib.Data.Nat.Bitwise

/-! Ternary bit-vectors (`tbv`), and numerals that are written into a range of their positions. -/

open List Function BitVec

/-- Neither value, one of the two, or both. -/
inductive tbit
  | BIT_z
  | BIT_0
  | BIT_1
  | BIT_x
deriving DecidableEq

namespace tbit

/-- `value & 2`. -/
def high : tbit → Bool
  | BIT_z | BIT_0 => false
  | BIT_1 | BIT_x => true

/-- `value & 1`. -/
def low : tbit → Bool
  | BIT_z | BIT_1 => false
  | BIT_0 | BIT_x => true

/-- `(high << 1) | low`. -/
def of_bits : Bool → Bool → tbit
  | false, false => BIT_z
  | false, true => BIT_0
  | true, false => BIT_1
  | true, true => BIT_x

@[simp] theorem of_bits_high_low (b : tbit) : of_bits b.high b.low = b := by cases b <;> rfl

end tbit

/-- The bits of a `fixed_bit_vector`, two for each position. -/
abbrev tbv := Nat → Bool

namespace tbv

def get (bv : tbv) (index : Nat) : tbit := .of_bits (bv (2 * index)) (bv (2 * index + 1))

def set (dst : tbv) (index : Nat) (value : tbit) : tbv :=
  update (update dst (2 * index) value.high) (2 * index + 1) value.low

/-- `set` of a word. C++ does not define `1ULL << i` for `i` from 64 on; the machine shifts by `i % 64`. -/
def set_uint64 (dst : tbv) (val : BitVec 64) (hi lo : Nat) : tbv :=
  (range (hi - lo + 1)).foldl
    (fun dst i => dst.set (lo + i) (if val &&& 1#64 <<< (i % 64) ≠ 0 then .BIT_1 else .BIT_0)) dst

/-- `set` of a `rational`. -/
def set_rational (dst : tbv) (r hi lo : Nat) : tbv :=
  if r < 2 ^ 64 then
    dst.set_uint64 (BitVec.ofNat 64 r) hi lo
  else
    (range (hi - lo + 1)).foldl (fun dst i => dst.set (lo + i) (if r.testBit i then .BIT_1 else .BIT_0)) dst

variable (dst : tbv) {i j hi lo r : Nat}

theorem get_set (value : tbit) : (dst.set i value).get j = if j = i then value else dst.get j := by
  split
  next h => simp [h, get, set]
  next h =>
    have hbit (b b') k (hk : k = 2 * j ∨ k = 2 * j + 1) :
        update (update dst (2 * i) b) (2 * i + 1) b' k = dst k := by
      rw [update_of_ne (by omega), update_of_ne (by omega)]
    simp [get, set, hbit]

/-- A loop over a range writes the positions of the range. -/
theorem get_foldl_set (value : Nat → tbit) (n : Nat) :
    ((range n).foldl (fun dst i => dst.set (lo + i) (value i)) dst).get j =
      if lo ≤ j ∧ j < lo + n then value (j - lo) else dst.get j := by
  induction n with
  | zero => rw [if_neg (by omega)]; rfl
  | succ n ih =>
    rw [range_succ, foldl_append, foldl_cons, foldl_nil, get_set, ih]
    by_cases hj : j = lo + n
    · rw [if_pos hj, if_pos (by omega), hj, Nat.add_sub_cancel_left]
    · rw [if_neg hj]
      exact if_congr (by omega) rfl rfl

theorem get_set_uint64 (val : BitVec 64) (hle : lo ≤ hi) : (dst.set_uint64 val hi lo).get j = if lo ≤ j ∧
    j ≤ hi then if val.getLsbD ((j - lo) % 64) then .BIT_1 else .BIT_0 else dst.get j := by
  have hbit k : (val &&& 1#64 <<< (k % 64) ≠ 0) ↔ val.getLsbD (k % 64) := by
    have hne : twoPow 64 (k % 64) ≠ 0#64 := fun h => by simpa [Nat.mod_lt] using congrArg (·.getLsbD (k % 64)) h
    rw [← twoPow_eq, and_twoPow]
    split <;> simp [*]
  rw [set_uint64, get_foldl_set]
  exact if_congr (by omega) (if_congr (hbit _) rfl rfl) rfl

theorem get_set_rational_of_lt (hr : r < 2 ^ 64) (hle : lo ≤ hi) (hi' : i ≤ hi - lo) :
    (dst.set_rational r hi lo).get (lo + i) = if r.testBit (i % 64) then .BIT_1 else .BIT_0 := by
  have hbit : (BitVec.ofNat 64 r).getLsbD (i % 64) = r.testBit (i % 64) := by
    rw [getLsbD_ofNat, decide_eq_true (Nat.mod_lt i (by decide)), Bool.true_and]
  rw [set_rational, if_pos hr, get_set_uint64 dst _ hle, if_pos (by omega), Nat.add_sub_cancel_left, hbit]

/-- Writing a numeral is exact if and only if the numeral does not fit a word, so that `get_bit` is used, or the
range ends before its lowest set bit comes back: a word is repeated every 64 positions. Positions outside of the
range stay as they are in every case. -/
theorem get_set_rational (hle : lo ≤ hi) :
    ((∀ i ≤ hi - lo, (dst.set_rational r hi lo).get (lo + i) = if r.testBit i then .BIT_1 else .BIT_0) ↔
      2 ^ 64 ≤ r ∨ ∀ k, r.testBit k → hi - lo < k + 64) ∧
    ∀ j, j < lo ∨ hi < j → (dst.set_rational r hi lo).get j = dst.get j := by
  refine ⟨⟨fun h => ?_, fun h i hi' => ?_⟩, fun j hj => ?_⟩
  · by_contra hnot
    obtain ⟨hr, k, hk, hlow⟩ : r < 2 ^ 64 ∧ ∃ k, r.testBit k ∧ k + 64 ≤ hi - lo := by simpa using hnot
    have hk64 : k < 64 := (Nat.pow_lt_pow_iff_right (by decide)).mp ((Nat.ge_two_pow_of_testBit hk).trans_lt hr)
    have hzero : r.testBit (k + 64) = false :=
      Nat.testBit_lt_two_pow (hr.trans_le (Nat.pow_le_pow_right (by decide) (by omega)))
    have hpos := h (k + 64) hlow
    rw [get_set_rational_of_lt dst hr hle hlow, Nat.add_mod_right, Nat.mod_eq_of_lt hk64, if_pos hk, hzero] at hpos
    cases hpos
  · rcases lt_or_ge r (2 ^ 64) with hr | hr
    · rw [get_set_rational_of_lt dst hr hle hi']
      rcases lt_or_ge i 64 with hi64 | hi64
      · rw [Nat.mod_eq_of_lt hi64]
      · -- no bit of the word comes back in the range
        have hzero : r.testBit i = false :=
          Nat.testBit_lt_two_pow (hr.trans_le (Nat.pow_le_pow_right (by decide) hi64))
        rw [hzero, if_neg fun hk => ?_]
        · rfl
        · have := (h.resolve_left (Nat.not_le.mpr hr)) _ hk
          omega
    · rw [set_rational, if_neg (Nat.not_lt.mpr hr), get_foldl_set, if_pos (by omega), Nat.add_sub_cancel_left]
  · unfold set_rational
    split
    next => rw [get_set_uint64 dst _ hle, if_neg (by omega)]
    next => rw [get_foldl_set, if_neg (by omega)]

/-- The numeral 2 in 65 positions: its set bit would come back at position 65. -/
theorem get_set_rational_two : (set_rational (fun _ => true) 2 64 0).get (0 + 64) = .BIT_0 :=
  ((get_set_rational (r := 2) _ (by decide)).1.mpr (.inr fun k hk => by
    have hk1 : k = 1 := by
      by_contra hne
      rw [show (2 : Nat) = 2 ^ 1 from rfl, Nat.testBit_two_pow_of_ne (Ne.symm hne)] at hk
      cases hk
    subst hk1
    decide)) 64 (by decide)

/-- Position 64 gets the first bit again. -/
theorem set_rational_wide : (set_rational (fun _ => true) 1 64 0).get 64 = .BIT_1 ∧ Nat.testBit 1 64 = false := by
  rw [set_rational, if_pos (by decide), get_set_uint64 _ _ (by decide)]
  decide

end tbv
