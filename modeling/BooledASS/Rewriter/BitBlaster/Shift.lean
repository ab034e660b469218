import Mathlib.Data.List.GetD
import BooledASS.Rewriter.BitBlaster.Signed

open List BitVec

namespace bit_blaster

variable {E M : Type} {R : bool_rewriter E M} {m : M}

/-! ### Bits and bit-vectors -/

section Bits

variable {sz : Nat} {bits : List E} {x : BitVec sz}

theorem Stands.bit (h : Stands R m bits x) (i : Nat) : R.eval m (bit R bits i) = x.getLsbD i := by
  rw [eval_bit, ← R.testBit_num, h.num_eq]
  rfl

theorem Stands.of_bits (hlen : bits.length = sz)
    (h : ∀ i < sz, R.eval m (bit_blaster.bit R bits i) = x.getLsbD i) : Stands R m bits x := by
  refine ⟨hlen, Nat.eq_of_testBit_eq fun i => ?_⟩
  rw [R.testBit_num, ← eval_bit]
  by_cases hi : i < sz
  · exact h i hi
  · have hbit : bit_blaster.bit R bits i = R.mk_false := by
      rw [bit_blaster.bit, getD_eq_default]
      omega
    rw [hbit, R.eval_mk_false]
    exact (getLsbD_of_ge x i (by omega)).symm

theorem bit_append {low high : List E} {i : Nat} :
    bit R (low ++ high) i = if i < low.length then bit R low i else bit R high (i - low.length) := by
  unfold bit
  split
  · rw [getD_append _ _ _ _ ‹_›]
  · rw [getD_append_right _ _ _ _ (by omega)]

theorem bit_replicate {n i : Nat} {e : E} (hi : i < n) : bit R (replicate n e) i = e := by simp [bit, hi]
theorem bit_take {n i : Nat} (hi : i < n) : bit R (bits.take n) i = bit R bits i := by simp [bit, hi]
theorem bit_drop {n i : Nat} : bit R (bits.drop n) i = bit R bits (n + i) := by simp [bit]

theorem bit_map_range {n i : Nat} {f : Nat → E} (hi : i < n) : bit R ((range n).map f) i = f i := by
  simp [bit, hi]

end Bits

/-! ### The barrel of stages -/

section Barrel

variable (R) (fill : E)

/-- One stage, by the distance that `src` stands for: a position takes its source if the bit is
    set, or `fill` if it has none. -/
def barrel.stage (src : Nat → Option Nat) (b : E) (out_bits : List E) : List E :=
  (range out_bits.length).map fun j =>
    R.mk_ite b ((src j).elim fill (bit R out_bits)) (bit R out_bits j)

/-- The stages for the bits of the distance from weight `2 ^ i` on while that is below `sz`; the
    outputs, and the bits that are left. -/
def barrel.stages (sz : Nat) (src : Nat → Nat → Option Nat) (i : Nat) :
    List E → List E → List E × List E
  | [], out_bits => (out_bits, [])
  | b :: b_bits, out_bits =>
    let shift_i := 2 ^ i
    if shift_i ≥ sz then (out_bits, b :: b_bits)
    else stages sz src (i + 1) b_bits (barrel.stage R fill (src shift_i) b out_bits)

def barrel (src : Nat → Nat → Option Nat) (a_bits b_bits : List E) : List E :=
  let (out_bits, rest) := barrel.stages R fill a_bits.length src 0 b_bits a_bits
  let is_large := rest.foldl R.mk_or R.mk_false
  out_bits.map (R.mk_ite is_large fill)

end Barrel

section Shifts

variable [DecidableEq E] (R) (a_bits b_bits : List E)

def mk_shl : List E :=
  let sz := a_bits.length
  match is_numeral R b_bits with
  | some k =>
    let n := min k sz
    replicate n R.mk_false ++ a_bits.take (sz - n)
  | none =>
    barrel R R.mk_false (fun shift j => if shift ≤ j then some (j - shift) else none) a_bits b_bits

def mk_lshr : List E :=
  let sz := a_bits.length
  match is_numeral R b_bits with
  | some k =>
    let n := min k sz
    a_bits.drop n ++ replicate n R.mk_false
  | none =>
    barrel R R.mk_false (fun shift j => if shift + j < sz then some (j + shift) else none) a_bits b_bits

def mk_ashr : List E :=
  let sz := a_bits.length
  let high_bit := bit R a_bits (sz - 1)
  match is_numeral R b_bits with
  | some k =>
    let n := min k sz
    a_bits.drop n ++ replicate n high_bit
  | none =>
    barrel R high_bit (fun shift j => if shift + j < sz then some (j + shift) else none) a_bits b_bits

end Shifts

/-- The stages shift by distances that add up, and a distance of `sz` or more leaves only the
    fill. -/
structure Shifts (R : bool_rewriter E M) (m : M) {sz : Nat} (fill : E)
    (src : Nat → Nat → Option Nat) (shifted : Nat → BitVec sz) : Prop where
  step : ∀ n s j, j < sz → (src s j).elim (R.eval m fill) (shifted n).getLsbD = (shifted (n + s)).getLsbD j
  large : ∀ n j, sz ≤ n → j < sz → (shifted n).getLsbD j = R.eval m fill

namespace Shifts

variable {sz : Nat} {fill : E} {src : Nat → Nat → Option Nat} {shifted : Nat → BitVec sz}

theorem stage (h : Shifts R m fill src shifted) {out_bits : List E} {n : Nat} (hout : Stands R m out_bits (shifted n))
    (b : E) (s : Nat) : Stands R m (barrel.stage R fill (src s) b out_bits) (shifted (n + s * (R.eval m b).toNat)) := by
  refine .of_bits (by simp [barrel.stage, hout.length_eq]) fun j hj => ?_
  rw [barrel.stage, hout.length_eq, bit_map_range hj, R.eval_mk_ite]
  cases R.eval m b with
  | false => exact hout.bit j
  | true =>
    rw [Bool.toNat_true, Nat.mul_one, ← h.step n s j hj]
    cases src s j with
    | none => rfl
    | some k => exact hout.bit k

/-- The stages shift by the bits they consume; what they leave has a weight of at least `sz`. -/
theorem stages (h : Shifts R m fill src shifted) (i : Nat) (b_bits out_bits : List E) {n : Nat}
    (hout : Stands R m out_bits (shifted n)) :
    ∃ n' i', Stands R m (barrel.stages R fill sz src i b_bits out_bits).1 (shifted n') ∧
      n' + 2 ^ i' * R.num m (barrel.stages R fill sz src i b_bits out_bits).2 = n + 2 ^ i * R.num m b_bits ∧
      ((barrel.stages R fill sz src i b_bits out_bits).2 = [] ∨ sz ≤ 2 ^ i') := by
  induction b_bits generalizing i out_bits n with
  | nil => exact ⟨n, i, hout, rfl, .inl rfl⟩
  | cons b b_bits ih =>
    rw [barrel.stages]
    split
    · exact ⟨n, i, hout, rfl, .inr ‹_›⟩
    · obtain ⟨n', i', hstands, hsum, hrest⟩ := ih (i + 1) _ (h.stage hout b (2 ^ i))
      refine ⟨n', i', hstands, ?_, hrest⟩
      rw [hsum, R.num_cons]
      ring

end Shifts

/-- The bits that are left are or-ed together: some of them is set. -/
theorem eval_foldl_mk_or (rest : List E) (e : E) :
    R.eval m (rest.foldl R.mk_or e) = (R.eval m e || decide (R.num m rest ≠ 0)) := by
  induction rest generalizing e with
  | nil => simp
  | cons b rest ih =>
    rw [foldl_cons, ih, R.eval_mk_or, R.num_cons]
    cases R.eval m b <;> simp

namespace Shifts

variable {sz : Nat} {fill : E} {src : Nat → Nat → Option Nat} {shifted : Nat → BitVec sz}

/-- One stage for each bit of the distance whose weight is below the width. A bit above them that is set fills every
position. -/
theorem barrel (h : Shifts R m fill src shifted) {a_bits b_bits : List E} (ha : Stands R m a_bits (shifted 0)) :
    Stands R m (bit_blaster.barrel R fill src a_bits b_bits) (shifted (R.num m b_bits)) := by
  obtain ⟨n, i, hout, hsum, hrest⟩ := h.stages 0 b_bits a_bits ha
  rw [Nat.zero_add, pow_zero, Nat.one_mul] at hsum
  rw [bit_blaster.barrel, ha.length_eq]
  generalize barrel.stages R fill sz src 0 b_bits a_bits = s at *
  refine .of_bits (by simp [hout.length_eq]) fun j hj => ?_
  have hbit : bit R (s.1.map (R.mk_ite (s.2.foldl R.mk_or R.mk_false) fill)) j =
      R.mk_ite (s.2.foldl R.mk_or R.mk_false) fill (bit R s.1 j) := by
    have := hout.length_eq
    simp [bit, this, hj]
  rw [hbit, R.eval_mk_ite, eval_foldl_mk_or, R.eval_mk_false]
  split
  · rename_i hne
    have hne := of_decide_eq_true hne
    have hlarge : sz ≤ R.num m b_bits := by
      rcases hrest with hnil | hle
      · rw [hnil] at hne
        exact (hne rfl).elim
      · have := Nat.le_mul_of_pos_right (2 ^ i) (Nat.pos_of_ne_zero hne)
        omega
    exact (h.large _ j hlarge hj).symm
  · rename_i hzero
    have hzero : R.num m s.2 = 0 := by simpa using hzero
    rw [hzero] at hsum
    rw [← hsum]
    exact hout.bit j

end Shifts

/-! ### The three shifts -/

section Shifted

variable {sz : Nat} {a_bits b_bits : List E} {x y : BitVec sz}

theorem shifts_shl (x : BitVec sz) :
    Shifts R m R.mk_false (fun shift j => if shift ≤ j then some (j - shift) else none) (x <<< ·) := by
  refine ⟨fun n s j hj => ?_, fun n j hn hj => ?_⟩
  · rw [getLsbD_shiftLeft, decide_eq_true hj]
    split
    · have hjn : j - s < n ↔ j < n + s := by omega
      rw [Option.elim_some, getLsbD_shiftLeft, decide_eq_true (by omega),
        decide_eq_decide.mpr hjn, Nat.sub_sub, Nat.add_comm s n]
    · simp [show j < n + s by omega]
  · simp [show j < n by omega]

theorem shifts_lshr (x : BitVec sz) :
    Shifts R m R.mk_false (fun shift j => if shift + j < sz then some (j + shift) else none) (x >>> ·) := by
  refine ⟨fun n s j hj => ?_, fun n j hn hj => ?_⟩
  · simp only [getLsbD_ushiftRight]
    split
    · simp [Nat.add_assoc, Nat.add_comm s j]
    · rw [getLsbD_of_ge x _ (by omega)]
      simp
  · rw [getLsbD_ushiftRight, getLsbD_of_ge x _ (by omega), R.eval_mk_false]

theorem shifts_ashr {high_bit : E} (hhigh : R.eval m high_bit = x.msb) :
    Shifts R m high_bit (fun shift j => if shift + j < sz then some (j + shift) else none) x.sshiftRight := by
  refine ⟨fun n s j hj => ?_, fun n j hn hj => ?_⟩
  · rw [getLsbD_sshiftRight, decide_eq_false (Nat.not_le.mpr hj)]
    split
    · rw [Option.elim_some, getLsbD_sshiftRight, decide_eq_false (by omega), Nat.add_assoc n s j, Nat.add_comm s j]
    · rw [if_neg (by omega)]
      simp [hhigh]
  · simp [getLsbD_sshiftRight, hhigh, show ¬ n + j < sz by omega, show ¬ sz ≤ j by omega]

variable [DecidableEq E]

theorem Stands.shl (ha : Stands R m a_bits x) (hb : Stands R m b_bits y) :
    Stands R m (mk_shl R a_bits b_bits) (x <<< y.toNat) := by
  rw [mk_shl, ← hb.num_eq]
  split
  · rename_i k hk
    rw [num_of_is_numeral hk, ha.length_eq]
    refine .of_bits (by simp [ha.length_eq]) fun j hj => ?_
    rw [bit_append, length_replicate, getLsbD_shiftLeft]
    split
    · rw [bit_replicate ‹_›]
      simp [show j < k by omega]
    · rw [bit_take (by omega), ha.bit]
      have hmin : min k sz = k := by omega
      simp [hmin, hj, show ¬ j < k by omega]
  · exact (shifts_shl x).barrel (by simpa using ha)

theorem Stands.lshr (ha : Stands R m a_bits x) (hb : Stands R m b_bits y) :
    Stands R m (mk_lshr R a_bits b_bits) (x >>> y.toNat) := by
  rw [mk_lshr, ← hb.num_eq]
  split
  · rename_i k hk
    rw [num_of_is_numeral hk]
    refine .of_bits (by simp [ha.length_eq]) fun j hj => ?_
    rw [bit_append, length_drop, ha.length_eq, getLsbD_ushiftRight]
    split
    · rw [bit_drop, ha.bit]
      congr 1
      omega
    · rw [bit_replicate (by omega), R.eval_mk_false, getLsbD_of_ge x _ (by omega)]
  · rw [ha.length_eq]
    exact (shifts_lshr x).barrel (by simpa using ha)

/-- Distances from the width on fill all bits with the sign. -/
theorem Stands.ashr (hsz : 0 < sz) (ha : Stands R m a_bits x) (hb : Stands R m b_bits y) :
    Stands R m (mk_ashr R a_bits b_bits) (x.sshiftRight y.toNat) := by
  rw [mk_ashr, ← hb.num_eq]
  split
  · rename_i k hk
    rw [num_of_is_numeral hk]
    refine .of_bits (by simp [ha.length_eq]) fun j hj => ?_
    rw [bit_append, length_drop, ha.length_eq, getLsbD_sshiftRight]
    split
    · rw [bit_drop, ha.bit, if_pos (by omega)]
      have hmin : min k sz = k := by omega
      simp [hmin, hj]
    · rw [bit_replicate (by omega), ha.msb hsz, if_neg (by omega)]
      simp [hj]
  · rw [ha.length_eq]
    exact (shifts_ashr (ha.msb hsz)).barrel (by simpa using ha)

end Shifted

end bit_blaster
