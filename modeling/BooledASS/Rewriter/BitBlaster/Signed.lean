import BooledASS.Rewriter.BitBlaster.Divider

open Bool BitVec

namespace bit_blaster

variable {E M : Type} {R : bool_rewriter E M} {m : M}

/-- The bit-vector that a vector of bits stands for in a model. -/
def bool_rewriter.bv (R : bool_rewriter E M) (sz : Nat) (m : M) (bits : List E) : BitVec sz :=
  BitVec.ofNat sz (R.num m bits)

/-- The bits of a vector stand for a bit-vector in a model. -/
structure Stands (R : bool_rewriter E M) (m : M) {sz : Nat} (bits : List E) (x : BitVec sz) :
    Prop where
  length_eq : bits.length = sz
  num_eq : R.num m bits = x.toNat

namespace Stands

variable {C : cfg R} {sz : Nat} {a_bits b_bits : List E} {x y : BitVec sz}

theorem of_length (ha : a_bits.length = sz) : Stands R m a_bits (R.bv sz m a_bits) := by
  subst ha
  exact ⟨rfl, by rw [bool_rewriter.bv, toNat_ofNat, Nat.mod_eq_of_lt (R.num_lt a_bits)]⟩

theorem neg (ha : Stands R m a_bits x) : Stands R m (mk_neg R a_bits) (-x) := by
  refine ⟨(length_mk_neg a_bits).trans ha.length_eq, ?_⟩
  rw [num_mk_neg, toNat_neg, ha.num_eq, ha.length_eq]

theorem add (ha : Stands R m a_bits x) (hb : Stands R m b_bits y) : Stands R m (mk_adder C a_bits b_bits) (x + y) := by
  have hlen := ha.length_eq.trans hb.length_eq.symm
  refine ⟨(length_mk_adder hlen).trans ha.length_eq, ?_⟩
  rw [num_mk_adder hlen, toNat_add, ha.num_eq, hb.num_eq, ha.length_eq]

theorem udiv (hsz : 0 < sz) (ha : Stands R m a_bits x) (hb : Stands R m b_bits y) :
    Stands R m (mk_udiv C a_bits b_bits) (x.smtUDiv y) := by
  have hlen := ha.length_eq.trans hb.length_eq.symm
  have hpos : 0 < b_bits.length := hsz.trans_eq hb.length_eq.symm
  refine ⟨(length_mk_udiv_urem hlen hpos).1.trans hb.length_eq, ?_⟩
  have hzero : y = BitVec.ofNat sz 0 ↔ y.toNat = 0 := by simp [BitVec.toNat_eq]
  rw [num_mk_udiv hlen hpos, BitVec.smtUDiv_eq, ha.num_eq, hb.num_eq, hb.length_eq]
  by_cases h : y.toNat = 0
  · rw [if_pos h, if_pos (hzero.mpr h), BitVec.toNat_allOnes]
  · rw [if_neg h, if_neg (mt hzero.mp h), BitVec.toNat_udiv]

theorem urem (hsz : 0 < sz) (ha : Stands R m a_bits x) (hb : Stands R m b_bits y) :
    Stands R m (mk_urem C a_bits b_bits) (x.umod y) := by
  have hlen := ha.length_eq.trans hb.length_eq.symm
  have hpos : 0 < b_bits.length := hsz.trans_eq hb.length_eq.symm
  refine ⟨(length_mk_udiv_urem hlen hpos).2.trans hb.length_eq, ?_⟩
  rw [num_mk_urem hlen hpos, ha.num_eq, hb.num_eq]
  rfl

theorem mux {c : E} (ha : Stands R m a_bits x) (hb : Stands R m b_bits y) :
    Stands R m (mk_multiplexer R c a_bits b_bits) (if R.eval m c then x else y) := by
  have hlen := ha.length_eq.trans hb.length_eq.symm
  refine ⟨(length_mk_multiplexer hlen).trans ha.length_eq, ?_⟩
  rw [num_mk_multiplexer hlen, ha.num_eq, hb.num_eq, apply_ite BitVec.toNat]

theorem msb (hsz : 0 < sz) (ha : Stands R m a_bits x) : R.eval m (bit R a_bits (sz - 1)) = x.msb := by
  have hlen := ha.length_eq
  rw [msb_eq_decide, ← ha.num_eq, ← hlen]
  exact eval_msb a_bits (hsz.trans_eq hlen.symm)

theorem eq_zero (ha : Stands R m a_bits x) :
    R.eval m (mk_eq R a_bits (num2bits R 0 sz)) = decide (x = BitVec.ofNat sz 0) := by
  rw [eval_mk_eq (by simp [ha.length_eq]), num_num2bits, ha.num_eq, decide_eq_decide, BitVec.toNat_eq]
  simp

theorem abs [DecidableEq E] (hsz : 0 < sz) (ha : Stands R m a_bits x) :
    Stands R m (mk_abs R a_bits) (if x.msb then -x else x) := by
  have hmsb := ha.msb hsz
  unfold mk_abs
  simp only [ha.length_eq]
  split
  · rw [← hmsb, bool_rewriter.eval_of_is_false ‹_›]
    exact ha
  · split
    · rw [← hmsb, bool_rewriter.eval_of_is_true ‹_›]
      exact ha.neg
    · rw [← hmsb]
      exact ha.neg.mux ha

end Stands

/-! ### The signed circuits -/

section Signed

variable [DecidableEq E] (C : cfg R) (a_bits b_bits : List E)

def mk_sdiv : List E :=
  let a_msb := bit R a_bits (a_bits.length - 1)
  let b_msb := bit R b_bits (a_bits.length - 1)
  if R.is_false a_msb && R.is_false b_msb then mk_udiv C a_bits b_bits
  else if R.is_false a_msb && R.is_true b_msb then mk_neg R (mk_udiv C a_bits (mk_neg R b_bits))
  else if R.is_true a_msb && R.is_false b_msb then mk_neg R (mk_udiv C (mk_neg R a_bits) b_bits)
  else if R.is_true a_msb && R.is_true b_msb then mk_udiv C (mk_neg R a_bits) (mk_neg R b_bits)
  else
    let udiv_bits := mk_udiv C (mk_abs R a_bits) (mk_abs R b_bits)
    mk_multiplexer R (R.mk_iff a_msb b_msb) udiv_bits (mk_neg R udiv_bits)

/-- The exponent of a power of two. -/
def is_power_of_two (n : Nat) : Option Nat :=
  if 2 ^ n.log2 = n then some n.log2 else none

/-- The remainder of the magnitudes; that by a known power of two is a mask. -/
def mk_srem.magnitude (abs_a_bits abs_b_bits : List E) : List E :=
  match (is_numeral R abs_b_bits).bind is_power_of_two with
  | some shift => mk_zero_extend R shift abs_a_bits (abs_a_bits.length - shift)
  | none => mk_urem C abs_a_bits abs_b_bits

def mk_srem : List E :=
  let a_msb := bit R a_bits (a_bits.length - 1)
  let b_msb := bit R b_bits (a_bits.length - 1)
  if R.is_false a_msb && R.is_false b_msb then mk_urem C a_bits b_bits
  else if R.is_false a_msb && R.is_true b_msb then mk_urem C a_bits (mk_neg R b_bits)
  else if R.is_true a_msb && R.is_false b_msb then mk_neg R (mk_urem C (mk_neg R a_bits) b_bits)
  else if R.is_true a_msb && R.is_true b_msb then
    mk_neg R (mk_urem C (mk_neg R a_bits) (mk_neg R b_bits))
  else
    let urem_bits := mk_srem.magnitude C (mk_abs R a_bits) (mk_abs R b_bits)
    mk_multiplexer R a_msb (mk_neg R urem_bits) urem_bits

def mk_smod : List E :=
  let a_msb := bit R a_bits (a_bits.length - 1)
  let b_msb := bit R b_bits (a_bits.length - 1)
  let u_bits := mk_urem C (mk_abs R a_bits) (mk_abs R b_bits)
  let neg_u_bits := mk_neg R u_bits
  let neg_u_add_b := mk_adder C neg_u_bits b_bits
  let u_add_b := mk_adder C u_bits b_bits
  let u_eq_0 := mk_eq R u_bits (num2bits R 0 a_bits.length)
  let ite1 := mk_multiplexer R b_msb neg_u_bits neg_u_add_b
  let ite2 := mk_multiplexer R b_msb u_add_b u_bits
  let body := mk_multiplexer R a_msb ite1 ite2
  mk_multiplexer R u_eq_0 u_bits body

variable {C a_bits b_bits} {sz : Nat}

/-- Signed division of bit-vectors through the magnitudes. -/
theorem smtSDiv_eq_abs {x y : BitVec sz} :
    x.smtSDiv y = let u := (if x.msb then -x else x).smtUDiv (if y.msb then -y else y)
      if x.msb == y.msb then u else -u := by
  unfold smtSDiv
  cases x.msb <;> cases y.msb <;> rfl

theorem srem_eq_abs {x y : BitVec sz} :
    x.srem y = let u := (if x.msb then -x else x).umod (if y.msb then -y else y)
      if x.msb then -u else u := by
  unfold srem
  cases x.msb <;> cases y.msb <;> rfl

theorem Stands.msb_of_is_true {x : BitVec sz} (hsz : 0 < sz) (ha : Stands R m a_bits x)
    (h : R.is_true (bit R a_bits (sz - 1))) : x.msb := by
  rw [← ha.msb hsz, bool_rewriter.eval_of_is_true h]

theorem Stands.msb_of_is_false {x : BitVec sz} (hsz : 0 < sz) (ha : Stands R m a_bits x)
    (h : R.is_false (bit R a_bits (sz - 1))) : x.msb = false := by
  rw [← ha.msb hsz, bool_rewriter.eval_of_is_false h]

section Circuits

variable {x y : BitVec sz}

/-- Division of the magnitudes, with the sign of the quotient from both operands; where a sign is a constant only the
needed cases are built. -/
theorem Stands.sdiv (hsz : 0 < sz) (ha : Stands R m a_bits x) (hb : Stands R m b_bits y) :
    Stands R m (mk_sdiv C a_bits b_bits) (x.smtSDiv y) := by
  rw [smtSDiv_eq_abs]
  unfold mk_sdiv
  simp only [ha.length_eq]
  split
  · rename_i h
    rw [and_eq_true] at h
    simp only [ha.msb_of_is_false hsz h.1, hb.msb_of_is_false hsz h.2]
    exact ha.udiv hsz hb
  split
  · rename_i h
    rw [and_eq_true] at h
    simp only [ha.msb_of_is_false hsz h.1, hb.msb_of_is_true hsz h.2]
    exact (ha.udiv hsz hb.neg).neg
  split
  · rename_i h
    rw [and_eq_true] at h
    simp only [ha.msb_of_is_true hsz h.1, hb.msb_of_is_false hsz h.2]
    exact (ha.neg.udiv hsz hb).neg
  split
  · rename_i h
    rw [and_eq_true] at h
    simp only [ha.msb_of_is_true hsz h.1, hb.msb_of_is_true hsz h.2]
    exact ha.neg.udiv hsz hb.neg
  · have hu := (ha.abs hsz).udiv (C := C) hsz (hb.abs hsz)
    have hmux := hu.mux (c := R.mk_iff (bit R a_bits (sz - 1)) (bit R b_bits (sz - 1))) hu.neg
    rw [R.eval_mk_iff, ha.msb hsz, hb.msb hsz] at hmux
    exact hmux

theorem is_power_of_two_eq {n shift : Nat} (h : is_power_of_two n = some shift) : n = 2 ^ shift := by
  unfold is_power_of_two at h
  split at h
  · cases h
    exact Eq.symm ‹_›
  · cases h

/-- The mask agrees with the divider. -/
theorem Stands.srem_magnitude (hsz : 0 < sz) (ha : Stands R m a_bits x) (hb : Stands R m b_bits y) :
    Stands R m (mk_srem.magnitude C a_bits b_bits) (x.umod y) := by
  unfold mk_srem.magnitude
  split
  · rename_i shift h
    obtain ⟨n, hn, hpow⟩ := Option.bind_eq_some_iff.mp h
    have hy : y.toNat = 2 ^ shift := by rw [← hb.num_eq, num_of_is_numeral hn, is_power_of_two_eq hpow]
    have hshift : shift < sz := by
      have := y.isLt
      rw [hy] at this
      exact (Nat.pow_lt_pow_iff_right (by decide)).mp this
    have hle : shift ≤ a_bits.length := by
      rw [ha.length_eq]
      exact hshift.le
    refine ⟨?_, ?_⟩
    · have := ha.length_eq
      simp only [mk_zero_extend, List.length_append, List.length_take, List.length_replicate]
      omega
    · rw [num_mk_zero_extend hle, ha.num_eq, ← hy]
      rfl
  · exact ha.urem hsz hb

/-- Division of the magnitudes, with the sign of the remainder from the dividend. -/
theorem Stands.srem (hsz : 0 < sz) (ha : Stands R m a_bits x) (hb : Stands R m b_bits y) :
    Stands R m (mk_srem C a_bits b_bits) (x.srem y) := by
  rw [srem_eq_abs]
  unfold mk_srem
  simp only [ha.length_eq]
  split
  · rename_i h
    rw [and_eq_true] at h
    simp only [ha.msb_of_is_false hsz h.1, hb.msb_of_is_false hsz h.2]
    exact ha.urem hsz hb
  split
  · rename_i h
    rw [and_eq_true] at h
    simp only [ha.msb_of_is_false hsz h.1, hb.msb_of_is_true hsz h.2]
    exact ha.urem hsz hb.neg
  split
  · rename_i h
    rw [and_eq_true] at h
    simp only [ha.msb_of_is_true hsz h.1, hb.msb_of_is_false hsz h.2]
    exact (ha.neg.urem hsz hb).neg
  split
  · rename_i h
    rw [and_eq_true] at h
    simp only [ha.msb_of_is_true hsz h.1, hb.msb_of_is_true hsz h.2]
    exact (ha.neg.urem hsz hb.neg).neg
  · have hu := (ha.abs hsz).srem_magnitude (C := C) hsz (hb.abs hsz)
    have hmux := hu.neg.mux (c := bit R a_bits (sz - 1)) hu
    rw [ha.msb hsz] at hmux
    exact hmux

/-- The order of the tests of the source: a zero remainder comes before the signs. -/
theorem smod_eq_abs {x y : BitVec sz} :
    x.smod y = let u := (if x.msb then -x else x).umod (if y.msb then -y else y)
      if u = BitVec.ofNat sz 0 then u
      else if x.msb then (if y.msb then -u else -u + y) else (if y.msb then u + y else u) := by
  unfold BitVec.smod
  cases x.msb with
  | false =>
    cases y.msb with
    | false => exact (ite_self _).symm
    | true => rfl
  | true =>
    cases y.msb with
    | false =>
      have hsub : ∀ u : BitVec sz, y.sub u = -u + y := fun u => by
        rw [BitVec.add_comm]
        exact BitVec.sub_eq_add_neg y u
      simp only [hsub]
      rfl
    | true =>
      have hneg : ∀ u : BitVec sz, -u = if u = BitVec.ofNat sz 0 then u else -u := fun u => by
        split
        · rw [‹u = BitVec.ofNat sz 0›, BitVec.neg_zero]
        · rfl
      exact hneg _

/-- The remainder with the sign of the divisor: the unsigned remainder of the absolute values, adjusted in each of the
four cases of the signs unless it is 0. -/
theorem Stands.smod (hsz : 0 < sz) (ha : Stands R m a_bits x) (hb : Stands R m b_bits y) :
    Stands R m (mk_smod C a_bits b_bits) (x.smod y) := by
  have hu := (ha.abs hsz).urem (C := C) hsz (hb.abs hsz)
  have hn := hu.neg.mux (c := bit R b_bits (sz - 1)) (hu.neg.add (C := C) hb)
  have hp := (hu.add (C := C) hb).mux (c := bit R b_bits (sz - 1)) hu
  have hbody := hn.mux (c := bit R a_bits (sz - 1)) hp
  have hmux := hu.mux (c := mk_eq R (mk_urem C (mk_abs R a_bits) (mk_abs R b_bits)) (num2bits R 0 sz)) hbody
  rw [hu.eq_zero, ha.msb hsz, hb.msb hsz] at hmux
  rw [smod_eq_abs]
  unfold mk_smod
  simp only [ha.length_eq]
  simpa only [decide_eq_true_eq] using hmux

end Circuits

/-- The signed circuits are `bvsdiv`, `bvsrem` and `bvsmod`, which `BitVec` defines by the signs of
    the operands from `bvudiv`, `bvurem` and `bvneg`, whatever is known of the bits. -/
theorem signed_division_smtlib (G : gates R) (m : M) (sz : Nat) (a_bits b_bits : List E)
    (hsz : 0 < sz) (ha : a_bits.length = sz) (hb : b_bits.length = sz) :
    Stands R m (mk_sdiv G.cfg a_bits b_bits) ((R.bv sz m a_bits).smtSDiv (R.bv sz m b_bits)) ∧
      Stands R m (mk_srem G.cfg a_bits b_bits) ((R.bv sz m a_bits).srem (R.bv sz m b_bits)) ∧
      Stands R m (mk_smod G.cfg a_bits b_bits) ((R.bv sz m a_bits).smod (R.bv sz m b_bits)) := by
  have ha := Stands.of_length (R := R) (m := m) ha
  have hb := Stands.of_length (R := R) (m := m) hb
  exact ⟨ha.sdiv hsz hb, ha.srem hsz hb, ha.smod hsz hb⟩

/-- The least number divided by minus one in four bits, with a sign that is known. -/
theorem signed_division_smtlib_least :
    let m := fun _ : Nat => true
    let a_bits := [plain.expr.mk_false, .mk_false, .mk_false, .mk_true]
    let b_bits := [plain.expr.atom 0, .atom 1, .atom 2, .atom 3]
    Stands plain m (mk_sdiv (gates.sorted plain.ext_gates).cfg a_bits b_bits)
        ((plain.bv 4 m a_bits).smtSDiv (plain.bv 4 m b_bits)) ∧
      Stands plain m (mk_srem (gates.sorted plain.ext_gates).cfg a_bits b_bits)
        ((plain.bv 4 m a_bits).srem (plain.bv 4 m b_bits)) ∧
      Stands plain m (mk_smod (gates.sorted plain.ext_gates).cfg a_bits b_bits)
        ((plain.bv 4 m a_bits).smod (plain.bv 4 m b_bits)) :=
  signed_division_smtlib (.sorted plain.ext_gates) (fun _ => true) 4
    [.mk_false, .mk_false, .mk_false, .mk_true] [.atom 0, .atom 1, .atom 2, .atom 3]
    (by decide) rfl rfl

end Signed

end bit_blaster
