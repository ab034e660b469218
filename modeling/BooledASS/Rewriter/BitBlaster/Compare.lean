import BooledASS.Rewriter.BitBlaster.Signed

open List Bool

namespace bit_blaster

variable {E M : Type}

/-- The disjunction of three expressions that the Boolean rewriter builds. -/
structure or_gate (R : bool_rewriter E M) where
  mk_or : E → E → E → E
  eval_mk_or : ∀ m a b c, R.eval m (mk_or a b c) = (R.eval m a || R.eval m b || R.eval m c)

variable {R : bool_rewriter E M} {m : M} {a_bits b_bits : List E} {sz : Nat} {x y : BitVec sz}

theorem Stands.sub {C : cfg R} (ha : Stands R m a_bits x) (hb : Stands R m b_bits y) :
    Stands R m (mk_subtracter C a_bits b_bits).1 (x - y) := by
  have hlen := ha.length_eq.trans hb.length_eq.symm
  have hloop := mk_subtracter.num_loop (C := C) (m := m) R.mk_true hlen
  have hlt := R.num_lt (m := m) (mk_subtracter C a_bits b_bits).1
  refine ⟨(length_mk_subtracter hlen).trans ha.length_eq, ?_⟩
  have hy := y.isLt
  rw [length_mk_subtracter hlen, ha.length_eq] at hlt
  rw [R.eval_mk_true, toNat_true, ← mk_subtracter, ha.length_eq, ha.num_eq, hb.num_eq] at hloop
  have hsum : 2 ^ sz - y.toNat + x.toNat = R.num m (mk_subtracter C a_bits b_bits).1 +
      2 ^ sz * (R.eval m (mk_subtracter C a_bits b_bits).2).toNat := by omega
  rw [BitVec.toNat_sub, hsum, Nat.add_mul_mod_self_left, Nat.mod_eq_of_lt hlt]

variable [DecidableEq E] (O : or_gate R)

def mk_ge2 (a b c : E) : E :=
  if R.is_false a then R.mk_and b c
  else if R.is_false b then R.mk_and a c
  else if R.is_false c then R.mk_and a b
  else if R.is_true a then R.mk_or b c
  else if R.is_true b then R.mk_or a c
  else if R.is_true c then R.mk_or a b
  else O.mk_or (R.mk_and a b) (R.mk_and a c) (R.mk_and b c)

def mk_le (Signed : Bool) (a_bits b_bits : List E) : E :=
  let sz := a_bits.length
  let out := (range' 1 ((if Signed then sz - 1 else sz) - 1)).foldl
    (fun out idx => mk_ge2 O (R.mk_not (bit R a_bits idx)) (bit R b_bits idx) out)
    (R.mk_or (R.mk_not (bit R a_bits 0)) (bit R b_bits 0))
  if Signed then mk_ge2 O (R.mk_not (bit R b_bits (sz - 1))) (bit R a_bits (sz - 1)) out else out

def mk_sle (a_bits b_bits : List E) : E := mk_le O true a_bits b_bits
def mk_ule (a_bits b_bits : List E) : E := mk_le O false a_bits b_bits

variable {O}

theorem eval_mk_ge2 (a b c : E) : R.eval m (mk_ge2 O a b c) = atLeastTwo (R.eval m a) (R.eval m b) (R.eval m c) := by
  fun_cases mk_ge2 with
  | case1 h | case2 _ h | case3 _ _ h => simp [atLeastTwo, bool_rewriter.eval_of_is_false h m]
  | case4 _ _ _ h | case5 _ _ _ _ h | case6 _ _ _ _ _ h =>
    rw [R.eval_mk_or, bool_rewriter.eval_of_is_true h m, atLeastTwo]
    grind
  | case7 => simp [atLeastTwo, O.eval_mk_or]

/-- The bit on top decides, and if both vectors have the same one the bits below do. -/
theorem atLeastTwo_le {n p q : Nat} (x y : Bool) (hp : p < 2 ^ n) (hq : q < 2 ^ n) :
    atLeastTwo (!x) y (decide (p ≤ q)) = decide (p + 2 ^ n * x.toNat ≤ q + 2 ^ n * y.toNat) := by
  cases x <;> cases y <;> simp [atLeastTwo] <;> omega

/-- After the bits up to `n` the loop has compared the numbers that they stand for. -/
theorem mk_le.eval_loop (n : Nat) :
    R.eval m ((range' 1 n).foldl (fun out idx => mk_ge2 O (R.mk_not (bit R a_bits idx)) (bit R b_bits idx) out)
      (R.mk_or (R.mk_not (bit R a_bits 0)) (bit R b_bits 0))) =
      decide (R.num m a_bits % 2 ^ (n + 1) ≤ R.num m b_bits % 2 ^ (n + 1)) := by
  have hsucc (bits : List E) (k : Nat) :
      R.num m bits % 2 ^ (k + 1) = R.num m bits % 2 ^ k + 2 ^ k * (R.eval m (bit R bits k)).toNat := by
    rw [eval_bit, ← R.testBit_num, Nat.toNat_testBit, Nat.mod_pow_succ]
  induction n with
  | zero =>
    rw [hsucc, hsucc]
    cases ha : R.eval m (bit R a_bits 0) <;> cases hb : R.eval m (bit R b_bits 0) <;> simp [ha, hb, Nat.mod_one]
  | succ n ih =>
    rw [range'_concat, foldl_append, foldl_cons, foldl_nil, eval_mk_ge2, ih, R.eval_mk_not, hsucc _ (n + 1),
      hsucc _ (n + 1), Nat.one_mul, Nat.add_comm 1 n]
    exact atLeastTwo_le _ _ (Nat.mod_lt _ (Nat.two_pow_pos _)) (Nat.mod_lt _ (Nat.two_pow_pos _))

namespace Stands

theorem ule (hsz : 0 < sz) (ha : Stands R m a_bits x) (hb : Stands R m b_bits y) :
    R.eval m (mk_ule O a_bits b_bits) = x.ule y := by
  have hwidth : sz - 1 + 1 = sz := by omega
  rw [mk_ule, mk_le, if_neg (by decide), if_neg (by decide), mk_le.eval_loop, ha.num_eq, hb.num_eq, ha.length_eq,
    hwidth,
    Nat.mod_eq_of_lt x.isLt, Nat.mod_eq_of_lt y.isLt]
  rfl

/-- The signed comparison is the unsigned one of the bits below the signs, with the signs compared the other way
round. -/
theorem sle (hsz : 0 < sz) (ha : Stands R m a_bits x) (hb : Stands R m b_bits y) :
    R.eval m (mk_sle O a_bits b_bits) = x.sle y := by
  rw [mk_sle, mk_le, if_pos rfl, if_pos rfl, ha.length_eq, eval_mk_ge2, R.eval_mk_not, hb.msb hsz, ha.msb hsz,
    mk_le.eval_loop, ha.num_eq, hb.num_eq]
  clear ha hb
  obtain _ | _ | n := sz
  · cases hsz
  · revert x y
    decide
  · have hpow : 2 ^ (n + 2) = 2 * 2 ^ (n + 1) := Nat.pow_succ'
    have hsign (z : BitVec (n + 2)) :
        z.toNat % 2 ^ (n + 1) < 2 ^ (n + 1) ∧ z.toInt = ↑(z.toNat % 2 ^ (n + 1)) - ↑(2 ^ (n + 1) * z.msb.toNat) := by
      have hz := z.isLt
      rw [BitVec.toInt_eq_msb_cond, BitVec.msb_eq_decide, hpow, Nat.add_one_sub_one]
      rw [hpow] at hz
      generalize 2 ^ (n + 1) = half at hz
      by_cases hle : half ≤ z.toNat
      · rw [Nat.mod_eq_sub_mod hle, Nat.mod_eq_of_lt (by omega)]
        simp [hle]
        omega
      · rw [Nat.mod_eq_of_lt (by omega)]
        simp [hle]
        omega
    obtain ⟨hx, hxs⟩ := hsign x
    obtain ⟨hy, hys⟩ := hsign y
    rw [BitVec.sle, hxs, hys, Nat.add_sub_cancel, Nat.sub_add_cancel (Nat.succ_pos n)]
    generalize x.toNat % 2 ^ (n + 1) = u at hx
    generalize y.toNat % 2 ^ (n + 1) = v at hy
    generalize 2 ^ (n + 1) = half at hx hy
    cases x.msb <;> cases y.msb <;> simp [atLeastTwo] <;> omega

end Stands

/-- Addition, subtraction and negation are those of bit-vectors, the carry of the subtraction tells that there is no
borrow, and the two comparisons are `bvule` and `bvsle`. This holds for both gate configurations and every width that
is not 0. -/
theorem arithmetic_exact (G : gates R) (O : or_gate R) (m : M) (sz : Nat) (a_bits b_bits : List E) (hsz : 0 < sz)
    (ha : a_bits.length = sz) (hb : b_bits.length = sz) :
    let x := R.bv sz m a_bits
    let y := R.bv sz m b_bits
    Stands R m (mk_adder G.cfg a_bits b_bits) (x + y) ∧ Stands R m (mk_subtracter G.cfg a_bits b_bits).1 (x - y) ∧
      R.eval m (mk_subtracter G.cfg a_bits b_bits).2 = y.ule x ∧ Stands R m (mk_neg R a_bits) (-x) ∧
      R.eval m (mk_ule O a_bits b_bits) = x.ule y ∧ R.eval m (mk_sle O a_bits b_bits) = x.sle y := by
  have hlen := ha.trans hb.symm
  have ha := Stands.of_length (R := R) (m := m) ha
  have hb := Stands.of_length (R := R) (m := m) hb
  refine ⟨ha.add hb, ha.sub hb, ?_, ha.neg, ha.ule hsz hb, ha.sle hsz hb⟩
  rw [(mk_subtracter_spec hlen).1, ha.num_eq, hb.num_eq]
  rfl

def plain.or_gate : or_gate plain := ⟨fun a b c => .mk_or (.mk_or a b) c, fun _ _ _ _ => rfl⟩

/-- In two bits `10` is minus two, which is below one, and their difference is minus three, that is `01`. -/
theorem arithmetic_exact_two_bits :
    let m := fun v : Nat => v == 1 || v == 2
    plain.eval m (mk_sle plain.or_gate [.atom 0, .atom 1] [.atom 2, .atom 3]) ∧
      Stands plain m (mk_subtracter (gates.cfg (.xor_ite : gates plain)) [.atom 0, .atom 1] [.atom 2, .atom 3]).1
        1#2 := by
  intro m
  obtain ⟨-, hsub, -, -, -, hsle⟩ := arithmetic_exact .xor_ite plain.or_gate m 2 [.atom 0, .atom 1] [.atom 2, .atom 3]
    (by decide) rfl rfl
  have hdiff : plain.bv 2 m [.atom 0, .atom 1] - plain.bv 2 m [.atom 2, .atom 3] = 1#2 := by decide
  exact ⟨hsle.trans (by decide), hdiff ▸ hsub⟩

end bit_blaster
