import BooledASS.Rewriter.BitBlaster.Shift

namespace bit_blaster

variable {E M : Type} {R : bool_rewriter E M} {m : M}

def mk_rotate_left (a_bits : List E) (n : Nat) : List E :=
  let sz := a_bits.length
  let n := n % sz
  a_bits.drop (sz - n) ++ a_bits.take (sz - n)

def mk_rotate_right (a_bits : List E) (n : Nat) : List E :=
  let sz := a_bits.length
  let n := n % sz
  mk_rotate_left a_bits (sz - n)

section Definitions

variable [DecidableEq E] (R) (left : Bool)

/-- Where position `j` comes from in a rotation by `p`. -/
def mk_ext_rotate_left_right.src (sz p j : Nat) : Nat := (if left then sz + j - p else j + p) % sz

/-- One stage for each bit of the distance, by `p`, which is the weight of the bit modulo `sz`. -/
def mk_ext_rotate_left_right.loop (sz p : Nat) : List E → List E → List E
  | [], out_bits => out_bits
  | bit_i :: b_bits, out_bits =>
    let out_bits :=
      if R.is_false bit_i then out_bits
      else (List.range sz).map fun j =>
        R.mk_ite bit_i (bit R out_bits (mk_ext_rotate_left_right.src left sz p j)) (bit R out_bits j)
    let p := p * 2
    if (is_power_of_two sz).isSome && sz == p then out_bits
    else loop sz (p % sz) b_bits out_bits

def mk_ext_rotate_left_right (a_bits b_bits : List E) : List E :=
  -- `k.is_unsigned()`
  match (is_numeral R b_bits).filter (· < 2 ^ 32) with
  | some k => if left then mk_rotate_left a_bits k else mk_rotate_right a_bits k
  | none => mk_ext_rotate_left_right.loop R left a_bits.length 1 b_bits a_bits

def mk_ext_rotate_left (a_bits b_bits : List E) : List E := mk_ext_rotate_left_right R true a_bits b_bits
def mk_ext_rotate_right (a_bits b_bits : List E) : List E := mk_ext_rotate_left_right R false a_bits b_bits

end Definitions

/-! ### Rotations of bit-vectors -/

section Rotated

variable {sz : Nat}

def rotated (left : Bool) (x : BitVec sz) (n : Nat) : BitVec sz :=
  if left then x.rotateLeft n else x.rotateRight n

/-- The position that a rotation by `n` brings to `j`. -/
def origin (left : Bool) (sz n j : Nat) : Nat := (if left then j + (sz - 1) * n else j + n) % sz

variable {left : Bool} {n j : Nat}

theorem origin_congr {n' : Nat} (h : n ≡ n' [MOD sz]) : origin left sz n j = origin left sz n' j := by
  unfold origin
  split
  · exact (h.mul_left _).add_left j
  · exact h.add_left j

theorem origin_origin (p : Nat) : origin left sz n (origin left sz p j) = origin left sz (n + p) j := by
  unfold origin
  split <;> rw [Nat.mod_add_mod] <;> congr 1 <;> ring

theorem src_eq_origin {p : Nat} (hp : p ≤ sz) : mk_ext_rotate_left_right.src left sz p j = origin left sz p j := by
  cases left with
  | false => rfl
  | true =>
    change sz + j - p ≡ j + (sz - 1) * p [MOD sz]
    have hcancel : j + (sz - 1) * p + p = j + sz * p := by
      cases sz with
      | zero => simp_all
      | succ n => simp only [Nat.add_sub_cancel]; ring
    apply Nat.ModEq.add_right_cancel' p
    rw [Nat.sub_add_cancel (by omega), hcancel]
    exact Nat.add_modEq_left.trans (by simp)

/-- The bit that a rotation by `n` moves to position `j`. -/
theorem origin_of_lt (hj : j < sz) :
    origin left sz n j = if left then (if j < n % sz then sz - n % sz + j else j - n % sz)
      else (if j < sz - n % sz then n % sz + j else j - (sz - n % sz)) := by
  have hr : n % sz < sz := Nat.mod_lt n (by omega)
  rw [origin_congr (Nat.mod_modEq n sz).symm, ← src_eq_origin hr.le, mk_ext_rotate_left_right.src]
  cases left with
  | true =>
    rw [if_pos rfl, if_pos rfl]
    split
    · rw [Nat.mod_eq_of_lt (by omega)]
      omega
    · rw [show sz + j - n % sz = sz + (j - n % sz) by omega, Nat.add_mod_left, Nat.mod_eq_of_lt (by omega)]
  | false =>
    rw [if_neg (by decide), if_neg (by decide)]
    split
    · rw [Nat.mod_eq_of_lt (by omega), Nat.add_comm]
    · rw [show j + n % sz = sz + (j - (sz - n % sz)) by omega, Nat.add_mod_left, Nat.mod_eq_of_lt (by omega)]

theorem getLsbD_rotated (x : BitVec sz) (hj : j < sz) :
    (rotated left x n).getLsbD j = x.getLsbD (origin left sz n j) := by
  rw [origin_of_lt hj]
  cases left with
  | true =>
    rw [rotated, if_pos rfl, if_pos rfl, BitVec.getLsbD_rotateLeft]
    split <;> simp [*]
  | false =>
    rw [rotated, if_neg (by decide), if_neg (by decide), BitVec.getLsbD_rotateRight]
    split <;> simp [*]

theorem rotated_congr {x : BitVec sz} {n' : Nat} (h : n ≡ n' [MOD sz]) : rotated left x n = rotated left x n' :=
  BitVec.eq_of_getLsbD_eq fun j hj => by rw [getLsbD_rotated x hj, getLsbD_rotated x hj, origin_congr h]

theorem rotated_zero (x : BitVec sz) : rotated left x 0 = x :=
  BitVec.eq_of_getLsbD_eq fun j hj => by
    rw [getLsbD_rotated x hj, origin, Nat.mul_zero, ite_self, Nat.add_zero, Nat.mod_eq_of_lt hj]

end Rotated

section Circuits

variable {sz : Nat} {a_bits b_bits : List E} {x y : BitVec sz} {left : Bool}

theorem Stands.rotate_left (hsz : 0 < sz) (ha : Stands R m a_bits x) (n : Nat) :
    Stands R m (mk_rotate_left a_bits n) (rotated true x n) := by
  have hr : n % sz < sz := Nat.mod_lt n hsz
  rw [mk_rotate_left]
  refine .of_bits (by simp [ha.length_eq]) fun j hj => ?_
  rw [getLsbD_rotated x hj, origin_of_lt hj, if_pos rfl, bit_append, List.length_drop,
    ha.length_eq, show sz - (sz - n % sz) = n % sz by omega]
  split
  · rw [bit_drop, ha.bit]
  · rw [bit_take (by omega), ha.bit]

/-- Rotation to the right is rotation to the left by the rest of a turn. -/
theorem Stands.rotate_right (hsz : 0 < sz) (ha : Stands R m a_bits x) (n : Nat) :
    Stands R m (mk_rotate_right a_bits n) (rotated false x n) := by
  have hr : n % sz < sz := Nat.mod_lt n hsz
  have h := ha.rotate_left hsz (sz - n % sz)
  have heq : rotated true x (sz - n % sz) = rotated false x n := by
    refine BitVec.eq_of_getLsbD_eq fun j hj => ?_
    have hmod : origin false sz n j = origin false sz (n % sz) j := origin_congr (Nat.mod_modEq n sz).symm
    rw [getLsbD_rotated x hj, getLsbD_rotated x hj, hmod, ← src_eq_origin (by omega),
      ← src_eq_origin (by omega), mk_ext_rotate_left_right.src, mk_ext_rotate_left_right.src,
      if_pos rfl, if_neg (by decide)]
    congr 2
    omega
  rw [mk_rotate_right, ha.length_eq, ← heq]
  exact h

variable [DecidableEq E]

/-- One stage rotates by `p` if its bit is set. -/
theorem Stands.rotate_stage {out_bits : List E} {n p : Nat}
    (hout : Stands R m out_bits (rotated left x n)) (hp : p ≤ sz) (bit_i : E) :
    Stands R m (if R.is_false bit_i then out_bits else (List.range sz).map fun j =>
          R.mk_ite bit_i (bit_blaster.bit R out_bits (mk_ext_rotate_left_right.src left sz p j))
            (bit_blaster.bit R out_bits j))
      (rotated left x (n + p * (R.eval m bit_i).toNat)) := by
  split
  · rw [bool_rewriter.eval_of_is_false ‹_›]
    exact hout
  · refine .of_bits (by simp) fun j hj => ?_
    have hlt : mk_ext_rotate_left_right.src left sz p j < sz := Nat.mod_lt _ (by omega)
    rw [bit_map_range hj, R.eval_mk_ite]
    cases R.eval m bit_i with
    | false => exact hout.bit j
    | true =>
      rw [if_pos rfl, hout.bit, Bool.toNat_true, Nat.mul_one, getLsbD_rotated x hlt,
        getLsbD_rotated x hj, src_eq_origin hp, origin_origin]

/-- The stages rotate by the bits they read; those after the early exit rotate by whole turns. -/
theorem Stands.rotate_loop (hsz : 0 < sz) (b_bits : List E) {out_bits : List E} {n p i : Nat}
    (hout : Stands R m out_bits (rotated left x n)) (hp : p ≤ sz) (hpi : p ≡ 2 ^ i [MOD sz]) :
    Stands R m (mk_ext_rotate_left_right.loop R left sz p b_bits out_bits)
      (rotated left x (n + 2 ^ i * R.num m b_bits)) := by
  induction b_bits generalizing out_bits n p i with
  | nil => exact hout
  | cons bit_i b_bits ih =>
    have hstage := hout.rotate_stage hp bit_i
    have hnext : p * 2 ≡ 2 ^ (i + 1) [MOD sz] := by exact hpi.mul_right 2
    have hturn : n + p * (R.eval m bit_i).toNat + 2 ^ (i + 1) * R.num m b_bits ≡
        n + 2 ^ i * R.num m (bit_i :: b_bits) [MOD sz] := by
      rw [R.num_cons, Nat.mul_add, ← Nat.mul_assoc, ← Nat.add_assoc]
      exact ((hpi.mul_right _).add_left n).add_right _
    rw [mk_ext_rotate_left_right.loop]
    rw [← rotated_congr hturn]
    split
    · rename_i hexit
      rw [Bool.and_eq_true, beq_iff_eq] at hexit
      have hzero : 2 ^ (i + 1) * R.num m b_bits ≡ 0 [MOD sz] := by
        have h0 : 2 ^ (i + 1) ≡ 0 [MOD sz] := hnext.symm.trans (by rw [← hexit.2]; simp)
        simpa using h0.mul_right (R.num m b_bits)
      rw [rotated_congr (hzero.add_left _)]
      exact hstage
    · exact ih hstage (Nat.mod_lt _ hsz).le ((Nat.mod_modEq _ _).trans hnext)

/-- Rotation by a distance that need not be a numeral: one stage for each bit, by the weight of the bit modulo the
width. The loop ends early where the width is a power of two, since further bits do not count. -/
theorem Stands.ext_rotate (hsz : 0 < sz) (ha : Stands R m a_bits x) (hb : Stands R m b_bits y) :
    Stands R m (mk_ext_rotate_left_right R left a_bits b_bits) (rotated left x y.toNat) := by
  rw [mk_ext_rotate_left_right, ← hb.num_eq]
  split
  · rename_i k hk
    obtain ⟨hk, -⟩ := Option.filter_eq_some_iff.mp hk
    rw [num_of_is_numeral hk]
    cases left with
    | true => exact ha.rotate_left hsz k
    | false => exact ha.rotate_right hsz k
  · have ha0 : Stands R m a_bits (rotated left x 0) := by
      rw [rotated_zero]
      exact ha
    have hloop := ha0.rotate_loop (i := 0) hsz b_bits hsz rfl
    rw [Nat.zero_add, pow_zero, Nat.one_mul] at hloop
    rw [ha.length_eq]
    exact hloop

/-- Shifts and variable rotations are those of SMT-LIB at every width. The distance of a rotation
    is taken modulo the width by `BitVec.rotateLeft` and `BitVec.rotateRight`. -/
theorem shifts_rotations_exact (R : bool_rewriter E M) (m : M) (sz : Nat) (a_bits b_bits : List E)
    (hsz : 0 < sz) (ha : a_bits.length = sz) (hb : b_bits.length = sz) :
    let x := R.bv sz m a_bits
    let y := R.bv sz m b_bits
    Stands R m (mk_shl R a_bits b_bits) (x <<< y.toNat) ∧ Stands R m (mk_lshr R a_bits b_bits) (x >>> y.toNat) ∧
      Stands R m (mk_ashr R a_bits b_bits) (x.sshiftRight y.toNat) ∧
      Stands R m (mk_ext_rotate_left R a_bits b_bits) (x.rotateLeft y.toNat) ∧
      Stands R m (mk_ext_rotate_right R a_bits b_bits) (x.rotateRight y.toNat) := by
  intro x y
  have hx : Stands R m a_bits x := .of_length ha
  have hy : Stands R m b_bits y := .of_length hb
  exact ⟨hx.shl hy, hx.lshr hy, hx.ashr hsz hy, hx.ext_rotate hsz hy, hx.ext_rotate hsz hy⟩

/-- Three bits, which is not a power of two, rotated by a distance that is not a constant. -/
theorem shifts_rotations_exact_three_bits :
    let m := fun _ : Nat => true
    let a_bits := [plain.expr.atom 0, .mk_false, .mk_false]
    let b_bits := [plain.expr.atom 1, .atom 2, .atom 3]
    Stands plain m (mk_ext_rotate_left plain a_bits b_bits)
      ((plain.bv 3 m a_bits).rotateLeft (plain.bv 3 m b_bits).toNat) :=
  (shifts_rotations_exact plain (fun _ => true) 3 [.atom 0, .mk_false, .mk_false]
    [.atom 1, .atom 2, .atom 3] (by decide) rfl rfl).2.2.2.1

end Circuits

end bit_blaster
