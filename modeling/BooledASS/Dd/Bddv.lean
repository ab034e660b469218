import Mathlib.Tactic.LinearCombination
import BooledASS.Rewriter.BitBlaster.Arith

/-! Arithmetic on vectors of BDDs, the least significant bit first. The manager is used through its constructors, each
of which computes the connective it names; equal functions are one node. `none` is an access outside of a vector. -/

open List Bool Bits

namespace dd

open bit_blaster

variable {B M : Type}

abbrev bdd_manager (B M : Type) := bool_rewriter B M

def bdd_manager.gates (R : bdd_manager B M) : cfg R where
  mk_xor3 a b carry := R.mk_xor (R.mk_xor carry a) b
  mk_carry a b carry := R.mk_or (R.mk_or (R.mk_and carry a) (R.mk_and carry b)) (R.mk_and a b)
  eval_mk_xor3 m a b c := by rw [R.eval_mk_xor, R.eval_mk_xor, xor_assoc, Bool.xor_comm, xor_assoc]
  eval_mk_carry m a b c := by
    simp only [R.eval_mk_or, R.eval_mk_and]
    cases R.eval m a <;> cases R.eval m b <;> cases R.eval m c <;> rfl

variable (R : bdd_manager B M)

def mk_add : List B → List B → List B
  | a :: as, b :: bs => R.mk_xor a b :: mk_adder.loop R.gates (R.gates.mk_carry a b R.mk_false) as bs
  | _, _ => []

/-- The overload that reads the bits of the second operand from a function. -/
def mk_add_fun (a : List B) (b : Nat → B) : List B := mk_add R a ((range a.length).map b)

def mk_sub.loop (carry : B) : List B → List B → List B
  | a :: as, b :: bs =>
    R.mk_xor (R.mk_xor carry a) b :: loop (R.mk_ite a (R.mk_and b carry) (R.mk_or b carry)) as bs
  | _, _ => []

def mk_sub : List B → List B → List B
  | a :: as, b :: bs =>
    R.mk_xor a b :: mk_sub.loop R (R.mk_ite a (R.mk_and b R.mk_false) (R.mk_or b R.mk_false)) as bs
  | _, _ => []

/-- The loop of both versions of `mk_usub` from the second bit on. -/
def mk_usub.loop {α : Type} (or xor : α → α → α) (carry a : α) : List α → List α
  | a' :: as => xor (or a carry) a' :: loop or xor (or a carry) a' as
  | [] => []

def mk_usub : List B → Option (List B)
  | [] => none
  | a :: as => some (a :: mk_usub.loop R.mk_or R.mk_xor R.mk_false a as)

/-- `mk_usub` of a vector of constants. -/
def mk_usub_bits : List Bool → List Bool
  | [] => []
  | b :: bs => b :: mk_usub.loop (fun b carry => carry || b) xor false b bs

def mk_mul (a b : List B) : List B :=
  (range b.length).foldl (fun result i => mk_add_fun R result fun k =>
    if k < i then R.mk_false else R.mk_and (bit R a (k - i)) (bit R b i)) (replicate a.length R.mk_false)

theorem mk_usub.count_loop (carry b : Bool) (bs : List Bool) :
    (loop (fun b carry => carry || b) xor carry b bs).count true + bs.count true ≤
      bs.length + if carry || b then 0 else 1 := by
  induction bs generalizing carry b with
  | nil => simp [loop]
  | cons b' bs ih =>
    have hrest := ih (carry || b) b'
    rw [loop]
    cases hcarry : carry || b <;> cases b' <;> simp [hcarry] at hrest ⊢ <;> omega

/-- The negated vector has no more set bits than the other one has clear bits, except for one. -/
theorem count_mk_usub_bits (b : List Bool) : (mk_usub_bits b).count true + b.count true ≤ b.length + 1 := by
  cases b with
  | nil => simp [mk_usub_bits]
  | cons b bs =>
    have hrest := mk_usub.count_loop false b bs
    rw [mk_usub_bits]
    cases b <;> simp at hrest ⊢ <;> omega

/-- Multiplication by a constant: by the negated one if more than half of the bits are set. -/
def mk_mul_bits (a : List B) (b : List Bool) : Option (List B) :=
  if _h : b.length + 1 < b.count true * 2 then (mk_mul_bits a (mk_usub_bits b)).bind (mk_usub R)
  else
    some ((range a.length).foldl (fun result i =>
      if b.getD i false then mk_add_fun R result fun k => if k < i then R.mk_false else bit R a (k - i)
      else result) (replicate a.length R.mk_false))
termination_by b.count true
decreasing_by
  have hcount := count_mk_usub_bits b
  omega

def mk_mul_val (a : List B) (val : Nat) : Option (List B) := mk_mul_bits R a ((range a.length).map val.testBit)

def shr : List B → Option (List B)
  | [] => none
  | _ :: bits => some (bits ++ [R.mk_false])

section Division

variable [DecidableEq B]

/-- From the last bit down, until the vectors are known to differ. -/
def mk_ule.loop (lt eq : B) : List B → List B → B
  | a :: as, b :: bs =>
    if R.is_false eq then R.mk_or lt eq
    else loop (R.mk_or lt (R.mk_and eq (R.mk_and (R.mk_not a) b))) (R.mk_and eq (R.mk_not (R.mk_xor a b))) as bs
  | _, _ => R.mk_or lt eq

def mk_ule (a b : List B) : B := mk_ule.loop R R.mk_false R.mk_true a.reverse b.reverse

/-- The rounds from `i` on. The bits of the quotient are written from the last one down. -/
def mk_quot_rem.loop (i : Nat) : Nat → List B → List B → List B → Option (List B × List B)
  | 0, rem, _, quot => some (quot, rem)
  | n + 1, rem, div, quot =>
    let divLteRem := mk_ule R div rem
    (shr R div).bind fun div' =>
      loop (i + 1) n (mk_multiplexer R divLteRem (mk_sub R rem div) rem) div'
        (if 0 < i then divLteRem :: quot else quot)

def mk_quot_rem (a b : List B) : Option (List B × List B) :=
  (mk_quot_rem.loop R 0 (b.length + 1) (a ++ replicate b.length R.mk_false)
    (replicate a.length R.mk_false ++ b) []).map fun (quot, rem) => (quot, rem.take b.length)

end Division

variable {R} {m : M} {a b : List B}

/-! ### Addition, subtraction, negation -/

theorem length_mk_add (hlen : a.length = b.length) : (mk_add R a b).length = a.length := by
  cases a with
  | nil => rfl
  | cons x a =>
    cases b with
    | nil => cases hlen
    | cons y b => rw [mk_add, length_cons, mk_adder.length_loop (Nat.succ.inj hlen), length_cons]

theorem num_mk_add (hlen : a.length = b.length) : R.num m (mk_add R a b) = (R.num m a + R.num m b) % 2 ^ a.length := by
  have hlt := R.num_lt (m := m) (mk_add R a b)
  rw [length_mk_add hlen] at hlt
  obtain ⟨cout, hcout⟩ : ∃ cout, R.num m (mk_add R a b) + 2 ^ a.length * cout = R.num m a + R.num m b := by
    induction a, b, hlen using induction_two with
    | nil => exact ⟨0, rfl⟩
    | cons x a y b hlen =>
      obtain ⟨cout, h⟩ := mk_adder.num_loop (m := m) (C := R.gates) (R.gates.mk_carry x y R.mk_false) hlen
      refine ⟨cout, ?_⟩
      have hdigit := full_adder (R.eval m x) (R.eval m y) false
      rw [cfg.eval_mk_carry, R.eval_mk_false] at h
      rw [Bool.xor_false, toNat_false] at hdigit
      rw [mk_add, R.num_cons, R.num_cons, R.num_cons, R.eval_mk_xor, length_cons, pow_succ, mul_right_comm]
      omega
  rw [← hcout, Nat.add_mul_mod_self_left, Nat.mod_eq_of_lt hlt]

/-- The loop carries a borrow: what it returns, the second operand and the borrow add up to the first operand, but for
a multiple of `2 ^ n`. -/
theorem mk_sub.num_loop (carry : B) (hlen : a.length = b.length) : (loop R carry a b).length = a.length ∧
    ∃ cout, R.num m (loop R carry a b) + R.num m b + (R.eval m carry).toNat = R.num m a + 2 ^ a.length * cout := by
  induction a, b, hlen using induction_two generalizing carry with
  | nil => exact ⟨rfl, (R.eval m carry).toNat, by simp [loop]⟩
  | cons x a y b hlen ih =>
    obtain ⟨hlength, cout, h⟩ := ih (R.mk_ite x (R.mk_and y carry) (R.mk_or y carry))
    refine ⟨by rw [loop, length_cons, hlength, length_cons], cout, ?_⟩
    rw [R.eval_mk_ite, R.eval_mk_and, R.eval_mk_or] at h
    have hdigit (c x y) :
        (xor (xor c x) y).toNat + y.toNat + c.toNat = x.toNat + 2 * (if x then y && c else y || c).toNat := by
      cases c <;> cases x <;> cases y <;> rfl
    have hdigit := hdigit (R.eval m carry) (R.eval m x) (R.eval m y)
    rw [loop, R.num_cons, R.num_cons, R.num_cons, R.eval_mk_xor, R.eval_mk_xor, length_cons, pow_succ, mul_right_comm]
    omega

theorem eq_emod {out n : Nat} {x c : Int} (hlt : out < 2 ^ n) (h : x = out + 2 ^ n * c) : (out : Int) = x % 2 ^ n := by
  rw [h, Int.add_mul_emod_self_left, Int.emod_eq_of_lt (Int.natCast_nonneg _) (by exact_mod_cast hlt)]

/-- Subtraction modulo `2 ^ n`, stated over the integers since the difference may be negative. -/
theorem num_mk_sub (hlen : a.length = b.length) : (mk_sub R a b).length = a.length ∧
    (R.num m (mk_sub R a b) : Int) = ((R.num m a : Int) - R.num m b) % 2 ^ a.length := by
  have heq : (mk_sub R a b).map (R.eval m) = (mk_sub.loop R R.mk_false a b).map (R.eval m) := by
    induction a, b, hlen using induction_two with
    | nil => rfl
    | cons x a y b hlen => simp [mk_sub, mk_sub.loop]
  obtain ⟨hlength, cout, h⟩ := mk_sub.num_loop R.mk_false hlen
  have hlength' : (mk_sub R a b).length = a.length := by rw [← hlength, ← length_map (R.eval m), heq, length_map]
  refine ⟨hlength', eq_emod (c := -cout) (hlength' ▸ R.num_lt _) ?_⟩
  rw [bool_rewriter.num, ← heq, R.eval_mk_false] at h
  have h : (R.num m (mk_sub R a b) : Int) + R.num m b = R.num m a + 2 ^ a.length * cout := by exact_mod_cast h
  linear_combination -h

section Negation

variable {α : Type} {f g : α → α → α} {e : α → Bool}

theorem mk_usub.length_loop (carry x : α) (xs : List α) : (loop f g carry x xs).length = xs.length := by
  induction xs generalizing carry x with
  | nil => rfl
  | cons x' xs ih => rw [loop, length_cons, ih, length_cons]

variable (hor : ∀ x y, e (f x y) = (e x || e y)) (hxor : ∀ x y, e (g x y) = xor (e x) (e y))
include hor hxor

theorem mk_usub.val_loop (carry x : α) (xs : List α) : ∃ cout, val ((loop f g carry x xs).map e) +
    val (xs.map e) + (e x || e carry).toNat = 2 ^ xs.length * cout := by
  induction xs generalizing carry x with
  | nil => exact ⟨(e x || e carry).toNat, by simp [loop]⟩
  | cons x' xs ih =>
    obtain ⟨cout, h⟩ := ih (f x carry) x'
    refine ⟨cout, ?_⟩
    have hdigit (k x) : (xor k x).toNat + x.toNat + k.toNat = 2 * (x || k).toNat := by cases k <;> cases x <;> rfl
    have hdigit := hdigit (e (f x carry)) (e x')
    rw [loop, map_cons, map_cons, val_cons, val_cons, length_cons, pow_succ, hxor, mul_right_comm, ← hor]
    omega

theorem mk_usub.val_cons {c : α} (hc : e c = false) (x : α) (xs : List α) :
    (Bits.val ((x :: loop f g c x xs).map e) : Int) = (-Bits.val ((x :: xs).map e) : Int) % 2 ^ (xs.length + 1) := by
  obtain ⟨cout, h⟩ := val_loop hor hxor c x xs
  rw [hc, Bool.or_false] at h
  have hlt := Bits.val_lt ((x :: loop f g c x xs).map e)
  rw [length_map, length_cons, length_loop] at hlt
  refine eq_emod (c := -cout) hlt ?_
  rw [map_cons, map_cons, Bits.val_cons, Bits.val_cons]
  push_cast
  have h : (Bits.val ((loop f g c x xs).map e) : Int) + Bits.val (xs.map e) + (e x).toNat =
      2 ^ xs.length * cout := by exact_mod_cast h
  linear_combination -2 * h

end Negation

/-- A vector with bits has a negation. -/
theorem mk_usub_spec (ha : 0 < a.length) : ∃ r, mk_usub R a = some r ∧ r.length = a.length ∧
    (R.num m r : Int) = (-R.num m a : Int) % 2 ^ a.length := by
  obtain ⟨x, xs, rfl⟩ := exists_cons_of_length_pos ha
  exact ⟨_, rfl, by rw [length_cons, mk_usub.length_loop, length_cons],
    mk_usub.val_cons (R.eval_mk_or m) (R.eval_mk_xor m) (R.eval_mk_false m) x xs⟩

theorem val_mk_usub_bits (b : List Bool) : (mk_usub_bits b).length = b.length ∧
    (val (mk_usub_bits b) : Int) = (-val b : Int) % 2 ^ b.length := by
  cases b with
  | nil => exact ⟨rfl, rfl⟩
  | cons x xs =>
    refine ⟨by rw [mk_usub_bits, length_cons, mk_usub.length_loop, length_cons], ?_⟩
    have h := mk_usub.val_cons (e := id) (fun x y => or_comm y x) (fun _ _ => rfl) rfl x xs
    rwa [map_id, map_id] at h

/-! ### Multiplication -/

/-- The bits of a factor, moved up by `i` and taken with one bit of the other factor, are added. -/
theorem mk_add_fun_shifted {n i : Nat} {c : Bool} {f : Nat → B} {r : List B} (hr : r.length = n)
    (hf : ∀ j, R.eval m (f j) = (c && (R.num m a).testBit j)) :
    (mk_add_fun R r fun k => if k < i then R.mk_false else f (k - i)).length = n ∧
      R.num m (mk_add_fun R r fun k => if k < i then R.mk_false else f (k - i)) =
        (R.num m r + c.toNat * (R.num m a * 2 ^ i)) % 2 ^ n := by
  subst hr
  have hnum : R.num m ((range r.length).map fun k => if k < i then R.mk_false else f (k - i)) =
      c.toNat * (R.num m a * 2 ^ i) % 2 ^ r.length := by
    refine val_eq_of_testBit fun k => ?_
    by_cases hk : k < r.length
    · rw [getD_eq_getElem?_getD, getElem?_map, getElem?_map, getElem?_range hk]
      cases c with
      | false => by_cases hki : k < i <;> simp [hki, hf]
      | true =>
        rw [← Nat.shiftLeft_eq]
        by_cases hki : k < i
        · simp [hki]
        · simp [hk, hki, hf, Nat.not_lt.mp hki]
    · simp [hk]
  exact ⟨length_mk_add (by simp), by rw [mk_add_fun, num_mk_add (by simp), hnum, Nat.add_mod_mod]⟩

/-- The rows of a product are added up. -/
theorem num_rows {f : List B → Nat → List B} {v n : Nat} (hrow : ∀ r i, r.length = n → (f r i).length = n ∧
      R.num m (f r i) = (R.num m r + (v.testBit i).toNat * (R.num m a * 2 ^ i)) % 2 ^ n) (k : Nat) :
    ((range k).foldl f (replicate n R.mk_false)).length = n ∧
      R.num m ((range k).foldl f (replicate n R.mk_false)) = R.num m a * (v % 2 ^ k) % 2 ^ n := by
  induction k with
  | zero => simp [Nat.mod_one]
  | succ k ih =>
    obtain ⟨hlen, hnum⟩ := ih
    rw [range_succ, foldl_append, foldl_cons, foldl_nil]
    refine ⟨(hrow _ k hlen).1, ?_⟩
    rw [(hrow _ k hlen).2, hnum, Nat.mod_add_mod, Nat.mod_pow_succ, ← Nat.toNat_testBit]
    congr 1
    ring

theorem num_mk_mul (a b : List B) : R.num m (mk_mul R a b) = R.num m a * R.num m b % 2 ^ a.length := by
  have hrows := num_rows (m := m) (n := a.length)
    (fun r i hr => mk_add_fun_shifted (f := fun j => R.mk_and (bit R a j) (bit R b i)) hr fun j => by
      rw [R.eval_mk_and, eval_bit, eval_bit, ← R.testBit_num, ← R.testBit_num, Bool.and_comm]) b.length
  rw [mk_mul, hrows.2, Nat.mod_eq_of_lt (R.num_lt b)]

/-- The negated constant has fewer set bits, so the recursion ends. -/
theorem mk_mul_bits_spec (b : List Bool) (hlen : a.length = b.length) : ∃ r, mk_mul_bits R a b = some r ∧
    r.length = a.length ∧ R.num m r = R.num m a * val b % 2 ^ a.length := by
  fun_induction mk_mul_bits R a b with
  | case1 b hcount ih =>
    obtain ⟨hneg, hval⟩ := val_mk_usub_bits b
    obtain ⟨r, hr, hrlen, hnum⟩ := ih (hlen.trans hneg.symm)
    have hpos : 0 < r.length := by
      have := count_le_length (a := true) (l := b)
      omega
    obtain ⟨r', hr', hlen', hnum'⟩ := mk_usub_spec hpos
    refine ⟨r', by rw [hr, Option.bind_some, hr'], hlen'.trans hrlen, ?_⟩
    have hmod : (R.num m r' : Int) = (R.num m a * val b) % 2 ^ a.length := by
      rw [hnum', hrlen, hnum]
      push_cast
      rw [hval, ← hlen]
      refine Int.ModEq.trans ((Int.mod_modEq _ _).trans ((Int.mod_modEq _ _).mul_left _)).neg ?_
      rw [mul_neg, neg_neg]
    exact_mod_cast hmod
  | case2 b =>
    have hrows := num_rows (m := m) (n := a.length) (f := fun result i =>
      if b.getD i false then mk_add_fun R result fun k => if k < i then R.mk_false else bit R a (k - i) else result)
      (fun r i hr => by
        rw [testBit_val]
        cases hbit : b.getD i false with
        | true =>
          exact mk_add_fun_shifted hr fun j => by rw [eval_bit, ← R.testBit_num, Bool.true_and]
        | false => simp [hr, Nat.mod_eq_of_lt (hr ▸ R.num_lt r)]) a.length
    exact ⟨_, rfl, hrows.1, by rw [hrows.2, hlen, Nat.mod_eq_of_lt (val_lt b)]⟩

/-! ### Division -/

theorem num_concat (bits : List B) (x : B) :
    R.num m (bits ++ [x]) = R.num m bits + 2 ^ bits.length * (R.eval m x).toNat := by
  simp [R.num_append]

theorem shr_spec {div : List B} (hdiv : 0 < div.length) :
    ∃ div', shr R div = some div' ∧ div'.length = div.length ∧ R.num m div' = R.num m div / 2 := by
  obtain ⟨x, div, rfl⟩ := exists_cons_of_length_pos hdiv
  refine ⟨_, rfl, by simp, ?_⟩
  have hx := (R.eval m x).toNat_lt
  rw [num_concat]
  simp
  omega

section

variable [DecidableEq B] {div rem : List B}

/-- The loop goes from the highest bit down. `lt` tells that the first operand is smaller by the bits above and `eq`
that these bits are equal, in which case the rest decides. -/
theorem mk_ule.eval_loop (lt eq : B) (hlen : a.length = b.length) : R.eval m (loop R lt eq a b) =
    (R.eval m lt || R.eval m eq && decide (R.num m a.reverse ≤ R.num m b.reverse)) := by
  induction a, b, hlen using induction_two generalizing lt eq with
  | nil => simp [loop]
  | cons x a y b hlen ih =>
    rw [loop]
    split
    next hfalse => simp [bool_rewriter.eval_of_is_false hfalse m]
    next =>
      have ha := R.num_lt (m := m) a.reverse
      have hb := R.num_lt (m := m) b.reverse
      rw [length_reverse] at ha hb
      rw [ih, reverse_cons, reverse_cons, num_concat, num_concat, length_reverse, length_reverse, ← hlen]
      rw [← hlen] at hb
      simp only [R.eval_mk_or, R.eval_mk_and, R.eval_mk_not, R.eval_mk_xor]
      cases R.eval m lt <;> cases R.eval m eq <;> cases R.eval m x <;> cases R.eval m y <;> simp <;> omega

theorem eval_mk_ule (hlen : a.length = b.length) : R.eval m (mk_ule R a b) = decide (R.num m a ≤ R.num m b) := by
  rw [mk_ule, mk_ule.eval_loop _ _ (by simpa using hlen)]
  simp

/-- The remainder after a round. -/
theorem num_reduced (hlen : div.length = rem.length) :
    (mk_multiplexer R (mk_ule R div rem) (mk_sub R rem div) rem).length = rem.length ∧
      R.num m (mk_multiplexer R (mk_ule R div rem) (mk_sub R rem div) rem) =
        if R.num m div ≤ R.num m rem then R.num m rem - R.num m div else R.num m rem := by
  obtain ⟨hlength, hsub⟩ := num_mk_sub (m := m) hlen.symm
  have hlt := R.num_lt (m := m) rem
  refine ⟨(length_mk_multiplexer hlength).trans hlength, ?_⟩
  simp only [num_mk_multiplexer hlength, eval_mk_ule hlen, decide_eq_true_eq]
  split
  next hle =>
    rw [Int.emod_eq_of_lt (by omega) (by zify at hlt; omega)] at hsub
    omega
  next => rfl

/-- The rounds that write the last `n` bits of the quotient. -/
theorem mk_quot_rem.loop_spec {i n v : Nat} {q : List B}
    (hi : 0 < i) (hpos : 0 < div.length) (hlen : div.length = rem.length) (hdiv : R.num m div = 2 ^ n * v / 2) :
    ∃ q' r, loop R i n rem div q = some (q', r) ∧ q'.length = q.length + n ∧ r.length = rem.length ∧
    R.num m q * (2 ^ n * v) + R.num m rem = R.num m q' * v + R.num m r ∧ (R.num m rem < 2 ^ n * v → R.num m r < v) ∧
    (v = 0 → R.num m r = R.num m rem ∧ R.num m q' + 1 = (R.num m q + 1) * 2 ^ n) := by
  induction n generalizing i rem div q with
  | zero => exact ⟨q, rem, rfl, rfl, rfl, by simp, by simp, fun _ => ⟨rfl, by simp⟩⟩
  | succ n ih =>
    obtain ⟨div', hshr, hlen', hnum⟩ := shr_spec hpos
    obtain ⟨hlength, hred⟩ := num_reduced hlen
    have hdiv : R.num m div = 2 ^ n * v := by rw [hdiv, pow_succ, mul_right_comm, Nat.mul_div_cancel _ Nat.two_pos]
    rw [hdiv] at hnum hred
    obtain ⟨q', r, heq, hq, hr, hval, hlt, hzero⟩ := ih (i := i + 1) (q := mk_ule R div rem :: q) (by omega)
      (hlen' ▸ hpos) (hlen'.trans (hlen.trans hlength.symm)) hnum
    rw [R.num_cons, eval_mk_ule hlen, hdiv] at hval hzero
    rw [hred] at hval hlt hzero
    refine ⟨q', r, by rw [loop, hshr, Option.bind_some, if_pos hi, heq], by simp [hq]; omega, hr.trans hlength,
      ?_, ?_, ?_⟩
    · rw [← hval]
      split
      next hle =>
        simp only [decide_true, hle, toNat_true]
        zify [hle]
        ring
      next hle =>
        simp only [decide_false, hle, toNat_false]
        ring
    · intro h
      rw [pow_succ, mul_right_comm] at h
      exact hlt (by split <;> omega)
    · rintro rfl
      obtain ⟨h1, h2⟩ := hzero rfl
      simp only [Nat.mul_zero, Nat.zero_le, decide_true, toNat_true] at h1 h2
      exact ⟨h1, by rw [h2]; ring⟩

/-- The division loop returns. The quotient and the remainder are those of the numbers unless the divisor is 0, for
which every trial subtraction succeeds. -/
theorem mk_quot_rem_spec (hlen : a.length = b.length) (hpos : 0 < b.length) : ∃ q r, mk_quot_rem R a b = some (q, r) ∧
    (R.num m b ≠ 0 → R.num m a = R.num m q * R.num m b + R.num m r ∧ R.num m r < R.num m b) ∧
    (R.num m b = 0 → R.num m q + 1 = 2 ^ b.length ∧ R.num m r = R.num m a) := by
  let rem := a ++ replicate b.length R.mk_false
  let div := replicate a.length R.mk_false ++ b
  have hrem : R.num m rem = R.num m a := by simp [rem, R.num_append]
  have hdiv : R.num m div = 2 ^ b.length * R.num m b := by simp [div, R.num_append, hlen]
  have hlength : div.length = rem.length := by simp [div, rem]
  have ha := R.num_lt (m := m) a
  have hb := R.num_lt (m := m) b
  rw [hlen] at ha
  -- the first round leaves the remainder as it is
  obtain ⟨hlen', hred⟩ := num_reduced hlength
  obtain ⟨div', hshr, hlen'', hnum⟩ := shr_spec (show 0 < div.length by simp [div]; omega)
  obtain ⟨q, r, heq, -, hr, hval, hlt, hzero⟩ := mk_quot_rem.loop_spec (q := [])
    Nat.one_pos (by simp [hlen'', div]; omega)
    (hlen''.trans (hlength.trans hlen'.symm))
    (hnum.trans (by rw [hdiv]))
  have hfirst : R.num m (mk_multiplexer R (mk_ule R div rem) (mk_sub R rem div) rem) = R.num m a := by
    rw [hred, hrem, hdiv]
    split
    next hle =>
      have hzero : R.num m b = 0 := by
        by_contra hne
        have hmul := Nat.le_mul_of_pos_right (2 ^ b.length) (Nat.pos_of_ne_zero hne)
        omega
      rw [hzero, Nat.mul_zero, Nat.sub_zero]
    next => rfl
  rw [hfirst] at hval hlt hzero
  have htake : R.num m (r.take b.length) = R.num m r % 2 ^ b.length := by
    rw [← append_nil (r.take b.length)]
    exact num_mk_zero_extend (n := 0) (by simp [hr, hlen', rem])
  refine ⟨q, r.take b.length, ?_, fun hne => ?_, fun h0 => ?_⟩
  · rw [mk_quot_rem, mk_quot_rem.loop, hshr, Option.bind_some, if_neg (Nat.lt_irrefl 0), heq]
    rfl
  · have hmul := Nat.le_mul_of_pos_right (2 ^ b.length) (Nat.pos_of_ne_zero hne)
    have hrb := hlt (by omega)
    rw [htake, Nat.mod_eq_of_lt (by omega)]
    rw [R.num_nil, Nat.zero_mul, Nat.zero_add] at hval
    exact ⟨hval, hrb⟩
  · obtain ⟨hra, hq⟩ := hzero h0
    rw [htake, hra, Nat.mod_eq_of_lt ha, hq]
    simp

end

/-- With at least one bit, addition, subtraction, negation and both multiplications are those of arithmetic modulo
`2 ^ n`. Division is total: it returns quotient and remainder, and for the divisor 0 the quotient with all bits set
and the dividend as remainder. -/
theorem arith_modular [DecidableEq B] (R : bdd_manager B M) (m : M) (n : Nat) (hn : 0 < n) (a b : List B)
    (ha : a.length = n) (hb : b.length = n) :
    R.num m (mk_add R a b) = (R.num m a + R.num m b) % 2 ^ n ∧
    (R.num m (mk_sub R a b) : Int) = ((R.num m a : Int) - R.num m b) % 2 ^ n ∧
    (∃ r, mk_usub R a = some r ∧ (R.num m r : Int) = (-R.num m a : Int) % 2 ^ n) ∧
    R.num m (mk_mul R a b) = R.num m a * R.num m b % 2 ^ n ∧
    (∀ val, ∃ r, mk_mul_val R a val = some r ∧ R.num m r = R.num m a * val % 2 ^ n) ∧
    ∃ q r, mk_quot_rem R a b = some (q, r) ∧
      (R.num m b ≠ 0 → R.num m a = R.num m q * R.num m b + R.num m r ∧ R.num m r < R.num m b) ∧
      (R.num m b = 0 → R.num m q + 1 = 2 ^ n ∧ R.num m r = R.num m a) := by
  have hlen : a.length = b.length := ha.trans hb.symm
  obtain ⟨r, hr, -, hneg⟩ := mk_usub_spec (ha ▸ hn)
  refine ⟨ha ▸ num_mk_add hlen, ha ▸ (num_mk_sub hlen).2, ⟨r, hr, ha ▸ hneg⟩, ha ▸ num_mk_mul a b, fun val => ?_,
    hb ▸ mk_quot_rem_spec hlen (hb ▸ hn)⟩
  obtain ⟨r, hr, -, hnum⟩ := mk_mul_bits_spec (a := a) ((range a.length).map val.testBit) (by simp)
  exact ⟨r, hr, by rw [hnum, val_testBits, Nat.mul_mod_mod, ha]⟩

/-- Three times one, where each operand has a bit that is a constant. -/
theorem arith_modular_two_bits : plain.num (fun _ => true) (mk_mul plain [.atom 0, .mk_true] [.atom 1, .mk_false]) =
    3 * 1 % 2 ^ 2 :=
  (arith_modular plain (fun _ => true) 2 (by decide) [.atom 0, .mk_true] [.atom 1, .mk_false] rfl rfl).2.2.2.1

/-- Without bits, negation reads the first bit of an empty vector and division writes to one. -/
theorem no_bits_out_of_range : mk_usub plain [] = none ∧ mk_quot_rem plain [] [] = none := ⟨rfl, rfl⟩

end dd
