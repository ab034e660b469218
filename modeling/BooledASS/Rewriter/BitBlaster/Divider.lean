import BooledASS.Rewriter.BitBlaster.Arith

open List

namespace bit_blaster

variable {E M : Type} {R : bool_rewriter E M} {m : M} (C : cfg R)

/-- The stages of the division. `p` is the residual, `q_bits` the quotient bits so far, and `rest`
    the bits of the dividend that have not been shifted into the residual, the highest first. -/
def mk_udiv_urem.loop (b_bits p q_bits : List E) : List E → List E × List E
  | [] =>
    let (t, q) := mk_subtracter C p b_bits
    -- last step: `p` becomes the remainder
    (q :: q_bits, mk_multiplexer R q t p)
  | a :: rest =>
    let (t, q) := mk_subtracter C p b_bits
    -- the residual moves up by one position, which drops its top bit
    loop b_bits (a :: (mk_multiplexer R q t p).dropLast) (q :: q_bits) rest

/-- The quotient bits and the remainder bits. -/
def mk_udiv_urem (a_bits b_bits : List E) : List E × List E :=
  match a_bits.reverse with
  | [] => ([], [])
  | a :: rest =>
    mk_udiv_urem.loop C b_bits (a :: replicate (a_bits.length - 1) R.mk_false) [] rest

def mk_udiv (a_bits b_bits : List E) : List E := (mk_udiv_urem C a_bits b_bits).1
def mk_urem (a_bits b_bits : List E) : List E := (mk_udiv_urem C a_bits b_bits).2

namespace mk_udiv_urem

/-- What holds at the start of a stage, where `A` is the number formed by the bits of the dividend
    that have been consumed, the one just shifted into the residual included. -/
structure Stage (R : bool_rewriter E M) (m : M) (b_bits p q_bits : List E) (A : Nat) : Prop where
  length_p : p.length = b_bits.length
  conserved : A = 2 * R.num m q_bits * R.num m b_bits + R.num m p
  residual_lt : R.num m b_bits ≠ 0 → R.num m p < 2 * R.num m b_bits
  ones_of_zero : R.num m b_bits = 0 → R.num m q_bits + 1 = 2 ^ q_bits.length
  consumed_lt : A < 2 ^ (q_bits.length + 1)

/-- What a division of `A` gives, with quotient `q` and remainder `r` in `n` bits. -/
structure Divides (n A b q r : Nat) : Prop where
  conserved : A = q * b + r
  remainder_lt : b ≠ 0 → r < b
  ones_of_zero : b = 0 → q + 1 = 2 ^ n

variable {C} {b_bits p q_bits : List E} {A : Nat}

/-- The residual that a stage selects, before it is moved up. -/
def residual (C : cfg R) (b_bits p : List E) : List E :=
  mk_multiplexer R (mk_subtracter C p b_bits).2 (mk_subtracter C p b_bits).1 p

theorem length_residual (hp : p.length = b_bits.length) : (residual C b_bits p).length = b_bits.length := by
  have hlen := length_mk_subtracter (C := C) hp
  rw [residual, length_mk_multiplexer hlen, hlen, hp]

section

variable (h : Stage R m b_bits p q_bits A)
include h

/-- One stage divides the consumed prefix. -/
theorem Stage.divides :
    Divides (q_bits.length + 1) A (R.num m b_bits)
      (R.num m ((mk_subtracter C p b_bits).2 :: q_bits)) (R.num m (residual C b_bits p)) := by
  obtain ⟨hq, ht⟩ := mk_subtracter_spec h.length_p
  have hA := h.conserved
  have hlt := h.residual_lt
  have hones := h.ones_of_zero
  rw [residual, num_mk_multiplexer (length_mk_subtracter h.length_p), R.num_cons, hq]
  by_cases hle : R.num m b_bits ≤ R.num m p
  · simp only [hle, decide_true, if_true, Bool.toNat_true]
    refine ⟨?_, fun hb => ?_, fun hb => ?_⟩
    · rw [Nat.add_mul]
      omega
    · omega
    · omega
  · simp only [hle, decide_false, Bool.toNat_false, Nat.zero_add]
    refine ⟨hA, fun _ => Nat.lt_of_not_le hle, fun hb => ?_⟩
    rw [hb] at hle
    exact (hle (Nat.zero_le _)).elim

/-- The top bit that a shift drops is zero, as the residual is at most the consumed prefix. -/
theorem Stage.eval_getLast (hroom : q_bits.length + 1 < b_bits.length) :
    R.eval m ((residual C b_bits p).getLastD R.mk_false) = false := by
  have hlen := length_residual (C := C) h.length_p
  have hne : residual C b_bits p ≠ [] := ne_nil_of_length_pos (by omega)
  have hsplit := R.num_append (m := m) (residual C b_bits p).dropLast [(residual C b_bits p).getLast hne]
  rw [dropLast_append_getLast hne, length_dropLast, hlen] at hsplit
  have hle : R.num m (residual C b_bits p) ≤ A := by
    rw [h.divides.conserved]
    exact Nat.le_add_left _ _
  have hpow : 2 ^ (q_bits.length + 1) ≤ 2 ^ (b_bits.length - 1) := Nat.pow_le_pow_right (by decide) (by omega)
  have hA := h.consumed_lt
  rw [getLastD_eq_getLast?, getLast?_eq_some_getLast hne, Option.getD_some]
  cases hb : R.eval m ((residual C b_bits p).getLast hne) with
  | false => rfl
  | true =>
    rw [R.num_cons, R.num_nil, hb, Bool.toNat_true] at hsplit
    omega

theorem Stage.num_dropLast (hroom : q_bits.length + 1 < b_bits.length) :
    R.num m (residual C b_bits p).dropLast = R.num m (residual C b_bits p) := by
  have hlen := length_residual (C := C) h.length_p
  have hne : residual C b_bits p ≠ [] := ne_nil_of_length_pos (by omega)
  have htop := h.eval_getLast (C := C) hroom
  rw [getLastD_eq_getLast?, getLast?_eq_some_getLast hne, Option.getD_some] at htop
  have hsplit := R.num_append (m := m) (residual C b_bits p).dropLast [(residual C b_bits p).getLast hne]
  simpa [dropLast_append_getLast hne, htop] using hsplit.symm

/-- A stage and the shift of the next bit lead to the next stage. -/
theorem Stage.next (a : E) (hroom : q_bits.length + 1 < b_bits.length) :
    Stage R m b_bits (a :: (residual C b_bits p).dropLast)
      ((mk_subtracter C p b_bits).2 :: q_bits) (2 * A + (R.eval m a).toNat) := by
  have hd := h.divides (C := C)
  have ha := (R.eval m a).toNat_lt
  refine ⟨?_, ?_, fun hb => ?_, fun hb => ?_, ?_⟩
  · rw [length_cons, length_dropLast, length_residual h.length_p]
    omega
  · rw [hd.conserved, R.num_cons a (residual C b_bits p).dropLast, h.num_dropLast hroom]
    ring
  · have := hd.remainder_lt hb
    rw [R.num_cons, h.num_dropLast hroom]
    omega
  · simpa using hd.ones_of_zero hb
  · have := h.consumed_lt
    rw [length_cons]
    omega

end

/-- Run from a stage, the loop divides the whole dividend. -/
theorem loop_divides (rest : List E) (h : Stage R m b_bits p q_bits A)
    (hsz : q_bits.length + 1 + rest.length = b_bits.length) :
    Divides b_bits.length (A * 2 ^ rest.length + R.num m rest.reverse) (R.num m b_bits)
      (R.num m (loop C b_bits p q_bits rest).1) (R.num m (loop C b_bits p q_bits rest).2) := by
  induction rest generalizing p q_bits A with
  | nil =>
    have hd := h.divides (C := C)
    simp only [length_nil] at hsz
    rw [hsz] at hd
    rw [length_nil, pow_zero, Nat.mul_one]
    exact hd
  | cons a rest ih =>
    rw [length_cons] at hsz
    have hrest := ih (h.next (C := C) a (by omega)) (by rw [length_cons]; omega)
    have hdividend : A * 2 ^ (a :: rest).length + R.num m (a :: rest).reverse =
        (2 * A + (R.eval m a).toNat) * 2 ^ rest.length + R.num m rest.reverse := by
      rw [reverse_cons, R.num_append, length_reverse, length_cons, R.num_cons, R.num_nil]
      ring
    rw [hdividend]
    exact hrest

/-- The bits that the shifts drop from the residual, from stage to stage. -/
def dropped (C : cfg R) (b_bits p : List E) : List E → List E
  | [] => []
  | a :: rest =>
    (residual C b_bits p).getLastD R.mk_false :: dropped C b_bits (a :: (residual C b_bits p).dropLast) rest

theorem eval_dropped (rest : List E) (h : Stage R m b_bits p q_bits A)
    (hsz : q_bits.length + 1 + rest.length = b_bits.length) : ∀ e ∈ dropped C b_bits p rest, R.eval m e = false := by
  induction rest generalizing p q_bits A with
  | nil => simp [dropped]
  | cons a rest ih =>
    rw [length_cons] at hsz
    intro e he
    rcases mem_cons.mp he with rfl | he
    · exact h.eval_getLast (by omega)
    · exact ih (h.next a (by omega)) (by rw [length_cons]; omega) e he

theorem length_loop (q_bits rest : List E) (hp : p.length = b_bits.length) (hpos : 0 < b_bits.length) :
    (loop C b_bits p q_bits rest).1.length = q_bits.length + 1 + rest.length ∧
      (loop C b_bits p q_bits rest).2.length = b_bits.length := by
  induction rest generalizing p q_bits with
  | nil => exact ⟨by simp [loop], length_residual hp⟩
  | cons a rest ih =>
    have hlen : (a :: (residual C b_bits p).dropLast).length = b_bits.length := by
      rw [length_cons, length_dropLast, length_residual hp]
      omega
    obtain ⟨hq, hr⟩ := ih ((mk_subtracter C p b_bits).2 :: q_bits) hlen
    refine ⟨?_, hr⟩
    rw [length_cons] at hq ⊢
    exact hq.trans (by omega)

end mk_udiv_urem

section Divide

variable {C} {a_bits b_bits : List E}

theorem length_mk_udiv_urem (hlen : a_bits.length = b_bits.length) (hpos : 0 < b_bits.length) :
    (mk_udiv_urem C a_bits b_bits).1.length = b_bits.length ∧
      (mk_udiv_urem C a_bits b_bits).2.length = b_bits.length := by
  obtain ⟨low, a, rfl⟩ := (eq_nil_or_concat a_bits).resolve_left (ne_nil_of_length_pos (by omega))
  simp only [concat_eq_append, length_append, length_singleton] at hlen
  simp only [mk_udiv_urem, concat_eq_append, reverse_append, length_append]
  obtain ⟨hq, hr⟩ := mk_udiv_urem.length_loop (p := a :: replicate low.length R.mk_false)
    [] low.reverse (by simpa using hlen) hpos
  exact ⟨hq.trans (by simp; omega), hr⟩

/-- The first stage has the leading bit of the dividend as its residual. -/
theorem mk_udiv_urem.first_stage (a : E) {n : Nat} (hlen : n + 1 = b_bits.length) :
    Stage R m b_bits (a :: replicate n R.mk_false) [] (R.eval m a).toNat := by
  have ha := (R.eval m a).toNat_lt
  refine ⟨by simpa using hlen, by simp, fun hb => ?_, fun _ => rfl, by simpa using ha⟩
  rw [R.num_cons, R.num_replicate_false]
  omega

section

variable (hlen : a_bits.length = b_bits.length)
include hlen

/-- Quotient and remainder satisfy the equation of division with the remainder below the divisor, or are those for the
divisor 0. -/
theorem mk_udiv_urem_divides (hpos : 0 < b_bits.length) :
    mk_udiv_urem.Divides b_bits.length (R.num m a_bits) (R.num m b_bits)
      (R.num m (mk_udiv C a_bits b_bits)) (R.num m (mk_urem C a_bits b_bits)) := by
  obtain ⟨low, a, rfl⟩ := (eq_nil_or_concat a_bits).resolve_left (ne_nil_of_length_pos (by omega))
  simp only [concat_eq_append, length_append, length_singleton] at hlen
  simp only [mk_udiv, mk_urem, mk_udiv_urem, concat_eq_append, reverse_append, length_append]
  have hdivides := mk_udiv_urem.loop_divides (C := C) low.reverse
    (mk_udiv_urem.first_stage (m := m) a hlen) (by simp; omega)
  have hdividend : R.num m (low ++ [a]) =
      (R.eval m a).toNat * 2 ^ low.reverse.length + R.num m low.reverse.reverse := by
    rw [R.num_append, R.num_cons, R.num_nil, length_reverse, reverse_reverse]
    ring
  rw [hdividend]
  exact hdivides

theorem num_mk_udiv (hpos : 0 < b_bits.length) :
    R.num m (mk_udiv C a_bits b_bits) =
      if R.num m b_bits = 0 then 2 ^ b_bits.length - 1 else R.num m a_bits / R.num m b_bits := by
  have hd := mk_udiv_urem_divides (C := C) (m := m) hlen hpos
  split
  · have := hd.ones_of_zero ‹_›
    omega
  · have hlt := hd.remainder_lt ‹_›
    rw [hd.conserved, Nat.mul_comm, Nat.mul_add_div (by omega), Nat.div_eq_of_lt hlt, Nat.add_zero]

theorem num_mk_urem (hpos : 0 < b_bits.length) :
    R.num m (mk_urem C a_bits b_bits) = R.num m a_bits % R.num m b_bits := by
  have hd := mk_udiv_urem_divides (C := C) (m := m) hlen hpos
  by_cases hb : R.num m b_bits = 0
  · rw [hb, Nat.mod_zero, hd.conserved, hb, Nat.mul_zero, Nat.zero_add]
  · have hlt := hd.remainder_lt hb
    rw [hd.conserved, Nat.mul_comm, Nat.mul_add_mod, Nat.mod_eq_of_lt hlt]

end

end Divide

/-- The bits of the residual that the division drops in all of its shifts. -/
def mk_udiv_urem.dropped_bits (a_bits b_bits : List E) : List E :=
  match a_bits.reverse with
  | [] => []
  | a :: rest => dropped C b_bits (a :: replicate (a_bits.length - 1) R.mk_false) rest

theorem mk_udiv_urem.eval_dropped_bits {a_bits b_bits : List E} (hlen : a_bits.length = b_bits.length) :
    ∀ e ∈ dropped_bits C a_bits b_bits, R.eval m e = false := by
  rcases eq_nil_or_concat a_bits with rfl | ⟨low, a, rfl⟩
  · simp [dropped_bits]
  · simp only [concat_eq_append, length_append, length_singleton] at hlen
    simp only [dropped_bits, concat_eq_append, reverse_append, length_append]
    exact eval_dropped low.reverse (first_stage a hlen) (by simp; omega)

/-- Unsigned division is that of SMT-LIB, for both gate configurations: by 0 the quotient has all bits set and the
remainder is the dividend. The bit of the residual that each stage leaves out is false in every model, so that none is
lost. -/
theorem mk_udiv_urem_smtlib [DecidableEq E] (G : gates R) (m : M) (sz : Nat)
    (a_bits b_bits : List E) (hsz : 0 < sz) (ha : a_bits.length = sz) (hb : b_bits.length = sz) :
    let q_bits := (mk_udiv_urem G.cfg a_bits b_bits).1
    let r_bits := (mk_udiv_urem G.cfg a_bits b_bits).2
    q_bits.length = sz ∧ r_bits.length = sz ∧ (R.num m b_bits ≠ 0 →
        R.num m a_bits = R.num m q_bits * R.num m b_bits + R.num m r_bits ∧ R.num m r_bits < R.num m b_bits) ∧
      (R.num m b_bits = 0 → R.num m q_bits = 2 ^ sz - 1 ∧ R.num m r_bits = R.num m a_bits) ∧
      ∀ e ∈ mk_udiv_urem.dropped_bits G.cfg a_bits b_bits, R.eval m e = false := by
  subst hb
  obtain ⟨hq, hr⟩ := length_mk_udiv_urem ha hsz
  have hd := mk_udiv_urem_divides (C := G.cfg) (m := m) ha hsz
  refine ⟨hq, hr, fun hne => ⟨hd.conserved, hd.remainder_lt hne⟩, fun hzero => ?_,
    mk_udiv_urem.eval_dropped_bits G.cfg ha⟩
  have hones := hd.ones_of_zero hzero
  have hconserved := hd.conserved
  rw [hzero, Nat.mul_zero, Nat.zero_add] at hconserved
  exact ⟨Nat.eq_sub_of_add_eq hones, hconserved.symm⟩

/-- Two atoms divided by an atom with a constant above it, all atoms true: three divided by one. -/
theorem mk_udiv_urem_smtlib_two_bits :
    let m := fun _ : Nat => true
    let a_bits := [plain.expr.atom 0, .atom 1]
    let b_bits := [.atom 2, .mk_false]
    let out := mk_udiv_urem (gates.sorted plain.ext_gates).cfg a_bits b_bits
    plain.num m b_bits ≠ 0 ∧ plain.num m a_bits = plain.num m out.1 * plain.num m b_bits + plain.num m out.2 ∧
      plain.num m out.2 < plain.num m b_bits :=
  ⟨by decide, (mk_udiv_urem_smtlib (.sorted plain.ext_gates) (fun _ => true) 2
    [.atom 0, .atom 1] [.atom 2, .mk_false] (by decide) rfl rfl).2.2.1 (by decide)⟩

end bit_blaster
