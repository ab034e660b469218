import BooledASS.Rewriter.BitBlaster.Arith

open List

namespace bit_blaster

variable {E M : Type} {R : bool_rewriter E M} {m : M}

/-! ### Case split over the bits that are not constants -/

/-- The buffers that the case split overwrites. -/
structure case_bits (E : Type) where
  a_bits : List E
  b_bits : List E

def case_bits.get (s : case_bits E) (is_a : Bool) : List E :=
  if is_a then s.a_bits else s.b_bits

def case_bits.set (s : case_bits E) (is_a : Bool) (i : Nat) (e : E) : case_bits E :=
  if is_a then { s with a_bits := s.a_bits.set i e } else { s with b_bits := s.b_bits.set i e }

variable {e : E} {i : Nat}

theorem bit_set {bits : List E} {k : Nat} (hi : i < bits.length) :
    bit R (bits.set i e) k = if i = k then e else bit R bits k := by
  by_cases hik : i = k
  · subst hik
    simp [bit, hi]
  · simp [bit, hik]

theorem set_bit (bits : List E) (i : Nat) : bits.set i (bit R bits i) = bits := by
  by_cases hi : i < bits.length
  · simp [bit, hi]
  · exact set_eq_of_length_le (Nat.le_of_not_lt hi)

theorem case_bits.set_set (s : case_bits E) (is_a : Bool) (i : Nat) (x y : E) :
    (s.set is_a i x).set is_a i y = s.set is_a i y := by
  cases is_a <;> simp [set]

/-- What a branch writes is undone by the write of the bit that was split on. -/
theorem case_bits.set_bit (s : case_bits E) (is_a : Bool) (i : Nat) (x : E) :
    (s.set is_a i x).set is_a i (bit R (s.get is_a) i) = s := by
  cases is_a <;> simp [set, get, bit_blaster.set_bit]

/-- In a model, a bit may be replaced by the constant that it has there. -/
theorem num_set {bits : List E} (he : R.eval m e = R.eval m (bit R bits i)) :
    R.num m (bits.set i e) = R.num m bits := by
  rw [bool_rewriter.num, map_set, he, ← map_set, set_bit, bool_rewriter.num]

theorem case_bits.num_mul_set {s : case_bits E} {is_a : Bool} (he : R.eval m e = R.eval m (bit R (s.get is_a) i)) :
    R.num m (s.set is_a i e).a_bits * R.num m (s.set is_a i e).b_bits = R.num m s.a_bits * R.num m s.b_bits := by
  cases is_a with
  | true => exact congrArg (· * _) (num_set he)
  | false => exact congrArg (_ * ·) (num_set he)

section ConstCase

variable [DecidableEq E] (R)

/-- `while (i < sz && is_bool_const(bits[i])) ++i` -/
def skip_consts (bits : List E) (i : Nat) : Nat := i + ((bits.drop i).takeWhile R.is_bool_const).length

/-- The next bit to split on: the bits of `a` come first, then those of `b`. -/
def next_case (sz : Nat) (s : case_bits E) (is_a : Bool) (i : Nat) : Bool × Nat :=
  let i := if is_a then skip_consts R s.a_bits i else i
  let (is_a, i) := if is_a && i == sz then (false, 0) else (is_a, i)
  (is_a, if is_a then i else skip_consts R s.b_bits i)

theorem le_skip_consts (bits : List E) (i : Nat) : i ≤ skip_consts R bits i := Nat.le_add_right _ _

/-- The number of bits that may still be split on, which the recursion decreases. -/
def cases_left (sz : Nat) (is_a : Bool) (i : Nat) : Nat := (if is_a then 2 * sz else sz) - i

theorem cases_left_succ (sz : Nat) (s : case_bits E) (is_a : Bool) (i : Nat) (h : (next_case R sz s is_a i).2 < sz) :
    cases_left sz (next_case R sz s is_a i).1 ((next_case R sz s is_a i).2 + 1) < cases_left sz is_a i := by
  have ha := le_skip_consts R s.a_bits i
  have hb := le_skip_consts R s.b_bits i
  unfold next_case cases_left at *
  cases is_a with
  | false => simp at h ⊢; omega
  | true => by_cases hend : skip_consts R s.a_bits i = sz <;> simp [hend] at h ⊢ <;> omega

/-- The outputs, and the buffers after the call. -/
def mk_const_case_multiplier.split (sz : Nat) (is_a : Bool) (i : Nat) (s : case_bits E) :
    List E × case_bits E :=
  let next := next_case R sz s is_a i
  let is_a := next.1
  let i := next.2
  if i < sz then
    let x := bit R (s.get is_a) i
    let (out1, s1) := split sz is_a (i + 1) (s.set is_a i R.mk_true)
    let (out2, s2) := split sz is_a (i + 1) (s1.set is_a i R.mk_false)
    (mk_multiplexer R x out1 out2, s2.set is_a i x)
  else
    let n_a := (is_numeral R s.a_bits).getD 0
    let n_b := (is_numeral R s.b_bits).getD 0
    (num2bits R (n_a * n_b) sz, s)
termination_by cases_left sz is_a i
decreasing_by
  all_goals exact cases_left_succ R sz s _ _ ‹_›

variable {R}

/-- The bits before the position are constants, and `a` is settled before `b`. -/
structure Settled (R : bool_rewriter E M) (sz : Nat) (s : case_bits E) (is_a : Bool) (i : Nat) :
    Prop where
  length_a : s.a_bits.length = sz
  length_b : s.b_bits.length = sz
  le : i ≤ sz
  consts_get : ∀ k < i, R.is_bool_const (bit R (s.get is_a) k)
  consts_a : is_a = false → ∀ k < sz, R.is_bool_const (bit R s.a_bits k)

variable {bits : List E} {i sz : Nat} {is_a : Bool} {s : case_bits E}

theorem skip_consts_spec (hi : i ≤ bits.length) (hconst : ∀ k < i, R.is_bool_const (bit R bits k)) :
    skip_consts R bits i ≤ bits.length ∧ ∀ k < skip_consts R bits i, R.is_bool_const (bit R bits k) := by
  have hlen := ( takeWhile_prefix (l := bits.drop i) R.is_bool_const).length_le
  rw [length_drop] at hlen
  unfold skip_consts
  refine ⟨by omega, fun k hk => ?_⟩
  by_cases hlt : k < i
  · exact hconst k hlt
  · have hk' : k - i < ((bits.drop i).takeWhile R.is_bool_const).length := by omega
    have hmem := all_eq_true.mp all_takeWhile _ (getElem_mem hk')
    rw [( takeWhile_prefix R.is_bool_const).getElem hk', getElem_drop] at hmem
    have hki : i + (k - i) = k := by omega
    simp only [hki] at hmem
    simpa [bit, show k < bits.length by omega] using hmem

/-- The search for the next case split goes on over the bits that are constants. -/
theorem Settled.next (h : Settled R sz s is_a i) :
    Settled R sz s (next_case R sz s is_a i).1 (next_case R sz s is_a i).2 ∧
      ((next_case R sz s is_a i).2 = sz → (next_case R sz s is_a i).1 = false) := by
  obtain ⟨ha, hb, hle, hget, hconst⟩ := h
  cases is_a with
  | false =>
    obtain ⟨hskip, hb'⟩ := skip_consts_spec (hle.trans_eq hb.symm) hget
    exact ⟨⟨ha, hb, hskip.trans_eq hb, hb', hconst⟩, fun _ => rfl⟩
  | true =>
    obtain ⟨hskip, ha'⟩ := skip_consts_spec (hle.trans_eq ha.symm) hget
    by_cases hend : skip_consts R s.a_bits i = sz
    · obtain ⟨hskip', hb'⟩ := skip_consts_spec (R := R) (Nat.zero_le s.b_bits.length) (by simp)
      have hnext : next_case R sz s true i = (false, skip_consts R s.b_bits 0) := by simp [next_case, hend]
      rw [hnext]
      exact ⟨⟨ha, hb, hskip'.trans_eq hb, hb', fun _ => hend ▸ ha'⟩, fun _ => rfl⟩
    · have hnext : next_case R sz s true i = (true, skip_consts R s.a_bits i) := by simp [next_case, hend]
      rw [hnext]
      exact ⟨⟨ha, hb, hskip.trans_eq ha, ha', by simp⟩, fun h => (hend h).elim⟩

theorem Settled.set {e : E} (h : Settled R sz s is_a i) (hi : i < sz) (he : R.is_bool_const e) :
    Settled R sz (s.set is_a i e) is_a (i + 1) := by
  obtain ⟨ha, hb, hle, hget, hconst⟩ := h
  have hstep : ∀ bits : List E, bits.length = sz → (∀ k < i, R.is_bool_const (bit R bits k)) →
      ∀ k < i + 1, R.is_bool_const (bit R (bits.set i e) k) := by
    intro bits hlen hbits k hk
    rw [bit_set (by omega)]
    split
    · exact he
    · exact hbits k (by omega)
  cases is_a with
  | true => exact ⟨by simpa [case_bits.set] using ha, hb, hi, hstep _ ha hget, by simp⟩
  | false => exact ⟨ha, by simpa [case_bits.set] using hb, hi, hstep _ hb hget, hconst⟩

/-- Constant bits are those of the numeral that is read off them. -/
theorem num_of_consts (hlen : bits.length = sz) (h : ∀ k < sz, R.is_bool_const (bit R bits k)) :
    R.num m bits = (is_numeral R bits).getD 0 := by
  have hconst : ∀ b ∈ bits, R.is_bool_const b := by
    intro b hb
    obtain ⟨k, hk, rfl⟩ := getElem_of_mem hb
    simpa [bit, hk] using h k (by omega)
  obtain ⟨n, hn⟩ := is_numeral_of_consts hconst
  rw [hn, num_of_is_numeral hn, Option.getD_some]

/-- The case split multiplies, and gives the buffers back as it got them. -/
theorem Settled.split (h : Settled R sz s is_a i) : (mk_const_case_multiplier.split R sz is_a i s).2 = s ∧
    (mk_const_case_multiplier.split R sz is_a i s).1.length = sz ∧
    R.num m (mk_const_case_multiplier.split R sz is_a i s).1 = R.num m s.a_bits * R.num m s.b_bits % 2 ^ sz := by
  fun_induction mk_const_case_multiplier.split R sz is_a i s with
  | case1 is_a i s next is_a' i' hlt x out1 s1 h1 out2 s2 h2 ih1 ih2 =>
    have hnext : Settled R sz s is_a' i' := h.next.1
    obtain ⟨hs1, hlen1, hnum1⟩ := ih1 (hnext.set hlt R.is_bool_const_mk_true)
    rw [h1] at hs1 hlen1 hnum1
    subst hs1
    have hback : (s.set is_a' i' R.mk_true).set is_a' i' R.mk_false = s.set is_a' i' R.mk_false := case_bits.set_set ..
    rw [hback] at h2 ih2
    obtain ⟨hs2, hlen2, hnum2⟩ := ih2 (hnext.set hlt R.is_bool_const_mk_false)
    rw [h2] at hs2 hlen2 hnum2
    subst hs2
    have hlen : out1.length = out2.length := hlen1.trans hlen2.symm
    refine ⟨case_bits.set_bit s is_a' i' R.mk_false, (length_mk_multiplexer hlen).trans hlen1, ?_⟩
    rw [num_mk_multiplexer hlen]
    split
    · rename_i hx
      rw [hnum1, case_bits.num_mul_set (by rw [R.eval_mk_true]; exact hx.symm)]
    · rename_i hx
      rw [hnum2, case_bits.num_mul_set (by rw [R.eval_mk_false]; exact (Bool.eq_false_of_not_eq_true hx).symm)]
  | case2 is_a i s next i' hlt n_a n_b =>
    obtain ⟨hnext, hdone⟩ := h.next
    have hsz : (next_case R sz s is_a i).2 = sz := Nat.le_antisymm hnext.le (Nat.le_of_not_lt hlt)
    have hfalse := hdone hsz
    have ha := num_of_consts (m := m) hnext.length_a (hnext.consts_a hfalse)
    have hb := hnext.consts_get
    rw [hfalse, hsz] at hb
    refine ⟨rfl, length_num2bits _ _, ?_⟩
    rw [num_num2bits, ha, num_of_consts hnext.length_b hb]

end ConstCase

/-! ### The array of adders -/

section Array

variable (C : cfg R) (a_bits b_bits cins : List E)

/-- The product bit of weight `i` that takes bit `j` of `a`. -/
def product_bit (R : bool_rewriter E M) (a_bits b_bits : List E) (i j : Nat) : E :=
  R.mk_and (bit R a_bits j) (bit R b_bits (i - j))

/-- The sum bit and the carries of column `i` after its half adder and `n` full adders. -/
def mk_multiplier.adders (i n : Nat) : E × List E :=
  let i1 := product_bit R a_bits b_bits i 0
  let i2 := product_bit R a_bits b_bits i 1
  (range' 2 n).foldl (fun (out, couts) j =>
      let i3 := product_bit R a_bits b_bits i j
      let cin := bit R cins (j - 2)
      (C.mk_xor3 i3 out cin, couts ++ [C.mk_carry i3 out cin]))
    (R.mk_xor i1 i2, [R.mk_and i1 i2])

/-- The sum bit alone, as the last column computes it. -/
def mk_multiplier.parities (i n : Nat) : E :=
  let i1 := product_bit R a_bits b_bits i 0
  let i2 := product_bit R a_bits b_bits i 1
  (range' 2 n).foldl (fun out j =>
      C.mk_xor3 (product_bit R a_bits b_bits i j) out (bit R cins (j - 2)))
    (R.mk_xor i1 i2)

/-- The outputs and the carries into the next column, after column `i`. -/
def mk_multiplier.row (s : List E × List E) (i : Nat) : List E × List E :=
  if i < a_bits.length - 1 then
    let (out, couts) := mk_multiplier.adders C a_bits b_bits s.2 i (i - 1)
    (s.1 ++ [out], couts)
  else (s.1 ++ [mk_multiplier.parities C a_bits b_bits s.2 i (i - 1)], s.2)

def mk_multiplier.array : List E :=
  let out := R.mk_and (bit R a_bits 0) (bit R b_bits 0)
  ((range' 1 (a_bits.length - 1)).foldl (mk_multiplier.row C a_bits b_bits) ([out], [])).1

namespace mk_multiplier

/-- How many of the expressions are true. -/
def ones (R : bool_rewriter E M) (m : M) (es : List E) : Nat := (es.map fun e => (R.eval m e).toNat).sum

theorem ones_concat (es : List E) (e : E) : ones R m (es ++ [e]) = ones R m es + (R.eval m e).toNat := by
  simp [ones]

theorem ones_eq_sum (es : List E) : ones R m es = ∑ k ∈ Finset.range es.length, (R.eval m (bit R es k)).toNat := by
  induction es with
  | nil => rfl
  | cons e es ih =>
    rw [length_cons, Finset.sum_range_succ', ones, map_cons, sum_cons, ← ones, ih, Nat.add_comm]
    rfl

theorem eval_product_bit (i j : Nat) :
    R.eval m (product_bit R a_bits b_bits i j) =
      ((a_bits.map (R.eval m)).getD j false && (b_bits.map (R.eval m)).getD (i - j) false) := by
  rw [product_bit, R.eval_mk_and, eval_bit, eval_bit]

/-- What `n` full adders of column `i` have added up. -/
def summed (R : bool_rewriter E M) (m : M) (a_bits b_bits cins : List E) (i n : Nat) : Nat :=
  ∑ j ∈ Finset.range (2 + n), (R.eval m (product_bit R a_bits b_bits i j)).toNat +
    ∑ k ∈ Finset.range n, (R.eval m (bit R cins k)).toNat

theorem summed_succ (i n : Nat) :
    summed R m a_bits b_bits cins i (n + 1) = summed R m a_bits b_bits cins i n +
      (R.eval m (product_bit R a_bits b_bits i (2 + n))).toNat +
      (R.eval m (bit R cins n)).toNat := by
  rw [summed, ← Nat.add_assoc, Finset.sum_range_succ, Finset.sum_range_succ, summed]
  omega

variable {i : Nat}

/-- All adders of a column add its product bits and the carries into it. -/
theorem summed_all (hi : 0 < i) (hcins : cins.length = i - 1) :
    summed R m a_bits b_bits cins i (i - 1) =
      Bits.column (a_bits.map (R.eval m)) (b_bits.map (R.eval m)) i + ones R m cins := by
  have hrange : 2 + (i - 1) = i + 1 := by omega
  rw [summed, hrange, Bits.column, ones_eq_sum, hcins]
  simp only [eval_product_bit]

theorem adders_succ (i n : Nat) :
    adders C a_bits b_bits cins i (n + 1) = let s := adders C a_bits b_bits cins i n
      let i3 := product_bit R a_bits b_bits i (2 + n)
      let cin := bit R cins n
      (C.mk_xor3 i3 s.1 cin, s.2 ++ [C.mk_carry i3 s.1 cin]) := by
  rw [adders, range'_1_concat, foldl_append, foldl_cons, Nat.add_sub_cancel_left]
  rfl

theorem parities_succ (i n : Nat) :
    parities C a_bits b_bits cins i (n + 1) =
      C.mk_xor3 (product_bit R a_bits b_bits i (2 + n)) (parities C a_bits b_bits cins i n) (bit R cins n) := by
  rw [parities, range'_1_concat, foldl_append, foldl_cons, Nat.add_sub_cancel_left]
  rfl

/-- The adders keep the weight: the sum bit and twice the carries are what has been added. -/
theorem num_adders (i n : Nat) :
    (adders C a_bits b_bits cins i n).2.length = n + 1 ∧ (R.eval m (adders C a_bits b_bits cins i n).1).toNat +
          2 * ones R m (adders C a_bits b_bits cins i n).2 =
        summed R m a_bits b_bits cins i n := by
  induction n with
  | zero =>
    have h := Bits.half_adder (R.eval m (product_bit R a_bits b_bits i 0)) (R.eval m (product_bit R a_bits b_bits i 1))
    refine ⟨rfl, ?_⟩
    simpa [adders, ones, summed, Finset.sum_range_succ] using h
  | succ n ih =>
    obtain ⟨hlen, hsum⟩ := ih
    have h := Bits.full_adder (R.eval m (product_bit R a_bits b_bits i (2 + n)))
      (R.eval m (adders C a_bits b_bits cins i n).1) (R.eval m (bit R cins n))
    rw [adders_succ, summed_succ]
    refine ⟨by simp [hlen], ?_⟩
    simp only [ones_concat, C.eval_mk_xor3, C.eval_mk_carry]
    omega

/-- Without the carries, the sum bit still has the right parity. -/
theorem num_parities (i n : Nat) :
    (R.eval m (parities C a_bits b_bits cins i n)).toNat = summed R m a_bits b_bits cins i n % 2 := by
  have hsame : R.eval m (parities C a_bits b_bits cins i n) = R.eval m (adders C a_bits b_bits cins i n).1 := by
    induction n with
    | zero => rfl
    | succ n ih => rw [parities_succ, adders_succ, C.eval_mk_xor3, C.eval_mk_xor3, ih]
  have hsum := (num_adders (m := m) C a_bits b_bits cins i n).2
  have hbit := (R.eval m (adders C a_bits b_bits cins i n).1).toNat_lt
  rw [hsame]
  omega

/-- The columns below `i` have been added up to the outputs and the carries into column `i`. -/
structure Filled (R : bool_rewriter E M) (m : M) (a_bits b_bits : List E) (s : List E × List E) (i : Nat) : Prop where
  length_out : s.1.length = i
  length_cins : s.2.length = i - 1
  weight : R.num m s.1 + 2 ^ i * ones R m s.2 = ∑ c ∈ Finset.range i,
    2 ^ c * Bits.column (a_bits.map (R.eval m)) (b_bits.map (R.eval m)) c

variable {C a_bits b_bits}

theorem filled_one : Filled R m a_bits b_bits ([R.mk_and (bit R a_bits 0) (bit R b_bits 0)], []) 1 := by
  refine ⟨rfl, rfl, ?_⟩
  simp [ones, Bits.column, eval_bit]

theorem Filled.row {s : List E × List E} (h : Filled R m a_bits b_bits s i)
    (hpos : 0 < i) (hi : i < a_bits.length - 1) : Filled R m a_bits b_bits (row C a_bits b_bits s i) (i + 1) := by
  obtain ⟨hlen, hsum⟩ := num_adders (m := m) C a_bits b_bits s.2 i (i - 1)
  rw [summed_all a_bits b_bits s.2 hpos h.length_cins] at hsum
  rw [mk_multiplier.row, if_pos hi]
  refine ⟨by simp [h.length_out], by simp [hlen]; omega, ?_⟩
  rw [Finset.sum_range_succ, ← h.weight, R.num_append, h.length_out, R.num_cons, R.num_nil, pow_succ]
  calc _ = R.num m s.1 + 2 ^ i * ((R.eval m (adders C a_bits b_bits s.2 i (i - 1)).1).toNat +
          2 * ones R m (adders C a_bits b_bits s.2 i (i - 1)).2) := by ring
    _ = _ := by rw [hsum]; ring

/-- What adds the columns up modulo `2 ^ n` is the product. -/
theorem product_of_columns {out : List E} {n : Nat} (hlen : out.length = n) (h : R.num m out ≡ ∑ c ∈ Finset.range n,
      2 ^ c * Bits.column (a_bits.map (R.eval m)) (b_bits.map (R.eval m)) c [MOD 2 ^ n]) :
    out.length = n ∧ R.num m out = R.num m a_bits * R.num m b_bits % 2 ^ n := by
  subst hlen
  have hlt := Nat.mod_eq_of_lt (R.num_lt (m := m) out)
  exact ⟨rfl, hlt.symm.trans (h.trans (Bits.sum_columns_modEq _ _ _))⟩

theorem Filled.last {s : List E × List E} (h : Filled R m a_bits b_bits s i)
    (hpos : 0 < i) (hi : i = a_bits.length - 1) : (mk_multiplier.row C a_bits b_bits s i).1.length = i + 1 ∧
    R.num m (mk_multiplier.row C a_bits b_bits s i).1 = R.num m a_bits * R.num m b_bits % 2 ^ (i + 1) := by
  have hparity := num_parities (m := m) C a_bits b_bits s.2 i (i - 1)
  rw [summed_all a_bits b_bits s.2 hpos h.length_cins, Nat.add_comm (Bits.column _ _ _)] at hparity
  rw [mk_multiplier.row, if_neg (by omega)]
  refine product_of_columns (by simp [h.length_out]) ?_
  rw [Finset.sum_range_succ, ← h.weight, R.num_append, h.length_out, R.num_cons, hparity, Nat.add_assoc, ← Nat.mul_add]
  exact ((Nat.mod_modEq _ 2).mul_left' (2 ^ i)).add_left _

/-- The columns are added up from the lowest one on, each with the carries out of the column before. The last one
needs the sum bit only, since its carries are above the width. -/
theorem num_array (hlen : a_bits.length = b_bits.length) (hpos : 0 < b_bits.length) :
    (array C a_bits b_bits).length = b_bits.length ∧
      R.num m (array C a_bits b_bits) = R.num m a_bits * R.num m b_bits % 2 ^ b_bits.length := by
  have hrun : ∀ n, n + 1 < a_bits.length → Filled R m a_bits b_bits ((range' 1 n).foldl (row C a_bits b_bits)
        ([R.mk_and (bit R a_bits 0) (bit R b_bits 0)], [])) (n + 1) := by
    intro n
    induction n with
    | zero => exact fun _ => filled_one
    | succ n ih =>
      intro hn
      rw [range'_1_concat, foldl_append, Nat.add_comm 1]
      exact (ih (by omega)).row (by omega) (by omega)
  obtain ⟨n, hn⟩ : ∃ n, b_bits.length = n + 1 := ⟨b_bits.length - 1, by omega⟩
  rw [array, hlen, hn, Nat.add_sub_cancel]
  cases n with
  | zero =>
    refine product_of_columns rfl ?_
    rw [← filled_one.weight]
    rfl
  | succ n =>
    rw [range'_1_concat, foldl_append, Nat.add_comm 1]
    exact (hrun n (by omega)).last (by omega) (by omega)

end mk_multiplier

end Array

/-! ### The multiplier -/

section Multiplier

variable [DecidableEq E]

/-- Whether the case split is smaller than the array; `unsigned` has 32 bits. -/
def mk_const_case_multiplier.is_small (R : bool_rewriter E M) (a_bits b_bits : List E) : Bool :=
  let sz := a_bits.length
  let circuit_size := sz * sz * 5 % 2 ^ 32
  let case_size := (range sz).foldl (fun case_size i =>
      if case_size < circuit_size then
        let case_size := if R.is_bool_const (bit R a_bits i) then case_size else case_size * 2 % 2 ^ 32
        if R.is_bool_const (bit R b_bits i) then case_size else case_size * 2 % 2 ^ 32
      else case_size) 1
  decide (case_size < circuit_size) && decide (sz < 100)

/-- The outputs of the case split, if it is taken. -/
def mk_const_case_multiplier (R : bool_rewriter E M) (a_bits b_bits : List E) : Option (List E) :=
  if mk_const_case_multiplier.is_small R a_bits b_bits then
    some (mk_const_case_multiplier.split R a_bits.length true 0 ⟨a_bits, b_bits⟩).1
  else none

/-- The multiplier after the swap; `n_b` is the number read off the second operand, if it was
    found to be a numeral. -/
def mk_multiplier.paths (C : cfg R) (n_b : Option Nat) (a_bits b_bits : List E) : List E :=
  if is_minus_one R b_bits then mk_neg R a_bits
  else
    match is_numeral R a_bits, n_b with
    | some n_a, some n_b => num2bits R (n_a * n_b) a_bits.length
    | _, _ =>
      match mk_const_case_multiplier R a_bits b_bits with
      | some out_bits => out_bits
      | none => mk_multiplier.array C a_bits b_bits

def mk_multiplier (C : cfg R) (a_bits b_bits : List E) : List E :=
  match is_numeral R a_bits with
  | some n_b => mk_multiplier.paths C (some n_b) b_bits a_bits
  | none => mk_multiplier.paths C none a_bits b_bits

variable {C : cfg R} {a_bits b_bits : List E}

theorem num_mk_const_case_multiplier {out_bits : List E} (h : mk_const_case_multiplier R a_bits b_bits = some out_bits)
    (hlen : a_bits.length = b_bits.length) :
    out_bits.length = b_bits.length ∧ R.num m out_bits = R.num m a_bits * R.num m b_bits % 2 ^ b_bits.length := by
  unfold mk_const_case_multiplier at h
  split_ifs at h
  cases h
  have hsettled : Settled R a_bits.length ⟨a_bits, b_bits⟩ true 0 := ⟨rfl, hlen.symm, Nat.zero_le _, by simp, by simp⟩
  rw [hlen] at hsettled ⊢
  exact hsettled.split.2

/-- Multiplying by minus one is negating. -/
theorem num_mk_neg_of_minus_one (h : is_minus_one R b_bits) (hlen : a_bits.length = b_bits.length) :
    R.num m (mk_neg R a_bits) = R.num m a_bits * R.num m b_bits % 2 ^ b_bits.length := by
  have hb := num_of_is_minus_one (m := m) h
  have ha := R.num_lt (m := m) a_bits
  rw [num_mk_neg, hlen]
  rw [hlen] at ha
  have hsum : 2 ^ b_bits.length - R.num m a_bits + 2 ^ b_bits.length * R.num m a_bits =
      R.num m a_bits * R.num m b_bits + 2 ^ b_bits.length := by
    rw [← hb] at ha ⊢
    zify [ha.le]
    ring
  have hmod := congrArg (· % 2 ^ b_bits.length) hsum
  simpa using hmod

theorem mk_multiplier.num_paths {n_b : Option Nat} (hn : ∀ n ∈ n_b, R.num m b_bits = n)
    (hlen : a_bits.length = b_bits.length) (hpos : 0 < b_bits.length) :
    (paths C n_b a_bits b_bits).length = b_bits.length ∧ R.num m (paths C n_b a_bits b_bits) =
        R.num m a_bits * R.num m b_bits % 2 ^ b_bits.length := by
  fun_cases paths C n_b a_bits b_bits with
  | case1 n_b hone => exact ⟨(length_mk_neg a_bits).trans hlen, num_mk_neg_of_minus_one hone hlen⟩
  | case2 _ n_a n_b ha =>
    rw [num_num2bits, num_of_is_numeral ha, hn n_b rfl, hlen]
    exact ⟨length_num2bits _ _, rfl⟩
  | case3 n_b _ out_bits hcase => exact num_mk_const_case_multiplier hcase hlen
  | case4 => exact num_array hlen hpos

theorem num_mk_multiplier (hlen : a_bits.length = b_bits.length) (hpos : 0 < b_bits.length) :
    (mk_multiplier C a_bits b_bits).length = b_bits.length ∧ R.num m (mk_multiplier C a_bits b_bits) =
        R.num m a_bits * R.num m b_bits % 2 ^ b_bits.length := by
  unfold mk_multiplier
  split
  · rename_i n hn
    rw [← hlen, Nat.mul_comm]
    exact mk_multiplier.num_paths (by simpa using num_of_is_numeral hn m) hlen.symm (by omega)
  · exact mk_multiplier.num_paths (by simp) hlen hpos

/-- The product has the width of its operands and is that of the numbers modulo `2 ^ sz`, for both gate configurations
and on every path: a factor of minus one, two numerals, the case split over the bits that are not constants where it
is small, and the array of adders. -/
theorem mk_multiplier_mod (G : gates R) (m : M) (sz : Nat) (a_bits b_bits : List E) (hsz : 0 < sz)
    (ha : a_bits.length = sz) (hb : b_bits.length = sz) : (mk_multiplier G.cfg a_bits b_bits).length = sz ∧
    R.num m (mk_multiplier G.cfg a_bits b_bits) = R.num m a_bits * R.num m b_bits % 2 ^ sz := by
  subst hb
  exact num_mk_multiplier ha hsz

/-- Three bits, the top one of the second operand a constant: seven times five. -/
theorem mk_multiplier_mod_three_bits :
    let m := fun n : Nat => n != 4
    let a_bits := [plain.expr.atom 0, .atom 1, .atom 2]
    let b_bits := [plain.expr.atom 3, .atom 4, .mk_true]
    (mk_multiplier (gates.sorted plain.ext_gates).cfg a_bits b_bits).length = 3 ∧
      plain.num m (mk_multiplier (gates.sorted plain.ext_gates).cfg a_bits b_bits) =
        plain.num m a_bits * plain.num m b_bits % 2 ^ 3 :=
  mk_multiplier_mod (.sorted plain.ext_gates) (fun n => n != 4) 3 [.atom 0, .atom 1, .atom 2]
    [.atom 3, .atom 4, .mk_true] (by decide) rfl rfl

end Multiplier

end bit_blaster
