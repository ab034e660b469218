import Mathlib.Algebra.Group.Nat.Defs
import Mathlib.Order.Lattice

open Option Bool

namespace bv

/-- An interval of bit-vectors of `sz` bits; it wraps around when `l > h`. The template is used with machine words for
up to 64 bits and with rationals above; no operation leaves `0 .. 2^sz - 1`, so both are natural numbers here. -/
structure interval where
  l : Nat
  h : Nat
  sz : Nat
  tight : Bool := false
deriving DecidableEq, Repr

namespace interval

def bound (sz : Nat) : Nat := 2 ^ sz - 1
def is_full (i : interval) : Bool := i.l == 0 && i.h == bound i.sz
def is_wrapped (i : interval) : Bool := i.l > i.h
def is_singleton (i : interval) : Bool := i.l == i.h

def implies (i b : interval) : Bool :=
  if b.is_full then true
  else if i.is_full then false
  else if i.is_wrapped then b.is_wrapped && i.h ≤ b.h && i.l ≥ b.l
  else if b.is_wrapped then i.h ≤ b.h || i.l ≥ b.l
  else i.l ≥ b.l && i.h ≤ b.h

/-- The case of `intersect` for an interval that does not wrap and one that does. -/
def intersect_wrapped (i b : interval) : Option interval :=
  if i.h < b.l ∧ i.l > b.h then none
  else if i.h ≥ b.l ∧ i.l ≤ b.h then some b
  else if i.h ≥ b.l then some ⟨b.l, i.h, i.sz, false⟩
  else some ⟨i.l, min i.h b.h, i.sz, false⟩

/-- `none` is the answer false: the intersection is empty. A mixed call with the wrapped interval first is made again
with the two exchanged, after the tests for full intervals. -/
def intersect (i b : interval) : Option interval :=
  if i.is_full ∨ i = b then some b
  else if b.is_full then some i
  else if i.is_wrapped then
    if b.is_wrapped then
      if i.h ≥ b.l then some b
      else if b.h ≥ i.l then some i
      else some ⟨max i.l b.l, min i.h b.h, i.sz, false⟩
    else intersect_wrapped b i
  else if b.is_wrapped then intersect_wrapped i b
  else if i.l > b.h ∨ i.h < b.l then none
  else some ⟨max i.l b.l, min i.h b.h, i.sz, i.tight && b.tight⟩

/-- `none` is the answer false: the negation is empty. -/
def negate (i : interval) : Option interval :=
  if !i.tight then some ⟨0, bound i.sz, i.sz, true⟩
  else if i.is_full then none
  else if i.l = 0 ∧ bound i.sz = i.h then some ⟨0, bound i.sz, i.sz, false⟩
  else if i.l = 0 then some ⟨i.h + 1, bound i.sz, i.sz, false⟩
  else if bound i.sz = i.h then some ⟨0, i.l - 1, i.sz, false⟩
  else some ⟨i.h + 1, i.l - 1, i.sz, false⟩

/-! ### Meaning -/

/-- The values that the interval stands for. -/
def Mem (v : Nat) (i : interval) : Prop := if i.l ≤ i.h then i.l ≤ v ∧ v ≤ i.h else v ≤ i.h ∨ i.l ≤ v

/-- The two ends are values of `sz` bits, so that they fit the machine words. -/
structure Bounded (i : interval) : Prop where
  l_le : i.l ≤ bound i.sz
  h_le : i.h ≤ bound i.sz

variable {i b r : interval} {v : Nat}

theorem mem_iff : i.Mem v ↔ i.l ≤ i.h ∧ i.l ≤ v ∧ v ≤ i.h ∨ i.h < i.l ∧ (v ≤ i.h ∨ i.l ≤ v) := by
  unfold Mem
  split <;> omega

theorem mem_of_is_full (h : i.is_full) (hv : v ≤ bound i.sz) : i.Mem v := by
  obtain ⟨hl, hh⟩ : i.l = 0 ∧ i.h = bound i.sz := by simpa [is_full] using h
  rw [mem_iff]
  omega

theorem mem_of_implies (h : i.implies b) (hv : v ≤ bound b.sz) (hi : i.Mem v) : b.Mem v := by
  revert h
  fun_cases implies i b with
  | case1 hfull => exact fun _ => mem_of_is_full hfull hv
  | case2 => exact nofun
  | _ =>
    simp only [is_wrapped, mem_iff, or_eq_true, and_eq_true, decide_eq_true_eq] at *
    omega

/-- What an intersection keeps: all common values, and the size. -/
structure Meets (i b r : interval) : Prop where
  mem : ∀ v, i.Mem v → b.Mem v → r.Mem v
  sz : r.sz = i.sz
  bounded : r.Bounded
  exact : r.l = r.h → i.Mem r.l ∧ b.Mem r.l

theorem Meets.symm (h : Meets i b r) (hsz : i.sz = b.sz) : Meets b i r :=
  ⟨fun v hb hi => h.mem v hi hb, h.sz.trans hsz, h.bounded, fun heq => (h.exact heq).symm⟩

theorem mem_l (i : interval) : i.Mem i.l := by
  rw [mem_iff]
  omega

/-- What a function returns, by cases. -/
theorem spec_of_elim {o : Option interval} {P : interval → Prop} {Q : Prop} (h : o.elim Q P) :
    (∀ r, o = some r → P r) ∧ (o = none → Q) := by
  cases o with
  | none => exact ⟨nofun, fun _ => h⟩
  | some r => exact ⟨fun _ hr => some.inj hr ▸ h, nofun⟩

/-- An interval that does not wrap around and one that does: the result has all values that they have in common, and
if there is no result there are none. -/
theorem intersect_wrapped_spec (hi : i.Bounded) (hb : b.Bounded) (hwi : i.l ≤ i.h) (hwb : b.h < b.l)
    (hsz : i.sz = b.sz) : (∀ r, intersect_wrapped i b = some r → Meets i b r) ∧
      (intersect_wrapped i b = none → ∀ v, i.Mem v → ¬ b.Mem v) := by
  obtain ⟨hil, hih⟩ := hi
  obtain ⟨hbl, hbh⟩ := hb
  refine spec_of_elim ?_
  fun_cases intersect_wrapped i b with
  | case1 =>
    simp only [mem_iff, Option.elim]
    omega
  | case2 => exact .mk (fun v _ hv' => hv') hsz.symm ⟨hbl, hbh⟩ fun heq => by omega
  | case3 | case4 =>
    refine .mk (fun v => ?_) rfl ⟨?_, ?_⟩ ?_ <;> simp only [mem_iff, hsz] at * <;> omega

/-- Both intervals may wrap around, so that their common values need not be an interval: the result then has all of
them and others. -/
theorem intersect_spec (hi : i.Bounded) (hb : b.Bounded) (hsz : i.sz = b.sz) :
    (∀ r, i.intersect b = some r → Meets i b r) ∧ (i.intersect b = none → ∀ v ≤ bound i.sz, i.Mem v → ¬ b.Mem v) := by
  refine spec_of_elim ?_
  fun_cases intersect i b with
  | case1 h =>
    refine ⟨fun v _ hv => hv, hsz.symm, hb, fun _ => ⟨?_, mem_l b⟩⟩
    rcases h with h | rfl
    · exact mem_of_is_full h (hsz ▸ hb.l_le)
    · exact mem_l i
  | case2 _ h => exact ⟨fun v hv _ => hv, rfl, hi, fun _ => ⟨mem_l i, mem_of_is_full h (hsz ▸ hi.l_le)⟩⟩
  | case3 _ _ _ hwb => exact .mk (fun v _ hv => hv) hsz.symm hb fun heq => by simp [is_wrapped, heq] at hwb
  | case4 _ _ hwi => exact .mk (fun v hv _ => hv) rfl hi fun heq => by simp [is_wrapped, heq] at hwi
  | case6 _ _ hwi hwb =>
    simp only [is_wrapped, decide_eq_true_eq] at hwi hwb
    obtain ⟨hsome, hnone⟩ := intersect_wrapped_spec hb hi (Nat.not_lt.mp hwb) hwi hsz.symm
    cases h : intersect_wrapped b i with
    | none => exact fun v _ hv hv' => hnone h v hv' hv
    | some r => exact (hsome r h).symm hsz.symm
  | case7 _ _ hwi hwb =>
    simp only [is_wrapped, decide_eq_true_eq] at hwi hwb
    obtain ⟨hsome, hnone⟩ := intersect_wrapped_spec hi hb (Nat.not_lt.mp hwi) hwb hsz
    cases h : intersect_wrapped i b with
    | none => exact fun v _ => hnone h v
    | some r => exact hsome r h
  | case5 | case9 =>
    obtain ⟨hil, hih⟩ := hi
    obtain ⟨hbl, hbh⟩ := hb
    refine .mk (fun v => ?_) rfl ⟨?_, ?_⟩ ?_ <;>
      simp only [is_wrapped, decide_eq_true_eq, mem_iff, hsz] at * <;> omega
  | case8 =>
    simp only [is_wrapped, decide_eq_true_eq, mem_iff, Option.elim] at *
    omega

/-- The negation contains every value outside of the interval. It is exact for a tight interval, unless that wraps
around to all values. -/
structure Negates (i r : interval) : Prop where
  mem : ∀ v ≤ bound i.sz, ¬ i.Mem v → r.Mem v
  sz : r.sz = i.sz
  bounded : r.Bounded
  exact : i.tight → i.l ≠ i.h + 1 → ∀ v, r.Mem v → ¬ i.Mem v

/-- The negation of an interval has all values that the interval does not have. There is none if the interval has
every value. -/
theorem negate_spec (hi : i.Bounded) : (∀ r, i.negate = some r → Negates i r) ∧
    (i.negate = none → ∀ v ≤ bound i.sz, i.Mem v) := by
  obtain ⟨hil, hih⟩ := hi
  refine spec_of_elim ?_
  fun_cases negate i with
  | case1 h =>
    exact .mk (fun v hv _ => mem_of_is_full (by simp [is_full]) hv) rfl ⟨Nat.zero_le _, le_rfl⟩ fun ht => by
      simp [ht] at h
  | case2 _ hfull => exact fun v hv => mem_of_is_full hfull hv
  | _ =>
    refine .mk (fun v hv => ?_) rfl ⟨?_, ?_⟩ fun _ hne v => ?_ <;>
      simp only [mem_iff, is_full, and_eq_true, beq_iff_eq] at * <;> omega

/-! ### Exactness -/

/-- `invariant()`: the ends are values of `sz` bits, and an interval that wraps around leaves some value out. -/
def invariant (i : interval) : Bool :=
  decide (i.l ≤ bound i.sz) && decide (i.h ≤ bound i.sz) && (!i.is_wrapped || i.l != i.h + 1)

/-- `uMaxInt`, on words of 64 bits. The shift is defined for widths from 1 on. -/
def uMaxInt (sz : Nat) : Nat := 18446744073709551615 >>> (64 - sz)

/-- `negate` on words, whose sums and differences are modulo `2 ^ 64`. -/
def negate_uint64 (i : interval) : Option interval :=
  if !i.tight then some ⟨0, uMaxInt i.sz, i.sz, true⟩
  else if i.l = 0 ∧ i.h = uMaxInt i.sz then none
  else if i.l = 0 ∧ uMaxInt i.sz = i.h then some ⟨0, uMaxInt i.sz, i.sz, false⟩
  else if i.l = 0 then some ⟨(i.h + 1) % 18446744073709551616, uMaxInt i.sz, i.sz, false⟩
  else if uMaxInt i.sz = i.h then some ⟨0, (i.l + 18446744073709551615) % 18446744073709551616, i.sz, false⟩
  else some ⟨(i.h + 1) % 18446744073709551616, (i.l + 18446744073709551615) % 18446744073709551616, i.sz, false⟩

theorem invariant_iff : i.invariant ↔ i.l ≤ bound i.sz ∧ i.h ≤ bound i.sz ∧ i.l ≠ i.h + 1 := by
  simp only [invariant, is_wrapped, and_eq_true, or_eq_true, not_eq_true', decide_eq_true_eq,
    decide_eq_false_iff_not, bne_iff_ne]
  omega

theorem uMaxInt_eq {sz : Nat} (h : sz ≤ 64) : uMaxInt sz = bound sz := by
  have hmax : 18446744073709551615 = 2 ^ (64 - sz) * 2 ^ sz - 1 := by rw [← Nat.pow_add, Nat.sub_add_cancel h]
  rw [uMaxInt, hmax, bound, Nat.shiftRight_eq_div_pow,
    Nat.mul_sub_div 0 _ _ (Nat.mul_pos (Nat.two_pow_pos _) (Nat.two_pow_pos _)), Nat.zero_div]

/-- The negation on words of 64 bits, which adds and subtracts modulo `2 ^ 64`. -/
theorem negate_uint64_eq (hl : i.l ≤ bound i.sz) (hh : i.h ≤ bound i.sz) (hsz : i.sz ≤ 64) :
    i.negate_uint64 = i.negate := by
  have hlt : bound i.sz < 18446744073709551616 :=
    Nat.lt_of_lt_of_le (Nat.sub_one_lt (Nat.two_pow_pos _).ne') (Nat.pow_le_pow_right (by decide) hsz)
  have hinc (h : ¬ bound i.sz = i.h) : (i.h + 1) % 18446744073709551616 = i.h + 1 := Nat.mod_eq_of_lt (by omega)
  have hdec (h : ¬ i.l = 0) : (i.l + 18446744073709551615) % 18446744073709551616 = i.l - 1 := by omega
  rw [negate_uint64, negate, uMaxInt_eq hsz]
  by_cases hl0 : i.l = 0 <;> by_cases hend : bound i.sz = i.h
  · simp [is_full, hl0, hend]
  · simp [is_full, hl0, hend, Ne.symm hend, hinc hend]
  · simp [is_full, hl0, hend, hdec hl0]
  · simp [is_full, hl0, hend, hinc hend, hdec hl0]

section Exact

variable (hi : i.invariant) (hb : b.invariant) (hsz : i.sz = b.sz)
include hi hb hsz

/-- Implication is decided by the ends of the intervals, in each case of which of them wrap around. -/
theorem implies_iff : i.implies b ↔ ∀ v ≤ bound i.sz, i.Mem v → b.Mem v := by
  refine ⟨fun h v hv => mem_of_implies h (hsz ▸ hv), fun h => ?_⟩
  rw [invariant_iff] at hi hb
  -- the values at the ends, and those next to the ends of `b`, tell
  have hl := h i.l hi.1
  have hh := h i.h hi.2.1
  have hzero := h 0 (Nat.zero_le _)
  have hbound := h (bound i.sz) le_rfl
  have hbelow := h (b.l - 1)
  have habove := h (b.h + 1)
  clear h
  fun_cases implies i b <;>
    simp only [is_full, is_wrapped, mem_iff, hsz, and_eq_true, or_eq_true, beq_iff_eq, decide_eq_true_eq] at * <;>
    omega

theorem intersect_wrapped_within (hwi : i.l ≤ i.h) (hwb : b.h < b.l) (h : intersect_wrapped i b = some r) :
    r.invariant ∧ (∀ v, r.Mem v → b.Mem v) ∧ (i.Mem r.l ∧ b.Mem r.l ∨ i.Mem r.h ∧ b.Mem r.h) := by
  rw [invariant_iff] at *
  revert h
  fun_cases intersect_wrapped i b <;> rintro ⟨⟩ <;> simp only [mem_iff, hsz] at * <;>
    refine ⟨?_, fun v => ?_, ?_⟩ <;> omega

/-- An answer lies within one of the operands, and one of its ends is a common value. -/
theorem intersect_within (h : i.intersect b = some r) : r.invariant ∧
    ((∀ v, r.Mem v → i.Mem v) ∨ ∀ v, r.Mem v → b.Mem v) ∧ (i.Mem r.l ∧ b.Mem r.l ∨ i.Mem r.h ∧ b.Mem r.h) := by
  revert h
  fun_cases intersect i b with
  | case6 _ _ hwi hwb =>
    intro h
    simp only [is_wrapped, decide_eq_true_eq] at hwi hwb
    obtain ⟨hinv, hwithin, hcommon⟩ := intersect_wrapped_within hb hi hsz.symm (by omega) hwi h
    exact ⟨hinv, .inl hwithin, hcommon.imp And.symm And.symm⟩
  | case7 _ _ hwi hwb =>
    intro h
    simp only [is_wrapped, decide_eq_true_eq] at hwi hwb
    obtain ⟨hinv, hwithin, hcommon⟩ := intersect_wrapped_within hi hb hsz (by omega) hwb h
    exact ⟨hinv, .inr hwithin, hcommon⟩
  | case1 h =>
    rintro ⟨⟩
    refine ⟨hb, .inr fun _ => id, .inl ⟨?_, mem_l b⟩⟩
    rcases h with h | rfl
    · exact mem_of_is_full h (hsz ▸ (invariant_iff.mp hb).1)
    · exact mem_l i
  | case2 _ h =>
    rintro ⟨⟩
    exact ⟨hi, .inl fun _ => id, .inl ⟨mem_l i, mem_of_is_full h (hsz ▸ (invariant_iff.mp hi).1)⟩⟩
  | case3 _ _ hwi _ hge =>
    rintro ⟨⟩
    exact ⟨hb, .inr fun _ => id, .inl ⟨by simp_all [mem_iff, is_wrapped], mem_l b⟩⟩
  | case4 _ _ _ hwb _ hge =>
    rintro ⟨⟩
    exact ⟨hi, .inl fun _ => id, .inl ⟨mem_l i, by simp_all [mem_iff, is_wrapped]⟩⟩
  | case5 | case9 =>
    rintro ⟨⟩
    simp only [invariant_iff, mem_iff, is_wrapped, decide_eq_true_eq, hsz] at *
    refine ⟨?_, .inl fun v => ?_, .inl ?_⟩ <;> omega
  | case8 => exact nofun

/-- The operations on intervals of one width are exact. Implication is inclusion and `intersect` fails exactly on
disjoint intervals; its result has the common values and is within one of the two. The negation of a tight interval is
its complement, and it fails exactly if there is none. Up to 64 bits, the bound and the negation on machine words are
the same. -/
theorem operations_exact :
    (i.implies b ↔ ∀ v ≤ bound i.sz, i.Mem v → b.Mem v) ∧
    (i.intersect b = none ↔ ∀ v ≤ bound i.sz, i.Mem v → ¬ b.Mem v) ∧
    (∀ r, i.intersect b = some r → r.invariant ∧ r.sz = i.sz ∧ (∀ v, i.Mem v → b.Mem v → r.Mem v) ∧
      ((∀ v, r.Mem v → i.Mem v) ∨ ∀ v, r.Mem v → b.Mem v)) ∧
    (i.tight → (i.negate = none ↔ ∀ v ≤ bound i.sz, i.Mem v) ∧
      ∀ r, i.negate = some r → r.invariant ∧ r.sz = i.sz ∧ ∀ v ≤ bound i.sz, r.Mem v ↔ ¬ i.Mem v) ∧
    (i.sz ≤ 64 → uMaxInt i.sz = bound i.sz ∧ i.negate_uint64 = i.negate) := by
  obtain ⟨hil, hih, hproper⟩ := invariant_iff.mp hi
  obtain ⟨hbl, hbh, -⟩ := invariant_iff.mp hb
  obtain ⟨hmeets, hdisjoint⟩ := intersect_spec ⟨hil, hih⟩ ⟨hbl, hbh⟩ hsz
  obtain ⟨hnegates, hall⟩ := negate_spec ⟨hil, hih⟩
  refine ⟨implies_iff hi hb hsz, ⟨hdisjoint, fun h => ?_⟩, fun r hr => ?_,
    fun ht => ⟨⟨hall, fun h => ?_⟩, fun r hr => ?_⟩,
    fun hle => ⟨uMaxInt_eq hle, negate_uint64_eq hil hih hle⟩⟩
  · refine eq_none_iff_forall_ne_some.mpr fun r hr => ?_
    obtain ⟨hinv, -, hcommon⟩ := intersect_within hi hb hsz hr
    obtain ⟨hrl, hrh, -⟩ := invariant_iff.mp hinv
    have hrsz := (hmeets r hr).sz
    rcases hcommon with ⟨hmi, hmb⟩ | ⟨hmi, hmb⟩
    · exact h r.l (hrsz ▸ hrl) hmi hmb
    · exact h r.h (hrsz ▸ hrh) hmi hmb
  · obtain ⟨hinv, hwithin, -⟩ := intersect_within hi hb hsz hr
    exact ⟨hinv, (hmeets r hr).sz, (hmeets r hr).mem, hwithin⟩
  · refine eq_none_iff_forall_ne_some.mpr fun r hr => ?_
    have hneg := hnegates r hr
    exact hneg.exact ht hproper r.l (mem_l r) (h r.l (hneg.sz ▸ hneg.bounded.l_le))
  · have hneg := hnegates r hr
    have hiff v (hv : v ≤ bound i.sz) : r.Mem v ↔ ¬ i.Mem v := ⟨hneg.exact ht hproper v, hneg.mem v hv⟩
    refine ⟨invariant_iff.mpr ⟨hneg.bounded.l_le, hneg.bounded.h_le, fun heq => ?_⟩, hneg.sz, hiff⟩
    -- an interval that ends just before its start has every value, and `i` has none of them
    exact (hiff i.l hil).mp (by rw [mem_iff]; omega) (mem_l i)

end Exact

/-- The values from 14 to 3 and those from 2 to 9, of 4 bits, have some in common. -/
theorem operations_exact_four_bits : ¬ ∀ v ≤ bound 4, Mem v ⟨14, 3, 4, true⟩ → ¬ Mem v ⟨2, 9, 4, false⟩ :=
  fun h => absurd ((operations_exact (i := ⟨14, 3, 4, true⟩) (b := ⟨2, 9, 4, false⟩) rfl rfl rfl).2.1.mpr h) (by decide)

end interval

end bv
