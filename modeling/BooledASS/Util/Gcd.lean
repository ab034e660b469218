import BooledASS.Logic.Loop
import Mathlib.Data.Nat.GCD.Basic
import Mathlib.Data.Nat.Prime.Basic
import Mathlib.Logic.Relation

/-! The binary gcds of machine words. -/

open BitVec

namespace mpz

/-- One round of the loop of `u_gcd`: the minimum and the distance of the two operands, taken through
the sign bit of their wrapped difference. -/
def u_gcd_round : BitVec 32 × BitVec 32 → Option (BitVec 32 × BitVec 32 ⊕ BitVec 32)
  | (u, v) =>
    let v := v >>> v.ctz
    let diff := u - v
    let mdiff := diff &&& diff.sshiftRight 31
    let u := v + mdiff
    let v := diff - 2 * mdiff
    some (if v = 0 then .inr u else .inl (u, v))

def u_gcd (fuel : Nat) (u v : BitVec 32) : Option (BitVec 32) :=
  if u = 0 then some v
  else if v = 0 then some u
  else
    let shift := (u ||| v).ctz
    let u := u >>> u.ctz
    if u = 1 ∨ v = 1 then some (1#32 <<< shift)
    else if u = v then some (u <<< shift)
    else (Loop.run u_gcd_round fuel (u, v)).map (· <<< shift)

/-- One round of the loop of `u64_gcd`, which compares the operands and swaps them. -/
def u64_gcd_round : BitVec 64 × BitVec 64 → Option (BitVec 64 × BitVec 64 ⊕ BitVec 64)
  | (u, v) =>
    let v := v >>> v.ctz
    let (u, v) := if v < u then (v, u) else (u, v)
    let v := v - u
    some (if v = 0 then .inr u else .inl (u, v))

def u64_gcd (fuel : Nat) (u v : BitVec 64) : Option (BitVec 64) :=
  if u = 0 then some v
  else if v = 0 then some u
  else if u = 1 ∨ v = 1 then some 1
  else
    let shift := (u ||| v).ctz
    let u := u >>> u.ctz
    (Loop.run u64_gcd_round fuel (u, v)).map (· <<< shift)

section Words

variable {w : Nat} {u v : BitVec w}

theorem ctz_le_of_getLsbD {k : Nat} (h : u.getLsbD k) : u.ctz.toNat ≤ k := by
  by_contra hlt
  rw [getLsbD_false_of_lt_ctz (Nat.lt_of_not_le hlt)] at h
  cases h

/-- The shift of both operands is the smaller one of their shifts. -/
theorem ctz_or (hu : u ≠ 0) (hv : v ≠ 0) : (u ||| v).ctz.toNat = min u.ctz.toNat v.ctz.toNat := by
  have huv : u ||| v ≠ 0 := fun h => hu (or_eq_zero_iff.mp h).1
  apply Nat.le_antisymm
  · refine Nat.le_min.mpr ⟨ctz_le_of_getLsbD ?_, ctz_le_of_getLsbD ?_⟩
    · simp [getLsbD_true_ctz_of_ne_zero hu]
    · simp [getLsbD_true_ctz_of_ne_zero hv]
  · have hbit := getLsbD_true_ctz_of_ne_zero huv
    rw [getLsbD_or, Bool.or_eq_true] at hbit
    exact Std.min_le.mpr (hbit.imp ctz_le_of_getLsbD ctz_le_of_getLsbD)

/-- The part of a word above its trailing zeros. -/
def odd_part (v : BitVec w) : Nat := (v >>> v.ctz).toNat

theorem toNat_eq_odd_part (v : BitVec w) : v.toNat = 2 ^ v.ctz.toNat * odd_part v := by
  have hlow : v.toNat % 2 ^ v.ctz.toNat = 0 := by
    apply Nat.eq_of_testBit_eq
    intro i
    by_cases hi : i < v.ctz.toNat
    · have := getLsbD_false_of_lt_ctz hi
      simp_all [getLsbD]
    · simp [hi]
  have := Nat.div_add_mod v.toNat (2 ^ v.ctz.toNat)
  rw [hlow] at this
  simpa [odd_part, Nat.shiftRight_eq_div_pow] using this.symm

theorem odd_part_mod_two (hv : v ≠ 0) : odd_part v % 2 = 1 := by
  have hbit := getLsbD_true_ctz_of_ne_zero hv
  simpa [odd_part, getLsbD, Nat.testBit_eq_decide_div_mod_eq, Nat.shiftRight_eq_div_pow] using hbit

theorem odd_part_le (v : BitVec w) : odd_part v ≤ v.toNat := by exact Nat.shiftRight_le _ _

theorem gcd_two_pow_mul {a : Nat} (ha : a % 2 = 1) (k b : Nat) : a.gcd (2 ^ k * b) = a.gcd b :=
  Nat.Coprime.gcd_mul_left_cancel_right b (Nat.Coprime.pow_left k (Nat.coprime_two_left.mpr (Nat.odd_iff.mpr ha)))

theorem gcd_odd_part {a : Nat} (ha : a % 2 = 1) (v : BitVec w) : a.gcd (odd_part v) = a.gcd v.toNat := by
  rw [toNat_eq_odd_part v, gcd_two_pow_mul ha]

/-- The power of two in the gcd is taken out before the loop. -/
theorem gcd_eq_shifted (hu : u ≠ 0) (hv : v ≠ 0) :
    u.toNat.gcd v.toNat = (odd_part u).gcd v.toNat * 2 ^ (u ||| v).ctz.toNat := by
  rw [ctz_or hu hv, ← gcd_odd_part (odd_part_mod_two hu), toNat_eq_odd_part u, toNat_eq_odd_part v]
  rcases Nat.le_total u.ctz.toNat v.ctz.toNat with hle | hle
  · rw [Nat.min_eq_left hle, ← Nat.add_sub_of_le hle, pow_add, mul_assoc, Nat.gcd_mul_left,
      gcd_two_pow_mul (odd_part_mod_two hu), mul_comm]
  · rw [Nat.min_eq_right hle, ← Nat.add_sub_of_le hle, pow_add, mul_assoc, Nat.gcd_mul_left,
      Nat.gcd_comm, gcd_two_pow_mul (odd_part_mod_two hv), Nat.gcd_comm, mul_comm]

theorem toNat_shifted {x : BitVec w} (hu : u ≠ 0) (hv : v ≠ 0) (hx : x.toNat = (odd_part u).gcd v.toNat) :
    (x <<< (u ||| v).ctz).toNat = u.toNat.gcd v.toNat := by
  have hpos : 0 < u.toNat := Nat.pos_of_ne_zero fun h => hu (eq_of_toNat_eq h)
  have hle : u.toNat.gcd v.toNat < 2 ^ w := Nat.lt_of_le_of_lt (Nat.gcd_le_left _ hpos) u.isLt
  rw [shiftLeft_eq', toNat_shiftLeft, hx, Nat.shiftLeft_eq, ← gcd_eq_shifted hu hv, Nat.mod_eq_of_lt hle]

/-- A round that ends with the minimum and the distance of two numbers. -/
def MinDist (round : Option (BitVec w × BitVec w ⊕ BitVec w)) (a b : Nat) : Prop :=
  ∃ u v, round = some (if v = 0 then .inr u else .inl (u, v)) ∧ u.toNat = min a b ∧ v.toNat = max a b - min a b

/-- A loop whose rounds take the minimum and the distance of `u` and the odd part of `v` returns the
gcd. The rounds are exact on the pairs of `P`, and an exact round leads from one such pair to another. -/
theorem run_gcd {body : BitVec w × BitVec w → Option (BitVec w × BitVec w ⊕ BitVec w)} {fuel : Nat}
    (P : Nat → Nat → Prop)
    (hround : ∀ u v : BitVec w, P u.toNat (odd_part v) → MinDist (body (u, v)) u.toNat (odd_part v))
    (hnext : ∀ a b (v : BitVec w), P a b → v.toNat = max a b - min a b → v ≠ 0 → P (min a b) (odd_part v))
    (hodd : u.toNat % 2 = 1) (hv : v ≠ 0) (hP : P u.toNat (odd_part v)) (hfuel : u.toNat + v.toNat < fuel) :
    ∃ r, Loop.run body fuel (u, v) = some r ∧ r.toNat = u.toNat.gcd v.toNat := by
  refine Loop.run_returns (I := fun s => s.1.toNat % 2 = 1 ∧ s.2 ≠ 0 ∧ P s.1.toNat (odd_part s.2) ∧
    s.1.toNat.gcd s.2.toNat = u.toNat.gcd v.toNat) (fun s => s.1.toNat + s.2.toNat) ?_ ⟨hodd, hv, hP, rfl⟩ hfuel
  rintro ⟨u, v⟩ ⟨hodd, hv, hP, hgcd⟩
  obtain ⟨u', v', hbody, hu', hv'⟩ := hround u v hP
  dsimp only at hodd hv hP hgcd ⊢
  have hvodd := odd_part_mod_two hv
  have hkeep : u'.toNat.gcd v'.toNat = u.toNat.gcd v.toNat := by
    rw [hu', hv', ← gcd_odd_part hodd]
    rcases Nat.le_total u.toNat (odd_part v) with hle | hle
    · rw [Nat.min_eq_left hle, Nat.max_eq_right hle, Nat.gcd_sub_self_right hle]
    · rw [Nat.min_eq_right hle, Nat.max_eq_left hle, Nat.gcd_sub_self_right hle, Nat.gcd_comm]
  by_cases hzero : v' = 0
  · rw [if_pos hzero] at hbody
    refine .inl ⟨u', hbody, ?_⟩
    simpa [hzero, hgcd] using hkeep
  · rw [if_neg hzero] at hbody
    refine .inr ⟨_, hbody, ⟨?_, hzero, ?_, hkeep.trans hgcd⟩, ?_⟩
    · dsimp only
      omega
    · dsimp only
      rw [hu']
      exact hnext _ _ _ hP hv' hzero
    · have := odd_part_le v
      dsimp only
      omega

end Words

/-- Shifted down over all other bits, the sign bit fills the word. -/
theorem sshiftRight_sign (x : BitVec 32) : x.sshiftRight 31 = if 2 ^ 31 ≤ x.toNat then allOnes 32 else 0#32 := by
  have hlow : ∀ y : BitVec 32, y.toNat < 2 ^ 31 → y >>> 31 = 0#32 := fun y hy =>
    eq_of_toNat_eq (by simpa [Nat.shiftRight_eq_div_pow] using hy)
  split
  next h =>
    rw [sshiftRight_eq_of_msb_true (by simpa [msb_eq_decide] using h), hlow]
    · rfl
    · bv_omega
  next h =>
    exact (sshiftRight_eq_of_msb_false (by simpa [msb_eq_decide] using h)).trans (hlow x (Nat.lt_of_not_le h))

/-- The round is exact on operands whose wrapped difference has the sign of the difference. -/
theorem u_gcd_round_minDist (u v : BitVec 32) (hu : u.toNat < odd_part v + 2 ^ 31)
    (hv : odd_part v ≤ u.toNat + 2 ^ 31) :
    MinDist (u_gcd_round (u, v)) u.toNat (odd_part v) := by
  refine ⟨_, _, rfl, ?_⟩
  rw [odd_part] at hu hv ⊢
  rw [sshiftRight_sign]
  split
  · rw [and_allOnes]
    constructor <;> bv_omega
  · rw [and_zero]
    constructor <;> bv_omega

/-- On other operands the round goes on with the larger one of them as the minimum. -/
theorem u_gcd_round_far {u v : BitVec 32} (h : ¬(u.toNat < odd_part v + 2 ^ 31 ∧ odd_part v ≤ u.toNat + 2 ^ 31)) :
    ∃ t, u_gcd_round (u, v) = some (.inl t) ∧ min u.toNat (odd_part v) < t.1.toNat := by
  rw [odd_part] at h ⊢
  unfold u_gcd_round
  dsimp only
  rw [sshiftRight_sign]
  split
  · rw [and_allOnes, if_neg (by bv_omega)]
    exact ⟨_, rfl, by bv_omega⟩
  · rw [and_zero, if_neg (by bv_omega)]
    exact ⟨_, rfl, by bv_omega⟩

/-- The pairs of odd numbers whose rounds are all exact. Only the first two rounds can meet a number above
`2 ^ 31`: the second one compares the minimum with the odd part of the distance. -/
def Near (a b : Nat) : Prop :=
  a < b + 2 ^ 31 ∧ b ≤ a + 2 ^ 31 ∧
    (a = b ∨ min a b < 2 ^ 31 + odd_part (BitVec.ofNat 32 (max a b - min a b)))

theorem odd_part_ofNat_toNat {v : BitVec 32} {n : Nat} (h : v.toNat = n) :
    odd_part (BitVec.ofNat 32 n) = odd_part v := by
  rw [← h, ofNat_toNat, setWidth_eq]

theorem near_next (a b : Nat) (v : BitVec 32) (h : Near a b) (hv : v.toNat = max a b - min a b) (hv0 : v ≠ 0) :
    Near (min a b) (odd_part v) := by
  obtain ⟨hab, hba, hmin⟩ := h
  rw [odd_part_ofNat_toNat hv] at hmin
  have hodd := odd_part_mod_two hv0
  have hle := odd_part_le v
  have hne : v.toNat ≠ 0 := fun h0 => hv0 (eq_of_toNat_eq h0)
  refine ⟨by omega, by omega, .inr ?_⟩
  omega

/-- `u_gcd` returns before its loop, or the loop meets no operands that are too far apart. -/
def Comparable (u v : BitVec 32) : Prop :=
  u = 0 ∨ v = 0 ∨ v = 1 ∨ odd_part u = 1 ∨ odd_part u = v.toNat ∨ Near (odd_part u) (odd_part v)

theorem u64_gcd_round_minDist (u v : BitVec 64) : MinDist (u64_gcd_round (u, v)) u.toNat (odd_part v) := by
  rw [odd_part, u64_gcd_round]
  dsimp only
  split <;> refine ⟨_, _, rfl, ?_⟩ <;> bv_omega

/-- A round goes on with the smaller of the odd parts and the distance to the larger. For comparable operands the sign
of the difference tells which one is smaller. -/
theorem u_gcd_of_comparable {u v : BitVec 32} {fuel : Nat} (h : Comparable u v) (hfuel : u.toNat + v.toNat < fuel) :
    ∃ r, u_gcd fuel u v = some r ∧ r.toNat = u.toNat.gcd v.toNat := by
  fun_cases u_gcd fuel u v with
  | case1 => exact ⟨v, rfl, by simp [*]⟩
  | case2 => exact ⟨u, rfl, by simp [*]⟩
  | case3 hu0 hv0 shift u' hone =>
    refine ⟨_, rfl, toNat_shifted hu0 hv0 ?_⟩
    rcases hone with hu' | rfl
    · rw [show odd_part u = 1 from congrArg BitVec.toNat hu', Nat.gcd_one_left]
      rfl
    · exact (Nat.gcd_one_right _).symm
  | case4 hu0 hv0 shift u' _ heq =>
    refine ⟨_, rfl, toNat_shifted hu0 hv0 ?_⟩
    exact (Nat.gcd_self _).symm.trans (congrArg (Nat.gcd u'.toNat ·.toNat) heq)
  | case5 hu0 hv0 shift u' hone heq =>
    have hnear : Near (odd_part u) (odd_part v) := by
      rcases h with h | h | h | h | h | h
      · exact absurd h hu0
      · exact absurd h hv0
      · exact absurd (.inr h) hone
      · exact absurd (.inl (eq_of_toNat_eq h)) hone
      · exact absurd (eq_of_toNat_eq h) heq
      · exact h
    obtain ⟨r, hr, hgcd⟩ := run_gcd Near (fun u v h => u_gcd_round_minDist u v h.1 h.2.1) near_next
      (odd_part_mod_two hu0) hv0 hnear (Nat.lt_of_le_of_lt (Nat.add_le_add_right (odd_part_le u) _) hfuel)
    exact ⟨_, congrArg (Option.map _) hr, toNat_shifted hu0 hv0 hgcd⟩

theorem u64_gcd_eq_gcd {u v : BitVec 64} {fuel : Nat} (hfuel : u.toNat + v.toNat < fuel) :
    ∃ r, u64_gcd fuel u v = some r ∧ r.toNat = u.toNat.gcd v.toNat := by
  fun_cases u64_gcd fuel u v with
  | case1 => exact ⟨v, rfl, by simp [*]⟩
  | case2 => exact ⟨u, rfl, by simp [*]⟩
  | case3 _ _ h => rcases h with rfl | rfl <;> exact ⟨_, rfl, by simp⟩
  | case4 hu0 hv0 _ shift u' =>
    obtain ⟨r, hr, hgcd⟩ := run_gcd (fun _ _ => True) (fun u v _ => u64_gcd_round_minDist u v)
      (fun _ _ _ _ _ _ => trivial)
      (odd_part_mod_two hu0) hv0 trivial (Nat.lt_of_le_of_lt (Nat.add_le_add_right (odd_part_le u) _) hfuel)
    exact ⟨_, congrArg (Option.map _) hr, toNat_shifted hu0 hv0 hgcd⟩

/-- Operands that are not comparable lead the loop to a round that goes on with a number above the minimum, in
its first or in its second round. -/
theorem exists_far_round {u v : BitVec 32} (h : ¬Comparable u v) :
    ∃ s t, Relation.ReflTransGen (fun s t => u_gcd_round s = some (.inl t)) (u >>> u.ctz, v) s ∧
      u_gcd_round s = some (.inl t) ∧ min s.1.toNat (odd_part s.2) < t.1.toNat := by
  obtain ⟨-, -, -, -, -, hfar⟩ : u ≠ 0 ∧ v ≠ 0 ∧ v ≠ 1 ∧ odd_part u ≠ 1 ∧ odd_part u ≠ v.toNat ∧
      ¬Near (odd_part u) (odd_part v) := by simpa [Comparable] using h
  by_cases hfirst : odd_part u < odd_part v + 2 ^ 31 ∧ odd_part v ≤ odd_part u + 2 ^ 31
  · obtain ⟨u', v', hround, (hu' : u'.toNat = min (odd_part u) (odd_part v)),
      (hv' : v'.toNat = max (odd_part u) (odd_part v) - min (odd_part u) (odd_part v))⟩ :=
      u_gcd_round_minDist (u >>> u.ctz) v hfirst.1 hfirst.2
    obtain ⟨hne, hmin⟩ : odd_part u ≠ odd_part v ∧
        2 ^ 31 + odd_part v' ≤ min (odd_part u) (odd_part v) := by
      rw [← Nat.not_lt, ← odd_part_ofNat_toNat hv']
      exact ⟨fun h => hfar ⟨hfirst.1, hfirst.2, .inl h⟩, fun h => hfar ⟨hfirst.1, hfirst.2, .inr h⟩⟩
    have hv0 : v' ≠ 0 := by
      rintro rfl
      rw [show (0 : BitVec 32).toNat = 0 from rfl] at hv'
      omega
    rw [if_neg hv0] at hround
    obtain ⟨t, ht, hlt⟩ := u_gcd_round_far (u := u') (v := v') (by omega)
    exact ⟨(u', v'), t, .single hround, ht, hlt⟩
  · obtain ⟨t, ht, hlt⟩ := u_gcd_round_far hfirst
    exact ⟨_, t, .refl, ht, hlt⟩

/-- Both gcds return and are right, the 32-bit one on operands that its rounds can compare by the sign bit of
a difference. On all others it comes to a round that takes the larger operand for the minimum, so that no
operands are left out that do not reach the wrong comparison; the value it then returns may be right by
chance, as for `2 ^ 31 + 3` and `3`. -/
theorem gcd_returns (fuel : Nat) :
    (∀ u v : BitVec 32, Comparable u v → u.toNat + v.toNat < fuel →
      ∃ r, u_gcd fuel u v = some r ∧ r.toNat = u.toNat.gcd v.toNat) ∧
    (∀ u v : BitVec 32, ¬Comparable u v →
      ∃ s t, Relation.ReflTransGen (fun s t => u_gcd_round s = some (.inl t)) (u >>> u.ctz, v) s ∧
        u_gcd_round s = some (.inl t) ∧ min s.1.toNat (odd_part s.2) < t.1.toNat) ∧
    ∀ u v : BitVec 64, u.toNat + v.toNat < fuel → ∃ r, u64_gcd fuel u v = some r ∧ r.toNat = u.toNat.gcd v.toNat :=
  ⟨fun _ _ => u_gcd_of_comparable, fun _ _ => exists_far_round, fun _ _ => u64_gcd_eq_gcd⟩

/-- Two operands above `2 ^ 31` whose distance has a large odd part. -/
theorem gcd_returns_large :
    Comparable 4294967295 2147483649 ∧ ∃ r, u_gcd 6442450945 4294967295 2147483649 = some r ∧ r.toNat = 3 := by
  have h : Comparable 4294967295 2147483649 := by
    refine .inr (.inr (.inr (.inr (.inr ?_))))
    unfold Near
    decide +kernel
  obtain ⟨r, hr, hgcd⟩ := (gcd_returns 6442450945).1 4294967295 2147483649 h (by decide)
  exact ⟨h, r, hr, hgcd.trans (by decide)⟩

/-- From `0xFFFFFFFF` and `3` the wrapped differences lead round in a circle. -/
theorem u_gcd_diverges : ¬ ∃ fuel r, u_gcd fuel 4294967295 3 = some r := by
  have hstep : u_gcd_round (4294967295, 3) = some (.inl (4294967295, 4)) ∧
      u_gcd_round (4294967295, 4) = some (.inl (4294967295, 2)) ∧
      u_gcd_round (4294967295, 2) = some (.inl (4294967295, 2)) := by
    set_option maxRecDepth 4000 in decide
  have hrun fuel : Loop.run u_gcd_round fuel (4294967295, 3) = none := by
    refine Loop.run_diverges (I := fun s => s.1 = 4294967295 ∧ (s.2 = 3 ∨ s.2 = 4 ∨ s.2 = 2)) ?_ ⟨rfl, .inl rfl⟩
    rintro ⟨_, _⟩ ⟨rfl, rfl | rfl | rfl⟩
    · exact .inr ⟨_, hstep.1, rfl, .inr (.inl rfl)⟩
    · exact .inr ⟨_, hstep.2.1, rfl, .inr (.inr rfl)⟩
    · exact .inr ⟨_, hstep.2.2, rfl, .inr (.inr rfl)⟩
  rintro ⟨fuel, r, hr⟩
  have hctz : (4294967295#32).ctz = 0 := by set_option maxRecDepth 2000 in decide
  simp [u_gcd, hctz] at hr
  cases (hrun fuel).symm.trans hr

end mpz
