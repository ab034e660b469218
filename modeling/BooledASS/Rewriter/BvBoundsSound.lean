import BooledASS.Rewriter.BvBounds

open List

namespace bv

variable {M : interp} {e t t1 x : expr} {b : interval}

/-! ### Values -/

theorem eval_app (M : interp) (f : decl) (ts : List expr) : eval M (.app f ts) = f.apply M (ts.map (eval M)) :=
  Term.eval_app _ f ts

variable {f : decl} {ts : List expr} {sz : Nat} {lhs rhs : expr}

theorem wellSorted_app : WellSorted (.app f ts) ↔ f.Accepts (ts.map get_sort) ∧ ∀ t ∈ ts, WellSorted t :=
  Term.all_app

@[simp] theorem get_sort_app (f : decl) (ts : List expr) : get_sort (.app f ts) = f.range := rfl

/-- The arguments of the operators that have a fixed number of them. -/
theorem accepts_pair (hf : f = .OP_EQ ∨ (∃ sz, f = .OP_ULEQ sz ∨ f = .OP_SLEQ sz) ∨
    ∃ a b, f = .OP_CONCAT a b) (h : f.Accepts (ts.map get_sort)) : ∃ a b, ts = [a, b] := by
  match ts with
  | [a, b] => exact ⟨a, b, rfl⟩
  | [] => rcases hf with rfl | ⟨sz, rfl | rfl⟩ | ⟨a, b, rfl⟩ <;> simp [decl.Accepts] at h
  | [a] => rcases hf with rfl | ⟨sz, rfl | rfl⟩ | ⟨a, b, rfl⟩ <;> simp [decl.Accepts] at h
  | a :: b :: c :: ts => rcases hf with rfl | ⟨sz, rfl | rfl⟩ | ⟨a, b, rfl⟩ <;> simp [decl.Accepts] at h

theorem accepts_single (hf : f = .OP_NOT ∨ ∃ high low, f = .OP_EXTRACT high low)
    (h : f.Accepts (ts.map get_sort)) : ∃ a, ts = [a] := by
  match ts with
  | [a] => exact ⟨a, rfl⟩
  | [] => rcases hf with rfl | ⟨_, _, rfl⟩ <;> simp [decl.Accepts] at h
  | a :: b :: ts => rcases hf with rfl | ⟨_, _, rfl⟩ <;> simp [decl.Accepts] at h

theorem ite_lt_two (p : Prop) [Decidable p] : (if p then 1 else 0) < 2 := by split <;> decide

/-- The value of a term is one of its sort. -/
theorem value_eval (h : WellSorted e) : (get_sort e).Value (eval M e) := by
  induction e using Term.induct with
  | h f ts ih =>
    obtain ⟨hf, hts⟩ := wellSorted_app.mp h
    rw [eval_app, get_sort_app]
    cases f with
    | OP_TRUE => simp [decl.range, decl.apply, srt.Value]
    | OP_FALSE => simp [decl.range, decl.apply, srt.Value]
    | OP_NOT =>
      obtain ⟨a, rfl⟩ := accepts_single (.inl rfl) hf
      simp only [decl.range, decl.apply, srt.Value, map_cons, map_nil]
      omega
    | OP_EQ =>
      obtain ⟨a, b, rfl⟩ := accepts_pair (.inl rfl) hf
      exact ite_lt_two _
    | OP_BV_NUM v sz =>
      match ts with
      | [] => exact hf.1
    | OP_ULEQ sz =>
      obtain ⟨a, b, rfl⟩ := accepts_pair (.inr (.inl ⟨sz, .inl rfl⟩)) hf
      exact ite_lt_two _
    | OP_SLEQ sz =>
      obtain ⟨a, b, rfl⟩ := accepts_pair (.inr (.inl ⟨sz, .inr rfl⟩)) hf
      exact ite_lt_two _
    | OP_EXTRACT high low =>
      obtain ⟨a, rfl⟩ := accepts_single (.inr ⟨high, low, rfl⟩) hf
      exact Nat.mod_lt _ (Nat.two_pow_pos _)
    | OP_CONCAT sz1 sz2 =>
      obtain ⟨a, b, rfl⟩ := accepts_pair (.inr (.inr ⟨sz1, sz2, rfl⟩)) hf
      have hsorts : get_sort a = .bitvec sz1 ∧ get_sort b = .bitvec sz2 := hf
      have ha := ih a (by simp) (hts a (by simp))
      have hb := ih b (by simp) (hts b (by simp))
      rw [hsorts.1] at ha
      rw [hsorts.2] at hb
      calc eval M a * 2 ^ sz2 + eval M b < eval M a * 2 ^ sz2 + 2 ^ sz2 := Nat.add_lt_add_left hb _
        _ = (eval M a + 1) * 2 ^ sz2 := by rw [Nat.add_mul, Nat.one_mul]
        _ ≤ 2 ^ sz1 * 2 ^ sz2 := Nat.mul_le_mul_right _ ha
        _ = 2 ^ (sz1 + sz2) := (Nat.pow_add 2 sz1 sz2).symm
    | other n range => exact M.other_value n range _
    | non_app n range => exact M.non_app_value n range

theorem eval_lt_of_bitvec (h : WellSorted e) (hsort : get_sort e = .bitvec sz) : eval M e < 2 ^ sz := by
  have hvalue := value_eval (M := M) h
  rwa [hsort] at hvalue

theorem eval_lt_two (h : WellSorted e) (hsort : get_sort e = .bool) : eval M e < 2 := by
  have hvalue := value_eval (M := M) h
  rwa [hsort] at hvalue

theorem eval_mk_not (e : expr) : eval M (mk_not e) = 1 - eval M e := eval_app M _ _

theorem holds_mk_not (h : WellSorted e) (hsort : get_sort e = .bool) {sign : Bool} :
    Holds M (mk_not e) sign ↔ Holds M e (!sign) := by
  have hlt := eval_lt_two (M := M) h hsort
  unfold Holds
  rw [eval_mk_not]
  cases sign <;> simp <;> omega

/-- Negations are moved into the sign. -/
theorem strip_not_spec (h : WellSorted t) (hsort : get_sort t = .bool) (sign : Bool) :
    WellSorted (strip_not t sign).1 ∧ get_sort (strip_not t sign).1 = .bool ∧
      ∀ M, Holds M t sign ↔ Holds M (strip_not t sign).1 (strip_not t sign).2 := by
  fun_induction strip_not t sign with
  | case1 t sign ih =>
    obtain ⟨hf, hts⟩ := wellSorted_app.mp h
    have ht : WellSorted t := hts t (by simp)
    have hbool : get_sort t = .bool := hf
    obtain ⟨h1, h2, h3⟩ := ih ht hbool
    exact ⟨h1, h2, fun M => (holds_mk_not ht hbool).trans (h3 M)⟩
  | case2 t sign => exact ⟨h, hsort, fun _ => Iff.rfl⟩

theorem eval_strip_not (h : WellSorted t) (hsort : get_sort t = .bool) :
    eval M t = (if (strip_not t false).2 then 1 - eval M (strip_not t false).1 else eval M (strip_not t false).1) ∧
      eval M (strip_not t false).1 < 2 := by
  obtain ⟨hsorted, hbool, hstrip⟩ := strip_not_spec h hsort false
  have hlt := eval_lt_two (M := M) h hsort
  have hlt' := eval_lt_two (M := M) hsorted hbool
  have htruth := hstrip M
  simp only [Holds] at htruth
  refine ⟨?_, hlt'⟩
  cases hsign : (strip_not t false).2 <;> simp only [hsign, Bool.false_eq_true, if_false, if_true] at htruth ⊢ <;> omega

/-! ### Bounds of a formula -/

/-- A signed comparison that is true whatever the value of `x` is. -/
inductive AlwaysTrue : expr → Prop
  | le_max (sz : Nat) (x : expr) : AlwaysTrue (.app (.OP_SLEQ sz) [x, mk_numeral (2 ^ (sz - 1) - 1) sz])
  | min_le (sz : Nat) (x : expr) : AlwaysTrue (.app (.OP_SLEQ sz) [mk_numeral (2 ^ (sz - 1)) sz, x])

/-- The formula says that the value of `x` is in the interval. -/
structure Bounds (e x : expr) (b : interval) : Prop where
  sorted : WellSorted x
  sort_eq : get_sort x = .bitvec b.sz
  bounded : b.Bounded
  iff : ∀ M, eval M e = 1 ↔ b.Mem (eval M x)
  always_true : b.l = b.h + 1 → AlwaysTrue e

theorem eq_mk_numeral {r : Nat} (h : WellSorted e) (hnum : is_numeral e = some (r, sz)) :
    e = mk_numeral r sz ∧ r < 2 ^ sz ∧ 0 < sz := by
  obtain ⟨f, ts⟩ := e
  cases f with
  | OP_BV_NUM v n =>
    obtain ⟨rfl, rfl⟩ : v = r ∧ n = sz := by simpa [is_numeral] using hnum
    match ts, (wellSorted_app.mp h).1 with
    | [], hf => exact ⟨rfl, hf⟩
  | _ => simp [is_numeral] at hnum

@[simp] theorem eval_mk_numeral (r sz : Nat) : eval M (mk_numeral r sz) = r := eval_app M _ _
@[simp] theorem get_sort_mk_numeral (r sz : Nat) : get_sort (mk_numeral r sz) = .bitvec sz := rfl

theorem two_pow_pred (h : 0 < sz) : 2 ^ sz = 2 * 2 ^ (sz - 1) := by
  obtain ⟨n, rfl⟩ := Nat.exists_eq_succ_of_ne_zero h.ne'
  rw [Nat.succ_sub_one, Nat.pow_succ, Nat.mul_comm]

theorem eval_eq_one_iff {p : Prop} [Decidable p] : (if p then 1 else 0) = 1 ↔ p := by split <;> simp_all

theorem Bounds.of_lt (hx : WellSorted x) (hsort : get_sort x = .bitvec b.sz) (hb : b.l < 2 ^ b.sz ∧ b.h < 2 ^ b.sz)
    (hiff : ∀ M, eval M x < 2 ^ b.sz → (eval M e = 1 ↔ b.Mem (eval M x)))
    (halways : b.l = b.h + 1 → AlwaysTrue e) : Bounds e x b :=
  ⟨hx, hsort, ⟨Nat.le_sub_one_of_lt hb.1, Nat.le_sub_one_of_lt hb.2⟩, fun M => hiff M (eval_lt_of_bitvec hx hsort),
    halways⟩

theorem Bounds.le_bound (h : Bounds e x b) (M : interp) : eval M x ≤ interval.bound b.sz :=
  Nat.le_sub_one_of_lt (eval_lt_of_bitvec h.sorted h.sort_eq)

theorem eval_ule (lhs rhs : expr) : eval M (.app (.OP_ULEQ sz) [lhs, rhs]) = 1 ↔ eval M lhs ≤ eval M rhs := by
  exact eval_eq_one_iff

theorem eval_sle (lhs rhs : expr) : eval M (.app (.OP_SLEQ sz) [lhs, rhs]) = 1 ↔
    to_int sz (eval M lhs) ≤ to_int sz (eval M rhs) := by
  exact eval_eq_one_iff

/-- An equation with a numeral, whichever side that is on. -/
theorem eq_bound_bounds {r : Nat} (hrhs : WellSorted rhs) (hsort : get_sort rhs = .bitvec sz) (hlt : r < 2 ^ sz)
    (he : ∀ M, eval M e = 1 ↔ eval M rhs = r) : Bounds e (eq_bound rhs r sz).1 (eq_bound rhs r sz).2 := by
  have hself : Bounds e rhs ⟨r, r, sz, true⟩ := by
    refine .of_lt hrhs hsort ⟨hlt, hlt⟩ (fun M _ => ?_) (by simp)
    rw [he M, interval.mem_iff]
    simp only
    omega
  fun_cases eq_bound with
  | case1 hi lo rhs2 hcond =>
    obtain ⟨⟨n, hn, hle, hhi⟩, hts⟩ := wellSorted_app.mp hrhs
    have hsize : get_bv_size rhs2 = n := by simp only [get_bv_size, hn]
    rw [hsize] at hcond ⊢
    have hpow : 2 ^ lo ≤ 2 ^ n := Nat.pow_le_pow_right (by decide) (by omega)
    have hlopos : 0 < 2 ^ lo := Nat.two_pow_pos lo
    refine .of_lt (hts rhs2 (by simp)) hn ⟨Nat.two_pow_pos n, by simp only; omega⟩ (fun M hx => ?_) fun heq => ?_
    · have hquot : eval M rhs2 / 2 ^ lo < 2 ^ (hi - lo + 1) := by
        rw [Nat.div_lt_iff_lt_mul hlopos, ← Nat.pow_add]
        have hwidth : hi - lo + 1 + lo = n := by omega
        rwa [hwidth]
      rw [he M, eval_app, interval.Mem, if_pos (Nat.zero_le _), hcond.1]
      simp only [decl.apply, map_cons, map_nil]
      rw [Nat.mod_eq_of_lt hquot, Nat.div_eq_zero_iff_lt hlopos]
      omega
    · simp only at heq
      omega
  | case2 | case3 => exact hself

/-- A recognised comparison is true exactly of the values in its interval, for signed and unsigned comparisons and for
equations. -/
theorem is_bound_spec (h : WellSorted e) (hb : is_bound e = some (x, b)) : Bounds e x b := by
  revert hb
  fun_cases is_bound with
  | case2 sz lhs rhs r n _ hr =>
    obtain ⟨⟨hlhs, hrhs, -⟩, hts⟩ := wellSorted_app.mp h
    obtain ⟨rfl, hlt, -⟩ := eq_mk_numeral (hts lhs (by simp)) hr
    obtain rfl : n = sz := by simpa using hlhs
    rintro ⟨⟩
    refine .of_lt (hts x (by simp)) hrhs ⟨hlt, by simp only; omega⟩ (fun M hx => ?_) fun heq => ?_
    · rw [eval_ule, eval_mk_numeral, interval.mem_iff]
      simp only at hx ⊢
      omega
    · simp only at heq
      omega
  | case3 sz lhs rhs r n hr _ =>
    obtain ⟨⟨hlhs, hrhs, -⟩, hts⟩ := wellSorted_app.mp h
    obtain ⟨rfl, hlt, -⟩ := eq_mk_numeral (hts rhs (by simp)) hr
    obtain rfl : n = sz := by simpa using hrhs
    rintro ⟨⟩
    refine .of_lt (hts x (by simp)) hlhs ⟨Nat.two_pow_pos n, hlt⟩ (fun M _ => ?_) fun heq => ?_
    · rw [eval_ule, interval.mem_iff]
      simp
    · simp only at heq
      omega
  | case6 sz lhs rhs r n _ hr =>
    obtain ⟨⟨hlhs, hrhs, hpos⟩, hts⟩ := wellSorted_app.mp h
    obtain ⟨rfl, hlt, -⟩ := eq_mk_numeral (hts lhs (by simp)) hr
    obtain rfl : n = sz := by simpa using hlhs
    have hpow := two_pow_pred hpos
    rintro ⟨⟩
    refine .of_lt (hts x (by simp)) hrhs ⟨hlt, by simp only; omega⟩ (fun M hx => ?_) fun heq => ?_
    · rw [eval_sle, eval_mk_numeral, interval.mem_iff]
      simp only [to_int] at hx ⊢
      split <;> split <;> omega
    · obtain rfl : r = 2 ^ (n - 1) := by
        simp only at heq
        omega
      exact .min_le n x
  | case7 sz lhs rhs r n hr _ =>
    obtain ⟨⟨hlhs, hrhs, hpos⟩, hts⟩ := wellSorted_app.mp h
    obtain ⟨rfl, hlt, -⟩ := eq_mk_numeral (hts rhs (by simp)) hr
    obtain rfl : n = sz := by simpa using hrhs
    have hpow := two_pow_pred hpos
    rintro ⟨⟩
    refine .of_lt (hts x (by simp)) hlhs ⟨by simp only; omega, hlt⟩ (fun M hx => ?_) fun heq => ?_
    · rw [eval_sle, eval_mk_numeral, interval.mem_iff]
      simp only [to_int] at hx ⊢
      split <;> split <;> omega
    · obtain rfl : r = 2 ^ (n - 1) - 1 := by
        simp only at heq
        omega
      exact .le_max n x
  | case9 lhs rhs p r sz _ hr =>
    obtain ⟨hsorts, hts⟩ := wellSorted_app.mp h
    have heval M : eval M (.app .OP_EQ [lhs, rhs]) = 1 ↔ eval M lhs = eval M rhs := by exact eval_eq_one_iff
    have hp : p = (rhs, lhs) ∨ p = (lhs, rhs) := by
      dsimp only [p]
      split <;> simp
    clear_value p
    intro hb
    obtain ⟨rfl, rfl⟩ := Prod.ext_iff.mp (Option.some.inj hb)
    rcases hp with rfl | rfl
    · obtain ⟨rfl, hlt, -⟩ := eq_mk_numeral (hts rhs (by simp)) hr
      exact eq_bound_bounds (hts lhs (by simp)) hsorts hlt fun M => (heval M).trans (by rw [eval_mk_numeral])
    · obtain ⟨rfl, hlt, -⟩ := eq_mk_numeral (hts lhs (by simp)) hr
      exact eq_bound_bounds (hts rhs (by simp)) hsorts.symm hlt fun M =>
        (heval M).trans (by rw [eval_mk_numeral, eq_comm])
  | _ => exact nofun

end bv
