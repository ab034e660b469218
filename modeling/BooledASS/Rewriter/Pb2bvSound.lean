import BooledASS.Rewriter.Pb2bv

open sat (lbool)

open List Option

namespace pb2bv_rewriter

namespace card2bv_rewriter

variable {a : Nat → Bool} {x : Nat → Rat}

/-! ### Division by the greatest common divisor -/

theorem gcd_intCast (m n : ℤ) : gcd m n = (Int.gcd m n : ℕ) := by simp [gcd]

/-- The greatest common divisor of integers with a number. -/
def gcds (g : ℕ) (cs : List Rat) : ℕ := cs.foldl (fun d c => d.gcd c.num.natAbs) g

theorem gcds_one (cs : List Rat) : gcds 1 cs = 1 := by
  induction cs with
  | nil => rfl
  | cons c cs ih => rwa [gcds, foldl_cons, Nat.gcd_one_left]

theorem gcds_dvd (g : ℕ) (cs : List Rat) : gcds g cs ∣ g ∧ ∀ c ∈ cs, gcds g cs ∣ c.num.natAbs := by
  induction cs generalizing g with
  | nil => simp [gcds]
  | cons c cs ih =>
    obtain ⟨hg, hcs⟩ := ih (g.gcd c.num.natAbs)
    refine ⟨hg.trans (Nat.gcd_dvd_left _ _), fun c' hc' => ?_⟩
    rcases mem_cons.mp hc' with rfl | hc'
    · exact hg.trans (Nat.gcd_dvd_right _ _)
    · exact hcs c' hc'

/-- The loop computes the greatest common divisor, and returns early if it is 1. -/
theorem gcd_loop_spec {cs : List Rat} (g : ℕ) (hcs : ∀ c ∈ cs, ∃ n : ℕ, c = n) :
    gcd_loop g cs = some (gcds g cs : Rat) ∨ gcd_loop g cs = none ∧ gcds g cs = 1 := by
  induction cs generalizing g with
  | nil => exact .inl rfl
  | cons c cs ih =>
    obtain ⟨n, rfl⟩ := hcs c (by simp)
    have hstep : gcd (g : Rat) (n : Rat) = (g.gcd n : ℕ) := by simpa using gcd_intCast g n
    have hgcds : gcds g ((n : Rat) :: cs) = gcds (g.gcd n) cs := by simp [gcds]
    have hint : ((n : Rat).isInt) := isInt_iff.mpr ⟨n, by simp⟩
    rw [gcd_loop, hstep, hgcds, if_neg (by simp [hint])]
    split
    next hone =>
      have hone : g.gcd n = 1 := by exact_mod_cast hone
      exact .inr ⟨rfl, by rw [hone, gcds_one]⟩
    next => exact ih _ fun c hc => hcs c (by simp [hc])

theorem sum_div (args : List cond) (coeffs : List Rat) (d : Rat) :
    sum a args (coeffs.map (· / d)) = sum a args coeffs / d := by
  induction args generalizing coeffs with
  | nil => simp [sum]
  | cons arg args ih =>
    cases coeffs with
    | nil => simp [sum]
    | cons c coeffs =>
      have hweight : weight a arg (c / d) = weight a arg c / d := by
        unfold weight
        split <;> simp
      have htail := ih coeffs
      simp only [sum] at htail ⊢
      simp only [map_cons, zipWith_cons_cons, sum_cons, htail, hweight, add_div]

variable {coeffs : List Rat} {is_le : lbool} {k : Rat} {fs : List formula}

theorem sum_natural (args : List cond) (h : ∀ c ∈ coeffs, ∃ n : ℕ, c = n) : ∃ n : ℕ, sum a args coeffs = n := by
  induction args generalizing coeffs with
  | nil => exact ⟨0, by simp [sum]⟩
  | cons arg args ih =>
    cases coeffs with
    | nil => exact ⟨0, by simp [sum]⟩
    | cons c coeffs =>
      obtain ⟨m, rfl⟩ := h c (by simp)
      obtain ⟨n, hn⟩ := ih fun c hc => h c (.tail _ hc)
      rw [sum] at hn
      by_cases harg : arg.eval a
      · exact ⟨m + n, by simp [sum, weight, harg, hn]⟩
      · exact ⟨n, by simp [sum, weight, harg, hn]⟩

/-- What a comparison of the sum with the bound means. -/
def compare (is_le : lbool) (v k : Rat) : Prop :=
  match is_le with
  | .l_true => v ≤ k
  | .l_undef => v = k
  | .l_false => k ≤ v

/-- A reduced constraint says the same about the arguments. -/
structure Reduced (is_le : lbool) (coeffs : List Rat) (k : Rat) (coeffs' : List Rat) (k' : Rat) : Prop where
  length_eq : coeffs'.length = coeffs.length
  natural : ∀ c ∈ coeffs', ∃ n : ℕ, c = n
  bound : ∃ n : ℤ, k' = n
  zero_iff : ∀ a args, sum a args coeffs' = 0 ↔ sum a args coeffs = 0
  iff : ∀ a args, compare is_le (sum a args coeffs') k' ↔ compare is_le (sum a args coeffs) k

theorem Reduced.refl (hcoeffs : ∀ c ∈ coeffs, ∃ n : ℕ, c = n) (hk : ∃ n : ℤ, k = n) : Reduced is_le coeffs k coeffs k :=
  ⟨rfl, hcoeffs, hk, fun _ _ => Iff.rfl, fun _ _ => Iff.rfl⟩

/-- Division of all coefficients by a common divisor. -/
theorem Reduced.div {k' : Rat} {d : ℕ} (hd : d ≠ 0) (hcoeffs : ∀ c ∈ coeffs, ∃ n : ℕ, c = (n * d : ℕ))
    (hk' : ∃ n : ℤ, k' = n) (h : ∀ n : ℕ, compare is_le n k' ↔ compare is_le (n * d) k) :
    Reduced is_le coeffs k (coeffs.map (· / (d : Rat))) k' := by
  have hd' : (d : Rat) ≠ 0 := Nat.cast_ne_zero.mpr hd
  have hnat : ∀ c ∈ coeffs.map (· / (d : Rat)), ∃ n : ℕ, c = n := by
    intro c hc
    obtain ⟨b, hb, rfl⟩ := mem_map.mp hc
    obtain ⟨n, rfl⟩ := hcoeffs b hb
    exact ⟨n, by push_cast; field_simp⟩
  refine ⟨by simp, hnat, hk', fun a args => ?_, fun a args => ?_⟩
  · simp [sum_div, hd']
  · obtain ⟨n, hn⟩ := sum_natural args hnat
    have hsum : sum a args coeffs = n * d := by
      rw [← hn, sum_div]
      field_simp
    rw [hn, hsum]
    exact h n

/-- Division of an equation by the common divisor with the bound. -/
theorem Reduced.div_gcd {n : ℤ} {d : ℕ} (hcoeffs : ∀ c ∈ coeffs, ∃ m : ℕ, c = (m * d : ℕ)) (he : Int.gcd n d ≠ 0) :
    Reduced .l_undef coeffs n (coeffs.map (· / (Int.gcd n d : Rat))) (n / (Int.gcd n d : Rat)) := by
  have hed : Int.gcd n d ∣ d := Int.natCast_dvd_natCast.mp (Int.gcd_dvd_right n d)
  obtain ⟨q, hq⟩ : (Int.gcd n d : ℤ) ∣ n := Int.gcd_dvd_left n d
  generalize Int.gcd n d = e at he hed hq ⊢
  have he' : (e : Rat) ≠ 0 := Nat.cast_ne_zero.mpr he
  refine .div he (fun c hc => ?_) ⟨q, ?_⟩ fun m => ?_
  · obtain ⟨m, rfl⟩ := hcoeffs c hc
    obtain ⟨f, rfl⟩ := hed
    exact ⟨m * f, by push_cast; ring⟩
  · rw [hq]
    push_cast
    field_simp
  · simp only [compare]
    rw [eq_div_iff he']

/-- The division by the greatest common divisor keeps the comparison. The bound is rounded down for `<=` and up for
`>=`; for an equation only the common divisor with the bound is used. -/
theorem gcd_reduce_spec (is_le : lbool) (hcoeffs : ∀ c ∈ coeffs, ∃ n : ℕ, c = n) (hk : ∃ n : ℤ, k = n) :
    Reduced is_le coeffs k (gcd_reduce is_le coeffs k).1 (gcd_reduce is_le coeffs k).2 := by
  have hdvd : ∀ c ∈ coeffs, ∃ n : ℕ, c = (n * gcds 0 coeffs : ℕ) := fun c hc => by
    obtain ⟨n, rfl⟩ := hcoeffs c hc
    obtain ⟨m, hm⟩ := (gcds_dvd 0 coeffs).2 _ hc
    exact ⟨m, by rw [Nat.mul_comm, ← hm]; simp⟩
  unfold gcd_reduce
  rcases gcd_loop_spec 0 hcoeffs with hloop | ⟨hloop, -⟩
  · rw [Nat.cast_zero] at hloop
    rw [hloop]
    generalize gcds 0 coeffs = d at hdvd
    dsimp only
    split
    next => exact .refl hcoeffs hk
    next hd =>
      have hd : d ≠ 0 := by simpa using hd
      have hpos : (0 : Rat) < d := Nat.cast_pos.mpr (Nat.pos_of_ne_zero hd)
      cases is_le with
      | l_undef =>
        obtain ⟨n, rfl⟩ := hk
        have hgcd : gcd n d = (Int.gcd n d) := by
          have hcast := gcd_intCast n d
          simpa using hcast
        dsimp only
        rw [hgcd]
        split
        next => exact .refl hcoeffs ⟨n, rfl⟩
        split
        next => exact .refl hcoeffs ⟨n, rfl⟩
        next hne => exact .div_gcd hdvd fun h => hne (.inr (by simp [h]))
      | l_true =>
        refine .div hd hdvd ⟨_, rfl⟩ fun m => ?_
        simp only [compare]
        rw [← Int.cast_natCast m, Int.cast_le, Int.le_floor, le_div_iff₀ hpos]
      | l_false =>
        refine .div hd hdvd ⟨_, rfl⟩ fun m => ?_
        simp only [compare]
        rw [← Int.cast_natCast m, Int.cast_le, Int.ceil_le, div_le_iff₀ hpos]
  · rw [Nat.cast_zero] at hloop
    rw [hloop]
    exact .refl hcoeffs hk

/-- The bound is reduced to 0 if it is below the greatest common divisor. -/
theorem gcd_reduce_eq_zero_iff (his : is_le ≠ .l_false) (hcoeffs : ∀ c ∈ coeffs, ∃ n : ℕ, c = n)
    (hk : ∃ n : ℤ, k = n) : (gcd_reduce is_le coeffs k).2 = 0 ↔
      k = 0 ∨ is_le = .l_true ∧ 0 < k ∧ k < gcds 0 coeffs := by
  have hint {d : ℕ} (hd : d ≤ 1) : ¬ (0 < k ∧ k < d) := by
    obtain ⟨n, rfl⟩ := hk
    rintro ⟨h0, h1⟩
    have h0 : 0 < n := by exact_mod_cast h0
    have h1 : n < d := by exact_mod_cast h1
    omega
  unfold gcd_reduce
  rcases gcd_loop_spec 0 hcoeffs with hloop | ⟨hloop, hone⟩
  · rw [Nat.cast_zero] at hloop
    rw [hloop]
    generalize gcds 0 coeffs = d
    dsimp only
    split
    next hd =>
      have := hint (d := d) (by simp_all)
      tauto
    next hd =>
      have hpos : (0 : Rat) < d := lt_of_le_of_ne (Nat.cast_nonneg d) (Ne.symm hd)
      cases is_le with
      | l_false => exact absurd rfl his
      | l_undef =>
        dsimp only
        split
        · simp
        split
        · simp
        · simp_all
      | l_true =>
        simp only [Int.cast_eq_zero, Int.floor_eq_zero_iff, Set.mem_Ico, div_lt_one hpos, true_and]
        rw [le_div_iff₀ hpos, zero_mul, le_iff_lt_or_eq, eq_comm]
        have : k = 0 → k < d := fun h => h ▸ hpos
        tauto
  · rw [Nat.cast_zero] at hloop
    rw [hloop, hone]
    have := hint (le_refl 1)
    tauto

/-! ### The tree of adders -/

theorem evalAll_iff : formula.evalAll a fs ↔ ∀ f ∈ fs, f.eval a := by
  induction fs with
  | nil => simp [formula.evalAll]
  | cons f fs ih => simp [formula.evalAll, ih]

theorem evalAny_iff : formula.evalAny a fs ↔ ∃ f ∈ fs, f.eval a := by
  induction fs with
  | nil => simp [formula.evalAny]
  | cons f fs ih => simp [formula.evalAny, ih]

theorem eval_mk_and : (mk_and fs).eval a ↔ ∀ f ∈ fs, f.eval a := by
  match fs with
  | [] => simp [mk_and, formula.eval, cond.eval]
  | [f] => simp [mk_and]
  | f :: g :: fs => simp [mk_and, formula.eval, evalAll_iff]

theorem eval_mk_or : (mk_or fs).eval a ↔ ∃ f ∈ fs, f.eval a := by
  match fs with
  | [] => simp [mk_or, formula.eval, cond.eval]
  | [f] => simp [mk_or]
  | f :: g :: fs => simp [mk_or, formula.eval, evalAny_iff]

theorem eval_mk_ite (c : cond) (hi lo : bv_expr) :
    (mk_ite c hi lo).eval a = if c.eval a then hi.eval a else lo.eval a := by
  induction c generalizing hi lo with
  | mk_not c ih =>
    rw [mk_ite, ih, cond.eval]
    cases c.eval a <;> simp
  | _ =>
    simp only [mk_ite]
    split
    next heq => simp [heq]
    next => rfl

theorem size_mk_ite (c : cond) {hi lo : bv_expr} {nb : Nat} (hhi : hi.size = nb) (hlo : lo.size = nb) :
    (mk_ite c hi lo).size = nb := by
  induction c generalizing hi lo with
  | mk_not c ih => exact ih hlo hhi
  | _ =>
    simp only [mk_ite]
    split
    next => exact hhi
    next => exact hhi

section Adder

variable {K nb : Nat}

/-- The addends have the width of the bound, and values that are at most the bound. -/
def Addends (a : Nat → Bool) (K nb : Nat) (es : List bv_expr) : Prop := ∀ e ∈ es, e.size = nb ∧ e.eval a ≤ K

def total (a : Nat → Bool) (es : List bv_expr) : Nat := (es.map (·.eval a)).sum

variable {e f : bv_expr} {is_le : lbool}

theorem eval_add_result (he : e.size = nb) (hnb : 0 < nb) :
    (add_result e f).eval a = (e.eval a + f.eval a) % 2 ^ nb := by
  simp only [add_result, bv_expr.eval, bv_expr.size, he, Nat.pow_zero, Nat.div_one]
  rw [Nat.sub_zero, Nat.sub_add_cancel hnb, Nat.mod_mod_of_dvd _ (pow_dvd_pow 2 (Nat.le_add_left nb 1))]

theorem eval_add_overflow (he : e.size = nb) (hlt : e.eval a < 2 ^ nb) (hlt' : f.eval a < 2 ^ nb) :
    (add_overflow e f).eval a = (e.eval a + f.eval a) / 2 ^ nb := by
  have hsum : e.eval a + f.eval a < 2 ^ (1 + nb) := by
    rw [Nat.pow_add]
    omega
  have hquot : (e.eval a + f.eval a) / 2 ^ nb < 2 := by
    rw [Nat.div_lt_iff_lt_mul (Nat.two_pow_pos nb)]
    omega
  simp only [add_overflow, bv_expr.eval, bv_expr.size, he, Nat.sub_self, Nat.zero_add, Nat.pow_one]
  rw [Nat.mod_eq_of_lt hsum, Nat.mod_eq_of_lt hquot]

/-- The formulas about a sum say that it is at most the bound. -/
theorem add_fmls_iff (his : is_le ≠ .l_false) (hK : K < 2 ^ nb) (hnb : 0 < nb)
    (he : e.size = nb ∧ e.eval a ≤ K) (hf : f.size = nb ∧ f.eval a ≤ K) :
    (∀ g ∈ add_fmls is_le e f (.mk_numeral K nb), g.eval a) ↔ e.eval a + f.eval a ≤ K := by
  have hpow : 0 < 2 ^ nb := Nat.two_pow_pos nb
  simp only [add_fmls, if_pos his, mem_cons, not_mem_nil, or_false, forall_eq_or_imp, forall_eq, formula.eval,
    beq_iff_eq, decide_eq_true_eq]
  rw [eval_add_overflow he.1 (by omega) (by omega), eval_add_result he.1 hnb]
  simp only [bv_expr.eval, Nat.mod_eq_of_lt hK, Nat.zero_mod]
  rw [Nat.div_eq_zero_iff_lt hpow]
  constructor
  · rintro ⟨hlt, hle⟩
    rwa [Nat.mod_eq_of_lt hlt] at hle
  · intro hle
    have hlt : e.eval a + f.eval a < 2 ^ nb := by omega
    exact ⟨hlt, by rwa [Nat.mod_eq_of_lt hlt]⟩

/-- The state of the encoding: the formulas hold and the addends make up the sum, or the sum is above the bound. -/
structure Encodes (a : Nat → Bool) (K nb N : Nat) (fmls : List formula) (es : List bv_expr) : Prop where
  good : (∀ f ∈ fmls, f.eval a) → Addends a K nb es ∧ total a es = N
  bad : ¬ (∀ f ∈ fmls, f.eval a) → K < N

/-- One round keeps the sum as long as no partial sum exceeds the bound. -/
theorem add_pairs_spec (his : is_le ≠ .l_false) (hK : K < 2 ^ nb) (hnb : 0 < nb) (fmls : List formula)
    (es : List bv_expr) : ∃ new, (add_pairs is_le (.mk_numeral K nb) fmls es).1 = fmls ++ new ∧
      (Addends a K nb es → Encodes a K nb (total a es) new (add_pairs is_le (.mk_numeral K nb) fmls es).2) := by
  match es with
  | [] => exact ⟨[], by simp [add_pairs], fun h => ⟨fun _ => ⟨h, rfl⟩, by simp⟩⟩
  | [e] => exact ⟨[], by simp [add_pairs], fun h => ⟨fun _ => ⟨h, rfl⟩, by simp⟩⟩
  | e :: f :: es =>
    obtain ⟨new, hnew, henc⟩ := add_pairs_spec his hK hnb (fmls ++ add_fmls is_le e f (.mk_numeral K nb)) es
    refine ⟨add_fmls is_le e f (.mk_numeral K nb) ++ new, by rw [add_pairs, hnew, append_assoc], fun h => ?_⟩
    have he := h e (by simp)
    have hf := h f (by simp)
    have hpair := add_fmls_iff his hK hnb he hf
    have henc := henc fun g hg => h g (by simp [hg])
    have htotal : total a (e :: f :: es) = e.eval a + f.eval a + total a es := by simp [total, Nat.add_assoc]
    rw [htotal]
    constructor
    · intro hall
      obtain ⟨hadd, hsum⟩ := henc.good fun g hg => hall g (mem_append_right _ hg)
      have hle := hpair.mp fun g hg => hall g (mem_append_left _ hg)
      have hres : (add_result e f).eval a = e.eval a + f.eval a := by
        rw [eval_add_result he.1 hnb, Nat.mod_eq_of_lt (by omega)]
      refine ⟨fun g hg => ?_, by simpa [add_pairs, total, hres] using hsum⟩
      rcases mem_cons.mp hg with rfl | hg
      · refine ⟨?_, hres ▸ hle⟩
        simp only [add_result, bv_expr.size]
        omega
      · exact hadd g hg
    · intro hall
      by_cases hle : e.eval a + f.eval a ≤ K
      · have hbad := henc.bad fun hnew => hall fun g hg => (mem_append.mp hg).elim (hpair.mpr hle g) (hnew g)
        omega
      · omega

theorem length_add_pairs (is_le : lbool) (bound : bv_expr) (fmls : List formula) (es : List bv_expr) :
    2 * (add_pairs is_le bound fmls es).2.length ≤ es.length + 1 := by
  match es with
  | [] => simp [add_pairs]
  | [e] => simp [add_pairs]
  | e :: f :: es =>
    have ih := length_add_pairs is_le bound (fmls ++ add_fmls is_le e f bound) es
    simp only [add_pairs, length_cons]
    omega

/-- The loop ends with at most one addend. -/
theorem add_tree_spec (his : is_le ≠ .l_false) (hK : K < 2 ^ nb) (hnb : 0 < nb) {N : Nat} (fuel : Nat)
    {fmls : List formula} {es : List bv_expr} (h : Encodes a K nb N fmls es) (hfuel : es.length ≤ fuel + 1) :
    Encodes a K nb N (add_tree is_le (.mk_numeral K nb) fuel fmls es).1
      (add_tree is_le (.mk_numeral K nb) fuel fmls es).2 ∧
      (add_tree is_le (.mk_numeral K nb) fuel fmls es).2.length ≤ 1 := by
  induction fuel generalizing fmls es with
  | zero => exact ⟨h, by simpa [add_tree] using hfuel⟩
  | succ fuel ih =>
    rw [add_tree]
    split
    next hlen =>
      obtain ⟨new, hnew, henc⟩ := add_pairs_spec his hK hnb fmls es
      have hlength := length_add_pairs is_le (.mk_numeral K nb) fmls es
      refine ih ⟨fun hall => ?_, fun hall => ?_⟩ (by omega)
      · rw [hnew] at hall
        obtain ⟨hadd, hsum⟩ := h.good fun f hf => hall f (mem_append_left _ hf)
        obtain ⟨hadd', hsum'⟩ := (henc hadd).good fun f hf => hall f (mem_append_right _ hf)
        exact ⟨hadd', hsum'.trans hsum⟩
      · rw [hnew] at hall
        by_cases hold : ∀ f ∈ fmls, f.eval a
        · obtain ⟨hadd, hsum⟩ := h.good hold
          rw [← hsum]
          exact (henc hadd).bad fun hall' => hall fun f hf => (mem_append.mp hf).elim (hold f) (hall' f)
        · exact h.bad hold
    next hlen => exact ⟨h, Nat.not_lt.mp hlen⟩

/-- The loop over the arguments. -/
theorem split_args_spec (his : is_le ≠ .l_false) (hK : K < 2 ^ nb)
    (args : List cond) {coeffs : List Rat} (hcoeffs : ∀ c ∈ coeffs, ∃ n : ℕ, c = n) : ∃ N : ℕ, sum a args coeffs = N ∧
    Encodes a K nb N (split_args is_le K nb (args.zip coeffs)).1 (split_args is_le K nb (args.zip coeffs)).2 := by
  induction args generalizing coeffs with
  | nil => exact ⟨0, by simp [sum], by simp [split_args, Addends, total], by simp [split_args]⟩
  | cons arg args ih =>
    cases coeffs with
    | nil => exact ⟨0, by simp [sum], by simp [split_args, Addends, total], by simp [split_args]⟩
    | cons c coeffs =>
      obtain ⟨n, rfl⟩ := hcoeffs c (by simp)
      obtain ⟨N, hN, henc⟩ := ih fun c hc => hcoeffs c (.tail _ hc)
      rw [sum] at hN
      have hsum : sum a (arg :: args) (n :: coeffs) = ((if arg.eval a then n else 0) + N : ℕ) := by
        cases harg : arg.eval a <;> simp [sum, weight, harg, hN]
      refine ⟨_, hsum, ?_⟩
      simp only [zip_cons_cons, split_args]
      by_cases hlt : (K : Rat) < n
      · have hlt' : K < n := by exact_mod_cast hlt
        simp only [if_pos hlt, if_pos his]
        constructor
        · intro hall
          have harg : arg.eval a = false := by simpa [formula.eval] using hall _ ((.head _) ..)
          simpa [harg] using henc.good fun f hf => hall f (.tail _ hf)
        · intro hall
          by_cases harg : arg.eval a
          · rw [if_pos harg]
            omega
          · have hbad := henc.bad fun hrest => hall fun f hf => by
              rcases mem_cons.mp hf with rfl | hf
              · simpa [formula.eval] using harg
              · exact hrest f hf
            omega
      · have hle : n ≤ K := by
          rw [not_lt] at hlt
          exact_mod_cast hlt
        simp only [if_neg hlt]
        have heval : (mk_ite arg (.mk_numeral (n : Rat).num.toNat nb) (.mk_numeral 0 nb)).eval a =
            if arg.eval a then n else 0 := by
          have hn : n % 2 ^ nb = n := Nat.mod_eq_of_lt (by omega)
          rw [eval_mk_ite]
          simp [bv_expr.eval, hn]
        constructor
        · intro hall
          obtain ⟨hadd, htotal⟩ := henc.good hall
          refine ⟨fun e he => ?_, ?_⟩
          · rcases mem_cons.mp he with rfl | he
            · refine ⟨size_mk_ite arg rfl rfl, ?_⟩
              rw [heval]
              split <;> omega
            · exact hadd e he
          · rw [total, map_cons, sum_cons, heval]
            rw [total] at htotal
            rw [htotal]
        · intro hall
          have hbad := henc.bad hall
          omega

end Adder

/-- The encoding is true when the sum compares to the bound. -/
theorem mk_adder_spec (his : is_le ≠ .l_false) (args : List cond) (hcoeffs : ∀ c ∈ coeffs, ∃ n : ℕ, c = n)
    {K : ℕ} (hK : 0 < K) : (mk_adder is_le args coeffs K).eval a ↔ compare is_le (sum a args coeffs) K := by
  have hlt : K < 2 ^ (K.log2 + 1) := Nat.lt_log2_self
  obtain ⟨N, hN, hsplit⟩ := split_args_spec his hlt args hcoeffs
  have hnum : (K : Rat).num.toNat = K := by simp
  have htree := add_tree_spec his hlt (Nat.succ_pos _) _ hsplit (Nat.le_succ _)
  rw [hN]
  unfold mk_adder
  rw [hnum]
  dsimp only
  generalize add_tree is_le (.mk_numeral K (K.log2 + 1)) _ _ _ = r at htree
  obtain ⟨fmls, es⟩ := r
  obtain ⟨henc, hlen⟩ := htree
  cases is_le with
  | l_false => exact absurd rfl his
  | l_true =>
    rw [eval_mk_and, compare, Nat.cast_le]
    constructor
    · intro hall
      obtain ⟨hadd, htotal⟩ := henc.good hall
      rw [← htotal]
      match es with
      | [] => simp [total]
      | [e] => simpa [total] using (hadd e (by simp)).2
    · intro hle
      by_contra hall
      exact absurd (henc.bad hall) (Nat.not_lt.mpr hle)
  | l_undef =>
    rw [compare, Nat.cast_inj]
    match es with
    | [] =>
      simp only [List.getLast?_nil, Nat.cast_eq_zero, Nat.ne_of_gt hK]
      rw [eval_mk_and]
      constructor
      · intro hall
        have hfalse := hall (.of_cond .mk_false) (by simp)
        simp [formula.eval, cond.eval] at hfalse
      · rintro rfl
        by_cases hall : ∀ f ∈ fmls, f.eval a
        · have htotal := (henc.good hall).2
          simp only [total, map_nil, sum_nil] at htotal
          omega
        · exact absurd (henc.bad hall) (Nat.lt_irrefl _)
    | [e] =>
      have hlast : (formula.mk_eq (.mk_numeral K (K.log2 + 1)) e).eval a ↔ K = e.eval a := by
        simp [formula.eval, bv_expr.eval, Nat.mod_eq_of_lt hlt]
      simp only [List.getLast?_singleton]
      rw [eval_mk_and]
      constructor
      · intro hall
        obtain ⟨-, htotal⟩ := henc.good fun f hf => hall f (mem_append_left _ hf)
        rw [← htotal, hlast.mp (hall _ (by simp))]
        simp [total]
      · rintro rfl
        have hall : ∀ f ∈ fmls, f.eval a := by
          by_contra hall
          exact absurd (henc.bad hall) (Nat.lt_irrefl _)
        refine Lists.forall_mem_concat hall (hlast.mpr ?_)
        simpa [total] using (henc.good hall).2.symm

/-! ### The rewriter -/

theorem sum_nonneg (args : List cond) (h : ∀ c ∈ coeffs, ∃ n : ℕ, c = n) : 0 ≤ sum a args coeffs := by
  obtain ⟨n, hn⟩ := sum_natural args h
  rw [hn]
  exact Nat.cast_nonneg n

/-- A sum with coefficients that are not negative is 0 if and only if every condition with a positive coefficient is
false. -/
theorem sum_eq_zero_iff {args : List cond} (h : ∀ c ∈ coeffs, ∃ n : ℕ, c = n) :
    sum a args coeffs = 0 ↔ ∀ e ∈ args.zip coeffs, e.2 ≠ 0 → e.1.eval a = false := by
  induction args generalizing coeffs with
  | nil => simp [sum]
  | cons arg args ih =>
    cases coeffs with
    | nil => simp [sum]
    | cons c coeffs =>
      obtain ⟨n, hn⟩ := h c (by simp)
      have hc : 0 ≤ c := hn ▸ Nat.cast_nonneg n
      have hrest := sum_nonneg (a := a) args fun c hc => h c (.tail _ hc)
      have hsum : sum a (arg :: args) (c :: coeffs) = weight a arg c + sum a args coeffs := by simp [sum]
      have hweight : 0 ≤ weight a arg c := by
        unfold weight
        split
        · exact hc
        · exact le_rfl
      rw [hsum, zip_cons_cons, forall_mem_cons, ← ih fun c hc => h c (.tail _ hc),
        add_eq_zero_iff_of_nonneg hweight hrest]
      refine and_congr_left fun _ => ?_
      cases harg : arg.eval a <;> simp [weight, harg]

/-- A reduced bound 0 is met by the sum 0 only. -/
theorem compare_iff_eq_zero (his : is_le ≠ .l_false) {s : card2bv_rewriter} (hs : s.Integral)
    (h : (gcd_reduce is_le s.m_coeffs s.m_k).2 = 0) :
    compare is_le (sum a s.m_args s.m_coeffs) s.m_k ↔ sum a s.m_args s.m_coeffs = 0 := by
  have hred := gcd_reduce_spec is_le hs.coeffs hs.bound
  rw [← hred.iff, ← hred.zero_iff, h]
  cases is_le with
  | l_false => exact absurd rfl his
  | l_undef => exact Iff.rfl
  | l_true => exact ⟨fun h => le_antisymm h (sum_nonneg s.m_args hred.natural), le_of_eq⟩

/-- The comparison is translated, except that the arguments with the coefficient 0 have to be false if the bound is
reduced to 0. -/
theorem mk_le_ge_spec (his : is_le ≠ .l_false) {s : card2bv_rewriter} (hs : s.Integral) :
    (mk_le_ge is_le s).eval a ↔ compare is_le (sum a s.m_args s.m_coeffs) s.m_k ∧
      ((gcd_reduce is_le s.m_coeffs s.m_k).2 = 0 →
        ∀ e ∈ s.m_args.zip s.m_coeffs, e.2 = 0 → e.1.eval a = false) := by
  have hred := gcd_reduce_spec is_le hs.coeffs hs.bound
  unfold mk_le_ge
  dsimp only
  split
  next hk =>
    have hall : (formula.mk_not (mk_or (s.m_args.map .of_cond))).eval a ↔ ∀ c ∈ s.m_args, c.eval a = false := by
      rw [formula.eval, Bool.not_eq_true', ← Bool.not_eq_true, eval_mk_or]
      simp [formula.eval]
    have hzip : (∀ c ∈ s.m_args, c.eval a = false) ↔ ∀ e ∈ s.m_args.zip s.m_coeffs, e.1.eval a = false := by
      conv_lhs => rw [← map_fst_zip hs.length_eq.le]
      exact List.forall_mem_map
    rw [hall, hzip, compare_iff_eq_zero his hs hk, sum_eq_zero_iff hs.coeffs]
    constructor
    · exact fun h => ⟨fun e he _ => h e he, fun _ e he _ => h e he⟩
    · rintro ⟨hne, hzero⟩ e he
      by_cases h : e.2 = 0
      · exact hzero hk e he h
      · exact hne e he h
  next hk =>
    have hnonneg := sum_nonneg (a := a) s.m_args hred.natural
    rw [and_iff_left fun h => absurd h hk, ← hred.iff]
    obtain ⟨k, hcast⟩ := hred.bound
    split
    next hneg =>
      refine iff_of_false (by simp [formula.eval, cond.eval]) ?_
      cases is_le with
      | l_false => exact absurd rfl his
      | l_undef => exact fun h : _ = _ => by linarith
      | l_true => exact fun h : _ ≤ _ => by linarith
    next hneg =>
      have hpos : 0 < (gcd_reduce is_le s.m_coeffs s.m_k).2 := lt_of_le_of_ne (not_lt.mp hneg) (Ne.symm hk)
      obtain ⟨K, rfl⟩ : ∃ K : ℕ, k = K := Int.eq_ofNat_of_zero_le (by
        rw [hcast] at hpos
        exact_mod_cast hpos.le)
      rw [hcast] at hpos ⊢
      exact mk_adder_spec his s.m_args hred.natural (by exact_mod_cast hpos)

section Choices

variable {f : comparison} {t1 t2 : term} {l : List (cond × Rat × Rat)} {d : Rat}

/-- A strict comparison is translated as if the other side was larger by 1. -/
def slack (f : comparison) : Rat := if f.strict then 1 else 0

/-- The greatest common divisor of the differences between the branches. -/
def gap (l : List (cond × Rat × Rat)) : ℕ := gcds 0 (l.map fun e => e.2.1 - e.2.2)

/-- The translation is false although the difference `d` of the sides is small enough: every if-then-else has the
smaller of its two values, any other values would be too large by the greatest common divisor of the differences, and
the condition of an if-then-else with equal branches is true. -/
structure Hidden (f : comparison) (a : Nat → Bool) (d : Rat) (l : List (cond × Rat × Rat)) : Prop where
  least : ∀ e ∈ l, if e.1.eval a then e.2.1 ≤ e.2.2 else e.2.2 ≤ e.2.1
  equal : ∃ e ∈ l, e.2.1 = e.2.2 ∧ e.1.eval a
  near : d = slack f ∨ f ≠ .eq ∧ slack f - d < gap l

theorem addend_eq_false_iff (e : cond × Rat × Rat) : ((addend e).2 ≠ 0 → (addend e).1.eval a = false) ↔
    if e.1.eval a then e.2.1 ≤ e.2.2 else e.2.2 ≤ e.2.1 := by
  unfold addend
  rcases lt_trichotomy e.2.1 e.2.2 with h | h | h
  · cases he : e.1.eval a <;> simp [h, h.le, h.not_ge, sub_ne_zero.mpr h.ne', he]
  · cases e.1.eval a <;> simp [h]
  · cases he : e.1.eval a <;> simp [h.le, h.not_ge, h.not_gt, sub_ne_zero.mpr h.ne', he]

theorem addend_eq_zero_iff (e : cond × Rat × Rat) : (addend e).2 = 0 ↔ e.2.1 = e.2.2 := by
  unfold addend
  split <;> grind

theorem gcds_addend (g : ℕ) (l : List (cond × Rat × Rat)) :
    gcds g (l.map fun e => (addend e).2) = gcds g (l.map fun e => e.2.1 - e.2.2) := by
  induction l generalizing g with
  | nil => rfl
  | cons e l ih =>
    have habs : (addend e).2.num.natAbs = (e.2.1 - e.2.2).num.natAbs := by
      unfold addend
      split
      · rw [← neg_sub, Rat.num_neg_eq_neg_num, Int.natAbs_neg]
      · rfl
    simpa [gcds, habs] using ih _

/-- What a constraint with the addends of the choices is translated to. -/
theorem mk_le_ge_iff (his : is_le ≠ .l_false) (hf : is_le = .l_true ↔ f ≠ .eq) {s : card2bv_rewriter} (hs : s.Integral)
    (hk : sum a s.m_args s.m_coeffs - s.m_k = d - slack f) (hzip : s.m_args.zip s.m_coeffs = l.map addend) :
    (mk_le_ge is_le s).eval a ↔ compare is_le d (slack f) ∧ ¬ Hidden f a d l := by
  have hcoeffs : s.m_coeffs = l.map fun e => (addend e).2 := by
    rw [← map_snd_zip hs.length_eq.ge, hzip, List.map_map]
    rfl
  have hgap : gcds 0 s.m_coeffs = gap l := by rw [hcoeffs, gcds_addend, gap]
  have hzero : sum a s.m_args s.m_coeffs = 0 ↔ ∀ e ∈ l, if e.1.eval a then e.2.1 ≤ e.2.2 else e.2.2 ≤ e.2.1 := by
    rw [sum_eq_zero_iff hs.coeffs, hzip]
    simp only [List.forall_mem_map, addend_eq_false_iff]
  have hcompare : compare is_le (sum a s.m_args s.m_coeffs) s.m_k ↔ compare is_le d (slack f) := by
    cases is_le with
    | l_false => exact absurd rfl his
    | l_undef => exact ⟨fun h : _ = _ => show _ = _ by linarith, fun h : _ = _ => show _ = _ by linarith⟩
    | l_true => exact ⟨fun h : _ ≤ _ => show _ ≤ _ by linarith, fun h : _ ≤ _ => show _ ≤ _ by linarith⟩
  have hequal : (∀ e ∈ s.m_args.zip s.m_coeffs, e.2 = 0 → e.1.eval a = false) ↔
      ¬ ∃ e ∈ l, e.2.1 = e.2.2 ∧ e.1.eval a := by
    rw [hzip, List.forall_mem_map]
    simp only [addend_eq_zero_iff, not_exists, not_and, Bool.not_eq_true]
    refine forall₂_congr fun e _ => forall_congr' fun he => ?_
    rw [addend, if_neg he.not_lt]
  have hreduced := gcd_reduce_eq_zero_iff his hs.coeffs hs.bound
  rw [hgap, hf] at hreduced
  rw [mk_le_ge_spec his hs, hcompare, hequal]
  refine and_congr_right fun hd => ?_
  have hle : d ≤ slack f := by
    cases is_le with
    | l_false => exact absurd rfl his
    | l_undef => exact le_of_eq hd
    | l_true => exact hd
  constructor
  · rintro h ⟨hleast, hequal, hnear⟩
    have hsum := hzero.mpr hleast
    refine h (hreduced.mpr ?_) hequal
    rcases hnear with hnear | ⟨hne, hnear⟩
    · exact .inl (by linarith)
    · rcases hle.lt_or_eq with hlt | heq
      · exact .inr ⟨hne, by linarith, by linarith⟩
      · exact .inl (by linarith)
  · intro h hbound hequal
    have hsum := (compare_iff_eq_zero his hs hbound).mp (hcompare.mpr hd)
    refine h ⟨hzero.mp hsum, hequal, ?_⟩
    rcases hreduced.mp hbound with hk0 | ⟨hne, -, hlt⟩
    · exact .inl (by linarith)
    · exact .inr ⟨hne, by linarith⟩

/-- The comparison that stands in the formula. -/
def mode : comparison → lbool
  | .eq => .l_undef
  | _ => .l_true

/-- What the produced formula says: the difference of the sides meets the raised bound, and this is not hidden by an
if-then-else with equal branches. -/
theorem mk_app_iff {r : formula} (h : mk_app f t1 t2 = some r) (a : Nat → Bool) (x : Nat → Rat) :
    (∃ n : ℤ, f.diff (t1.eval a x) (t2.eval a x) = n) ∧
      (r.eval a ↔ compare (mode f) (f.diff (t1.eval a x) (t2.eval a x)) (slack f) ∧
        ¬ Hidden f a (f.diff (t1.eval a x) (t2.eval a x)) (f.ites t1 t2)) := by
  have hside {u1 u2 : term} {s : card2bv_rewriter} (hs : is_pb2 u1 u2 = some s) :
      ∃ n : ℤ, u1.eval a x - u2.eval a x = n := by
    obtain ⟨hint, heq, -⟩ := is_pb2_spec (a := a) (x := x) hs
    obtain ⟨m, hm⟩ := sum_natural (a := a) s.m_args hint.coeffs
    obtain ⟨k, hk⟩ := hint.bound
    exact ⟨m - k, by rw [← heq, hm, hk]; push_cast; rfl⟩
  cases f with
  | le | ge | eq =>
    obtain ⟨s, hs, rfl⟩ := map_eq_some_iff.mp h
    obtain ⟨hint, heq, hzip⟩ := is_pb2_spec (a := a) (x := x) hs
    refine ⟨hside hs, mk_le_ge_iff (by decide) (by decide) hint ?_ hzip⟩
    simp [slack, comparison.strict, comparison.diff, heq]
  | lt | gt =>
    obtain ⟨s, hs, rfl⟩ := map_eq_some_iff.mp h
    obtain ⟨hint, heq, hzip⟩ := is_pb2_spec (a := a) (x := x) hs
    obtain ⟨k, hk⟩ := hint.bound
    refine ⟨hside hs, mk_le_ge_iff (by decide) (by decide) ⟨hint.length_eq, hint.coeffs, k + 1, by simp [hk]⟩ ?_ hzip⟩
    simp [slack, comparison.strict, comparison.diff, ← heq, sub_sub]

end Choices

/-- The formula has the truth value of the comparison if and only if, where the comparison holds, no if-then-else with
equal branches hides it, and, for `<` and `>`, the difference of the sides is neither 0 nor 1 (unless it is hidden): the
bound of a strict comparison is raised by 1 where it has to be lowered. -/
theorem mk_app_faithful {f : comparison} {t1 t2 : term} {r : formula} (h : mk_app f t1 t2 = some r)
    (a : Nat → Bool) (x : Nat → Rat) : r.eval a = f.holds (t1.eval a x) (t2.eval a x) ↔
      let d := f.diff (t1.eval a x) (t2.eval a x)
      (f.holds (t1.eval a x) (t2.eval a x) → ¬ Hidden f a d (f.ites t1 t2)) ∧
        (f.strict → d = 0 ∨ d = 1 → Hidden f a d (f.ites t1 t2)) := by
  obtain ⟨⟨n, hn⟩, hiff⟩ := mk_app_iff h a x
  have hholds (hf : f.strict) : f.holds (t1.eval a x) (t2.eval a x) ↔ n < 0 := by
    rw [← Int.cast_lt_zero (R := Rat), ← hn]
    cases f with
    | le | ge | eq => cases hf
    | lt | gt => simp [comparison.holds, comparison.diff]
  rw [Bool.eq_iff_iff, hiff]
  dsimp only
  generalize Hidden f a _ _ = hidden
  cases f with
  | le | ge | eq =>
    simp only [mode, compare, slack, comparison.strict, comparison.diff, comparison.holds, decide_eq_true_eq,
      Bool.false_eq_true, if_false, sub_nonpos, sub_eq_zero, false_implies, and_true]
    tauto
  | lt | gt =>
    -- the difference is an integer, and at most 1 if it is negative, 0 or 1
    have hle : (n : Rat) ≤ 1 ↔ n ≤ 1 := by exact_mod_cast Iff.rfl
    have hone : (n : Rat) = 1 ↔ n = 1 := by exact_mod_cast Iff.rfl
    simp only [mode, compare, slack, hholds rfl, comparison.strict, if_true, hn, true_implies, hle, hone,
      Int.cast_eq_zero]
    by_cases hhidden : hidden
    · simp [hhidden]
    · have hcases : (n ≤ 1 ↔ n < 0) ↔ ¬ (n = 0 ∨ n = 1) := by omega
      simpa [hhidden] using hcases

/-- `ite(p, 3, 1) - ite(q, 1, 0) < 2` where `q` is true and `p` is not. -/
theorem mk_app_faithful_sub :
    (mk_app .lt (.sub [.ite (.atom 0) (.num 3) (.num 1), .ite (.atom 1) (.num 1) (.num 0)]) (.num 2)).map
      (·.eval (· == 1)) = some true := by
  have hs : is_pb2 (.sub [.ite (.atom 0) (.num 3) (.num 1), .ite (.atom 1) (.num 1) (.num 0)]) (.num 2) =
      some ⟨[.atom 0, .mk_not (.atom 1)], [2, 1], 2⟩ := by decide +kernel
  have happ : mk_app .lt (.sub [.ite (.atom 0) (.num 3) (.num 1), .ite (.atom 1) (.num 1) (.num 0)]) (.num 2) =
      some (mk_le_ge .l_true ⟨[.atom 0, .mk_not (.atom 1)], [2, 1], 2 + 1⟩) := by rw [mk_app, hs, map_some]
  have hfaithful := (mk_app_faithful happ (· == 1) fun _ => 0).mpr ⟨fun _ hhidden => ?_, fun _ hd => ?_⟩
  · rw [happ, map_some, hfaithful]
    decide +kernel
  · obtain ⟨e, he, heq, -⟩ := hhidden.equal
    revert e
    decide +kernel
  · exact absurd hd (by decide +kernel)

/-- `ite(p, 1, 0) < 0` becomes true, and `ite(p, 1, 1) <= 1` becomes `not p`. -/
theorem mk_app_unfaithful :
    (∃ t1 t2 r a x, mk_app .lt t1 t2 = some r ∧ r.eval a ≠ comparison.lt.holds (t1.eval a x) (t2.eval a x)) ∧
      ∃ t1 t2 r a x, mk_app .le t1 t2 = some r ∧ r.eval a ≠ comparison.le.holds (t1.eval a x) (t2.eval a x) := by
  have hlt : (mk_app .lt (.ite (.atom 0) (.num 1) (.num 0)) (.num 0)).map (·.eval fun _ => true) = some true := by
    decide +kernel
  have hle : (mk_app .le (.ite (.atom 0) (.num 1) (.num 1)) (.num 1)).map (·.eval fun _ => true) = some false := by
    decide +kernel
  obtain ⟨r1, hr1, heval1⟩ := map_eq_some_iff.mp hlt
  obtain ⟨r2, hr2, heval2⟩ := map_eq_some_iff.mp hle
  refine ⟨⟨_, _, r1, fun _ => true, fun _ => 0, hr1, ?_⟩, _, _, r2, fun _ => true, fun _ => 0, hr2, ?_⟩
  · rw [heval1]
    decide +kernel
  · rw [heval2]
    decide +kernel

end card2bv_rewriter

end pb2bv_rewriter
