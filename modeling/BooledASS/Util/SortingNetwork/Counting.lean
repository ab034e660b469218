import Mathlib.Data.Nat.Size
import BooledASS.Logic.Bits
import BooledASS.Util.SortingNetwork.Network

open List

namespace psort_nw

variable {L V : Type} [DecidableEq L] (ctx : psort_expr L V) (t : cmp_t)

section Unate

/-- `carry[j]` becomes `(x & carry[j-1]) | carry[j]`, from the last index down. -/
def unate_step (carry : List L) (x : L) : List L :=
  zipWith (fun c0 c => mk_or ctx [mk_and ctx [x, c0], c]) (ctx.mk_true :: carry) carry

/-- The result is `none` where the source reads outside of `carry`. -/
def unate_cmp (k : Nat) (xs : List L) : Option L :=
  let carry last := xs.foldl (unate_step ctx) (replicate last ctx.mk_false)
  match t with
  | .LE | .LE_FULL => ((carry (k + 1))[k]?).map (mk_not ctx)
  | .GE | .GE_FULL => if k = 0 then none else (carry k)[k - 1]?
  | .EQ =>
    if k = 0 then none
    else do
      let c ← (carry (k + 1))[k]?
      let c' ← (carry (k + 1))[k - 1]?
      return mk_and ctx [mk_not ctx c, c']

end Unate

section Circuit

/-- The sum with the carry `c`, and the carry that is left; `none` where the source reads outside of `y`. -/
def mk_add_circuit (c : L) : List L → List L → Option (List L × L)
  | [], _ => some ([], c)
  | _ :: _, [] => none
  | x :: xs, y :: ys => do
    let o := mk_or ctx [mk_and ctx [c, mk_not ctx x, mk_not ctx y], mk_and ctx [x, mk_not ctx c, mk_not ctx y],
      mk_and ctx [y, mk_not ctx c, mk_not ctx x], mk_and ctx [c, x, y]]
    let c := mk_or ctx [mk_and ctx [c, x], mk_and ctx [c, y], mk_and ctx [x, y]]
    let (out, c) ← mk_add_circuit c xs ys
    return (o :: out, c)

/-- The outputs and the overflow. -/
def circuit_add (k : Nat) (xs : List L) : Option (List L × L) :=
  match xs with
  | [] => some (replicate k ctx.mk_false, ctx.mk_false)
  | [x] => some (x :: replicate (k - 1) ctx.mk_false, ctx.mk_false)
  | x :: y :: xs => do
    let half := (xs.length + 2) / 2
    let (o1, ovfl1) ← circuit_add k ((x :: y :: xs).take half)
    let (o2, ovfl2) ← circuit_add k ((x :: y :: xs).drop half)
    let (out, ovfl3) ← mk_add_circuit ctx ctx.mk_false o1 o2
    return (out, mk_or ctx [ovfl1, ovfl2, ovfl3])
termination_by xs.length
decreasing_by
  all_goals
    simp only [length_take, length_drop, length_cons]
    omega

/-- The loop of `mk_ge` over the bits above, with `r` and `g`. -/
def mk_ge_loop : List L → List L → L × L
  | x :: xs, y :: ys =>
    let (r, g) := mk_ge_loop xs ys
    let g := mk_or ctx [g, mk_and ctx [r, mk_and ctx [x, mk_not ctx y]]]
    (mk_or ctx [g, mk_and ctx [r, mk_or ctx [x, mk_not ctx y]]], g)
  | _, _ => (ctx.mk_true, ctx.mk_false)

def mk_ge (x y : List L) : Option L := if y.length < x.length then none else some (mk_ge_loop ctx x y).1

/-- The bits of `k1`, up to the last that is set. -/
def kvec (k1 : Nat) : List L := (range k1.size).map fun i => if k1.testBit i then ctx.mk_true else ctx.mk_false

def circuit_cmp (k : Nat) (xs : List L) : Option L := do
  let k1 := if t = .LE ∨ t = .LE_FULL then k + 1 else k
  let (out, ovfl) ← circuit_add ctx k1.size xs
  match t with
  | .LE | .LE_FULL => return mk_not ctx (mk_or ctx [ovfl, ← mk_ge ctx out (kvec ctx k1)])
  | .GE | .GE_FULL => return mk_or ctx [ovfl, ← mk_ge ctx out (kvec ctx k1)]
  | .EQ =>
    if out.length < k1.size then none
    else
      return mk_and ctx ((zipWith (fun b o => [mk_or ctx [mk_not ctx b, o], mk_or ctx [b, mk_not ctx o]])
        (kvec ctx k1) out).flatten ++ [mk_not ctx ovfl])

end Circuit

variable {ctx t} {v : V} {k : Nat} {xs : List L}

/-- After one more literal, `carry[j]` says that there are more than `j`. -/
theorem unate_step_spec {carry : List L} {c : Nat} (x : L)
    (h : ∀ (j : Nat) l, carry[j]? = some l → ctx.val v l = decide (j < c)) :
    ∀ (j : Nat) l, (unate_step ctx carry x)[j]? = some l → ctx.val v l = decide (j < c + (ctx.val v x).toNat) := by
  intro j l hl
  obtain ⟨c0, c1, hc0, hc1, rfl⟩ := getElem?_zipWith_eq_some.mp hl
  have hcj := h j c1 hc1
  have hc0 : ctx.val v c0 = decide (j < c + 1) := by
    cases j with
    | zero => simpa [← Option.some.inj hc0] using ctx.val_true v
    | succ j => simpa using h j c0 hc0
  cases hx : ctx.val v x
  · simp [hx, hcj]
  · simp [hx, hc0, hcj]
    omega

theorem unate_foldl {carry : List L} {c : Nat} (h : ∀ (j : Nat) l, carry[j]? = some l → ctx.val v l = decide (j < c)) :
    ∀ (j : Nat) l, (xs.foldl (unate_step ctx) carry)[j]? = some l →
    ctx.val v l = decide (j < c + xs.countP (ctx.val v)) := by
  induction xs generalizing carry c with
  | nil => exact h
  | cons x xs ih =>
    have hcount : c + (x :: xs).countP (ctx.val v) = c + (ctx.val v x).toNat + xs.countP (ctx.val v) := by
      rw [countP_cons]
      cases ctx.val v x <;> simp
      omega
    rw [hcount]
    exact ih (unate_step_spec x h)

variable (ctx xs) in
theorem unate_carry {last j : Nat} (hj : j < last) :
    ∃ l, (xs.foldl (unate_step ctx) (replicate last ctx.mk_false))[j]? = some l ∧
      ∀ v, ctx.val v l ↔ j < xs.countP (ctx.val v) := by
  have hlen carry : (xs.foldl (unate_step ctx) carry).length = carry.length := by
    induction xs generalizing carry with
    | nil => rfl
    | cons x xs ih =>
      rw [foldl_cons, ih, unate_step, length_zipWith, length_cons, Nat.min_eq_right (by omega)]
  have hl := getElem?_eq_getElem (l := xs.foldl (unate_step ctx) (replicate last ctx.mk_false))
    (by rwa [hlen, length_replicate])
  refine ⟨_, hl, fun v => ?_⟩
  rw [unate_foldl (c := 0) (fun i l hi => ?_) j _ hl, decide_eq_true_iff, Nat.zero_add]
  rw [(mem_replicate.mp (mem_of_getElem? hi)).2, ctx.val_false]
  rfl

/-- The value of the comparison of a number. -/
def cmp_t.compare : cmp_t → Nat → Nat → Prop
  | .LE, c, k | .LE_FULL, c, k => c ≤ k
  | .GE, c, k | .GE_FULL, c, k => k ≤ c
  | .EQ, c, k => c = k

variable (ctx t xs) in
/-- The counter holds in unary how many literals are true, as far as the comparison needs it, and the comparison reads
one or two of its literals. -/
theorem unate_cmp_spec (hk : k = 0 → t = .LE ∨ t = .LE_FULL) : ∃ l, unate_cmp ctx t k xs = some l ∧
    ∀ v, ctx.val v l ↔ t.compare (xs.countP (ctx.val v)) k := by
  obtain ⟨c, hc, hval⟩ := unate_carry ctx xs (Nat.lt_succ_self k)
  obtain ⟨c', hc', hval'⟩ := unate_carry ctx xs (show k - 1 < k + 1 by omega)
  cases t
  case LE | LE_FULL =>
    refine ⟨_, by simp only [unate_cmp, hc]; rfl, fun v => ?_⟩
    rw [val_mk_not, Bool.not_eq_true', ← Bool.not_eq_true, hval, not_lt]
    rfl
  case GE | GE_FULL =>
    have hk : k ≠ 0 := by simpa using hk
    obtain ⟨c1, hc1, hval1⟩ := unate_carry ctx xs (show k - 1 < k by omega)
    refine ⟨c1, by simp only [unate_cmp, hk, hc1, if_false], fun v => ?_⟩
    rw [hval1, cmp_t.compare]
    omega
  case EQ =>
    have hk : k ≠ 0 := by simpa using hk
    refine ⟨_, by simp only [unate_cmp, hk, hc, hc']; rfl, fun v => ?_⟩
    simp [cmp_t.compare]
    grind

section Circuit

/-- The number that a list of literals stands for. -/
def num (ctx : psort_expr L V) (v : V) (ls : List L) : Nat := Bits.val (ls.map (ctx.val v))

variable (ctx) in
theorem mk_add_circuit_spec (x y : List L) (hlen : x.length = y.length) (c : L) :
    ∃ out c', mk_add_circuit ctx c x y = some (out, c') ∧ out.length = x.length ∧
      ∀ v, num ctx v out + 2 ^ x.length * (ctx.val v c').toNat = num ctx v x + num ctx v y + (ctx.val v c).toNat := by
  induction x, y, hlen using Bits.induction_two generalizing c with
  | nil => exact ⟨[], c, rfl, rfl, fun v => by simp [num]⟩
  | cons x xs y ys hlen ih =>
    obtain ⟨out, c', heq, hlen', hnum⟩ := ih (mk_or ctx [mk_and ctx [c, x], mk_and ctx [c, y], mk_and ctx [x, y]])
    refine ⟨_, c', by rw [mk_add_circuit, heq]; rfl, by simp [hlen'], fun v => ?_⟩
    have := hnum v
    simp only [num, length_cons, pow_succ, Nat.mul_right_comm _ 2] at this ⊢
    cases hc : ctx.val v c <;> cases hx : ctx.val v x <;> cases hy : ctx.val v y <;>
      simp [hc, hx, hy] at this ⊢ <;> omega

variable (ctx) in
/-- The lists are halved and added by a ripple adder of `k` bits. The sum is right as long as it fits them, and the
overflow literal is true if it does not. -/
theorem circuit_add_spec (hk : 0 < k) (xs : List L) : ∃ out ovfl, circuit_add ctx k xs = some (out, ovfl) ∧
    out.length = k ∧ ∀ v, if xs.countP (ctx.val v) < 2 ^ k then ctx.val v ovfl = false ∧
    num ctx v out = xs.countP (ctx.val v) else ctx.val v ovfl := by
  fun_induction circuit_add ctx k xs with
  | case1 => exact ⟨_, _, rfl, by simp, fun v => by simp [ctx.val_false, num]⟩
  | case2 x =>
    refine ⟨_, _, rfl, by simp; omega, fun v => ?_⟩
    have := Nat.one_lt_two_pow hk.ne'
    have hle : [x].countP (ctx.val v) ≤ 1 := countP_le_length
    rw [if_pos (by omega)]
    cases hx : ctx.val v x <;> simp [ctx.val_false, num, hx]
  | case3 x y xs half ih1 ih2 =>
    obtain ⟨o1, ovfl1, h1, hlen1, hv1⟩ := ih1
    obtain ⟨o2, ovfl2, h2, hlen2, hv2⟩ := ih2
    obtain ⟨out, ovfl3, h3, hlen3, hnum⟩ := mk_add_circuit_spec ctx o1 o2 (hlen1.trans hlen2.symm) ctx.mk_false
    refine ⟨out, mk_or ctx [ovfl1, ovfl2, ovfl3], by simp [h1, h2, h3], hlen3.trans hlen1, fun v => ?_⟩
    have hcount : (x :: y :: xs).countP (ctx.val v) = ((x :: y :: xs).take half).countP (ctx.val v) +
        ((x :: y :: xs).drop half).countP (ctx.val v) := by rw [← countP_append, take_append_drop]
    have hnum := hnum v
    have hlt : num ctx v out < 2 ^ k := by simpa [num, hlen3, hlen1] using Bits.val_lt (out.map (ctx.val v))
    rw [ctx.val_false] at hnum
    cases h : ctx.val v ovfl3 <;> simp at hnum ⊢ <;> grind

variable (ctx) in
/-- The comparison of the bits above, and whether they differ. -/
theorem mk_ge_loop_spec (x y : List L) (hlen : x.length = y.length) (v : V) :
    (ctx.val v (mk_ge_loop ctx x y).1 ↔ num ctx v y ≤ num ctx v x) ∧
    (ctx.val v (mk_ge_loop ctx x y).2 ↔ num ctx v y < num ctx v x) := by
  induction x, y, hlen using Bits.induction_two with
  | nil => simp [mk_ge_loop, ctx.val_true, ctx.val_false]
  | cons x xs y ys hlen ih =>
    simp only [num] at ih ⊢
    cases hx : ctx.val v x <;> cases hy : ctx.val v y <;> simp [mk_ge_loop, hx, hy, ih] <;> omega

theorem circuit_eqs (x y : List L) (hlen : x.length = y.length) (v : V) :
    (∀ l ∈ (zipWith (fun b o => [mk_or ctx [mk_not ctx b, o], mk_or ctx [b, mk_not ctx o]]) x y).flatten,
      ctx.val v l) ↔ num ctx v x = num ctx v y := by
  induction x, y, hlen using Bits.induction_two with
  | nil => simp
  | cons x xs y ys hlen ih =>
    simp only [num, zipWith_cons_cons, flatten_cons, forall_mem_append] at ih ⊢
    rw [ih]
    cases hx : ctx.val v x <;> cases hy : ctx.val v y <;> simp [hx, hy] <;> omega

omit [DecidableEq L] in
theorem length_kvec (k1 : Nat) : (kvec ctx k1).length = k1.size := by simp [kvec]

omit [DecidableEq L] in
theorem num_kvec (k1 : Nat) : num ctx v (kvec ctx k1) = k1 := by
  have hbits : (kvec ctx k1).map (ctx.val v) = (range k1.size).map k1.testBit := by
    simp [kvec, apply_ite (ctx.val v), ctx.val_true, ctx.val_false]
  rw [num, hbits, Bits.val_testBits, Nat.mod_eq_of_lt k1.lt_size_self]

/-- The sum, or its overflow, reaches `k1`. -/
theorem circuit_reaches {k1 : Nat} {out : List L} {ovfl : L} (hlen : out.length = k1.size)
    (h : if xs.countP (ctx.val v) < 2 ^ k1.size then ctx.val v ovfl = false ∧ num ctx v out = xs.countP (ctx.val v)
      else ctx.val v ovfl) :
    ctx.val v (mk_or ctx [ovfl, (mk_ge_loop ctx out (kvec ctx k1)).1]) ↔ k1 ≤ xs.countP (ctx.val v) := by
  have hge := (mk_ge_loop_spec ctx out (kvec ctx k1) (hlen.trans (length_kvec k1).symm) v).1
  rw [num_kvec] at hge
  have := k1.lt_size_self
  rw [val_mk_or]
  grind

variable (ctx t xs) in
/-- The sum of the literals is compared with `k` bit by bit, where an overflow stands for a number above `k`. -/
theorem circuit_cmp_spec (hk : k = 0 → t = .LE ∨ t = .LE_FULL) : ∃ l, circuit_cmp ctx t k xs = some l ∧
    ∀ v, ctx.val v l ↔ t.compare (xs.countP (ctx.val v)) k := by
  cases t
  case LE | LE_FULL =>
    obtain ⟨out, ovfl, heq, hlen, hv⟩ := circuit_add_spec ctx (Nat.size_pos.mpr k.succ_pos) xs
    refine ⟨_, by simp [circuit_cmp, heq, mk_ge, hlen, length_kvec]; rfl, fun v => ?_⟩
    rw [val_mk_not, Bool.not_eq_true', ← Bool.not_eq_true, circuit_reaches hlen (hv v), cmp_t.compare]
    omega
  case GE | GE_FULL =>
    have hk : 0 < k := Nat.pos_of_ne_zero (by simpa using hk)
    obtain ⟨out, ovfl, heq, hlen, hv⟩ := circuit_add_spec ctx (Nat.size_pos.mpr hk) xs
    exact ⟨_, by simp [circuit_cmp, heq, mk_ge, hlen, length_kvec], fun v => circuit_reaches hlen (hv v)⟩
  case EQ =>
    have hk : 0 < k := Nat.pos_of_ne_zero (by simpa using hk)
    obtain ⟨out, ovfl, heq, hlen, hv⟩ := circuit_add_spec ctx (Nat.size_pos.mpr hk) xs
    refine ⟨_, by simp [circuit_cmp, heq, hlen]; rfl, fun v => ?_⟩
    rw [val_mk_and, all_eq_true, forall_mem_append, circuit_eqs _ _ (by rw [hlen, length_kvec]), num_kvec,
      cmp_t.compare, forall_mem_singleton, val_mk_not]
    have := k.lt_size_self
    grind

end Circuit

end psort_nw
