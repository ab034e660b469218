import Mathlib.Data.Rat.Floor
import BooledASS.Sat.Types

open List Option

open sat (lbool)

namespace pb2bv_rewriter

/-- A Boolean condition; the rewriter only looks for negations and constants at the top of it. -/
inductive cond where
  | atom (n : Nat)
  | mk_true
  | mk_false
  | mk_not (c : cond)
deriving DecidableEq, Repr

/-- The arithmetic terms; `other` is a term of any other kind. -/
inductive term where
  | num (r : Rat)
  | add (args : List term)
  | sub (args : List term)
  | uminus (arg : term)
  | mul (args : List term)
  | ite (c : cond) (th el : term)
  | other (n : Nat)

inductive bv_expr where
  | mk_numeral (v nb : Nat)
  | mk_ite (c : cond) (hi lo : bv_expr)
  | mk_zero_extend (n : Nat) (a : bv_expr)
  | mk_bv_add (a b : bv_expr)
  | mk_extract (high low : Nat) (a : bv_expr)
deriving DecidableEq, Repr

/-- The formulas that the rewriter produces. -/
inductive formula where
  | of_cond (c : cond)
  | mk_eq (a b : bv_expr)
  | mk_ule (a b : bv_expr)
  | mk_not (f : formula)
  | mk_and (fs : List formula)
  | mk_or (fs : List formula)

/-- The comparisons that `mk_app` translates. -/
inductive comparison where
  | le
  | lt
  | ge
  | gt
  | eq
deriving DecidableEq, Repr

/-! ### Meaning -/

section Meaning

variable (a : Nat → Bool) (x : Nat → Rat)

def cond.eval : cond → Bool
  | .atom n => a n
  | .mk_true => true
  | .mk_false => false
  | .mk_not c => !c.eval

mutual

def term.eval : term → Rat
  | .num r => r
  | .add args => (evals args).sum
  | .sub args => (evals args).head?.getD 0 - (evals args).tail.sum
  | .uminus arg => -arg.eval
  | .mul args => (evals args).prod
  | .ite c th el => if c.eval a then th.eval else el.eval
  | .other n => x n

def evals : List term → List Rat
  | [] => []
  | t :: ts => t.eval :: evals ts

end

def bv_expr.size : bv_expr → Nat
  | .mk_numeral _ nb => nb
  | .mk_ite _ hi _ => hi.size
  | .mk_zero_extend n a => n + a.size
  | .mk_bv_add a _ => a.size
  | .mk_extract high low _ => high - low + 1

def bv_expr.eval : bv_expr → Nat
  | .mk_numeral v nb => v % 2 ^ nb
  | .mk_ite c hi lo => if c.eval a then hi.eval else lo.eval
  | .mk_zero_extend _ b => b.eval
  | .mk_bv_add b c => (b.eval + c.eval) % 2 ^ b.size
  | .mk_extract high low b => b.eval / 2 ^ low % 2 ^ (high - low + 1)

mutual

def formula.eval : formula → Bool
  | .of_cond c => c.eval a
  | .mk_eq b c => b.eval a == c.eval a
  | .mk_ule b c => b.eval a ≤ c.eval a
  | .mk_not f => !f.eval
  | .mk_and fs => formula.evalAll fs
  | .mk_or fs => formula.evalAny fs

def formula.evalAll : List formula → Bool
  | [] => true
  | f :: fs => f.eval && evalAll fs

def formula.evalAny : List formula → Bool
  | [] => false
  | f :: fs => f.eval || evalAny fs

end

def comparison.holds : comparison → Rat → Rat → Bool
  | .le, r1, r2 => r1 ≤ r2
  | .lt, r1, r2 => r1 < r2
  | .ge, r1, r2 => r2 ≤ r1
  | .gt, r1, r2 => r2 < r1
  | .eq, r1, r2 => r1 = r2

/-- The comparisons are of `t1 - t2` with 0; for the other two the sides change places. -/
def comparison.diff : comparison → Rat → Rat → Rat
  | .le, r1, r2 | .lt, r1, r2 | .eq, r1, r2 => r1 - r2
  | .ge, r1, r2 | .gt, r1, r2 => r2 - r1

def comparison.strict : comparison → Bool
  | .lt | .gt => true
  | .le | .ge | .eq => false

end Meaning

def term.is_numeral : term → Option Rat
  | .num r => some r
  | _ => none

mutual

/-- The choices between two values in a term that is multiplied by `m`: its if-then-elses between numerals, with the
values of the branches. -/
def term.ites : term → Rat → List (cond × Rat × Rat)
  | .num _, _ => []
  | .add args, m => itess args m
  | .sub [], _ => []
  | .sub (t :: ts), m => t.ites m ++ itess ts (-m)
  | .uminus t, m => t.ites (-m)
  | .mul [t1, t2], m =>
    match t1.is_numeral, t2.is_numeral with
    | some r, _ => t2.ites (r * m)
    | none, some r => t1.ites (r * m)
    | none, none => []
  | .mul _, _ => []
  | .ite c th el, m =>
    match th.is_numeral, el.is_numeral with
    | some r1, some r2 => [(c, r1 * m, r2 * m)]
    | _, _ => []
  | .other _, _ => []

def itess : List term → Rat → List (cond × Rat × Rat)
  | [], _ => []
  | t :: ts, m => t.ites m ++ itess ts m

end

def comparison.ites : comparison → term → term → List (cond × Rat × Rat)
  | .le, t1, t2 | .lt, t1, t2 | .eq, t1, t2 => t1.ites 1 ++ t2.ites (-1)
  | .ge, t1, t2 | .gt, t1, t2 => t2.ites 1 ++ t1.ites (-1)

/-! ### The rewriter -/

/-- The sum that is collected: `m_args` with their coefficients, and the bound. -/
structure card2bv_rewriter where
  m_args : List cond := []
  m_coeffs : List Rat := []
  m_k : Rat := 0
deriving DecidableEq

/-- `::mk_not`. -/
def mk_not : cond → cond
  | .mk_true => .mk_false
  | .mk_false => .mk_true
  | .mk_not c => c
  | .atom n => .mk_not (.atom n)

namespace card2bv_rewriter

/-- `if-then-else` between numerals that were multiplied already. -/
def push_ite (c : cond) (r1 r2 : Rat) (s : card2bv_rewriter) : Option card2bv_rewriter :=
  let s := if r1 < r2 then
      { m_args := s.m_args ++ [mk_not c], m_coeffs := s.m_coeffs ++ [r2 - r1], m_k := s.m_k - r1 }
    else { m_args := s.m_args ++ [c], m_coeffs := s.m_coeffs ++ [r1 - r2], m_k := s.m_k - r2 }
  if s.m_k.isInt ∧ (r1 - r2).isInt then some s else none

mutual

/-- Adds `mul` times the term to the sum; `none` is the answer false. -/
def is_pb : term → Rat → card2bv_rewriter → Option card2bv_rewriter
  | .num r, mul, s =>
    let s := { s with m_k := s.m_k - mul * r }
    if s.m_k.isInt then some s else none
  | .add args, mul, s => is_pbs args mul s
  | .sub [], _, _ => none
  | .sub (t :: ts), mul, s => (is_pb t mul s).bind (is_pbs ts (-mul))
  | .uminus t, mul, s => is_pb t (-mul) s
  | .mul [t1, t2], mul, s =>
    match t1.is_numeral with
    | some r => is_pb t2 (r * mul) s
    | none =>
      match t2.is_numeral with
      | some r => is_pb t1 (r * mul) s
      | none => none
  | .mul _, _, _ => none
  | .ite c th el, mul, s =>
    match th.is_numeral, el.is_numeral with
    | some r1, some r2 => push_ite c (r1 * mul) (r2 * mul) s
    | _, _ => none
  | .other _, _, _ => none

def is_pbs : List term → Rat → card2bv_rewriter → Option card2bv_rewriter
  | [], _, s => some s
  | t :: ts, mul, s => (is_pb t mul s).bind (is_pbs ts mul)

end

/-- `is_pb` on the two sides of a comparison. -/
def is_pb2 (t1 t2 : term) : Option card2bv_rewriter := (is_pb t1 1 {}).bind (is_pb t2 (-1))

def gcd (r1 r2 : Rat) : Rat := (Int.gcd r1.num r2.num : Rat)

/-- The loop over the coefficients; `none` is an early return. -/
def gcd_loop : Rat → List Rat → Option Rat
  | g, [] => some g
  | g, c :: cs => if !c.isInt then none else if gcd g c = 1 then none else gcd_loop (gcd g c) cs

def gcd_reduce (is_le : lbool) (coeffs : List Rat) (k : Rat) : List Rat × Rat :=
  match gcd_loop 0 coeffs with
  | none => (coeffs, k)
  | some g =>
    if g = 0 then (coeffs, k)
    else
      match is_le with
      | .l_undef =>
        if !k.isInt then (coeffs, k)
        else if gcd k g = 1 ∨ gcd k g = 0 then (coeffs, k)
        else (coeffs.map (· / gcd k g), k / gcd k g)
      | .l_true => (coeffs.map (· / g), ⌊k / g⌋)
      | .l_false => (coeffs.map (· / g), ⌈k / g⌉)

/-- `mk_ite` on bit-vectors. -/
def mk_ite (c : cond) (hi lo : bv_expr) : bv_expr :=
  match c with
  | .mk_not c => mk_ite c lo hi
  | c => if hi = lo then hi else .mk_ite c hi lo

/-- `::mk_or` and `::mk_and`. -/
def mk_or : List formula → formula
  | [] => .of_cond .mk_false
  | [f] => f
  | fs => .mk_or fs

def mk_and : List formula → formula
  | [] => .of_cond .mk_true
  | [f] => f
  | fs => .mk_and fs

/-- The sum of two addends without its overflow bit. -/
def add_result (a b : bv_expr) : bv_expr :=
  .mk_extract (a.size - 1) 0 (.mk_bv_add (.mk_zero_extend 1 a) (.mk_zero_extend 1 b))

def add_overflow (a b : bv_expr) : bv_expr :=
  .mk_extract a.size a.size (.mk_bv_add (.mk_zero_extend 1 a) (.mk_zero_extend 1 b))

/-- What is said about the sum of two addends. -/
def add_fmls (is_le : lbool) (a b bound : bv_expr) : List formula :=
  if is_le ≠ .l_false then
    [.mk_eq (add_overflow a b) (.mk_numeral 0 1), .mk_ule (add_result a b) bound]
  else [.mk_eq (add_overflow a b) (.mk_numeral 1 1), .mk_ule bound (add_result a b)]

/-- One round over the addends: they are added in pairs, and the last one stays when their number is odd. -/
def add_pairs (is_le : lbool) (bound : bv_expr) : List formula → List bv_expr → List formula × List bv_expr
  | fmls, a :: b :: es =>
    let r := add_pairs is_le bound (fmls ++ add_fmls is_le a b bound) es
    (r.1, add_result a b :: r.2)
  | fmls, es => (fmls, es)

/-- The loop `while (es.size() > 1)`; the number of addends is enough fuel. -/
def add_tree (is_le : lbool) (bound : bv_expr) : Nat → List formula → List bv_expr → List formula × List bv_expr
  | 0, fmls, es => (fmls, es)
  | fuel + 1, fmls, es =>
    if 1 < es.length then
      let r := add_pairs is_le bound fmls es
      add_tree is_le bound fuel r.1 r.2
    else (fmls, es)

/-- The loop over the arguments: a coefficient above the bound decides its argument, the others are addends. -/
def split_args (is_le : lbool) (k : Rat) (nb : Nat) : List (cond × Rat) → List formula × List bv_expr
  | [] => ([], [])
  | (arg, c) :: rest =>
    let r := split_args is_le k nb rest
    if k < c then
      ((if is_le ≠ .l_false then .mk_not (.of_cond arg) else .of_cond arg) :: r.1, r.2)
    else (r.1, mk_ite arg (.mk_numeral c.num.toNat nb) (.mk_numeral 0 nb) :: r.2)

/-- The divide and conquer encoding for a positive bound. -/
def mk_adder (is_le : lbool) (args : List cond) (coeffs : List Rat) (k : Rat) : formula :=
  let nb := k.num.toNat.log2 + 1
  let bound := bv_expr.mk_numeral k.num.toNat nb
  let split := split_args is_le k nb (args.zip coeffs)
  let r := add_tree is_le bound split.2.length split.1 split.2
  match is_le with
  | .l_true => mk_and r.1
  | .l_false =>
    match r.2.getLast? with
    | some e => mk_or (r.1 ++ [.mk_ule bound e])
    | none => mk_or r.1
  | .l_undef =>
    match r.2.getLast? with
    | some e => mk_and (r.1 ++ [.mk_eq bound e])
    | none => mk_and (r.1 ++ [.of_cond (if k = 0 then .mk_true else .mk_false)])

/-- `mk_le_ge` with the default encoding. -/
def mk_le_ge (is_le : lbool) (s : card2bv_rewriter) : formula :=
  let r := gcd_reduce is_le s.m_coeffs s.m_k
  if r.2 = 0 then
    if is_le ≠ .l_false then .mk_not (mk_or (s.m_args.map .of_cond)) else .of_cond .mk_true
  else if r.2 < 0 then
    if is_le = .l_false then .of_cond .mk_true else .of_cond .mk_false
  else mk_adder is_le s.m_args r.1 r.2

/-- The part of `mk_app` for arithmetic comparisons; `none` when the term is left as it is. -/
def mk_app (f : comparison) (t1 t2 : term) : Option formula :=
  match f with
  | .le => (is_pb2 t1 t2).map (mk_le_ge .l_true)
  | .lt => (is_pb2 t1 t2).map fun s => mk_le_ge .l_true { s with m_k := s.m_k + 1 }
  | .ge => (is_pb2 t2 t1).map (mk_le_ge .l_true)
  | .gt => (is_pb2 t2 t1).map fun s => mk_le_ge .l_true { s with m_k := s.m_k + 1 }
  | .eq => (is_pb2 t1 t2).map (mk_le_ge .l_undef)

/-! ### The collected sum -/

section Collect

variable (a : Nat → Bool) (x : Nat → Rat)

def weight (c : cond) (r : Rat) : Rat := if c.eval a then r else 0

/-- The sum of the coefficients whose arguments are true. -/
def sum (args : List cond) (coeffs : List Rat) : Rat := (zipWith (weight a) args coeffs).sum

/-- Coefficients are non-negative integers. -/
structure Integral (s : card2bv_rewriter) : Prop where
  length_eq : s.m_args.length = s.m_coeffs.length
  coeffs : ∀ c ∈ s.m_coeffs, ∃ n : ℕ, c = n
  bound : ∃ k : ℤ, s.m_k = k

variable {a x}

theorem isInt_iff {r : Rat} : r.isInt ↔ ∃ n : ℤ, r = n := by
  rw [Rat.isInt, beq_iff_eq]
  refine ⟨fun h => ⟨r.num, (Rat.den_eq_one_iff r |>.mp h).symm⟩, ?_⟩
  rintro ⟨n, rfl⟩
  exact Rat.den_intCast n

theorem natural_of_isInt {r : Rat} (h : r.isInt) (hr : 0 ≤ r) : ∃ n : ℕ, r = n := by
  obtain ⟨n, rfl⟩ := isInt_iff.mp h
  obtain ⟨m, rfl⟩ := Int.eq_ofNat_of_zero_le (Int.cast_nonneg_iff.mp hr)
  exact ⟨m, rfl⟩

@[simp] theorem eval_mk_not (c : cond) : (mk_not c).eval a = !c.eval a := by cases c <;> simp [mk_not, cond.eval]

theorem sum_append {args : List cond} {coeffs : List Rat} (h : args.length = coeffs.length) (c : cond) (r : Rat) :
    sum a (args ++ [c]) (coeffs ++ [r]) = sum a args coeffs + weight a c r := by
  rw [sum, sum, zipWith_append h]
  simp

/-- The argument and the coefficient that stand for a choice. -/
def addend (e : cond × Rat × Rat) : cond × Rat :=
  if e.2.1 < e.2.2 then (mk_not e.1, e.2.2 - e.2.1) else (e.1, e.2.1 - e.2.2)

/-- What is added to a sum by a term or by a list of terms of value `v` with the choices `l`. -/
def Adds (a : Nat → Bool) (v : Rat) (l : List (cond × Rat × Rat)) (s s' : card2bv_rewriter) : Prop :=
  s.Integral → s'.Integral ∧ sum a s'.m_args s'.m_coeffs - s'.m_k = sum a s.m_args s.m_coeffs - s.m_k + v ∧
    s'.m_args.zip s'.m_coeffs = s.m_args.zip s.m_coeffs ++ l.map addend

/-- An if-then-else adds its condition with the difference of the branches as coefficient. A negative difference is
turned round by negating the condition. -/
theorem push_ite_adds {c : cond} {r1 r2 : Rat} {s s' : card2bv_rewriter} (h : push_ite c r1 r2 s = some s') :
    Adds a (if c.eval a then r1 else r2) [(c, r1, r2)] s s' := by
  intro hs
  unfold push_ite at h
  by_cases hlt : r1 < r2
  · simp only [if_pos hlt] at h
    split at h
    next hint =>
      cases h
      have hint2 : (r2 - r1).isInt := by
        obtain ⟨n, hn⟩ := isInt_iff.mp hint.2
        exact isInt_iff.mpr ⟨-n, by push_cast; linarith⟩
      refine ⟨⟨by simp [hs.length_eq], Lists.forall_mem_concat hs.coeffs ?_, isInt_iff.mp hint.1⟩, ?_, ?_⟩
      · exact natural_of_isInt hint2 (by linarith)
      · rw [sum_append hs.length_eq, weight, eval_mk_not]
        cases c.eval a <;> simp <;> ring
      · rw [zip_append hs.length_eq]
        simp [addend, hlt]
    next => cases h
  · simp only [if_neg hlt] at h
    split at h
    next hint =>
      cases h
      refine ⟨⟨by simp [hs.length_eq], Lists.forall_mem_concat hs.coeffs ?_, isInt_iff.mp hint.1⟩, ?_, ?_⟩
      · exact natural_of_isInt hint.2 (by linarith)
      · rw [sum_append hs.length_eq, weight]
        cases c.eval a <;> simp <;> ring
      · rw [zip_append hs.length_eq]
        simp [addend, hlt]
    next => cases h

theorem Adds.trans {v w : Rat} {l l' : List (cond × Rat × Rat)} {s s1 s2 : card2bv_rewriter} (h : Adds a v l s s1)
    (h' : Adds a w l' s1 s2) : Adds a (v + w) (l ++ l') s s2 := by
  intro hs
  obtain ⟨h1, heq1, hzip1⟩ := h hs
  obtain ⟨h2, heq2, hzip2⟩ := h' h1
  exact ⟨h2, by rw [heq2, heq1]; ring, by rw [hzip2, hzip1, map_append, append_assoc]⟩

theorem term.eval_of_is_numeral {t : term} {r : Rat} (h : t.is_numeral = some r) : t.eval a x = r := by
  cases t <;> simp_all [term.is_numeral, term.eval]

mutual

/-- A term that is accepted adds `mul` times its value to the sum, and the if-then-elses that were collected are those
of the term. -/
theorem is_pb_adds : ∀ (t : term) (mul : Rat) (s s' : card2bv_rewriter), is_pb t mul s = some s' →
    Adds a (mul * t.eval a x) (t.ites mul) s s'
  | .num r, mul, s, s', h => by
    simp only [is_pb] at h
    split at h
    next hint =>
      cases h
      intro hs
      refine ⟨⟨hs.length_eq, hs.coeffs, isInt_iff.mp hint⟩, ?_, by simp [term.ites]⟩
      simp only [term.eval]
      ring
    next => cases h
  | .add args, mul, s, s', h => by
    rw [is_pb] at h
    rw [term.ites]
    exact is_pbs_adds args mul s s' h
  | .sub [], mul, s, s', h => by simp [is_pb] at h
  | .sub (t :: ts), mul, s, s', h => by
    rw [is_pb] at h
    obtain ⟨s1, h1, h2⟩ := bind_eq_some_iff.mp h
    have hadds := (is_pb_adds t mul s s1 h1).trans (is_pbs_adds ts (-mul) s1 s' h2)
    have heq : mul * (term.sub (t :: ts)).eval a x = mul * t.eval a x + -mul * (evals a x ts).sum := by
      simp only [term.eval, evals, head?_cons, getD_some, tail_cons]
      ring
    rwa [heq, term.ites]
  | .uminus t, mul, s, s', h => by
    rw [is_pb] at h
    have hadds := is_pb_adds t (-mul) s s' h
    rwa [term.eval, mul_neg, ← neg_mul, term.ites]
  | .mul [t1, t2], mul, s, s', h => by
    simp only [is_pb] at h
    have heq : (term.mul [t1, t2]).eval a x = t1.eval a x * t2.eval a x := by simp [term.eval, evals]
    rw [heq, term.ites]
    split at h
    next r hr =>
      rw [term.eval_of_is_numeral hr, ← mul_assoc, mul_comm mul r, hr]
      exact is_pb_adds t2 (r * mul) s s' h
    next hnone =>
      split at h
      next r hr =>
        rw [term.eval_of_is_numeral hr, mul_comm (t1.eval a x), ← mul_assoc, mul_comm mul r, hnone, hr]
        exact is_pb_adds t1 (r * mul) s s' h
      next => cases h
  | .mul [], mul, s, s', h => by simp [is_pb] at h
  | .mul [_], mul, s, s', h => by simp [is_pb] at h
  | .mul (_ :: _ :: _ :: _), mul, s, s', h => by simp [is_pb] at h
  | .ite c th el, mul, s, s', h => by
    simp only [is_pb] at h
    split at h
    next r1 r2 h1 h2 =>
      have heq : mul * (term.ite c th el).eval a x = if c.eval a then r1 * mul else r2 * mul := by
        rw [term.eval, term.eval_of_is_numeral h1, term.eval_of_is_numeral h2]
        split <;> ring
      rw [heq, term.ites, h1, h2]
      exact push_ite_adds h
    next => cases h
  | .other _, mul, s, s', h => by simp [is_pb] at h

theorem is_pbs_adds : ∀ (ts : List term) (mul : Rat) (s s' : card2bv_rewriter), is_pbs ts mul s = some s' →
    Adds a (mul * (evals a x ts).sum) (itess ts mul) s s'
  | [], mul, s, s', h => by
    obtain rfl := some.inj (by simpa [is_pbs] using h)
    exact fun hs => ⟨hs, by simp [evals], by simp [itess]⟩
  | t :: ts, mul, s, s', h => by
    obtain ⟨s1, h1, h2⟩ := bind_eq_some_iff.mp h
    rw [evals, sum_cons, mul_add, itess]
    exact (is_pb_adds t mul s s1 h1).trans (is_pbs_adds ts mul s1 s' h2)

end

/-- The two sides of a comparison differ by the collected sum less the bound, and there is an argument for each
choice. -/
theorem is_pb2_spec {t1 t2 : term} {s : card2bv_rewriter} (h : is_pb2 t1 t2 = some s) :
    s.Integral ∧ sum a s.m_args s.m_coeffs - s.m_k = t1.eval a x - t2.eval a x ∧
      s.m_args.zip s.m_coeffs = (t1.ites 1 ++ t2.ites (-1)).map addend := by
  obtain ⟨s1, h1, h2⟩ := bind_eq_some_iff.mp h
  have hadds := (is_pb_adds (a := a) (x := x) t1 1 {} s1 h1).trans (is_pb_adds (x := x) t2 (-1) s1 s h2)
  obtain ⟨hs, heq, hzip⟩ := hadds ⟨rfl, by simp, 0, by simp⟩
  refine ⟨hs, ?_, by simpa using hzip⟩
  rw [heq]
  simp [sum]
  ring

end Collect

end card2bv_rewriter

end pb2bv_rewriter
