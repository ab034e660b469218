import BooledASS.Logic.Machine
import BooledASS.Logic.Term
import BooledASS.Rewriter.ModInterval

namespace bv

inductive srt where
  | bool
  | bitvec (sz : Nat)
  | other (n : Nat)
deriving DecidableEq, Repr

/-- The function declarations that the bound propagation looks at; `other` is any other function, and `non_app` is a
variable or a quantifier. -/
inductive decl where
  | OP_TRUE
  | OP_FALSE
  | OP_NOT
  | OP_EQ
  | OP_BV_NUM (v sz : Nat)
  | OP_ULEQ (sz : Nat)
  | OP_SLEQ (sz : Nat)
  | OP_EXTRACT (high low : Nat)
  | OP_CONCAT (sz1 sz2 : Nat)
  | other (n : Nat) (range : srt)
  | non_app (n : Nat) (range : srt)
deriving DecidableEq, Repr

abbrev expr := Term decl

/-! ### Expressions -/

def decl.range : decl → srt
  | .OP_TRUE | .OP_FALSE | .OP_NOT | .OP_EQ | .OP_ULEQ _ | .OP_SLEQ _ => .bool
  | .OP_BV_NUM _ sz => .bitvec sz
  | .OP_EXTRACT high low => .bitvec (high - low + 1)
  | .OP_CONCAT sz1 sz2 => .bitvec (sz1 + sz2)
  | .other _ range | .non_app _ range => range

def get_sort (e : expr) : srt := e.op.range

def get_bv_size (e : expr) : Nat :=
  match get_sort e with
  | .bitvec sz => sz
  | _ => 0

def is_bv (e : expr) : Bool :=
  match get_sort e with
  | .bitvec _ => true
  | _ => false

def is_app (e : expr) : Bool :=
  match e.op with
  | .non_app _ _ => false
  | _ => true

def is_extract (e : expr) : Bool :=
  match e.op with
  | .OP_EXTRACT _ _ => true
  | _ => false

/-- The value and the size of a numeral. -/
def is_numeral (e : expr) : Option (Nat × Nat) :=
  match e.op with
  | .OP_BV_NUM v sz => some (v, sz)
  | _ => none

def mk_numeral (v sz : Nat) : expr := .app (.OP_BV_NUM v sz) []
def mk_not (e : expr) : expr := .app .OP_NOT [e]
def mk_true : expr := .app .OP_TRUE []
def mk_false : expr := .app .OP_FALSE []
def mk_eq (e1 e2 : expr) : expr := .app .OP_EQ [e1, e2]

/-- `while (m.is_not(t, t)) sign = !sign;`. -/
def strip_not : expr → Bool → expr × Bool
  | .app .OP_NOT [t], sign => strip_not t (!sign)
  | t, sign => (t, sign)

/-! ### Bounds -/

structure undo_bound where
  e : expr
  b : Option interval
deriving DecidableEq

/-- An undo entry without an interval is fresh. The last scope stands first. -/
structure bv_bounds_base where
  m_scopes : List undo_bound := []
  m_bound : expr → Option interval := fun _ => none
  m_propagate_eq : Bool := false

/-- The bound in an equation with a numeral. If the leading bits of a term are 0 then this is a bound of that term. -/
def eq_bound (rhs : expr) (r sz : Nat) : expr × interval :=
  match rhs with
  | .app (.OP_EXTRACT hi lo) [rhs2] =>
    if r = 0 ∧ get_bv_size rhs2 - 1 = hi then (rhs2, ⟨0, 2 ^ lo - 1, get_bv_size rhs2, false⟩)
    else (rhs, ⟨r, r, sz, true⟩)
  | rhs => (rhs, ⟨r, r, sz, true⟩)

/-- The bounded term with its interval. -/
def is_bound (e : expr) : Option (expr × interval) :=
  match e with
  | .app (.OP_ULEQ _) [lhs, rhs] =>
    match is_numeral lhs, is_numeral rhs with
    | some _, some _ => none
    | some (r, sz), none => some (rhs, ⟨r, 2 ^ sz - 1, sz, true⟩)
    | none, some (r, sz) => some (lhs, ⟨0, r, sz, true⟩)
    | none, none => none
  | .app (.OP_SLEQ _) [lhs, rhs] =>
    match is_numeral lhs, is_numeral rhs with
    | some _, some _ => none
    | some (r, sz), none => some (rhs, ⟨r, 2 ^ (sz - 1) - 1, sz, true⟩)
    | none, some (r, sz) => some (lhs, ⟨2 ^ (sz - 1), r, sz, true⟩)
    | none, none => none
  | .app .OP_EQ [lhs, rhs] =>
    let p := if (is_numeral rhs).isSome then (rhs, lhs) else (lhs, rhs)
    match is_numeral p.1, is_numeral p.2 with
    | some (r, sz), none => some (eq_bound p.2 r sz)
    | _, _ => none
  | _ => none

namespace bv_bounds_base

variable (s : bv_bounds_base)

/-- A bound that is added; `none` is the answer false. -/
def assert_bound (t1 : expr) (b : interval) : Option bv_bounds_base :=
  match s.m_bound t1 with
  | some old =>
    match old.intersect b with
    | none => none
    | some intr =>
      if old = intr then some s
      else some { s with m_scopes := ⟨t1, some old⟩ :: s.m_scopes, m_bound := Function.update s.m_bound t1 (some intr) }
  | none =>
    some { s with m_scopes := ⟨t1, none⟩ :: s.m_scopes, m_bound := Function.update s.m_bound t1 (some b) }

def assert_expr_core (t : expr) (sign : Bool) : Option bv_bounds_base :=
  let p := strip_not t sign
  match is_bound p.1 with
  | none => some s
  | some (t1, b) =>
    if p.2 then
      match b.negate with
      | none => none
      | some b => s.assert_bound t1 b
    else s.assert_bound t1 b

/-- The argument with its leading zeros made explicit. -/
def zero_patch_arg (arg : expr) : Option expr :=
  if is_bv arg && !is_extract arg then
    match s.m_bound arg with
    | none => none
    | some b =>
      let num_bits := b.h.log2 + 1
      if b.l ≤ b.h ∧ 0 < num_bits ∧ num_bits < get_bv_size arg then
        some (.app (.OP_CONCAT (get_bv_size arg - num_bits) num_bits)
          [mk_numeral 0 (get_bv_size arg - num_bits), .app (.OP_EXTRACT (num_bits - 1) 0) [arg]])
      else none
  else none

def zero_patch (t : expr) : Option expr :=
  if !is_app t then none
  else if is_extract t then none
  else if t.args.any fun arg => (s.zero_patch_arg arg).isSome then
    some (.app t.op (t.args.map fun arg => (s.zero_patch_arg arg).getD arg))
  else none

/-- The part of `simplify_core` that compares a bound with the context. -/
def simplify_bound (t1 : expr) (b : interval) : Option expr :=
  if b.is_full && b.tight then some mk_true
  else
    match s.m_bound t1 with
    | none => none
    | some ctx =>
      if ctx.implies b then some mk_true
      else
        match b.intersect ctx with
        | none => some mk_false
        | some intr =>
          if s.m_propagate_eq && intr.is_singleton then
            some (mk_eq t1 (mk_numeral intr.l (get_bv_size t1)))
          else none

def simplify_core (t : expr) : Option expr :=
  match (s.m_bound t).filter (·.is_singleton) with
  | some b => some (mk_numeral b.l (get_bv_size t))
  | none =>
    match s.zero_patch t with
    | some r => some r
    | none =>
      if get_sort t = .bool then
        let p := strip_not t false
        match is_bound p.1 with
        | none => none
        | some (t1, b) =>
          if p.2 && b.tight then
            match b.negate with
            | none => some mk_false
            | some b => s.simplify_bound t1 b
          else (s.simplify_bound t1 b).map fun r => if p.2 then mk_not r else r
      else none

/-- One entry is undone. -/
def undo (bound : expr → Option interval) (u : undo_bound) : expr → Option interval := Function.update bound u.e u.b

def pop_core (num_scopes : Nat) : bv_bounds_base :=
  if s.m_scopes.isEmpty then s
  else if s.m_scopes.length - num_scopes = 0 then { s with m_scopes := [], m_bound := fun _ => none }
  else
    { s with
      m_scopes := s.m_scopes.drop num_scopes
      m_bound := (s.m_scopes.take num_scopes).foldl undo s.m_bound }

end bv_bounds_base

/-! ### Meaning -/

def srt.Value : srt → Nat → Prop
  | .bool, v => v < 2
  | .bitvec sz, v => v < 2 ^ sz
  | .other _, _ => True

/-- An interpretation of the functions that are not interpreted here, and of variables and quantifiers. Values are
numbers; a Boolean is 0 or 1. -/
structure interp where
  other : Nat → srt → List Nat → Nat
  non_app : Nat → srt → Nat
  other_value : ∀ n (range : srt) vs, range.Value (other n range vs)
  non_app_value : ∀ n (range : srt), range.Value (non_app n range)

/-- The signed value of a bit-vector. -/
def to_int (sz v : Nat) : Int := if 2 * v < 2 ^ sz then v else (v : Int) - (2 ^ sz : Nat)

def decl.apply (M : interp) : decl → List Nat → Nat
  | .OP_TRUE, _ => 1
  | .OP_NOT, [x] => 1 - x
  | .OP_EQ, [x, y] => if x = y then 1 else 0
  | .OP_BV_NUM v _, _ => v
  | .OP_ULEQ _, [x, y] => if x ≤ y then 1 else 0
  | .OP_SLEQ sz, [x, y] => if to_int sz x ≤ to_int sz y then 1 else 0
  | .OP_EXTRACT high low, [x] => x / 2 ^ low % 2 ^ (high - low + 1)
  | .OP_CONCAT _ sz2, [x, y] => x * 2 ^ sz2 + y
  | .other n range, vs => M.other n range vs
  | .non_app n range, _ => M.non_app n range
  | _, _ => 0

/-- The sorts of the arguments. -/
def decl.Accepts : decl → List srt → Prop
  | .OP_TRUE, [] | .OP_FALSE, [] | .other _ _, _ | .non_app _ _, [] => True
  | .OP_NOT, [a] => a = .bool
  | .OP_EQ, [a, b] => a = b
  | .OP_BV_NUM v sz, [] => v < 2 ^ sz ∧ 0 < sz
  | .OP_ULEQ sz, [a, b] | .OP_SLEQ sz, [a, b] => a = .bitvec sz ∧ b = .bitvec sz ∧ 0 < sz
  | .OP_EXTRACT high low, [a] => ∃ sz, a = .bitvec sz ∧ low ≤ high ∧ high < sz
  | .OP_CONCAT sz1 sz2, [a, b] => a = .bitvec sz1 ∧ b = .bitvec sz2
  | _, _ => False

def WellSorted (e : expr) : Prop := e.All fun f ts => f.Accepts (ts.map get_sort)
def eval (M : interp) (e : expr) : Nat := Term.eval (decl.apply M) e

/-- The literal `e`, or its negation if `sign`, is true. -/
def Holds (M : interp) (e : expr) (sign : Bool) : Prop := eval M e = if sign then 0 else 1

end bv
