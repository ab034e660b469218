import BooledASS.Logic.Cnf

open List

namespace sat

abbrev bool_var := Nat
abbrev literal := Cnf.Lit Nat

/-- A literal is stored as `2*v + sign`. -/
def literal.index (l : literal) : Nat := 2 * l.var + l.sign.toNat

def to_literal (x : Nat) : literal := ⟨x / 2, x % 2 == 1⟩

theorem to_literal_index (l : literal) : to_literal (literal.index l) = l := by
  obtain ⟨v, b⟩ := l
  cases b
  · simp [to_literal, literal.index]
  · have hdiv : (2 * v + 1) / 2 = v := by omega
    simp [to_literal, literal.index, hdiv]

theorem literal.index_inj {l m : literal} : literal.index l = literal.index m ↔ l = m :=
  ⟨fun h => by rw [← to_literal_index l, h, to_literal_index], fun h => by rw [h]⟩

inductive lbool where
  | l_false
  | l_undef
  | l_true
deriving DecidableEq, Repr

/-- `operator~` on truth values. -/
def lbool.neg : lbool → lbool
  | .l_false => .l_true
  | .l_undef => .l_undef
  | .l_true => .l_false

@[simp] theorem lbool.neg_neg (b : lbool) : b.neg.neg = b := by cases b <;> rfl
@[simp] theorem lbool.neg_eq_true {b : lbool} : b.neg = .l_true ↔ b = .l_false := by cases b <;> simp [lbool.neg]

abbrev clause_offset := Nat

/-- The kinds of a justification with their payload. There is no extension, so
`EXT_JUSTIFICATION` does not occur. -/
inductive justification.kind where
  | NONE
  | BINARY (l : literal)
  | CLAUSE (cls_off : clause_offset)
deriving DecidableEq, Repr

structure justification where
  level : Nat
  get_kind : justification.kind
deriving DecidableEq, Repr

/-- `justification(lvl)`, `justification(lvl, l)` and `justification(lvl, cls_off)`. -/
def justification.none (lvl : Nat) : justification := ⟨lvl, .NONE⟩

def justification.binary (lvl : Nat) (l : literal) : justification := ⟨lvl, .BINARY l⟩
def justification.clause (lvl : Nat) (cls_off : clause_offset) : justification := ⟨lvl, .CLAUSE cls_off⟩

/-- A clause object. `m_rest` holds the literals between `m_size` and `m_capacity`: `shrink` keeps
them in memory and `restore` makes them visible again. -/
structure clause where
  m_lits : List literal
  m_rest : List literal := []
  m_learned : Bool := false
  m_removed : Bool := false
  m_reinit_stack : Bool := false
  m_approx : BitVec 32 := 0
deriving Repr

def clause.size (c : clause) : Nat := c.m_lits.length

/-- `c[i]`; positions past the end, which no caller reads, give the literal 0. -/
def clause.at (c : clause) (i : Nat) : literal := c.m_lits.getD i ⟨0, false⟩

def swapAt {α : Type} (xs : List α) (i j : Nat) : List α :=
  match xs[i]?, xs[j]? with
  | some x, some y => (xs.set i y).set j x
  | _, _ => xs

/-- `std::swap(c[i], c[j])`. -/
def clause.swap (c : clause) (i j : Nat) : clause := { c with m_lits := swapAt c.m_lits i j }

inductive watched where
  | BINARY (l : literal) (learned : Bool)
  | CLAUSE (blocked_lit : literal) (cls_off : clause_offset)
deriving DecidableEq, Repr

inductive clause_wrapper where
  | bin (l1 l2 : literal)
  | cls (c : clause_offset)
deriving DecidableEq, Repr

structure scope where
  m_trail_lim : Nat
  m_clauses_to_reinit_lim : Nat
deriving DecidableEq, Repr

theorem swapAt_perm {α : Type} (xs : List α) (i j : Nat) : (swapAt xs i j).Perm xs := by
  unfold swapAt
  split
  · rename_i x y hx hy
    obtain ⟨hi, rfl⟩ := List.getElem?_eq_some_iff.mp hx
    obtain ⟨hj, rfl⟩ := List.getElem?_eq_some_iff.mp hy
    exact set_set_perm hi hj
  · exact .refl xs

theorem take_swapAt {α : Type} (xs : List α) {i j k : Nat} (hi : i < k) (hj : j < k) :
    (swapAt xs i j).take k = swapAt (xs.take k) i j := by
  simp only [swapAt, getElem?_take_of_lt hi, getElem?_take_of_lt hj]
  split
  · rw [take_set, take_set]
  · rfl

theorem swapAt_one_succ {α : Type} (w0 w1 x : α) (rest : List α) (i : Nat) (h : rest[i]? = some x) :
    swapAt (w0 :: w1 :: rest) 1 (i + 2) = w0 :: x :: rest.set i w1 := by
  simp [swapAt, h]

theorem swapAt_zero_one {α : Type} (w0 w1 : α) (rest : List α) : swapAt (w0 :: w1 :: rest) 0 1 = w1 :: w0 :: rest := by
  simp [swapAt]

theorem clause.block_mem {c : clause} (h : 0 < c.m_lits.length) : c.at (c.size / 2) ∈ c.m_lits := by
  have hlt : c.size / 2 < c.m_lits.length := Nat.div_lt_self h (by decide)
  rw [clause.at, getD_eq_getElem?_getD, getElem?_eq_getElem hlt]
  exact getElem_mem hlt

end sat
