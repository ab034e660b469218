import BooledASS.Logic.Bits

open List Bool

namespace bit_blaster

variable {E M : Type}

/-- The Boolean rewriter: expressions, their value in a model, and the constructors, each of which
    evaluates to the connective it names. Expressions are shared, so the constants are recognised
    by identity. -/
structure bool_rewriter (E M : Type) where
  eval : M → E → Bool
  mk_true : E
  mk_false : E
  mk_not : E → E
  mk_and : E → E → E
  mk_or : E → E → E
  mk_xor : E → E → E
  mk_iff : E → E → E
  mk_ite : E → E → E → E
  mk_and_args : List E → E
  eval_mk_true : ∀ m, eval m mk_true
  eval_mk_false : ∀ m, eval m mk_false = false
  eval_mk_not : ∀ m a, eval m (mk_not a) = !eval m a
  eval_mk_and : ∀ m a b, eval m (mk_and a b) = (eval m a && eval m b)
  eval_mk_or : ∀ m a b, eval m (mk_or a b) = (eval m a || eval m b)
  eval_mk_xor : ∀ m a b, eval m (mk_xor a b) = xor (eval m a) (eval m b)
  eval_mk_iff : ∀ m a b, eval m (mk_iff a b) = (eval m a == eval m b)
  eval_mk_ite : ∀ m c t e, eval m (mk_ite c t e) = if eval m c then eval m t else eval m e
  eval_mk_and_args : ∀ m args, eval m (mk_and_args args) = args.all (eval m)

attribute [simp] bool_rewriter.eval_mk_true bool_rewriter.eval_mk_false bool_rewriter.eval_mk_not
  bool_rewriter.eval_mk_and bool_rewriter.eval_mk_or bool_rewriter.eval_mk_xor
  bool_rewriter.eval_mk_iff bool_rewriter.eval_mk_ite bool_rewriter.eval_mk_and_args

namespace bool_rewriter

variable [DecidableEq E] (R : bool_rewriter E M)

def is_true (e : E) : Bool := e = R.mk_true
def is_false (e : E) : Bool := e = R.mk_false
def is_bool_const (e : E) : Bool := R.is_true e || R.is_false e

variable {R}

theorem eval_of_is_true {e : E} (h : R.is_true e) (m : M) : R.eval m e := by
  have he : e = R.mk_true := of_decide_eq_true h
  rw [he, R.eval_mk_true]

theorem eval_of_is_false {e : E} (h : R.is_false e) (m : M) : R.eval m e = false := by
  have he : e = R.mk_false := of_decide_eq_true h
  rw [he, R.eval_mk_false]

variable (R)

theorem is_bool_const_mk_true : R.is_bool_const R.mk_true := by simp [is_bool_const, is_true]
theorem is_bool_const_mk_false : R.is_bool_const R.mk_false := by simp [is_bool_const, is_false]

end bool_rewriter

/-- A gate configuration: a three-input parity and a carry. -/
structure cfg (R : bool_rewriter E M) where
  mk_xor3 : E → E → E → E
  mk_carry : E → E → E → E
  eval_mk_xor3 : ∀ m a b c, R.eval m (mk_xor3 a b c) = xor (R.eval m a) (xor (R.eval m b) (R.eval m c))
  eval_mk_carry : ∀ m a b c, R.eval m (mk_carry a b c) = atLeastTwo (R.eval m a) (R.eval m b) (R.eval m c)

attribute [simp] cfg.eval_mk_xor3 cfg.eval_mk_carry

/-! ### Gates from xor and ite -/

def blaster_cfg.mk_xor3 (R : bool_rewriter E M) (a b c : E) : E := R.mk_xor a (R.mk_xor b c)
def blaster_cfg.mk_carry (R : bool_rewriter E M) (a b c : E) : E := R.mk_ite (R.mk_xor a b) c a

def blaster_cfg (R : bool_rewriter E M) : cfg R where
  mk_xor3 := blaster_cfg.mk_xor3 R
  mk_carry := blaster_cfg.mk_carry R
  eval_mk_xor3 m a b c := by simp [blaster_cfg.mk_xor3]
  eval_mk_carry m a b c := by
    rw [blaster_cfg.mk_carry, R.eval_mk_ite, R.eval_mk_xor]
    cases R.eval m a <;> cases R.eval m b <;> cases R.eval m c <;> rfl

/-! ### Sorted gates -/

/-- What the other configuration uses besides the rewriter: the parameter `m_bb_ext_gates`, the
    identifiers by which arguments are sorted, the test for complementary expressions, and the
    applications of `OP_XOR3` and `OP_CARRY`. -/
structure ext_gates (R : bool_rewriter E M) where
  m_bb_ext_gates : Bool
  get_id : E → Nat
  is_complement : E → E → Bool
  mk_app_xor3 : E → E → E → E
  mk_app_carry : E → E → E → E
  eval_is_complement : ∀ m a b, is_complement a b → R.eval m b = !R.eval m a
  eval_mk_app_xor3 : ∀ m a b c, R.eval m (mk_app_xor3 a b c) = xor (R.eval m a) (xor (R.eval m b) (R.eval m c))
  eval_mk_app_carry : ∀ m a b c, R.eval m (mk_app_carry a b c) = atLeastTwo (R.eval m a) (R.eval m b) (R.eval m c)

namespace bit_blaster_cfg

variable {R : bool_rewriter E M} (X : ext_gates R)

/-- The three arguments in the order of their identifiers. -/
def sort_args (l1 l2 l3 : E) : E × E × E :=
  match [l1, l2, l3].insertionSort (X.get_id · ≤ X.get_id ·) with
  | [l1, l2, l3] => (l1, l2, l3)
  | _ => (l1, l2, l3)

theorem sort_args_perm (l1 l2 l3 : E) :
    List.Perm [(sort_args X l1 l2 l3).1, (sort_args X l1 l2 l3).2.1, (sort_args X l1 l2 l3).2.2] [l1, l2, l3] := by
  have hperm := perm_insertionSort (X.get_id · ≤ X.get_id ·) [l1, l2, l3]
  unfold sort_args
  split
  · rename_i h
    rwa [h] at hperm
  · exact .refl _

/-- A chain of tests has the value that each of its branches has under its own test. -/
theorem eval_ite_of {m : M} {c : Prop} [Decidable c] {x y : E} {v : Bool}
    (hx : c → R.eval m x = v) (hy : R.eval m y = v) : R.eval m (if c then x else y) = v := by
  split
  · exact hx ‹c›
  · exact hy

variable [DecidableEq E]

def xor3_sorted (l1 l2 l3 : E) : E :=
  if X.m_bb_ext_gates then
    if l1 = l2 then l3
    else if l1 = l3 then l2
    else if l2 = l3 then l1
    else if X.is_complement l1 l2 then R.mk_not l3
    else if X.is_complement l1 l3 then R.mk_not l2
    else if X.is_complement l2 l3 then R.mk_not l1
    else if R.is_true l1 then R.mk_iff l2 l3
    else if R.is_false l1 then R.mk_xor l2 l3
    else if R.is_true l2 then R.mk_iff l1 l3
    else if R.is_false l2 then R.mk_xor l1 l3
    else if R.is_true l3 then R.mk_iff l1 l2
    else if R.is_false l3 then R.mk_xor l1 l2
    else X.mk_app_xor3 l1 l2 l3
  else R.mk_xor (R.mk_xor l1 l2) l3

def mk_xor3 (l1 l2 l3 : E) : E :=
  let (l1, l2, l3) := sort_args X l1 l2 l3
  xor3_sorted X l1 l2 l3

def carry_sorted (l1 l2 l3 : E) : E :=
  if X.m_bb_ext_gates then
    if (R.is_false l1 && R.is_false l2) || (R.is_false l1 && R.is_false l3) ||
        (R.is_false l2 && R.is_false l3) then R.mk_false
    else if (R.is_true l1 && R.is_true l2) || (R.is_true l1 && R.is_true l3) ||
        (R.is_true l2 && R.is_true l3) then R.mk_true
    else if l1 = l2 ∧ l1 = l3 then l1
    else if R.is_false l1 then R.mk_and l2 l3
    else if R.is_false l2 then R.mk_and l1 l3
    else if R.is_false l3 then R.mk_and l1 l2
    else if R.is_true l1 then R.mk_or l2 l3
    else if R.is_true l2 then R.mk_or l1 l3
    else if R.is_true l3 then R.mk_or l1 l2
    else if X.is_complement l1 l2 then l3
    else if X.is_complement l1 l3 then l2
    else if X.is_complement l2 l3 then l1
    else X.mk_app_carry l1 l2 l3
  else R.mk_ite (R.mk_xor l1 l2) l3 l1

def mk_carry (l1 l2 l3 : E) : E :=
  let (l1, l2, l3) := sort_args X l1 l2 l3
  carry_sorted X l1 l2 l3

/-- The gate with sorted arguments and simplified cases is the parity of its three arguments. -/
theorem eval_xor3_sorted (m : M) (l1 l2 l3 : E) :
    R.eval m (xor3_sorted X l1 l2 l3) = xor (R.eval m l1) (xor (R.eval m l2) (R.eval m l3)) := by
  have hcompl := X.eval_is_complement m
  have htrue {e : E} (h : R.is_true e) := bool_rewriter.eval_of_is_true h m
  have hfalse {e : E} (h : R.is_false e) := bool_rewriter.eval_of_is_false h m
  have hiff (x y) : (x == y) = !xor x y := by cases x <;> cases y <;> rfl
  refine eval_ite_of (fun _ => ?_) (by simp)
  refine eval_ite_of (fun h => by simp [h]) ?_
  refine eval_ite_of (fun h => by simp [h, xor_left_comm]) ?_
  refine eval_ite_of (fun h => by simp [h]) ?_
  refine eval_ite_of (fun h => by simp [hcompl _ _ h]) ?_
  refine eval_ite_of (fun h => by rw [hcompl _ _ h, xor_left_comm]; simp) ?_
  refine eval_ite_of (fun h => by simp [hcompl _ _ h]) ?_
  refine eval_ite_of (fun h => by rw [R.eval_mk_iff, hiff, htrue h, true_xor]) ?_
  refine eval_ite_of (fun h => by simp [hfalse h]) ?_
  refine eval_ite_of (fun h => by rw [R.eval_mk_iff, hiff, htrue h]; simp) ?_
  refine eval_ite_of (fun h => by simp [hfalse h]) ?_
  refine eval_ite_of (fun h => by rw [R.eval_mk_iff, hiff, htrue h]; simp) ?_
  refine eval_ite_of (fun h => by simp [hfalse h]) ?_
  exact X.eval_mk_app_xor3 m l1 l2 l3

/-- The gate with sorted arguments and simplified cases is the majority of its three arguments. -/
theorem eval_carry_sorted (m : M) (l1 l2 l3 : E) :
    R.eval m (carry_sorted X l1 l2 l3) = atLeastTwo (R.eval m l1) (R.eval m l2) (R.eval m l3) := by
  have hcompl := X.eval_is_complement m
  have htrue {e : E} (h : R.is_true e) := bool_rewriter.eval_of_is_true h m
  have hfalse {e : E} (h : R.is_false e) := bool_rewriter.eval_of_is_false h m
  refine eval_ite_of (fun _ => ?_) ?_
  · refine eval_ite_of (fun h => ?_) ?_
    · simp only [or_eq_true, and_eq_true] at h
      rcases h with (h | h) | h <;> simp [hfalse h.1, hfalse h.2]
    refine eval_ite_of (fun h => ?_) ?_
    · simp only [or_eq_true, and_eq_true] at h
      rcases h with (h | h) | h <;> simp [htrue h.1, htrue h.2]
    refine eval_ite_of (fun h => by simp [← h.1, ← h.2]) ?_
    refine eval_ite_of (fun h => by simp [hfalse h]) ?_
    refine eval_ite_of (fun h => by simp [hfalse h]) ?_
    refine eval_ite_of (fun h => by simp [hfalse h]) ?_
    refine eval_ite_of (fun h => by simp [htrue h]) ?_
    refine eval_ite_of (fun h => by simp [htrue h]) ?_
    refine eval_ite_of (fun h => by simp [htrue h]) ?_
    refine eval_ite_of (fun h => by rw [hcompl _ _ h]; cases R.eval m l1 <;> simp) ?_
    refine eval_ite_of (fun h => by rw [hcompl _ _ h]; cases R.eval m l1 <;> simp) ?_
    refine eval_ite_of (fun h => by rw [hcompl _ _ h]; cases R.eval m l2 <;> simp) ?_
    exact X.eval_mk_app_carry m l1 l2 l3
  · rw [R.eval_mk_ite, R.eval_mk_xor]
    cases R.eval m l1 <;> cases R.eval m l2 <;> cases R.eval m l3 <;> rfl

end bit_blaster_cfg

def bit_blaster_cfg [DecidableEq E] {R : bool_rewriter E M} (X : ext_gates R) : cfg R where
  mk_xor3 := bit_blaster_cfg.mk_xor3 X
  mk_carry := bit_blaster_cfg.mk_carry X
  eval_mk_xor3 m a b c := by
    rw [bit_blaster_cfg.mk_xor3, bit_blaster_cfg.eval_xor3_sorted]
    exact (Bits.parity_majority_perm (bit_blaster_cfg.sort_args_perm X a b c)).1
  eval_mk_carry m a b c := by
    rw [bit_blaster_cfg.mk_carry, bit_blaster_cfg.eval_carry_sorted]
    exact (Bits.parity_majority_perm (bit_blaster_cfg.sort_args_perm X a b c)).2

/-- The two gate configurations of the program. -/
inductive gates (R : bool_rewriter E M) where
  | xor_ite
  | sorted (X : ext_gates R)

def gates.cfg [DecidableEq E] {R : bool_rewriter E M} : gates R → cfg R
  | .xor_ite => blaster_cfg R
  | .sorted X => bit_blaster_cfg X

/-! ### A rewriter that builds every connective as it is asked to -/

inductive plain.expr where
  | atom (n : Nat)
  | mk_true
  | mk_false
  | mk_not (a : plain.expr)
  | mk_and (a b : plain.expr)
  | mk_or (a b : plain.expr)
  | mk_xor (a b : plain.expr)
  | mk_ite (c t e : plain.expr)
deriving DecidableEq, Repr

def plain.expr.eval (m : Nat → Bool) : plain.expr → Bool
  | .atom n => m n
  | .mk_true => true
  | .mk_false => false
  | .mk_not a => !a.eval m
  | .mk_and a b => a.eval m && b.eval m
  | .mk_or a b => a.eval m || b.eval m
  | .mk_xor a b => xor (a.eval m) (b.eval m)
  | .mk_ite c t e => if c.eval m then t.eval m else e.eval m

def plain : bool_rewriter plain.expr (Nat → Bool) where
  eval := plain.expr.eval
  mk_true := .mk_true
  mk_false := .mk_false
  mk_not := .mk_not
  mk_and := .mk_and
  mk_or := .mk_or
  mk_xor := .mk_xor
  mk_iff a b := .mk_not (.mk_xor a b)
  mk_ite := .mk_ite
  mk_and_args := foldr .mk_and .mk_true
  eval_mk_true _ := rfl
  eval_mk_false _ := rfl
  eval_mk_not _ _ := rfl
  eval_mk_and _ _ _ := rfl
  eval_mk_or _ _ _ := rfl
  eval_mk_xor _ _ _ := rfl
  eval_mk_iff m a b := by
    simp only [plain.expr.eval]
    cases a.eval m <;> cases b.eval m <;> rfl
  eval_mk_ite _ _ _ _ := rfl
  eval_mk_and_args m args := by
    induction args with
    | nil => rfl
    | cons a args ih => rw [foldr_cons, plain.expr.eval, ih, all_cons]

/-- The sorted gates over the plain rewriter, all expressions with one identifier. -/
def plain.ext_gates : ext_gates plain where
  m_bb_ext_gates := true
  get_id _ := 0
  is_complement a b := b = .mk_not a
  mk_app_xor3 a b c := .mk_xor a (.mk_xor b c)
  mk_app_carry a b c := .mk_or (.mk_or (.mk_and a b) (.mk_and a c)) (.mk_and b c)
  eval_is_complement m a b h := by
    rw [of_decide_eq_true h]
    rfl
  eval_mk_app_xor3 _ _ _ _ := rfl
  eval_mk_app_carry _ _ _ _ := rfl

end bit_blaster
