import Mathlib.Data.List.Basic

open List

/-- What `psort_nw` asks of its context. Literals have a value in every assignment; `mk_max` and `mk_min` are gates
and `fresh n` is the variable that the `n`-th call of `fresh` returns. A literal that is below `n` was there before
that call, so that the later variables can be chosen without changing it. -/
structure psort_expr (L V : Type) where
  mk_true : L
  mk_false : L
  mk_not : L → L
  mk_max : List L → L
  mk_min : List L → L
  fresh : Nat → L
  val : V → L → Bool
  val_true : ∀ v, val v mk_true
  val_false : ∀ v, val v mk_false = false
  val_not : ∀ v l, val v (mk_not l) = !val v l
  val_max : ∀ v ls, val v (mk_max ls) = ls.any (val v)
  val_min : ∀ v ls, val v (mk_min ls) = ls.all (val v)
  Below : Nat → L → Prop
  extend : ∀ v n (bs : List Bool), ∃ v', (∀ i b, bs[i]? = some b → val v' (fresh (n + i)) = b) ∧
    ∀ l, Below n l → val v' l = val v l

namespace psort_nw

/-- The number of calls of `fresh` and the clauses so far. -/
structure state (L : Type) where
  next : Nat
  clauses : List (List L) := []

variable {L V : Type} (ctx : psort_expr L V)

def fresh (s : state L) : L × state L := (ctx.fresh s.next, { s with next := s.next + 1 })

/-- The variables of `n` calls. -/
def freshes (n : Nat) (s : state L) : List L × state L :=
  ((range n).map fun i => ctx.fresh (s.next + i), { s with next := s.next + n })

/-- The assignment is a model of the clauses. -/
def state.Models (s : state L) (v : V) : Prop := ∀ c ∈ s.clauses, ∃ l ∈ c, ctx.val v l

variable {ctx}

/-- The variables from the `n`-th on have these values. -/
def Sets (ctx : psort_expr L V) (v : V) (n : Nat) (bs : List Bool) : Prop :=
  ∀ i b, bs[i]? = some b → ctx.val v (ctx.fresh (n + i)) = b

theorem Sets.append {v : V} {n : Nat} {bs bs' : List Bool} (h : Sets ctx v n (bs ++ bs')) :
    Sets ctx v n bs ∧ Sets ctx v (n + bs.length) bs' := by
  constructor
  · intro i b hi
    exact h i b (by rw [getElem?_append_left (List.getElem?_eq_some_iff.mp hi).1, hi])
  · intro i b hi
    rw [Nat.add_assoc]
    exact h _ b (by rw [getElem?_append_right (Nat.le_add_right _ _), Nat.add_sub_cancel_left, hi])

/-- The variables made between the two states can be chosen such that every assignment with `P` that has these values
and satisfies the clauses of the first state satisfies those of the second, and `Q`. -/
def Completes (ctx : psort_expr L V) (s s' : state L) (P Q : V → Prop) : Prop :=
  ∃ bs : List Bool, s'.next = s.next + bs.length ∧
    ∀ v, P v → Sets ctx v s.next bs → (s.Models ctx v → s'.Models ctx v) ∧ Q v

variable {s s' s'' : state L} {P Q R : V → Prop}

theorem Completes.trans (h : Completes ctx s s' P Q) (h' : Completes ctx s' s'' (fun v => P v ∧ Q v) R) :
    Completes ctx s s'' P fun v => Q v ∧ R v := by
  obtain ⟨bs, hnext, h⟩ := h
  obtain ⟨bs', hnext', h'⟩ := h'
  refine ⟨bs ++ bs', by rw [hnext', hnext, length_append, Nat.add_assoc], fun v hv hsets => ?_⟩
  obtain ⟨hbs, hbs'⟩ := hsets.append
  obtain ⟨h1, hQ⟩ := h v hv hbs
  obtain ⟨h2, hR⟩ := h' v ⟨hv, hQ⟩ (hnext ▸ hbs')
  exact ⟨fun hs => h2 (h1 hs), hQ, hR⟩

theorem Completes.imp {P' Q' : V → Prop} (h : Completes ctx s s' P Q) (hP : ∀ v, P' v → P v)
    (hQ : ∀ v, P' v → Q v → Q' v) : Completes ctx s s' P' Q' := by
  obtain ⟨bs, hnext, h⟩ := h
  exact ⟨bs, hnext, fun v hv hsets => (h v (hP v hv) hsets).imp_right (hQ v hv)⟩

/-- No new variables, and clauses that hold anyway. -/
theorem Completes.of_models (hnext : s'.next = s.next) (h : ∀ v, P v → s.Models ctx v → s'.Models ctx v) :
    Completes ctx s s' P P :=
  ⟨[], hnext, fun v hv _ => ⟨h v hv, hv⟩⟩

/-- New variables with any values. -/
theorem Completes.freshes (n : Nat) (f : Nat → Bool) :
    Completes ctx s (freshes ctx n s).2 P (fun v => ∀ i < n, ctx.val v (ctx.fresh (s.next + i)) = f i) := by
  refine ⟨(range n).map f, by simp [psort_nw.freshes], fun v _ hsets => ⟨fun hs => hs, fun i hi => ?_⟩⟩
  exact hsets i (f i) (by simp [hi])

theorem Completes.fresh (b : Bool) : Completes ctx s (fresh ctx s).2 P (fun v => ctx.val v (ctx.fresh s.next) = b) :=
  (Completes.freshes 1 fun _ => b).imp (fun _ => id) fun _ _ h => h 0 Nat.one_pos

/-- With no clauses before, every assignment extends to a model. -/
theorem Completes.extends (h : Completes ctx s s' P Q) (hs : s.clauses = []) {v : V}
    (hP : ∀ v', (∀ l, ctx.Below s.next l → ctx.val v' l = ctx.val v l) → P v') :
    ∃ v', (∀ l, ctx.Below s.next l → ctx.val v' l = ctx.val v l) ∧ s'.Models ctx v' ∧ Q v' := by
  obtain ⟨bs, -, h⟩ := h
  obtain ⟨v', hsets, hagree⟩ := ctx.extend v s.next bs
  obtain ⟨hmodels, hQ⟩ := h v' (hP v' hagree) hsets
  exact ⟨v', hagree, hmodels (by simp [state.Models, hs]), hQ⟩

section Gates

variable [DecidableEq L] (ctx)

def mk_not (l : L) : L :=
  if l = ctx.mk_true then ctx.mk_false else if l = ctx.mk_false then ctx.mk_true else ctx.mk_not l

def mk_or (ors : List L) : L :=
  if ctx.mk_true ∈ ors then ctx.mk_true
  else match ors.filter (· ≠ ctx.mk_false) with
    | [] => ctx.mk_false
    | [l] => l
    | ls => ctx.mk_max ls

def mk_max (a b : L) : L := if a = b then a else ctx.mk_max [a, b]
def mk_min (a b : L) : L := if a = b then a else ctx.mk_min [a, b]

def mk_and (ands : List L) : L :=
  if ctx.mk_false ∈ ands then ctx.mk_false
  else match ands.filter (· ≠ ctx.mk_true) with
    | [] => ctx.mk_true
    | [l] => l
    | [a, b] => mk_min ctx a b
    | ls => ctx.mk_min ls

def add_clause (s : state L) (ls : List L) : state L :=
  if ctx.mk_true ∈ ls then s else { s with clauses := s.clauses ++ [ls] }

/-- A sequence of calls of `add_clause`. -/
def add_clauses (s : state L) (cs : List (List L)) : state L := cs.foldl (add_clause ctx) s

variable {ctx}

@[simp] theorem val_mk_not (v : V) (l : L) : ctx.val v (mk_not ctx l) = !ctx.val v l := by
  unfold mk_not
  split
  next h => rw [h, ctx.val_true, ctx.val_false, Bool.not_true]
  split
  next h => rw [h, ctx.val_true, ctx.val_false, Bool.not_false]
  next => exact ctx.val_not v l

@[simp] theorem val_mk_min (v : V) (a b : L) : ctx.val v (mk_min ctx a b) = (ctx.val v a && ctx.val v b) := by
  unfold mk_min
  split
  next h => rw [h, Bool.and_self]
  next => simp [ctx.val_min]

@[simp] theorem val_mk_or (v : V) (ls : List L) : ctx.val v (mk_or ctx ls) = ls.any (ctx.val v) := by
  unfold mk_or
  split
  next h => rw [ctx.val_true, eq_comm, any_eq_true]; exact ⟨_, h, ctx.val_true v⟩
  next =>
    have hfilter : (ls.filter (· ≠ ctx.mk_false)).any (ctx.val v) = ls.any (ctx.val v) := by
      rw [any_filter]
      refine any_congr rfl fun l => ?_
      by_cases h : l = ctx.mk_false <;> simp [h, ctx.val_false]
    rw [← hfilter]
    split
    next h => rw [h, ctx.val_false, any_nil]
    next h => rw [h, any_cons, any_nil, Bool.or_false]
    next => exact ctx.val_max v _

@[simp] theorem val_mk_and (v : V) (ls : List L) : ctx.val v (mk_and ctx ls) = ls.all (ctx.val v) := by
  unfold mk_and
  split
  next h => rw [ctx.val_false, eq_comm, all_eq_false]; exact ⟨_, h, by simp [ctx.val_false]⟩
  next =>
    have hfilter : (ls.filter (· ≠ ctx.mk_true)).all (ctx.val v) = ls.all (ctx.val v) := by
      rw [all_filter]
      refine all_congr rfl fun l => ?_
      by_cases h : l = ctx.mk_true <;> simp [h, ctx.val_true]
    rw [← hfilter]
    split
    next h => rw [h, ctx.val_true, all_nil]
    next h => rw [h, all_cons, all_nil, Bool.and_true]
    next h => rw [h, val_mk_min, all_cons, all_cons, all_nil, Bool.and_true]
    next => exact ctx.val_min v _

theorem models_add_clause {s : state L} {ls : List L} {v : V} :
    (add_clause ctx s ls).Models ctx v ↔ s.Models ctx v ∧ ∃ l ∈ ls, ctx.val v l := by
  unfold add_clause
  split
  next h => exact ⟨fun hs => ⟨hs, _, h, ctx.val_true v⟩, fun hs => hs.1⟩
  next => simp [state.Models, or_imp, forall_and]

theorem models_add_clauses {s : state L} {cs : List (List L)} {v : V} :
    (add_clauses ctx s cs).Models ctx v ↔ s.Models ctx v ∧ ∀ c ∈ cs, ∃ l ∈ c, ctx.val v l := by
  induction cs generalizing s with
  | nil => simp [add_clauses]
  | cons c cs ih =>
    rw [add_clauses, foldl_cons, ← add_clauses, ih, models_add_clause, and_assoc, forall_mem_cons]

theorem next_add_clause (s : state L) (ls : List L) : (add_clause ctx s ls).next = s.next := by
  unfold add_clause
  split <;> rfl

theorem next_add_clauses (s : state L) (cs : List (List L)) : (add_clauses ctx s cs).next = s.next := by
  induction cs generalizing s with
  | nil => rfl
  | cons c cs ih => rw [add_clauses, foldl_cons, ← add_clauses, ih, next_add_clause]

end Gates

end psort_nw
