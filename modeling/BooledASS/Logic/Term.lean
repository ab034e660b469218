/-- Terms over the operators `Op`: what an abstract syntax graph with shared nodes stands for. Two nodes are the same
when they are equal as terms. -/
inductive Term (Op : Type) where
  | app (op : Op) (args : List (Term Op))

namespace Term

variable {Op V : Type}

def op : Term Op → Op
  | app op _ => op

def args : Term Op → List (Term Op)
  | app _ args => args

@[simp] theorem op_app (f : Op) (ts : List (Term Op)) : (app f ts).op = f := rfl
@[simp] theorem args_app (f : Op) (ts : List (Term Op)) : (app f ts).args = ts := rfl
theorem app_op_args (t : Term Op) : app t.op t.args = t := by cases t; rfl

/-- Induction in which the claim holds for all arguments. -/
@[elab_as_elim]
theorem induct {P : Term Op → Prop} (h : ∀ f ts, (∀ t ∈ ts, P t) → P (app f ts)) (t : Term Op) : P t := by
  refine @rec Op P (fun ts => ∀ t ∈ ts, P t) h (by simp) (fun _ _ hhead htail t ht => ?_) t
  rcases List.mem_cons.mp ht with rfl | ht
  · exact hhead
  · exact htail t ht

section Equality

variable [DecidableEq Op]

mutual

def eqb : Term Op → Term Op → Bool
  | app f ss, app g ts => f == g && eqbs ss ts

def eqbs : List (Term Op) → List (Term Op) → Bool
  | [], [] => true
  | s :: ss, t :: ts => eqb s t && eqbs ss ts
  | _, _ => false

end

mutual

theorem eqb_iff : ∀ s t : Term Op, eqb s t ↔ s = t
  | app f ss, app g ts => by rw [eqb, Bool.and_eq_true, beq_iff_eq, eqbs_iff ss ts, app.injEq]

theorem eqbs_iff : ∀ ss ts : List (Term Op), eqbs ss ts ↔ ss = ts
  | [], [] => by simp [eqbs]
  | [], _ :: _ => by simp [eqbs]
  | _ :: _, [] => by simp [eqbs]
  | s :: ss, t :: ts => by rw [eqbs, Bool.and_eq_true, eqb_iff s t, eqbs_iff ss ts, List.cons.injEq]

end

instance : DecidableEq (Term Op) := fun s t => decidable_of_iff _ (eqb_iff s t)

end Equality

mutual

/-- The value of a term when the operators are interpreted by `I`. -/
def eval (I : Op → List V → V) : Term Op → V
  | app f ts => I f (evals I ts)

def evals (I : Op → List V → V) : List (Term Op) → List V
  | [] => []
  | t :: ts => eval I t :: evals I ts

end

theorem evals_eq_map (I : Op → List V → V) (ts : List (Term Op)) : evals I ts = ts.map (eval I) := by
  induction ts with
  | nil => rfl
  | cons t ts ih => rw [evals, ih, List.map_cons]

theorem eval_app (I : Op → List V → V) (f : Op) (ts : List (Term Op)) : eval I (app f ts) = I f (ts.map (eval I)) := by
  rw [eval, evals_eq_map]

mutual

/-- Every node of the term satisfies `P`. -/
def All (P : Op → List (Term Op) → Prop) : Term Op → Prop
  | app f ts => P f ts ∧ Alls P ts

def Alls (P : Op → List (Term Op) → Prop) : List (Term Op) → Prop
  | [] => True
  | t :: ts => All P t ∧ Alls P ts

end

theorem alls_iff {P : Op → List (Term Op) → Prop} {ts : List (Term Op)} : Alls P ts ↔ ∀ t ∈ ts, All P t := by
  induction ts with
  | nil => simp [Alls]
  | cons t ts ih => simp [Alls, ih]

theorem all_app {P : Op → List (Term Op) → Prop} {f : Op} {ts : List (Term Op)} :
    All P (app f ts) ↔ P f ts ∧ ∀ t ∈ ts, All P t := by
  rw [All, alls_iff]

end Term
