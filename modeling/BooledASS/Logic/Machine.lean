namespace Machine

variable {σ α : Type}

/-- The states that operations lead to, each one met by `ok` in the state in which it is executed.
`exec` gives `none` for an operation that may not be executed. -/
inductive Reaches (exec : σ → α → Option σ) (ok : σ → α → Prop) (s : σ) : σ → Prop
  | refl : Reaches exec ok s s
  | step {s' s'' : σ} {a : α} :
      Reaches exec ok s s' → ok s' a → exec s' a = some s'' → Reaches exec ok s s''

/-- A run of a list of operations. -/
def run (exec : σ → α → Option σ) : σ → List α → Option σ
  | s, [] => some s
  | s, a :: as => (exec s a).bind fun s' => run exec s' as

variable {exec : σ → α → Option σ} {ok ok' : σ → α → Prop} {s s' : σ}

/-- What holds at the start and is kept by every step holds in every state that is reached. -/
theorem Reaches.invariant {I : σ → Prop} (h : Reaches exec ok s s') (h0 : I s)
    (hstep : ∀ s a s', I s → ok s a → exec s a = some s' → I s') : I s' := by
  induction h with
  | refl => exact h0
  | step _ hok hexec ih => exact hstep _ _ _ ih hok hexec

theorem Reaches.trans {s'' : σ} (h : Reaches exec ok s s') (h' : Reaches exec ok s' s'') : Reaches exec ok s s'' := by
  induction h' with
  | refl => exact h
  | step _ hok hexec ih => exact .step ih hok hexec

theorem Reaches.mono (h : Reaches exec ok s s') (hok : ∀ s a, ok s a → ok' s a) : Reaches exec ok' s s' := by
  induction h with
  | refl => exact .refl
  | step _ ho hexec ih => exact .step ih (hok _ _ ho) hexec

theorem run_append (as bs : List α) (s : σ) :
    run exec s (as ++ bs) = (run exec s as).bind fun s' => run exec s' bs := by
  induction as generalizing s with
  | nil => rfl
  | cons a as ih =>
    simp only [List.cons_append, run]
    cases exec s a with
    | none => rfl
    | some s1 => exact ih s1

/-- A run reaches its last state when every operation is met by `ok` where it is executed. -/
theorem Reaches.of_run {as : List α} (hok : ∀ s a, ok s a) (h : run exec s as = some s') : Reaches exec ok s s' := by
  induction as generalizing s with
  | nil =>
    obtain rfl : s = s' := by simpa [run] using h
    exact .refl
  | cons a as ih =>
    obtain ⟨s1, h1, h2⟩ := Option.bind_eq_some_iff.mp h
    exact (step .refl (hok s a) h1).trans (ih h2)

/-- A run in which each operation is tested before it is executed. -/
theorem Reaches.of_guarded_run {p : σ → α → Bool} {as : List α} (hok : ∀ s a, p s a → ok s a)
    (h : run (fun s a => if p s a then exec s a else none) s as = some s') : Reaches exec ok s s' := by
  induction as generalizing s with
  | nil =>
    obtain rfl : s = s' := by simpa [run] using h
    exact .refl
  | cons a as ih =>
    obtain ⟨s1, h1, h2⟩ := Option.bind_eq_some_iff.mp h
    obtain ⟨hp, h1⟩ := Option.ite_none_right_eq_some.mp h1
    exact (Reaches.step .refl (hok s a hp) h1).trans (ih h2)

theorem run_of_guarded_run {p : σ → α → Bool} {as : List α}
    (h : run (fun s a => if p s a then exec s a else none) s as = some s') : run exec s as = some s' := by
  induction as generalizing s with
  | nil => exact h
  | cons a as ih =>
    obtain ⟨s1, h1, h2⟩ := Option.bind_eq_some_iff.mp h
    obtain ⟨-, h1⟩ := Option.ite_none_right_eq_some.mp h1
    exact Option.bind_eq_some_iff.mpr ⟨s1, h1, ih h2⟩

end Machine
