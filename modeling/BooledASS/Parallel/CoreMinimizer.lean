import BooledASS.Logic.Loop
import BooledASS.Parallel.Facts

open List Interp

namespace smt.parallel

variable {E M : Type} [DecidableEq E] {I : Interp E M}

/-- What the minimiser meets: the answer to each of its checks, and what `m.inc` says before it. -/
structure environment (E M : Type) where
  check : Nat → List E → answer E M
  inc : Nat → Bool

/-- The core that `minimize_unsat_core` leaves behind, the model with which it reports sat, and the
number of its checks. -/
structure minimize_result (E M : Type) where
  core : List E
  sat : Option M := none
  checks : Nat

/-- One round of the loop: the number of checks so far, `mus` and `unknown`. -/
def minimize_round (I : Interp E M) (asms : List E) (env : environment E M) (core : List E)
    (s : Nat × List E × List E) : Option ((Nat × List E × List E) ⊕ minimize_result E M) :=
  let (checks, mus, unknown) := s
  match trial_of I mus unknown with
  | none => some (.inr { core := mus ++ unknown, checks })
  | some (lit, rest, trial) =>
    if env.inc checks = false then some (.inr { core := mus ++ unknown, checks })
    else match env.check checks trial with
      | .l_true mdl =>
        if asms.isEmpty then some (.inr { core, sat := some mdl, checks := checks + 1 })
        else some (.inl (checks + 1, mus ++ [lit], rest))
      | .l_false unsat_core =>
        if I.mk_not lit ∉ unsat_core then
          some (.inl (checks + 1, unsat_core.filter (· ∈ mus), unsat_core.filter (· ∉ mus)))
        else some (.inl (checks + 1, mus, rest))
      | .l_undef | .throws _ => some (.inl (checks + 1, mus ++ [lit], rest))

def minimize_unsat_core (I : Interp E M) (asms : List E) (env : environment E M) (fuel : Nat) (core : List E) :
    Option (minimize_result E M) :=
  Loop.run (minimize_round I asms env core) fuel (0, [], core)

/-- An unsatisfiable answer comes with a core over the literals that were passed. -/
def CoreAnswer (I : Interp E M) (F : Set E) (trial : List E) : answer E M → Prop
  | .l_false unsat_core => unsat_core.Subperm trial ∧ I.Core F unsat_core
  | _ => True

section Round

variable {F : Set E} {mus unknown rest trial core unsat_core : List E} {lit : E}

/-- A core without the negated literal has no more literals outside `mus` than were left to try. -/
theorem refined_length (htrial : trial_of I mus unknown = some (lit, rest, trial)) (hcore : unsat_core.Subperm trial)
    (hnot : I.mk_not lit ∉ unsat_core) :
    unsat_core.length ≤ mus.length + rest.length ∧ (unsat_core.filter (· ∉ mus)).length ≤ rest.length := by
  obtain ⟨-, rfl⟩ := trial_of_eq htrial
  -- the filter takes the negated literal out of the trial and leaves the core as it is
  have hself : unsat_core.filter (· ≠ I.mk_not lit) = unsat_core := by
    refine filter_eq_self.mpr fun e he => ?_
    simpa using ne_of_mem_of_not_mem he hnot
  have hsub : unsat_core.Subperm (mus ++ rest) := by
    have hfilter := hcore.filter fun e => decide (e ≠ I.mk_not lit)
    rw [hself, filter_append, filter_singleton] at hfilter
    simp only [ne_eq, not_true_eq_false, decide_false, Bool.cond_false, append_nil] at hfilter
    exact hfilter.trans filter_sublist.subperm
  constructor
  · simpa using hsub.length_le
  · have hfilter := (hsub.filter fun e => decide (e ∉ mus)).length_le
    have hmus : mus.filter (· ∉ mus) = [] := filter_eq_nil_iff.mpr fun e he => by simpa using he
    rw [filter_append, hmus] at hfilter
    exact hfilter.trans (length_filter_le _ _)

end Round

/-- The state of the loop: `mus` and `unknown` are still a core with literals of the core that was given, and
every check has made `unknown` shorter. -/
structure Minimizing (I : Interp E M) (F : Set E) (given : List E) (s : Nat × List E × List E) : Prop where
  core : I.Core F (s.2.1 ++ s.2.2)
  sub : ∀ e ∈ s.2.1 ++ s.2.2, e ∈ given
  length : s.2.1.length + s.2.2.length ≤ given.length
  checks : s.1 + s.2.2.length ≤ given.length

/-- What the result is: no more checks than literals were given, and, unless sat is reported, a core among
these literals. -/
structure Minimized (I : Interp E M) (F : Set E) (given : List E) (r : minimize_result E M) : Prop where
  checks : r.checks ≤ given.length
  core : r.sat = none → I.Core F r.core
  sub : r.sat = none → ∀ e ∈ r.core, e ∈ given
  length : r.sat = none → r.core.length ≤ given.length

variable {F : Set E} {given asms : List E} {env : environment E M} {checks : Nat}
  {mus unknown rest trial unsat_core : List E} {lit : E}

section

variable (h : Minimizing I F given (checks, mus, unknown))
include h

omit [DecidableEq E] in
theorem Minimizing.stop :
    Minimized I F given ({ core := mus ++ unknown, checks } : minimize_result E M) where
  checks := (Nat.le_add_right _ _).trans h.checks
  core _ := h.core
  sub _ := h.sub
  length _ := by simpa using h.length

omit [DecidableEq E] in
theorem Minimizing.keep (htrial : trial_of I mus unknown = some (lit, rest, trial)) :
    Minimizing I F given (checks + 1, mus ++ [lit], rest) := by
  obtain ⟨hunknown, -⟩ := trial_of_eq htrial
  have hlength := h.length
  have hchecks := h.checks
  simp only [hunknown, length_append, length_singleton] at hlength hchecks
  refine ⟨h.core.mono fun e he => (core_keep htrial e).mpr he, fun e he => h.sub e ((core_keep htrial e).mp he), ?_, ?_⟩
  · simp only [length_append, length_singleton]
    omega
  · dsimp only
    omega

/-- After an unsatisfiable answer the literal is dropped, or both lists are those of the answer. -/
theorem Minimizing.unsat
    (htrial : trial_of I mus unknown = some (lit, rest, trial)) (hcore : CoreAnswer I F trial (.l_false unsat_core)) :
    Minimizing I F given
      (if I.mk_not lit ∉ unsat_core then (checks + 1, unsat_core.filter (· ∈ mus), unsat_core.filter (· ∉ mus))
        else (checks + 1, mus, rest)) := by
  obtain ⟨hunknown, -⟩ := trial_of_eq htrial
  have hlength := h.length
  have hchecks := h.checks
  simp only [hunknown, length_append, length_singleton] at hlength hchecks
  have hcorrect : Correct I (held F []) trial (.l_false unsat_core) :=
    ⟨fun e he => hcore.1.subset he, by simpa [held] using hcore.2⟩
  obtain ⟨hstill, hsub⟩ := core_trial (fun f hf => Entails.of_mem hf) (by simp) h.core htrial hcorrect
  split
  next hnot =>
    rw [if_pos hnot] at hstill hsub
    obtain ⟨hle, hrest⟩ := refined_length htrial hcore.1 hnot
    refine ⟨hstill, fun e he => h.sub e (hsub e he), ?_, ?_⟩
    · have hsplit := length_eq_length_filter_add (l := unsat_core) fun e => decide (e ∈ mus)
      simp only [← decide_not] at hsplit
      dsimp only
      omega
    · dsimp only
      omega
  next hnot =>
    rw [if_neg hnot] at hstill hsub
    refine ⟨hstill, fun e he => h.sub e (hsub e he), ?_, ?_⟩
    · dsimp only
      omega
    · dsimp only
      omega

end

/-- A round leaves the loop with a result, or goes on with fewer literals to try. -/
theorem Minimizing.round {s : Nat × List E × List E} (hcheck : ∀ i trial, CoreAnswer I F trial (env.check i trial))
    (h : Minimizing I F given s) :
    (∃ r, minimize_round I asms env given s = some (.inr r) ∧ Minimized I F given r) ∨
      ∃ s', minimize_round I asms env given s = some (.inl s') ∧ Minimizing I F given s' ∧
        s'.2.2.length < s.2.2.length := by
  have hshorter {mus unknown rest trial : List E} {lit : E}
      (htrial : trial_of I mus unknown = some (lit, rest, trial)) :
      rest.length < unknown.length := by simp [(trial_of_eq htrial).1]
  fun_cases minimize_round with
  | case1 | case2 => exact .inl ⟨_, rfl, h.stop⟩
  | case3 _ _ _ _ _ _ htrial =>
    refine .inl ⟨_, rfl, ?_, by simp, by simp, by simp⟩
    have hlt := hshorter htrial
    have hchecks := h.checks
    dsimp only at hchecks ⊢
    omega
  | case4 _ _ _ _ _ _ htrial | case7 _ _ _ _ _ _ htrial | case8 _ _ _ _ _ _ htrial =>
    exact .inr ⟨_, rfl, h.keep htrial, hshorter htrial⟩
  | case5 checks _ _ _ _ trial htrial _ _ hr hnot =>
    have hcheck := hr ▸ hcheck checks trial
    have hnext := h.unsat htrial hcheck
    rw [if_pos hnot] at hnext
    exact .inr ⟨_, rfl, hnext, (refined_length htrial hcheck.1 hnot).2.trans_lt (hshorter htrial)⟩
  | case6 checks _ _ _ _ trial htrial _ _ hr hnot =>
    have hnext := h.unsat htrial (hr ▸ hcheck checks trial)
    rw [if_neg hnot] at hnext
    exact .inr ⟨_, rfl, hnext, hshorter htrial⟩

/-- The minimiser returns after at most as many checks as it was given literals. Unless it reports sat, what it
returns is a core among these literals, and no longer than the core that it was given. -/
theorem minimize_unsat_core_spec (I : Interp E M) (F : Set E) (core asms : List E) (env : environment E M)
    (hcore : I.Core F core) (hcheck : ∀ i trial, CoreAnswer I F trial (env.check i trial)) :
    ∃ r, minimize_unsat_core I asms env (core.length + 1) core = some r ∧ r.checks ≤ core.length ∧
      (r.sat = none → (∀ e ∈ r.core, e ∈ core) ∧ I.Core F r.core ∧ r.core.length ≤ core.length) := by
  have hinit : Minimizing I F core (0, [], core) := ⟨hcore, by simp, by simp, by simp⟩
  obtain ⟨r, hrun, hr⟩ := Loop.run_returns (fun s : Nat × List E × List E => s.2.2.length)
    (fun s hs => Minimizing.round hcheck hs) hinit (Nat.lt_succ_self _)
  exact ⟨r, hrun, hr.checks, fun hnone => ⟨hr.sub hnone, hr.core hnone, hr.length hnone⟩⟩

/-- A solver over two models that answers with everything that was passed. -/
def sample_environment : environment (Bool → Bool) Bool where
  check _ trial := if [true, false].all fun m => trial.any fun e => !e m then .l_false trial else .l_undef
  inc _ := true

theorem coreAnswer_sample (i : Nat) (trial : List (Bool → Bool)) :
    CoreAnswer (ofBool Bool) ∅ trial (sample_environment.check i trial) := by
  unfold sample_environment
  dsimp only
  split
  next h =>
    refine ⟨List.Subperm.refl _, fun m _ => ?_⟩
    have hm : trial.any fun e => !e m := all_eq_true.mp h m (by cases m <;> simp)
    obtain ⟨e, he, hfalse⟩ := any_eq_true.mp hm
    exact ⟨e, he, by simpa [ofBool] using hfalse⟩
  next => trivial

/-- The literal in the middle of the core is not needed. -/
theorem minimize_unsat_core_spec_sample :
    (∃ r, minimize_unsat_core (ofBool Bool) [id] sample_environment 4 [id, fun _ => true, not] = some r ∧
      r.checks ≤ 3) ∧
    (minimize_unsat_core (ofBool Bool) [id] sample_environment 4 [id, fun _ => true, not]).map (·.core) =
      some [not, id] := by
  have hcore : (ofBool Bool).Core ∅ [id, fun _ => true, not] := by
    intro m _
    cases m
    · exact ⟨id, by simp, by simp [ofBool]⟩
    · exact ⟨not, by simp, by simp [ofBool]⟩
  obtain ⟨r, hr, hchecks, -⟩ := minimize_unsat_core_spec (ofBool Bool) ∅ [id, fun _ => true, not] [id]
    sample_environment hcore coreAnswer_sample
  exact ⟨⟨r, hr, hchecks⟩, by decide⟩

end smt.parallel
