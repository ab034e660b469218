import Mathlib.Logic.Basic

namespace Loop

variable {σ ρ : Type}

/-- A loop with at most `fuel` rounds. One round of `body` leaves the loop with a result or goes on
with a new state; it gives `none` when something that it calls does not return. -/
def run (body : σ → Option (σ ⊕ ρ)) : Nat → σ → Option ρ
  | 0, _ => none
  | fuel + 1, s => (body s).bind (Sum.elim (run body fuel) some)

variable {body : σ → Option (σ ⊕ ρ)} {I : σ → Prop} {Q : ρ → Prop} {s : σ} {fuel : Nat} {r : ρ}

/-- What every round keeps and what every exit gives, for a loop that returned. -/
theorem run_invariant (hstep : ∀ s s', I s → body s = some (.inl s') → I s')
    (hexit : ∀ s r, I s → body s = some (.inr r) → Q r) (hI : I s) (hrun : run body fuel s = some r) : Q r := by
  induction fuel generalizing s with
  | zero => cases hrun
  | succ fuel ih =>
    obtain ⟨o, ho, hrun⟩ := Option.bind_eq_some_iff.mp hrun
    cases o with
    | inl s' => exact ih (hstep s s' hI ho) hrun
    | inr r' =>
      obtain rfl : r' = r := Option.some.inj hrun
      exact hexit s r' hI ho

/-- A loop whose rounds all return and lower a measure returns, with what its exits give. -/
theorem run_returns (μ : σ → Nat) (hbody : ∀ s, I s → (∃ r, body s = some (.inr r) ∧ Q r) ∨
      ∃ s', body s = some (.inl s') ∧ I s' ∧ μ s' < μ s)
    (hI : I s) (hfuel : μ s < fuel) : ∃ r, run body fuel s = some r ∧ Q r := by
  induction fuel generalizing s with
  | zero => exact absurd hfuel (Nat.not_lt_zero _)
  | succ fuel ih =>
    rcases hbody s hI with ⟨r, hr, hQ⟩ | ⟨s', hs', hI', hlt⟩
    · exact ⟨r, by simp [run, hr], hQ⟩
    · obtain ⟨r, hr, hQ⟩ := ih hI' (Nat.lt_of_lt_of_le hlt (Nat.le_of_lt_succ hfuel))
      exact ⟨r, by simpa [run, hs'] using hr, hQ⟩

/-- A loop never returns that goes on from every state it comes to, or calls something that does not return. -/
theorem run_diverges (hbody : ∀ s, I s → body s = none ∨ ∃ s', body s = some (.inl s') ∧ I s') (hI : I s) :
    run body fuel s = none := by
  induction fuel generalizing s with
  | zero => rfl
  | succ fuel ih =>
    rcases hbody s hI with hnone | ⟨s', hs', hI'⟩
    · simp [run, hnone]
    · simpa [run, hs'] using ih hI'

end Loop
