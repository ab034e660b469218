import BooledASS.Sat.Gpu.Search

open List Option

namespace sat.gpu_solver

/-- The divisor of the activity threshold, `16 << (m_gpu_dry_streak / 2)` in 32 bits with its cap. It is
what the source computes for a streak below 64. From there on the shift count is 32 or more, which C++ leaves
undefined (x86 masks the count and begins with 16 again), and the value here is 0. -/
def divisor (s : gpu_solver) : Nat :=
  let divisor := 16 <<< (s.m_gpu_dry_streak / 2) % 4294967296
  if divisor > 4096 then 4096 else divisor

/-- The call comes to the division: there are units, and none of them is false. -/
def divides (s : gpu_solver) (units : List (Int × Int)) : Bool := (s.conflict_literal units).isNone && units.length != 0

/-- A sequence of calls with what they return. -/
def retrieve_all (s : gpu_solver) : List (List (Int × Int) × (bool_var → Nat)) → Option (gpu_solver × List Bool)
  | [] => some (s, [])
  | a :: as => (s.gpu_retrieve_and_inject a.1 a.2).bind fun r =>
      (retrieve_all r.1 as).map fun q => (q.1, r.2 :: q.2)

/-- The number of calls since the last one that returned `true`, or since the start. -/
def dry_calls (bs : List Bool) : Nat := (bs.reverse.takeWhile fun b => !b).length

variable {s s' : gpu_solver} {bs : List Bool}

/-- The divisor becomes 0 with a streak of 56 calls. For the streaks from 64 on this is the value of
`divisor` and not of the source, whose shift is undefined there. -/
theorem divisor_eq_zero_iff : s.divisor = 0 ↔ 56 ≤ s.m_gpu_dry_streak := by
  have hpow : 16 <<< (s.m_gpu_dry_streak / 2) = 2 ^ (4 + s.m_gpu_dry_streak / 2) := by
    rw [Nat.shiftLeft_eq, Nat.pow_add]
  rw [divisor, hpow]
  by_cases hlarge : 56 ≤ s.m_gpu_dry_streak
  · -- the one bit has left the 32 bits
    obtain ⟨k, hk⟩ : ∃ k, 4 + s.m_gpu_dry_streak / 2 = 32 + k := ⟨s.m_gpu_dry_streak / 2 - 28, by omega⟩
    have hmod : 2 ^ (4 + s.m_gpu_dry_streak / 2) % 4294967296 = 0 := by
      rw [hk, Nat.pow_add]
      exact Nat.mul_mod_right _ _
    simp [hmod, hlarge]
  · have hlt : 2 ^ (4 + s.m_gpu_dry_streak / 2) < 4294967296 :=
      Nat.pow_lt_pow_right (by decide) (show 4 + s.m_gpu_dry_streak / 2 < 32 by omega)
    have hpos : 0 < 2 ^ (4 + s.m_gpu_dry_streak / 2) := Nat.two_pow_pos _
    rw [Nat.mod_eq_of_lt hlt]
    refine iff_of_false ?_ hlarge
    split
    · decide
    · exact hpos.ne'

/-- A call gets a threshold exactly if the divisor is not 0. -/
theorem activity_threshold_isSome (activity : bool_var → Nat) :
    (s.activity_threshold activity).isSome ↔ s.divisor ≠ 0 := by
  rw [ne_eq, divisor_eq_zero_iff, activity_threshold]
  split
  · simp only [isSome_none, Bool.false_eq_true, false_iff]
    omega
  · simp only [isSome_some, true_iff]
    omega

theorem back_off_dry_streak : s.back_off.m_gpu_dry_streak = add_u32 s.m_gpu_dry_streak 1 := by
  obtain ⟨interval, heq⟩ := s.back_off_eq
  rw [heq]

/-- The streak is reset by a call that finds something and counts one up otherwise. -/
theorem retrieve_dry_streak {units : List (Int × Int)} {activity : bool_var → Nat} {b : Bool}
    (h : s.gpu_retrieve_and_inject units activity = some (s', b)) :
    s'.m_gpu_dry_streak = if b then 0 else add_u32 s.m_gpu_dry_streak 1 := by
  unfold gpu_retrieve_and_inject at h
  split at h
  · obtain ⟨c, -, heq⟩ := map_eq_some_iff.mp h
    cases heq
    rfl
  · split at h
    · cases h
      exact back_off_dry_streak
    · obtain ⟨threshold, -, heq⟩ := map_eq_some_iff.mp h
      dsimp only at heq
      split at heq
      · cases heq
        rfl
      · cases heq
        exact back_off_dry_streak

theorem retrieve_all_append (as cs : List (List (Int × Int) × (bool_var → Nat))) (s : gpu_solver) :
    s.retrieve_all (as ++ cs) = (s.retrieve_all as).bind fun r =>
      (r.1.retrieve_all cs).map fun q => (q.1, r.2 ++ q.2) := by
  induction as generalizing s with
  | nil => simp [retrieve_all]
  | cons a as ih =>
    simp only [cons_append, retrieve_all]
    cases s.gpu_retrieve_and_inject a.1 a.2 with
    | none => rfl
    | some r =>
      simp only [bind_some, ih]
      cases retrieve_all r.1 as with
      | none => rfl
      | some q => simp [Function.comp_def]

/-- The streak counts the calls since the last one that found something. -/
theorem retrieve_all_dry_streak {as : List (List (Int × Int) × (bool_var → Nat))}
    (h : s.retrieve_all as = some (s', bs)) (h0 : s.m_gpu_dry_streak = 0) :
    s'.m_gpu_dry_streak = dry_calls bs % 4294967296 := by
  induction as using reverseRecOn generalizing s' bs with
  | nil =>
    cases h
    exact h0
  | append_singleton as a ih =>
    rw [retrieve_all_append] at h
    obtain ⟨⟨s1, bs1⟩, h1, h2⟩ := bind_eq_some_iff.mp h
    simp only [retrieve_all, map_eq_some_iff, bind_eq_some_iff, Prod.exists] at h2
    obtain ⟨_, _, ⟨s2, b, hret, _, _, ⟨rfl, rfl⟩, rfl, rfl⟩, rfl, rfl⟩ := h2
    rw [retrieve_dry_streak hret, ih h1]
    cases b with
    | true => simp [dry_calls]
    | false =>
      have hcount : dry_calls (bs1 ++ [false]) = dry_calls bs1 + 1 := by simp [dry_calls]
      rw [hcount]
      exact Nat.mod_add_mod _ _ _

/-- After any calls, the next division is not by 0 if the last 56 calls were not all without a result, and the
threshold for the activity is then defined for every activity. -/
theorem divisor_ne_zero (s s' : gpu_solver) (as : List (List (Int × Int) × (bool_var → Nat))) (bs : List Bool)
    (h : s.retrieve_all as = some (s', bs)) (h0 : s.m_gpu_dry_streak = 0) (hdry : dry_calls bs < 56) :
    s'.divisor ≠ 0 ∧ ∀ activity, (s'.activity_threshold activity).isSome := by
  have hne : s'.divisor ≠ 0 := by
    rw [ne_eq, divisor_eq_zero_iff, retrieve_all_dry_streak h h0]
    omega
  exact ⟨hne, fun activity => (activity_threshold_isSome activity).mpr hne⟩

/-- A solver with one variable and its device. -/
def one_var : gpu_solver := (init {} 1 0).gpu_init_persistent ⟨16, fun v => v, fun v => v⟩ true

/-- The device returns the only variable, which is injected, and then nothing. -/
theorem divisor_ne_zero_one_var : (one_var.retrieve_all [([(0, 1)], fun _ => 0), ([], fun _ => 0)]).elim False
    fun r => r.1.divisor ≠ 0 := by
  have hrun : ∃ s', one_var.retrieve_all [([(0, 1)], fun _ => 0), ([], fun _ => 0)] = some (s', [true, false]) :=
    ⟨_, rfl⟩
  obtain ⟨s', hs'⟩ := hrun
  rw [hs']
  exact (divisor_ne_zero one_var s' _ _ hs' rfl (by decide)).1

/-- Retrievals that report no units leave the solver and the layout as they are, and none of them answers true. -/
theorem retrieve_all_replicate_nil (n : Nat) (activity : bool_var → Nat) (s : gpu_solver) :
    ∃ s', s.retrieve_all (replicate n ([], activity)) = some (s', replicate n false) ∧
      s'.core = s.core ∧ s'.m_gpu_K_pad = s.m_gpu_K_pad ∧ s'.m_gpu_var_perm = s.m_gpu_var_perm := by
  induction n generalizing s with
  | zero => exact ⟨s, rfl, rfl, rfl, rfl⟩
  | succ n ih =>
    obtain ⟨s', hrun, hcore, hpad, hperm⟩ := ih s.back_off
    have hback : s.back_off.core = s.core ∧ s.back_off.m_gpu_K_pad = s.m_gpu_K_pad ∧
        s.back_off.m_gpu_var_perm = s.m_gpu_var_perm := by
      obtain ⟨interval, heq⟩ := s.back_off_eq
      rw [heq]
      exact ⟨rfl, rfl, rfl⟩
    refine ⟨s', ?_, hcore.trans hback.1, hpad.trans hback.2.1, hperm.trans hback.2.2⟩
    have hcall : s.gpu_retrieve_and_inject [] activity = some (s.back_off, false) := rfl
    rw [replicate_succ, retrieve_all, hcall, bind_some, hrun]
    rfl

/-- After 56 calls without units, a call with the unit of an unassigned variable divides by 0. -/
theorem divisor_eq_zero_after_dry_calls :
    ∃ s', one_var.retrieve_all (replicate 56 ([], fun _ => 0)) = some (s', replicate 56 false) ∧
      s'.divides [(0, 1)] ∧ s'.divisor = 0 := by
  obtain ⟨s', hrun, hcore, hpad, hperm⟩ := retrieve_all_replicate_nil 56 (fun _ => 0) one_var
  refine ⟨s', hrun, ?_, ?_⟩
  · have hlit : s'.conflict_literal [(0, 1)] = one_var.conflict_literal [(0, 1)] := by
      simp only [conflict_literal, decode_unit, hcore, hpad, hperm, filterMap]
    rw [divides, hlit]
    rfl
  · rw [divisor_eq_zero_iff, retrieve_all_dry_streak hrun rfl]
    decide

end sat.gpu_solver
