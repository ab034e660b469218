import BooledASS.Sat.Gpu.Soundness

open Cnf Option Machine

namespace sat.gpu_solver

variable {s : gpu_solver} {a : answers} {g : GpuBcpPersistentState} {r : launch_record} {n : Nat}

/-- No stale answer is consumed: in every run, when `gpu_retrieve_and_inject` is entered and the scope level
has not been below that of the launch since, the literals that were true at the launch are still true. -/
theorem retrieved_launch_kept {cfg : config} {th : Nat}
    (hrun : Reaches (exec (n := n)) (fun _ _ => True) (init cfg n th) s) (hret : s.retrieves a)
    (hg : s.m_gpu_state = some g) (hr : s.m_launch = some r) (hmin : s.m_gpu_launch_level ≤ r.min_lvl) :
    ∀ l, s.Snapshot g l → s.core.value l = .l_true := by
  intro l hl
  have h := gpuInv_of_reaches hrun
  have hfly : g.async_in_flight := by
    simp only [retrieves, hg, Bool.and_eq_true] at hret
    exact hret.1.1.1.2
  obtain ⟨r', hr', hlaunch⟩ := (h.device g hg).launch hfly
  obtain rfl : r = r' := some.inj (hr.symm.trans hr')
  obtain ⟨hstart, -⟩ := hlaunch.stays (hlaunch.level ▸ hmin)
  have hmem := (hlaunch.base.visit.trail.value_true l).mp (hlaunch.snapshot l hl)
  exact (h.base.visit.trail.value_true l).mpr (hstart.subset hmem)

/-- The decision `v0` is a conflict. -/
def stale_clauses : List (List literal) := [[⟨0, true⟩, ⟨1, false⟩], [⟨0, true⟩, ⟨1, true⟩]]

/-- With `k` decisions from `v` on, the answer is taken that was asked for with the decision `v10`. -/
def takes_answer (s : gpu_solver) (v : bool_var) (k : Nat) : Bool :=
  s.core.fillable_above v k && s.waiting k && (s.filled v k k).retrieves (returned []) &&
    (s.filled v k k).sees [⟨10, false⟩]

/-- The level has not been below that of the launch. -/
def keeps_launch (s : gpu_solver) : Bool :=
  s.takes_answer 27 2047 && s.m_launch.any fun r => decide (s.m_gpu_launch_level ≤ r.min_lvl)

/-- The decision `v10` has been undone. -/
def undoes_launch (s : gpu_solver) : Bool :=
  s.takes_answer 26 2046 && (s.filled 26 2046 2046).core.value ⟨10, false⟩ == .l_false

-- in the second run, the second pair of iterations resolves the conflict and propagates what is learned
theorem stale_runs :
    (launch_run (fun _ _ => true) [] [] 16 (decides ⟨26, false⟩)).any keeps_launch ∧
    (launch_run (fun _ _ => true) stale_clauses [] 16
      (decides ⟨0, false⟩ ++ decides ⟨0, false⟩ ++ decides ⟨10, true⟩)).any undoes_launch := by
  decide +kernel

/-- Sixteen decisions before the launch and 2048 after it. -/
theorem retrieved_launch_kept_filled : ∃ (s : gpu_solver) (g : GpuBcpPersistentState), s.retrieves (returned []) ∧
    s.m_gpu_state = some g ∧ s.Snapshot g ⟨10, false⟩ ∧ s.core.value ⟨10, false⟩ = .l_true := by
  obtain ⟨s, hs, hfacts⟩ := (any_eq_true _ _).mp stale_runs.1
  simp only [keeps_launch, takes_answer, Bool.and_eq_true, any_eq_true, decide_eq_true_eq] at hfacts
  obtain ⟨⟨⟨⟨hfill, hwait⟩, hret⟩, hsees⟩, r, hr, hmin⟩ := hfacts
  obtain ⟨hopen, g, hg, -⟩ : Reaches exec (fun _ _ => True) (init {} 2100 0) s ∧ s.Holds [] :=
    reaches_launch_run (fun _ _ _ => trivial) (fun _ _ _ _ => trivial) hs
  have hfly := reaches_waited_above (fun _ _ _ _ => trivial) hopen hfill hwait
  have hsnap := snapshot_of_sees (s := s.filled 27 2047 2047) hsees hg _ (.head _)
  exact ⟨_, g, hret, hg, hsnap, retrieved_launch_kept hfly hret hg hr hmin _ hsnap⟩

/-- The conflict after the launch undoes the decision `v10` that the launch has seen. The solver decides `¬v10`
and goes on to a level above that of the launch, where the answer is taken. -/
theorem retrieved_launch_undone : ∃ (s : gpu_solver) (g : GpuBcpPersistentState) (l : literal),
    Reaches (exec (n := 2100)) (fun _ _ => True) (init {} 2100 0) s ∧ s.retrieves (returned []) ∧
    s.m_gpu_state = some g ∧ s.Snapshot g l ∧ s.core.value l = .l_false := by
  obtain ⟨s, hs, hfacts⟩ := (any_eq_true _ _).mp stale_runs.2
  simp only [undoes_launch, takes_answer, Bool.and_eq_true, beq_iff_eq] at hfacts
  obtain ⟨⟨⟨⟨hfill, hwait⟩, hret⟩, hsees⟩, hvalue⟩ := hfacts
  obtain ⟨hopen, g, hg, -⟩ : Reaches exec (fun _ _ => True) (init {} 2100 0) s ∧ s.Holds [] :=
    reaches_launch_run (fun _ _ _ => trivial) (fun _ _ _ _ => trivial) hs
  have hfly := reaches_waited_above (fun _ _ _ _ => trivial) hopen hfill hwait
  exact ⟨_, g, ⟨10, false⟩, hfly, hret, hg,
    snapshot_of_sees (s := s.filled 26 2046 2046) hsees hg _ (.head _), hvalue⟩

end sat.gpu_solver
