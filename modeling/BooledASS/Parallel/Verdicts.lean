import Mathlib.Data.Fintype.Prod
import BooledASS.Parallel.Facts

open List Machine Interp

namespace smt.parallel

open search_tree tree

variable {E M : Type} [DecidableEq E] {I : Interp E M} {F B : Set E} {asms : List E} {G : M → Prop} {cfg : config}

/-- What a run keeps when the uses of its cores are justified in every state. -/
theorem ThreadsInv.reached (hF : ∀ f ∈ F, I.Entails B f)
    (hG : ∀ mdl, I.Models mdl F → (∀ e ∈ asms, I.holds mdl e) → G mdl) {ok : threads E M → step E M → Prop}
    (hok : ∀ s a s', ThreadsInv I B asms G s → ok s a → parallel.exec I cfg asms s a = some s' →
      Checked I F asms s a ∧ Justified I B asms G cfg s a)
    {s : threads E M} (h : Reaches (parallel.exec I cfg asms) ok parallel.init s) : ThreadsInv I B asms G s := by
  refine h.invariant .init fun s a s' hs ha hexec => ?_
  obtain ⟨hchecked, hjust⟩ := hok s a s' hs ha hexec
  exact hs.exec hF hG hchecked hjust hexec

/-- The assertions with the assumptions. -/
def given (F : Set E) (asms : List E) : Set E := F ∪ {e | e ∈ asms}

omit [DecidableEq E] in
theorem entails_given_of_mem_asms {e : E} (h : e ∈ asms) : I.Entails (given F asms) e := .of_mem (.inr h)

omit [DecidableEq E] in
/-- Assumptions can be left out of a core of the assertions with the assumptions. -/
theorem core_given {core c : List E} (h : I.Core (given F asms) core) (hsub : ∀ e ∈ core, e ∈ asms ∨ e ∈ c) :
    I.Core (given F asms) c :=
  h.drop fun e he => (hsub e he).symm.imp_right entails_given_of_mem_asms

/-- Under the assumptions all that the threads share is justified by the cores of the checks. -/
theorem justified_given {s : threads E M} (h : ThreadsInv I (given F asms) asms G s) {a : step E M}
    (hchecked : Checked I F asms s a) (hsls : ∀ mdl, a = .sls (.l_true mdl) → G mdl) :
    Justified I (given F asms) asms G cfg s a := by
  have hF : ∀ f ∈ F, I.Entails (given F asms) f := fun f hf => .of_mem (.inl hf)
  cases a with
  | probe_literal id e r =>
    cases r with
    | l_false core =>
      intro _
      refine core_given (hchecked.2.cut (entails_held hF (h.backbones id))) fun f hf => ?_
      exact mem_append.mp (hchecked.1 f hf)
    | _ => trivial
  | check_chunk id r =>
    cases r with
    | l_false core =>
      intro a hone
      refine core_given (hchecked.2.cut (entails_held hF (h.backbones id))) fun f hf => ?_
      refine (mem_append.mp (hchecked.1 f hf)).imp_right fun hfa => ?_
      rw [← hone]
      exact mem_filter.mpr ⟨hf, decide_eq_true hfa⟩
    | _ => trivial
  | report id =>
    have hloc := (h.workers id).loc
    simp only [Justified]
    split
    next core hcore =>
      rw [hcore] at hloc
      exact fun _ _ => core_given hloc.1 hloc.2
    next => trivial
  | sls r =>
    cases r with
    | l_true mdl => exact hsls mdl rfl
    | _ => trivial
  | _ => trivial

/-- In every interleaving the shared clauses and the global backbones are entailed by the assertions and the
assumptions, the conflicts passed to the search tree are made of assumptions and of the path of their node, and
the verdict unsat is right. -/
theorem shared_facts_entailed (I : Interp E M) (F : Set E) (asms : List E) (cfg : config) {s : threads E M}
    (h : Reaches (exec I cfg asms) (Checked I F asms) init s) :
    (∀ sc ∈ s.b.shared_clause_trail, I.Entails (F ∪ {e | e ∈ asms}) sc.clause) ∧
    (∀ e ∈ s.b.m_global_backbones, I.Entails (F ∪ {e | e ∈ asms}) e) ∧
    (∀ c ∈ s.b.conflicts, ∀ l ∈ c.2, l ∈ asms ∨ s.b.m_search_tree.OnPath c.1 l) ∧
    (s.b.m_state = .is_unsat → ∀ m, ¬ I.Models m (F ∪ {e | e ∈ asms})) := by
  have hinv : ThreadsInv I (given F asms) asms (fun _ => True) s :=
    ThreadsInv.reached (fun f hf => .of_mem (.inl hf)) (fun _ _ _ => trivial)
      (fun s a s' hs ha _ => ⟨ha, justified_given hs ha fun _ _ => trivial⟩) h
  refine ⟨hinv.manager.trail, hinv.manager.global_backbones, hinv.manager.conflicts, fun hunsat m hm => ?_⟩
  obtain ⟨hcore, hasms⟩ := hinv.manager.unsat hunsat
  obtain ⟨e, he, hfalse⟩ := hcore m hm
  exact hfalse (hm e (.inr (hasms e he)))

/-- A run of a worker and a backbone thread: with `p` a consequence of the assumption `a` the backbone thread finds
that `p` holds, and the worker has it in its context. -/
theorem shared_facts_entailed_probe :
    let I := ofBool (Bool × Bool)
    let a : Bool × Bool → Bool := fun m => m.1
    let p : Bool × Bool → Bool := fun m => m.2
    let F : Set (Bool × Bool → Bool) := {fun m => !m.1 || m.2}
    ∃ s, run (exec I { num_workers := 2, num_global_bb_threads := 1 } [a]) init
        [.probe_literal 0 (fun m => !p m) (.l_false [a, fun m => !p m]), .get_cube 0, .collect_shared_clauses 0] =
          some s ∧
      (s.workers 0).ctx = [p] ∧ ∀ e ∈ s.b.m_global_backbones, I.Entails (F ∪ {e | e ∈ [a]}) e := by
  intro I a p F
  refine ⟨_, rfl, by decide, (shared_facts_entailed I F [a] { num_workers := 2, num_global_bb_threads := 1 } ?_).2.1⟩
  refine .step (.step (.step .refl (a := .probe_literal 0 (fun m => !p m) (.l_false [a, fun m => !p m])) ?_ rfl)
    (a := .get_cube 0) trivial rfl) (a := .collect_shared_clauses 0) trivial rfl
  exact ⟨by simp, core_ofBool [fun m => !m.1 || m.2] (fun f hf => .inl (mem_singleton.mp hf)) (by decide)⟩

/-- The cores with which backbones are found, and with which whole cubes are given up, have no assumption besides
the literals that are tested. -/
def Unconditional (asms : List E) (cfg : config) (s : threads E M) : step E M → Prop
  | .probe_literal _ e (.l_false unsat_core) => e ∈ unsat_core → ∀ f ∈ unsat_core, f = e
  | .check_chunk id (.l_false unsat_core) =>
    ∀ a, unsat_core.filter (· ∈ (s.backbones id).bb_asms) = [a] → ∀ f ∈ unsat_core, f = a
  | .report id =>
    match (s.workers id).loc with
    | .deciding (.l_false unsat_core) =>
      cfg.ablate_backtracking → ¬ (∀ e ∈ unsat_core, e ∈ asms) → ∀ f ∈ unsat_core, f ∈ (s.workers id).cube
    | _ => True
  | _ => True

/-- Cores without assumptions justify what is shared from the assertions alone. -/
theorem justified_of_unconditional {s : threads E M} (h : ThreadsInv I F asms (fun _ => True) s) {a : step E M}
    (hchecked : Checked I F asms s a) (hun : Unconditional asms cfg s a) :
    Justified I F asms (fun _ => True) cfg s a := by
  have hF : ∀ f ∈ F, I.Entails F f := fun f hf => .of_mem hf
  cases a with
  | probe_literal id e r =>
    cases r with
    | l_false core =>
      exact fun he => (hchecked.2.cut (entails_held hF (h.backbones id))).mono fun f hf =>
        mem_singleton.mpr (hun he f hf)
    | _ => trivial
  | check_chunk id r =>
    cases r with
    | l_false core =>
      exact fun a hone => (hchecked.2.cut (entails_held hF (h.backbones id))).mono fun f hf =>
        mem_singleton.mpr (hun a hone f hf)
    | _ => trivial
  | report id =>
    have hloc := (h.workers id).loc
    simp only [Justified]
    simp only [Unconditional] at hun
    split
    next core hcore =>
      rw [hcore] at hloc hun
      exact fun hablate hasms => hloc.1.mono (hun hablate hasms)
    next => trivial
  | sls r => cases r <;> trivial
  | _ => trivial

omit [DecidableEq E] in
theorem is_unsat_of_get_result {b : batch_manager E M} {canceled : Bool}
    (h : b.get_result canceled = .ok .l_false) : b.m_state = .is_unsat := by
  revert h
  fun_cases b.get_result canceled <;> simp_all

omit [DecidableEq E] in
theorem is_sat_of_get_result {b : batch_manager E M} {canceled : Bool}
    (h : b.get_result canceled = .ok .l_true) : b.m_state = .is_sat := by
  revert h
  fun_cases b.get_result canceled <;> simp_all

/-- In every interleaving in which the cores behind backbones and given-up cubes have no assumption besides the
literals that are tested, the core of the verdict unsat consists of assumptions and is a core of the assertions.
Otherwise a backbone that depends on an assumption is used by the other threads as if it did not. -/
theorem parallel_core_sound (I : Interp E M) (F : Set E) (asms : List E) (cfg : config) {s : threads E M}
    (h : Reaches (exec I cfg asms) (fun s a => Checked I F asms s a ∧ Unconditional asms cfg s a) init s)
    (canceled : Bool) (hresult : s.b.get_result canceled = .ok .l_false) :
    (∀ e ∈ s.b.m_unsat_core, e ∈ asms) ∧ I.Core F s.b.m_unsat_core := by
  have hinv : ThreadsInv I F asms (fun _ => True) s :=
    ThreadsInv.reached (fun f hf => .of_mem hf) (fun _ _ _ => trivial)
      (fun s a s' hs ha _ => ⟨ha.1, justified_of_unconditional hs ha.1 ha.2⟩) h
  exact (hinv.manager.unsat (is_unsat_of_get_result hresult)).symm

/-- The steps of the first worker for one cube, with the answer of the check. -/
def solve_cube (r : answer E M) : List (step E M) :=
  [.get_cube 0, .collect_shared_clauses 0, .collect_backbone_candidates 0, .check_cube 0 r, .lease_canceled 0, .inc 0]

/-- Whether the core of a probe is the second variable made false, and the core of a cube for the third variable has
the first one besides the cube. -/
def cubes_of_snd (s : threads (Bool × Bool × Bool → Bool) (Bool × Bool × Bool)) :
    step (Bool × Bool × Bool → Bool) (Bool × Bool × Bool) → Bool
  | .probe_literal _ e (.l_false core) => decide (core = [e] ∧ e = fun m => !m.2.1)
  | .check_cube id (.l_false core) =>
    decide (core = (fun m => m.1) :: (s.workers id).cube ∧
      ((s.workers id).cube = [fun m => m.2.2] ∨ (s.workers id).cube = [fun m => !m.2.2]))
  | .check_cube _ .l_undef => true
  | .check_cube .. | .share_unit .. | .backbone_unit .. | .probe_literal .. | .check_chunk .. | .trial ..
  | .sls .. => false
  | _ => true

/-- The checks of `cubes_of_snd` are correct, and the core of the probe is the literal that is tested. -/
theorem checked_of_cubes_of_snd (s : threads (Bool × Bool × Bool → Bool) (Bool × Bool × Bool))
    (a : step (Bool × Bool × Bool → Bool) (Bool × Bool × Bool)) (h : cubes_of_snd s a) :
    Checked (ofBool (Bool × Bool × Bool))
        {fun m => m.2.1, fun m => !m.1 || !m.2.2, fun m => !m.1 || !m.2.1 || m.2.2} [fun m => m.1] s a ∧
      Unconditional [fun m => m.1] { num_workers := 2, num_global_bb_threads := 1 } s a := by
  cases a with
  | probe_literal id e r =>
    cases r with
    | l_false core =>
      obtain ⟨rfl, rfl⟩ := of_decide_eq_true h
      refine ⟨⟨by simp, ?_⟩, fun _ f hf => mem_singleton.mp hf⟩
      exact core_ofBool [fun m => m.2.1] (fun f hf => .inl (.inl (mem_singleton.mp hf))) (by decide)
    | _ => cases h
  | check_cube id r =>
    cases r with
    | l_false core =>
      obtain ⟨rfl, hcube⟩ := of_decide_eq_true h
      refine ⟨⟨fun e he => he, ?_⟩, trivial⟩
      rcases hcube with hcube | hcube <;> rw [hcube]
      · exact core_ofBool [fun m => !m.1 || !m.2.2] (fun f hf => .inl (.inr (.inl (mem_singleton.mp hf)))) (by decide)
      · refine core_ofBool [fun m => m.2.1, fun m => !m.1 || !m.2.1 || m.2.2] (fun f hf => .inl ?_) (by decide)
        rcases mem_cons.mp hf with hf | hf
        · exact .inl hf
        · exact .inr (.inr (mem_singleton.mp hf))
    | l_undef => exact ⟨trivial, trivial⟩
    | _ => cases h
  | report id =>
    refine ⟨trivial, ?_⟩
    simp only [Unconditional]
    split
    next => exact nofun
    next => trivial
  | share_unit | backbone_unit | check_chunk | trial | sls => cases h
  | _ => exact ⟨trivial, trivial⟩

/-- A backbone thread finds that the second variable is true. A worker splits on the third one, and the cores of both
cubes have the assumption, which is the first one: it is the core of the verdict. -/
theorem parallel_core_sound_split :
    let I := ofBool (Bool × Bool × Bool)
    let F : Set (Bool × Bool × Bool → Bool) :=
      {fun m => m.2.1, fun m => !m.1 || !m.2.2, fun m => !m.1 || !m.2.1 || m.2.2}
    ∃ s, Reaches (exec I { num_workers := 2, num_global_bb_threads := 1 } [fun m => m.1])
        (fun s a => Checked I F [fun m => m.1] s a ∧
          Unconditional [fun m => m.1] { num_workers := 2, num_global_bb_threads := 1 } s a) init s ∧
      s.b.get_result false = .ok .l_false ∧ (fun m => m.2.1) ∈ s.b.m_global_backbones ∧
      s.b.m_unsat_core = [fun m => m.1] ∧ I.Core F s.b.m_unsat_core := by
  intro I F
  have hrun : (run (fun s a => if cubes_of_snd s a then
        exec (ofBool (Bool × Bool × Bool)) { num_workers := 2, num_global_bb_threads := 1 } [fun m => m.1] s a
      else none) init
      ([.probe_literal 0 (fun m => !m.2.1) (.l_false [fun m => !m.2.1])] ++ solve_cube .l_undef ++
        [.try_split 0 (fun m => m.2.2) 1500 0, .next_cube 0] ++
        solve_cube (.l_false [fun m => m.1, fun m => m.2.2]) ++
        [.report 0, .enqueue 0, .share_conflict 0, .next_cube 0] ++
        solve_cube (.l_false [fun m => m.1, fun m => !m.2.2]) ++ [.report 0])).map (fun s =>
      decide (s.b.m_state = .is_unsat) && decide ((fun m => m.2.1) ∈ s.b.m_global_backbones) &&
        decide (s.b.m_unsat_core = [fun m => m.1])) = some true := by
    decide
  obtain ⟨s, hs, hend⟩ := Option.map_eq_some_iff.mp hrun
  simp only [Bool.and_eq_true, decide_eq_true_eq] at hend
  obtain ⟨⟨hunsat, hbackbone⟩, hcore⟩ := hend
  have hreach := Reaches.of_guarded_run checked_of_cubes_of_snd hs
  have hresult : s.b.get_result false = .ok .l_false := by simp [batch_manager.get_result, hunsat]
  exact ⟨s, hreach, hresult, hbackbone, hcore, (parallel_core_sound I F _ _ hreach false hresult).2⟩

/-- The backbone `p` depends on the assumption `a`, and with it a worker finds the core `[b]`; the assertions are
satisfiable with `b`. -/
theorem parallel_core_misses_assumption :
    let I := .ofBool (Bool × Bool × Bool)
    let a : Bool × Bool × Bool → Bool := fun m => m.1
    let b : Bool × Bool × Bool → Bool := fun m => m.2.1
    let F : Set (Bool × Bool × Bool → Bool) := {fun m => !m.1 || m.2.2, fun m => !m.2.2 || !m.2.1}
    ∃ s, Reaches (exec I { num_workers := 2, num_global_bb_threads := 1 } [a, b]) (Checked I F [a, b]) init s ∧
      (s.workers 0).loc = .returned ∧ (s.workers 1).loc = .returned ∧ s.b.get_result false = .ok .l_false ∧
      s.b.m_unsat_core = [b] ∧
      ¬ I.Core F s.b.m_unsat_core := by
  intro I a b F
  let p : Bool × Bool × Bool → Bool := fun m => m.2.2
  have hprobe : Correct I (held F []) ([a, b] ++ [fun m => !p m]) (.l_false [a, fun m => !p m]) := by
    refine ⟨by simp, core_ofBool [fun m => !m.1 || m.2.2] (fun f hf => .inl (.inl ?_)) (by decide)⟩
    exact mem_singleton.mp hf
  have hcheck : Correct I (held F [fun m => !(!p m)]) ([a, b] ++ []) (.l_false [b]) := by
    refine ⟨by simp, core_ofBool [fun m => !m.2.2 || !m.2.1, fun m => !(!p m)] (fun f hf => ?_) (by decide)⟩
    rcases mem_cons.mp hf with rfl | hf
    · exact .inl (.inr rfl)
    · exact .inr hf
  refine ⟨_, .step (.step (.step (.step (.step (.step (.step (.step (.step .refl
    (a := .probe_literal 0 (fun m => !p m) (.l_false [a, fun m => !p m])) hprobe rfl)
    (a := .get_cube 0) trivial rfl)
    (a := .collect_shared_clauses 0) trivial rfl)
    (a := .collect_backbone_candidates 0) trivial rfl)
    (a := .check_cube 0 (.l_false [b])) hcheck rfl)
    (a := .lease_canceled 0) trivial rfl)
    (a := .inc 0) trivial rfl)
    (a := .report 0) trivial rfl)
    (a := .get_cube 1) trivial rfl, rfl, rfl, rfl, rfl, ?_⟩
  exact not_core_ofBool (false, true, false) (by simp [F]) (by decide)

/-- Without local search, or without assumptions, the model of the verdict sat satisfies the assertions and the
assumptions. -/
theorem sat_model_of_assumptions (I : Interp E M) (F : Set E) (asms : List E) (cfg : config)
    (hsls : cfg.sls = false ∨ asms = []) {s : threads E M} (h : Reaches (exec I cfg asms) (Checked I F asms) init s)
    (canceled : Bool) (hresult : s.b.get_result canceled = .ok .l_true) :
    ∃ mdl, s.b.model = some mdl ∧ I.Models mdl F ∧ ∀ e ∈ asms, I.holds mdl e := by
  have hinv : ThreadsInv I (given F asms) asms (fun mdl => I.Models mdl F ∧ ∀ e ∈ asms, I.holds mdl e) s := by
    refine .reached (fun f hf => .of_mem (.inl hf)) (fun mdl h1 h2 => ⟨h1, h2⟩)
      (fun s a s' hs ha hexec => ⟨ha, justified_given hs ha fun mdl hmdl => ?_⟩) h
    subst hmdl
    rcases hsls with hoff | hnil
    · -- there is no thread that makes this step
      simp [exec, step.thread, hoff] at hexec
    · exact ⟨ha.1, by simp [hnil]⟩
  exact hinv.manager.sat (is_sat_of_get_result hresult)

/-- A worker finds a model of one assumption. -/
theorem sat_model_of_assumptions_one :
    let I := ofBool Bool
    let a : Bool → Bool := fun m => m
    ∃ s, run (exec I { num_workers := 2 } [a]) init
        [.get_cube 0, .collect_shared_clauses 0, .collect_backbone_candidates 0, .check_cube 0 (.l_true true),
          .lease_canceled 0, .inc 0, .report 0] = some s ∧
      ∃ mdl, s.b.model = some mdl ∧ I.Models mdl ∅ ∧ ∀ e ∈ [a], I.holds mdl e := by
  intro I a
  refine ⟨_, rfl, sat_model_of_assumptions I ∅ [a] { num_workers := 2 } (.inl rfl) ?_ false rfl⟩
  refine .step (.step (.step (.step (.step (.step (.step .refl
    (a := .get_cube 0) trivial rfl)
    (a := .collect_shared_clauses 0) trivial rfl)
    (a := .collect_backbone_candidates 0) trivial rfl)
    (a := .check_cube 0 (.l_true true)) ?_ rfl)
    (a := .lease_canceled 0) trivial rfl)
    (a := .inc 0) trivial rfl)
    (a := .report 0) trivial rfl
  refine ⟨fun f hf => hf.elim (fun h => h.elim) (fun h => nomatch h), fun e he => ?_⟩
  rw [mem_singleton.mp he]
  rfl

/-- The local search is not given the assumption `a`: its model makes `a` false. -/
theorem sat_model_violates_assumption :
    let I := ofBool Bool
    let a : Bool → Bool := fun m => m
    ∃ s, Reaches (exec I { num_workers := 2, sls := true } [a]) (Checked I ∅ [a]) init s ∧
      (s.workers 0).loc = .returned ∧ (s.workers 1).loc = .returned ∧ s.b.get_result false = .ok .l_true ∧
      s.b.model = some false ∧ ¬ I.holds false a := by
  intro I a
  refine ⟨_, .step (.step (.step .refl
    (a := .sls (.l_true false)) ⟨fun f hf => hf.elim, fun e he => (not_mem_nil he).elim⟩ rfl)
    (a := .get_cube 0) trivial rfl)
    (a := .get_cube 1) trivial rfl, rfl, rfl, rfl, rfl, by simp [I, ofBool]⟩

end smt.parallel
