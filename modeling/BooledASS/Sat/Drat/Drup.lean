import BooledASS.Logic.Machine
import BooledASS.Sat.Drat.Append

open List Option Machine

namespace sat.drat

open Cnf

variable {s s' : drat} {l l1 l2 : literal} {F : Set (List literal)}

/-! ### The clauses of a sequence of calls -/

def call.clause : call → List literal
  | .add_empty => []
  | .add_literal l _ => [l]
  | .add_binary l1 l2 _ => [l1, l2]
  | .add_clause c _ | .add_lits c _ | .add_learned c => c

def call.status : call → status
  | .add_empty | .add_learned _ => ⟨.redundant, -1⟩
  | .add_literal _ st | .add_binary _ _ st | .add_clause _ st | .add_lits _ st => st

/-- Whether the clause is redundant over the literals of the SAT solver, so that it has to be verified. -/
def call.redundant (a : call) : Bool := a.status.is_redundant && a.status.is_sat

/-- `match`: whether the literals are those of the clause. -/
def matches_clause (lits c : List literal) : Bool := lits.length == c.length && lits.all fun l => c.contains l

/-- The clauses that were added and not deleted since. -/
def attached (calls : List call) : List (List literal) :=
  calls.foldl (fun cs a => if a.status.is_deleted then cs.eraseP (matches_clause a.clause) else cs ++ [a.clause]) []

/-- The clauses that were added. -/
def added (calls : List call) : Set (List literal) := {c | ∃ a ∈ calls, a.status.is_deleted = false ∧ a.clause = c}

/-- The clauses that were added and did not have to be verified. -/
def inputs (calls : List call) : Set (List literal) :=
  {c | ∃ a ∈ calls, a.status.is_deleted = false ∧ a.redundant = false ∧ a.clause = c}

theorem attached_concat (calls : List call) (a : call) :
    attached (calls ++ [a]) = if a.status.is_deleted then (attached calls).eraseP (matches_clause a.clause)
      else attached calls ++ [a.clause] := by
  simp [attached]

variable {a : call} {calls : List call}

theorem added_concat_of_deleted (h : a.status.is_deleted) : added (calls ++ [a]) = added calls := by
  ext c
  simp [added, h]

theorem added_concat (h : a.status.is_deleted = false) : added (calls ++ [a]) = insert a.clause (added calls) := by
  ext c
  simp only [added, mem_append, mem_singleton, or_and_right, exists_or, exists_eq_left, h, true_and,
    Set.mem_ofPred_eq, Set.mem_insert_iff]
  rw [or_comm, eq_comm]

/-- The attached clauses are among those that were added: a deletion only takes one away. -/
theorem attached_subset_added (calls : List call) : ∀ c ∈ attached calls, c ∈ added calls := by
  induction calls using reverseRecOn with
  | nil => simp [attached]
  | append_singleton calls a ih =>
    rw [attached_concat]
    split
    next hdel =>
      rw [added_concat_of_deleted hdel]
      exact fun c hc => ih c (mem_of_mem_eraseP hc)
    next hdel =>
      rw [added_concat (by simpa using hdel)]
      exact Lists.forall_mem_concat (fun c hc => Set.mem_insert_of_mem _ (ih c hc)) (Set.mem_insert _ _)

/-! ### A call -/

theorem Inv.mono_of_inconsistent {G : Set (List literal)} (hinc : s'.m_inconsistent) (h : Refutes F ∅)
    (hFG : F ⊆ G) : Inv G s' :=
  .inl ⟨hinc, h.mono hFG subset_rfl⟩

/-- The empty clause is verified when the checker is inconsistent. -/
theorem verify_nil (hcons : s.m_inconsistent = false) : s.verify [] ≠ some s' := by
  rw [verify, if_neg (by simp [hcons]), drat.is_drup, if_neg (by simp [hcons])]
  simp

/-- One call that adds a clause, with the verification that the call asks for. -/
theorem Resting.exec (h : Resting F s) (hcons : s.m_inconsistent = false) (hst : a.status.is_deleted = false)
    (hnodup : a.clause.Nodup) (hexec : s.exec a = some s') : Inv (insert a.clause F) s' := by
  unfold drat.exec at hexec
  split at hexec
  · exact absurd hexec (verify_nil hcons)
  · exact h.append_unit hcons hst hexec
  · exact h.append_binary hcons hst (by simpa [call.clause] using hnodup) hexec
  · exact h.append_new_clause hcons hst hnodup hexec
  · split at hexec
    · cases hexec
      exact .inl ⟨rfl, h.refutes_of_false (by simp [call.clause])⟩
    · exact absurd hexec (verify_nil hcons)
  · exact h.append_unit hcons hst hexec
  · exact h.append_new_clause hcons hst hnodup hexec
  · exact absurd hexec (verify_nil hcons)
  · exact h.append_unit hcons rfl hexec
  · obtain ⟨t, ht, hexec⟩ := bind_eq_some_iff.mp hexec
    obtain ⟨hrest, hcons', -⟩ := h.verify hcons ht
    exact hrest.append_new_clause hcons' rfl hnodup hexec

theorem Resting.append_deleted_unit (h : Resting F s) (hcons : s.m_inconsistent = false) {st : status}
    (hst : st.is_deleted) (happend : s.append_unit l st = some s') : Resting F s' ∧ s'.m_inconsistent = false := by
  obtain ⟨t, ht, rfl⟩ := map_eq_some_iff.mp happend
  obtain ⟨hrest, hcons', -⟩ := h.verify_redundant hcons ht
  rw [if_pos hst]
  exact ⟨hrest, hcons'⟩

/-- One call that deletes a clause. No watch is removed, since clauses are compared by their address and that of the
call has a new one. -/
theorem Resting.exec_deleted (h : Resting F s) (hcons : s.m_inconsistent = false)
    (hst : a.status.is_deleted) (hexec : s.exec a = some s') : Resting F s' ∧ s'.m_inconsistent = false := by
  have hclause {c : List literal} {st : status} (hst : st.is_deleted)
      (happend : s.append_new_clause c st = some s') : Resting F s' ∧ s'.m_inconsistent = false := by
    obtain ⟨hrest, hsame⟩ := h.append_deleted_clause hst happend
    exact ⟨hrest, hsame.trans hcons⟩
  unfold drat.exec at hexec
  split at hexec
  · cases hst
  · exact h.append_deleted_unit hcons hst hexec
  next st =>
    have hdel : st.is_deleted := hst
    rw [drat.append_binary, if_pos hdel] at hexec
    exact some.inj hexec ▸ ⟨h, hcons⟩
  · exact hclause hst hexec
  next st =>
    have hinput : st.is_input = false := by
      have hdel : st.is_deleted := hst
      rw [status.is_deleted, decide_eq_true_eq] at hdel
      simp [status.is_input, hdel]
    rw [if_neg (by simp [hinput])] at hexec
    exact absurd hexec (verify_nil hcons)
  · exact h.append_deleted_unit hcons hst hexec
  · exact hclause hst hexec
  · cases hst
  · cases hst
  · cases hst

/-- A call keeps the invariant for the clauses that have then been added. -/
theorem Inv.exec (h : Inv (added calls) s) (hnodup : a.status.is_deleted = false → a.clause.Nodup)
    (hexec : s.exec a = some s') : Inv (added (calls ++ [a])) s' := by
  cases hst : a.status.is_deleted with
  | true =>
    rw [added_concat_of_deleted hst]
    rcases h with ⟨hinc, hrefutes⟩ | ⟨hcons, hrest⟩
    · exact .inl ⟨inconsistent_exec hinc hexec, hrefutes⟩
    · exact .inr (hrest.exec_deleted hcons hst hexec).symm
  | false =>
    rw [added_concat hst]
    rcases h with ⟨hinc, hrefutes⟩ | ⟨hcons, hrest⟩
    · exact .mono_of_inconsistent (inconsistent_exec hinc hexec) hrefutes (Set.subset_insert _ _)
    · exact hrest.exec hcons hst (hnodup hst) hexec

theorem Inv.init : Inv (added []) {} := by
  refine .inr ⟨rfl, ⟨fun p idx => by simp, fun p => nodup_nil⟩, by simp, by simp, by simp, fun l => ?_, by simp [units],
    by simp [Settled], by simp [added]⟩
  simp [value, units]

/-- Every state that calls lead to. -/
theorem inv_of_run (hrun : run exec {} calls = some s)
    (hnodup : ∀ a ∈ calls, a.status.is_deleted = false → a.clause.Nodup) : Inv (added calls) s := by
  induction calls using reverseRecOn generalizing s with
  | nil =>
    obtain rfl : {} = s := by simpa [run] using hrun
    exact .init
  | append_singleton calls a ih =>
    rw [run_append] at hrun
    obtain ⟨t, ht, hexec⟩ := bind_eq_some_iff.mp hrun
    have hexec : t.exec a = some s := by simpa [run] using hexec
    exact (ih ht fun b hb => hnodup b (mem_append_left _ hb)).exec (hnodup a (by simp)) hexec

/-! ### The answers -/

theorem Inv.is_drup (h : Inv F s) (c : List literal) :
    ((s.is_drup c).1 ↔ Refutes F (negated c)) ∧ (s.is_drup c).2.m_inconsistent = s.m_inconsistent ∧
      (s.is_drup c).2.m_assignment = s.m_assignment ∧ (s.is_drup c).2.m_units = s.m_units := by
  rcases h with ⟨hinc, hrefutes⟩ | ⟨hcons, hrest⟩
  · have hdrup : s.is_drup c = (true, s) := by rw [drat.is_drup, if_pos hinc]
    rw [hdrup]
    exact ⟨⟨fun _ => hrefutes.mono subset_rfl (Set.empty_subset _), fun _ => rfl⟩, rfl, rfl, rfl⟩
  · obtain ⟨hiff, -, hcons', -, hassignment, hunits⟩ := hrest.is_drup hcons c
    exact ⟨hiff, hcons'.trans hcons.symm, hassignment, hunits⟩

theorem Resting.refutes_of_verify (h : Resting F s) (hcons : s.m_inconsistent = false) {c : List literal}
    (hverify : s.verify c = some s') : Refutes F (negated c) := by
  refine (h.is_drup hcons c).1.mp ?_
  rw [drat.verify, if_neg (by simp [hcons])] at hverify
  split at hverify
  next heq => rw [heq]
  next => cases hverify

theorem Resting.refutes_of_verify_redundant (h : Resting F s) (hcons : s.m_inconsistent = false) {c : List literal}
    {st : status} (hst : (st.is_redundant && st.is_sat)) (hverify : s.verify_redundant c st = some s') :
    Refutes F (negated c) := by
  rw [drat.verify_redundant, if_pos (by simpa using hst)] at hverify
  exact h.refutes_of_verify hcons hverify

/-- A redundant clause that is accepted is refuted by unit propagation. -/
theorem Inv.refutes_of_exec (h : Inv F s) (hred : a.redundant) (hexec : s.exec a = some s') :
    Refutes F (negated a.clause) := by
  rcases h with ⟨-, hrefutes⟩ | ⟨hcons, hrest⟩
  · exact hrefutes.mono subset_rfl (Set.empty_subset _)
  have hunit {l : literal} {st : status} (hst : (st.is_redundant && st.is_sat))
      (happend : s.append_unit l st = some s') : Refutes F (negated [l]) := by
    obtain ⟨t, ht, -⟩ := map_eq_some_iff.mp happend
    exact hrest.refutes_of_verify_redundant hcons hst ht
  have hclause {c : List literal} {st : status} (hst : (st.is_redundant && st.is_sat))
      (happend : s.append_new_clause c st = some s') : Refutes F (negated c) := by
    obtain ⟨t, ht, -⟩ := map_eq_some_iff.mp happend
    exact Resting.refutes_of_verify_redundant (hrest.with_proof (Nat.le_succ _) _) hcons hst ht
  unfold drat.exec at hexec
  split at hexec
  · exact hrest.refutes_of_verify hcons hexec
  · exact hunit hred hexec
  · rw [append_binary] at hexec
    split at hexec
    next st hdel =>
      rw [status.is_deleted, decide_eq_true_eq] at hdel
      simp [call.redundant, call.status, status.is_redundant, hdel] at hred
    next =>
      obtain ⟨t, ht, -⟩ := map_eq_some_iff.mp hexec
      exact hrest.refutes_of_verify_redundant hcons hred ht
  · exact hclause hred hexec
  · split at hexec
    next st hinput =>
      rw [status.is_input, decide_eq_true_eq] at hinput
      simp [call.redundant, call.status, status.is_redundant, hinput] at hred
    next => exact hrest.refutes_of_verify hcons hexec
  · exact hunit hred hexec
  · exact hclause hred hexec
  · exact hrest.refutes_of_verify hcons hexec
  · exact hunit hred hexec
  · obtain ⟨t, ht, -⟩ := bind_eq_some_iff.mp hexec
    exact hrest.refutes_of_verify hcons ht

/-! ### Whole runs -/

theorem inputs_concat_subset (calls : List call) (a : call) : inputs calls ⊆ inputs (calls ++ [a]) := by
  rintro c ⟨b, hb, hc⟩
  exact ⟨b, mem_append_left _ hb, hc⟩

theorem run_concat (hrun : run exec {} (calls ++ [a]) = some s) :
    ∃ t, run exec {} calls = some t ∧ t.exec a = some s := by
  rw [run_append] at hrun
  obtain ⟨t, ht, hexec⟩ := bind_eq_some_iff.mp hrun
  exact ⟨t, ht, by simpa [run] using hexec⟩

/-- All clauses that were added are entailed by the inputs. -/
theorem entails_of_run (hrun : run exec {} calls = some s)
    (hnodup : ∀ a ∈ calls, a.status.is_deleted = false → a.clause.Nodup) :
    ∀ c ∈ added calls, Entails (inputs calls) c := by
  induction calls using reverseRecOn generalizing s with
  | nil => simp [added]
  | append_singleton calls a ih =>
    obtain ⟨t, ht, hexec⟩ := run_concat hrun
    have hnodup' : ∀ b ∈ calls, b.status.is_deleted = false → b.clause.Nodup :=
      fun b hb => hnodup b (mem_append_left _ hb)
    have hold : ∀ c ∈ added calls, Entails (inputs (calls ++ [a])) c :=
      fun c hc => (ih ht hnodup' c hc).mono (inputs_concat_subset calls a)
    cases hst : a.status.is_deleted with
    | true =>
      rw [added_concat_of_deleted hst]
      exact hold
    | false =>
      rw [added_concat hst]
      intro c hc
      rcases Set.mem_insert_iff.mp hc with rfl | hc
      · cases hred : a.redundant with
        | true => exact .trans hold ((inv_of_run ht hnodup').refutes_of_exec hred hexec).entails
        | false => exact .of_mem ⟨a, by simp, hst, hred, rfl⟩
      · exact hold c hc

/-- When every deleted clause is absorbed by those that stay attached, nothing is lost by the deletions. -/
theorem absorbed_of_added (habsorbed : ∀ pre a post, calls = pre ++ a :: post →
      ∀ c ∈ attached pre, Absorbed {d | d ∈ attached (pre ++ [a])} c) :
    ∀ c ∈ added calls, Absorbed {d | d ∈ attached calls} c := by
  induction calls using reverseRecOn with
  | nil => simp [added]
  | append_singleton calls a ih =>
    have hold : ∀ c ∈ added calls, Absorbed {d | d ∈ attached (calls ++ [a])} c := by
      intro c hc
      refine .trans (habsorbed calls a [] rfl) (ih (fun pre b post heq => ?_) c hc)
      exact habsorbed pre b (post ++ [a]) (by simp [heq])
    cases hst : a.status.is_deleted with
    | true =>
      rw [added_concat_of_deleted hst]
      exact hold
    | false =>
      rw [added_concat hst]
      intro c hc
      rcases Set.mem_insert_iff.mp hc with rfl | hc
      · refine .of_mem ?_
        simp [attached_concat, hst]
      · exact hold c hc

/-- When no clause repeats a literal the checker decides unit propagation over all clauses that were added. These
are as good as the attached ones when deleted clauses are absorbed by those that stay. -/
theorem drup_checker_correct {calls : List call} {s : drat} (hrun : run exec {} calls = some s)
    (hnodup : ∀ a ∈ calls, a.status.is_deleted = false → a.clause.Nodup) (c : List literal) :
    ((s.is_drup c).1 ↔ Refutes (added calls) (negated c)) ∧
      ((∀ pre a post, calls = pre ++ a :: post → ∀ d ∈ attached pre, Absorbed {d | d ∈ attached (pre ++ [a])} d) →
        ((s.is_drup c).1 ↔ Refutes {d | d ∈ attached calls} (negated c))) ∧
      ((s.is_drup c).1 → Entails (inputs calls) c) ∧
      (∀ pre a post, calls = pre ++ a :: post → a.redundant → Entails (inputs pre) a.clause) ∧
      (s.is_drup c).2.m_inconsistent = s.m_inconsistent ∧ (s.is_drup c).2.m_assignment = s.m_assignment ∧
      (s.is_drup c).2.m_units = s.m_units := by
  have hinv := inv_of_run hrun hnodup
  obtain ⟨hiff, hrest⟩ := hinv.is_drup c
  refine ⟨hiff, fun habsorbed => ?_, fun h => .trans (entails_of_run hrun hnodup) (hiff.mp h).entails, ?_, hrest⟩
  · rw [hiff]
    refine ⟨fun h => h.of_absorbed (absorbed_of_added habsorbed), fun h => ?_⟩
    exact h.mono (attached_subset_added calls) subset_rfl
  · rintro pre a post rfl hred
    rw [run_append] at hrun
    obtain ⟨t, ht, hrun⟩ := bind_eq_some_iff.mp hrun
    obtain ⟨t', hexec, -⟩ := bind_eq_some_iff.mp hrun
    have hnodup' : ∀ b ∈ pre, b.status.is_deleted = false → b.clause.Nodup :=
      fun b hb => hnodup b (mem_append_left _ hb)
    exact .trans (entails_of_run ht hnodup') ((inv_of_run ht hnodup').refutes_of_exec hred hexec).entails

/-- A clause is deleted after a shorter one was added. -/
def subsumed_calls : List call :=
  [.add_lits [⟨1, false⟩, ⟨2, false⟩, ⟨3, false⟩] ⟨.input, -1⟩, .add_lits [⟨1, false⟩, ⟨2, false⟩] ⟨.input, -1⟩,
    .add_clause [⟨1, false⟩, ⟨2, false⟩, ⟨3, false⟩] ⟨.deleted, -1⟩]

/-- The deleted clause follows from the shorter one, so that the answer of the checker is about the clauses that are
left. -/
theorem drup_checker_correct_subsumed :
    ∃ s, run exec {} subsumed_calls = some s ∧ ((s.is_drup [⟨2, false⟩, ⟨1, false⟩]).1 ↔
        Refutes {d | d ∈ attached subsumed_calls} (negated [⟨2, false⟩, ⟨1, false⟩])) := by
  obtain ⟨s, hs⟩ : ∃ s, run exec {} subsumed_calls = some s := ⟨_, rfl⟩
  refine ⟨s, hs, (drup_checker_correct hs (by decide) [⟨2, false⟩, ⟨1, false⟩]).2.1 ?_⟩
  intro pre a post heq c hc
  rcases pre with _ | ⟨x, _ | ⟨y, _ | ⟨z, pre⟩⟩⟩
  · cases hc
  · obtain ⟨rfl, rfl, -⟩ := heq
    exact .of_mem (mem_append_left _ hc)
  · obtain ⟨rfl, rfl, rfl, -⟩ := heq
    have hsub : ∀ c ∈ [[(⟨1, false⟩ : literal), ⟨2, false⟩, ⟨3, false⟩], [⟨1, false⟩, ⟨2, false⟩]],
        ∀ m ∈ [⟨1, false⟩, ⟨2, false⟩], m ∈ c := by decide
    exact .of_subset (mem_singleton.mpr rfl) (hsub c hc)
  · simp [subsumed_calls] at heq

def deleted_calls : List call :=
  [.add_lits [⟨1, false⟩, ⟨2, false⟩] ⟨.input, -1⟩, .add_lits [⟨1, false⟩, ⟨2, true⟩] ⟨.input, -1⟩,
    .add_clause [⟨1, false⟩, ⟨2, false⟩] ⟨.deleted, -1⟩]

def repeated_calls : List call :=
  [.add_lits [⟨1, false⟩, ⟨1, false⟩, ⟨2, false⟩] ⟨.input, -1⟩,
    .add_lits [⟨1, true⟩, ⟨3, false⟩, ⟨4, false⟩] ⟨.input, -1⟩,
    .add_lits [⟨1, true⟩, ⟨3, false⟩, ⟨4, true⟩] ⟨.input, -1⟩]

theorem not_refutes_deleted_calls : ¬ Refutes {d | d ∈ attached deleted_calls} (negated [⟨1, false⟩]) := by
  refine not_refutes_of_closed (T := {l | l ∈ [⟨1, true⟩, ⟨2, true⟩]}) (fun l hl => ?_) ?_ ?_ (by decide)
  · have heq : ~~~l = ⟨1, false⟩ := mem_singleton.mp hl
    rw [Lit.compl_eq_iff.mp heq]
    decide
  · change ∀ c ∈ [[(⟨1, false⟩ : literal), ⟨2, true⟩]], ∀ l ∈ c,
      (∀ m ∈ c, m ≠ l → ~~~m ∈ [⟨1, true⟩, ⟨2, true⟩]) → l ∈ [⟨1, true⟩, ⟨2, true⟩]
    decide
  · change ∀ l ∈ [(⟨1, true⟩ : literal), ⟨2, true⟩], ~~~l ∉ [⟨1, true⟩, ⟨2, true⟩]
    decide

/-- Unit propagation over the three clauses refutes the negation of `2 \/ 3`: the first clause gives 1, and the other
two then need 4 and its negation. -/
theorem refutes_repeated_calls : Refutes {d | d ∈ attached repeated_calls} (negated [⟨2, false⟩, ⟨3, false⟩]) := by
  have h2 : Derives {d | d ∈ attached repeated_calls} (negated [⟨2, false⟩, ⟨3, false⟩]) ⟨2, true⟩ :=
    .of_mem ((.head _) ..)
  have h3 : Derives {d | d ∈ attached repeated_calls} (negated [⟨2, false⟩, ⟨3, false⟩]) ⟨3, true⟩ :=
    .of_mem (.tail _ ((.head _) ..))
  have h1 : Derives {d | d ∈ attached repeated_calls} (negated [⟨2, false⟩, ⟨3, false⟩]) ⟨1, false⟩ := by
    refine .unit (c := [⟨1, false⟩, ⟨1, false⟩, ⟨2, false⟩]) (by decide) (by decide) fun m hm hne => ?_
    obtain rfl : m = ⟨2, false⟩ := by simpa [hne] using hm
    exact h2
  have h4 b : Derives {d | d ∈ attached repeated_calls} (negated [⟨2, false⟩, ⟨3, false⟩]) ⟨4, b⟩ := by
    refine .unit (c := [⟨1, true⟩, ⟨3, false⟩, ⟨4, b⟩]) (by cases b <;> decide) (by simp) fun m hm hne => ?_
    rcases mem_cons.mp hm with rfl | hm
    · exact h1
    · obtain rfl : m = ⟨3, false⟩ := by simpa [hne] using hm
      exact h3
  exact .inr ⟨⟨4, false⟩, h4 false, h4 true⟩

/-- A clause that was deleted is still used; and a clause that repeats a literal is watched at that literal twice, so
that it is not seen to be a unit when the other one is false. -/
theorem drup_checker_uses_deleted :
    (∃ s, run exec {} deleted_calls = some s ∧ (s.is_drup [⟨1, false⟩]).1 ∧
      ¬ Refutes {d | d ∈ attached deleted_calls} (negated [⟨1, false⟩])) ∧
    ∃ s, run exec {} repeated_calls = some s ∧ (s.is_drup [⟨2, false⟩, ⟨3, false⟩]).1 = false ∧
      Refutes {d | d ∈ attached repeated_calls} (negated [⟨2, false⟩, ⟨3, false⟩]) :=
  ⟨⟨_, rfl, rfl, not_refutes_deleted_calls⟩, _, rfl, rfl, refutes_repeated_calls⟩

end sat.drat
