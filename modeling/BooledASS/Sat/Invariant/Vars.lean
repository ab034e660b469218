import BooledASS.Sat.Invariant.Resolve

open Option

namespace sat.solver

variable {s s' : solver}

/-- Conflict analysis creates no variables. -/
theorem foldl_num_vars {α : Type} {f : solver → α → solver} (hf : ∀ s x, (f s x).m_num_vars = s.m_num_vars)
    (xs : List α) (s : solver) : (xs.foldl f s).m_num_vars = s.m_num_vars := by
  induction xs generalizing s with
  | nil => rfl
  | cons x xs ih => rw [List.foldl_cons, ih, hf]

@[simp] theorem process_antecedent_num_vars (a : literal) (n : Nat) :
    (s.process_antecedent a n).1.m_num_vars = s.m_num_vars := by
  unfold process_antecedent
  split
  · split <;> rfl
  · rfl

@[simp] theorem process_antecedents_num_vars (lits : List literal) (n : Nat) :
    (s.process_antecedents lits n).1.m_num_vars = s.m_num_vars := by
  induction lits generalizing s n with
  | nil => rfl
  | cons l lits ih => rw [process_antecedents, ih, process_antecedent_num_vars]

theorem resolve_walk_num_vars {n : Nat} {trail : List literal} {r : solver × literal}
    (h : s.resolve_walk n trail = some r) : r.1.m_num_vars = s.m_num_vars := by
  induction trail generalizing s n with
  | nil => cases h
  | cons l trail ih =>
    rw [resolve_walk] at h
    split at h
    · by_cases hpos : (if n = 0 then 4294967295 else n - 1) > 0
      · rw [if_pos hpos] at h
        rw [ih h, process_antecedents_num_vars]
        rfl
      · rw [if_neg hpos] at h
        cases h
        rfl
    · exact ih h

theorem resolve_first_uip_num_vars (h : s.resolve_first_uip = some s') : s'.m_num_vars = s.m_num_vars := by
  unfold resolve_first_uip at h
  dsimp only at h
  split at h
  · cases h
  · rename_i s1 l hwalk
    cases h
    have hvars : s1.m_num_vars = _ := resolve_walk_num_vars hwalk
    rw [process_antecedents_num_vars] at hvars
    refine hvars.trans ?_
    split
    · rfl
    · exact process_antecedent_num_vars _ _

theorem reset_unmark_num_vars (n : Nat) : (s.reset_unmark n).m_num_vars = s.m_num_vars :=
  foldl_num_vars (by intros; rfl) _ _

theorem process_antecedents_for_minimization_num_vars (lvl_set : BitVec 32) (stack lits : List literal) :
    (process_antecedents_for_minimization lvl_set s stack lits).1.m_num_vars = s.m_num_vars := by
  fun_induction process_antecedents_for_minimization lvl_set s stack lits with
  | case1 | case3 => rfl
  | case2 _ _ _ _ _ _ ih | case4 _ _ _ _ _ ih => exact ih

theorem implied_loop_num_vars {lvl_set : BitVec 32} {old_size fuel : Nat} {stack : List literal} {r : solver × Bool}
    (h : implied_loop lvl_set old_size fuel s stack = some r) : r.1.m_num_vars = s.m_num_vars := by
  have hmin {s s1 : solver} {stack lits : List literal} {o : Option (List literal)}
      (heq : process_antecedents_for_minimization lvl_set s stack lits = (s1, o)) : s1.m_num_vars = s.m_num_vars := by
    have hmin := process_antecedents_for_minimization_num_vars (s := s) lvl_set stack lits
    rwa [heq] at hmin
  revert h
  fun_induction implied_loop lvl_set old_size fuel s stack with
  | case1 => exact fun h => some.inj h ▸ rfl
  | case2 => exact nofun
  | case3 => exact fun h => some.inj h ▸ reset_unmark_num_vars _
  | case4 _ _ _ _ _ _ heq => exact fun h => some.inj h ▸ (reset_unmark_num_vars _).trans (hmin heq)
  | case5 _ _ _ _ _ _ _ heq ih => exact fun h => (ih h).trans (hmin heq)

theorem minimize_loop_num_vars {lvl_set : BitVec 32} {kept lits : List literal} {r : solver × List literal}
    (h : minimize_loop lvl_set s kept lits = some r) : r.1.m_num_vars = s.m_num_vars := by
  induction lits generalizing s kept with
  | nil => cases h; rfl
  | cons l lits ih =>
    rw [minimize_loop] at h
    split at h
    · cases h
    · rename_i heq
      exact (ih h).trans (implied_loop_num_vars heq)
    · rename_i heq
      exact (ih h).trans (implied_loop_num_vars heq)

theorem minimize_lemma_num_vars (h : s.minimize_lemma = some s') : s'.m_num_vars = s.m_num_vars := by
  unfold minimize_lemma at h
  split at h
  · cases h; rfl
  · split at h
    · cases h
    · rename_i heq
      cases h
      exact (reset_unmark_num_vars _).trans (minimize_loop_num_vars heq)

theorem update_lrb_reasoned_num_vars : s.update_lrb_reasoned.m_num_vars = s.m_num_vars := by
  have hlit : ∀ (s : solver) l, (s.update_lrb_reasoned_lit l).m_num_vars = s.m_num_vars := fun s l => by
    unfold update_lrb_reasoned_lit
    split <;> rfl
  have helim : ∀ (f : literal → solver) s (o : Option literal), (∀ l, (f l).m_num_vars = s.m_num_vars) →
      (o.elim s f).m_num_vars = s.m_num_vars := fun f s o hf => by
    cases o with
    | none => rfl
    | some l => exact hf l
  refine (foldl_num_vars (by intros; rfl) _ _).trans ((helim _ _ _ (by intros; rfl)).trans ?_)
  refine (foldl_num_vars (fun s l => foldl_num_vars hlit _ _) _ _).trans ?_
  exact helim _ _ _ (by intros; rfl)

theorem reset_lemma_var_marks_num_vars : s.reset_lemma_var_marks.m_num_vars = s.m_num_vars := by
  refine (foldl_num_vars (by intros; rfl) _ _).trans ?_
  split
  · exact update_lrb_reasoned_num_vars
  · rfl

theorem dyn_sub_res_collect_num_vars (kept lits : List literal) :
    (dyn_sub_res_collect s kept lits).1.m_num_vars = s.m_num_vars := by
  induction lits generalizing s kept with
  | nil => rfl
  | cons l lits ih =>
    rw [dyn_sub_res_collect]
    split
    · exact ih _
    · exact ih _

theorem dyn_sub_res_num_vars : s.dyn_sub_res.m_num_vars = s.m_num_vars := by
  unfold dyn_sub_res
  split
  · rfl
  · refine (dyn_sub_res_collect_num_vars _ _).trans ((foldl_num_vars (fun s l => ?_) _ _).trans
      (foldl_num_vars (by intros; rfl) _ _))
    unfold dyn_sub_res_lit
    split
    · refine foldl_num_vars (fun s l2 => ?_) _ _
      unfold dyn_sub_res_step
      split <;> rfl
    · rfl

theorem conflict_lemma_num_vars (h : s.conflict_lemma = some s') : s'.m_num_vars = s.m_num_vars := by
  obtain ⟨s1, h1, h2⟩ := bind_eq_some_iff.mp h
  refine Eq.trans ?_ (resolve_first_uip_num_vars h1)
  unfold simplify_lemma at h2
  split at h2
  · split at h2
    · cases h2
    · rename_i s2 hmin
      cases h2
      refine Eq.trans ?_ (minimize_lemma_num_vars hmin)
      split
      · exact dyn_sub_res_num_vars.trans reset_lemma_var_marks_num_vars
      · exact reset_lemma_var_marks_num_vars
  · cases h2
    exact reset_lemma_var_marks_num_vars

/-- Conflict analysis makes no variables. -/
theorem resolve_conflict_core_num_vars {r : solver × lbool} (h : s.resolve_conflict_core = some r) :
    r.1.m_num_vars = s.m_num_vars := by
  revert h
  fun_cases resolve_conflict_core with
  | case1 | case2 =>
    rintro ⟨⟩
    rfl
  | case3 =>
    intro h
    obtain ⟨s1, h1, rfl⟩ := map_eq_some_iff.mp h
    exact (pop_reinit_searchFrame h1).num_vars
  | case4 =>
    intro h
    obtain ⟨s1, h1, rfl⟩ := map_eq_some_iff.mp h
    obtain ⟨s2, h2, h3⟩ := bind_eq_some_iff.mp h1
    have hlemma := conflict_lemma_num_vars h2
    exact (backjump_and_learn_searchFrame h3).num_vars.trans hlemma

end sat.solver
