import BooledASS.Sat.Solver.Conflict

open Cnf List

namespace sat

/-- `Watches l lits others`: the literal is one of the first two of a clause, and `others` are the
remaining ones in their order. -/
inductive Watches (l : literal) : List literal → List literal → Prop
  | first (rest : List literal) : Watches l (l :: rest) rest
  | second (w : literal) (rest : List literal) : Watches l (w :: l :: rest) (w :: rest)

theorem Watches.mem_iff {l : literal} {lits others : List literal} (h : Watches l lits others)
    (m : literal) : m ∈ lits ↔ m = l ∨ m ∈ others := by
  cases h with
  | first => exact mem_cons
  | second w rest =>
    simp only [mem_cons]
    tauto

namespace solver

variable (s : solver)

/-- The trail lists the assigned literals, one for each variable. -/
structure TrailOk : Prop where
  nodup : (s.m_trail.map Lit.var).Nodup
  value_true : ∀ l, s.value l = .l_true ↔ l ∈ s.m_trail

/-- The literals other than `l` of the clause behind a justification of `l`. -/
inductive Reason (l : literal) : justification.kind → List literal → Prop
  | binary (l2 : literal) : Reason l (.BINARY l2) [l2]
  | clause (off : clause_offset) (others : List literal) :
      Watches l (s.m_cls off).m_lits others → Reason l (.CLAUSE off) others

/-- The justification of `l` is a clause entailed by `F` whose other literals are false and stand in
`pre`, the trail before `l`. -/
def Justified (F : Set (List literal)) (pre : List literal) (l : literal) : Prop :=
  ∃ others, s.Reason l (s.m_justification l.var).get_kind others ∧ (∀ m ∈ others, ~~~m ∈ pre) ∧ Entails F (l :: others)

/-- The true literals a conflict blames: `m_not_l` and the antecedents of `m_conflict`. -/
def conflict_antecedents : List literal := s.m_not_l.toList ++ s.antecedents (s.m_not_l.map (~~~·)) s.m_conflict

/-- What conflict analysis relies on: literals of level 0 are entailed, and every literal above
level 0 has a reason on the trail or no justification. -/
structure Analyzable (F : Set (List literal)) : Prop extends s.TrailOk where
  unit : ∀ l ∈ s.m_trail, s.lvl l.var = 0 → Entails F [l]
  just : ∀ pre l post, s.m_trail = pre ++ l :: post → 0 < s.lvl l.var →
    (s.m_justification l.var).get_kind = .NONE ∨ s.Justified F pre l

/-- A literal of the conflict level without a justification comes first of its level. -/
def DecisionFirst : Prop :=
  ∀ pre l post, s.m_trail = pre ++ l :: post → (s.m_justification l.var).get_kind = .NONE →
    s.lvl l.var = s.m_conflict_lvl → ∀ m ∈ pre, s.lvl m.var ≠ s.m_conflict_lvl

variable {s} {F : Set (List literal)} {pre post others : List literal} {l m : literal}

theorem TrailOk.eq_of_var_eq (h : s.TrailOk) (hl : l ∈ s.m_trail) (hm : m ∈ s.m_trail) (hvar : l.var = m.var) : l = m :=
  inj_on_of_nodup_map h.nodup hl hm hvar

theorem TrailOk.value_false (h : s.TrailOk) : s.value l = .l_false ↔ ~~~l ∈ s.m_trail := by
  rw [← h.value_true, value_compl, lbool.neg_eq_true]

theorem TrailOk.not_compl_mem (h : s.TrailOk) (hl : l ∈ s.m_trail) : ~~~l ∉ s.m_trail := by
  intro hl'
  simpa using h.eq_of_var_eq hl' hl

theorem TrailOk.var_not_mem_pre (h : s.TrailOk) (htrail : s.m_trail = pre ++ l :: post) : ∀ m ∈ pre, m.var ≠ l.var := by
  intro m hm hvar
  have hnodup := h.nodup
  rw [htrail, map_append] at hnodup
  exact (nodup_append.mp hnodup).2.2 m.var (mem_map_of_mem hm) l.var (by simp) hvar

theorem clause_antecedents_of_watches {c : clause} (h : Watches l c.m_lits others) :
    clause_antecedents c (some l) = others := by
  obtain ⟨lits, _, _, _, _, _⟩ := c
  cases h with
  | first => simp [clause_antecedents, clause.at]
  | second w rest => by_cases hwl : w = l <;> simp [clause_antecedents, clause.at, hwl]

/-- The antecedents of a propagated literal are the complements of the other literals of its reason. -/
theorem Reason.antecedents_eq {j : justification} (h : s.Reason l j.get_kind others) :
    s.antecedents (some l) j = others.map (~~~·) := by
  obtain ⟨level, k⟩ := j
  cases h with
  | binary l2 => rfl
  | clause off others hw => simp [antecedents, clause_antecedents_of_watches hw]

/-- Minimization goes through the same antecedents as conflict analysis, although it recognises the first watch by its
variable. -/
theorem Reason.antecedents_of_var_eq {k : justification.kind} (h : s.Reason l k others)
    (hk : (s.m_justification l.var).get_kind = k) (hl : ~~~l ∉ others) :
    s.antecedents_of_var l.var = others.map (~~~·) := by
  cases h with
  | binary l2 => simp [antecedents_of_var, hk]
  | clause off others hw =>
    simp only [antecedents_of_var, hk]
    generalize s.m_cls off = c at hw
    obtain ⟨lits, _, _, _, _, _⟩ := c
    cases hw with
    | first => simp [clause.at]
    | second w rest =>
      by_cases hvar : w.var = l.var
      · rcases Lit.eq_or_eq_compl_of_var_eq hvar with rfl | rfl
        · simp [clause.at]
        · simp at hl
      · simp [clause.at, hvar]

theorem Reason.kind_ne_none {k : justification.kind} (h : s.Reason l k others) : k ≠ .NONE := by
  rintro rfl
  cases h

end solver

end sat
