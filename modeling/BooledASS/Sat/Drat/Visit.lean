import Mathlib.Data.List.Nodup
import BooledASS.Logic.UnitPropagation
import BooledASS.Sat.Drat.Checker

open Function List

namespace sat.drat

variable {s s' s0 : drat} {l m w o : literal} {idx : Nat}

/-! ### Values -/

@[simp] theorem value_compl : s.value (~~~l) = (s.value l).neg := by
  cases hsign : l.sign <;> cases hval : s.m_assignment l.var <;> simp [value, hsign, hval, lbool.neg]

theorem value_ne_true_of_compl (h : s.value (~~~l) = .l_true) : s.value l ≠ .l_true := fun hl => by simp [hl] at h

theorem value_congr {s' : drat} (h : s'.m_assignment l.var = s.m_assignment l.var) : s'.value l = s.value l := by
  simp [value, h]

/-- The state after `assign` of a literal that has no value. -/
def push_unit (s : drat) (l : literal) (c : Option drat.clause) : drat :=
  { s with
    m_assignment := update s.m_assignment l.var (if l.sign then .l_false else .l_true)
    m_units := s.m_units ++ [(l, c)] }

theorem assign_of_undef (h : s.value l = .l_undef) (c : Option drat.clause) : s.assign l c = s.push_unit l c := by
  rw [assign, h, push_unit]

theorem value_push_unit_self (c : Option drat.clause) : (s.push_unit l c).value l = .l_true := by
  cases hsign : l.sign <;> simp [value, push_unit, hsign]

theorem value_push_unit_of_ne (h : m.var ≠ l.var) (c : Option drat.clause) : (s.push_unit l c).value m = s.value m :=
  value_congr (update_of_ne h _ _)

theorem value_push_unit_eq_true (hl : s.value l = .l_undef) (c : Option drat.clause) :
    (s.push_unit l c).value m = .l_true ↔ s.value m = .l_true ∨ m = l := by
  by_cases hvar : m.var = l.var
  · rcases Cnf.Lit.eq_or_eq_compl_of_var_eq hvar with rfl | rfl
    · simp [value_push_unit_self]
    · simp [value_push_unit_self, hl]
  · have hne : m ≠ l := fun h => hvar (by rw [h])
    simp [value_push_unit_of_ne hvar, hne]

/-- What has a value keeps it. -/
theorem value_push_unit_of_ne_undef (hl : s.value l = .l_undef) (hm : s.value m ≠ .l_undef)
    (c : Option drat.clause) : (s.push_unit l c).value m = s.value m := by
  refine value_push_unit_of_ne (fun hvar => hm ?_) c
  rcases Cnf.Lit.eq_or_eq_compl_of_var_eq hvar with rfl | rfl
  · exact hl
  · simp [hl, lbool.neg]

/-! ### The two watches of a clause -/

/-- One watch of the clause and the other one. -/
def watched_clause.Watches (wc : watched_clause) (w o : literal) : Prop :=
  (w = wc.m_l1 ∧ o = wc.m_l2) ∨ (w = wc.m_l2 ∧ o = wc.m_l1)

theorem watched_clause.Watches.symm {wc : watched_clause} (h : wc.Watches w o) : wc.Watches o w :=
  h.elim (fun h => .inr ⟨h.2, h.1⟩) fun h => .inl ⟨h.2, h.1⟩

/-- The watches of a clause are known from one of them and the other one. -/
theorem watched_clause.Watches.exists_iff {wc : watched_clause} (h : wc.Watches w o) :
    (∃ o', wc.Watches l o') ↔ l = w ∨ l = o := by
  constructor
  · rintro ⟨o', ho'⟩
    rcases h with ⟨rfl, rfl⟩ | ⟨rfl, rfl⟩
    · exact ho'.imp And.left And.left
    · exact (ho'.imp And.left And.left).symm
  · rintro (rfl | rfl)
    · exact ⟨o, h⟩
    · exact ⟨w, h.symm⟩

theorem watches_mk {c : drat.clause} {l1 l2 : literal} :
    (watched_clause.mk c l1 l2).Watches w o ↔ (w = l1 ∧ o = l2) ∨ (w = l2 ∧ o = l1) := Iff.rfl

/-- The watches are two literals of the clause. -/
structure watched_clause.Proper (wc : watched_clause) : Prop where
  m_l1 : wc.m_l1 ∈ wc.m_clause.lits
  m_l2 : wc.m_l2 ∈ wc.m_clause.lits
  ne : wc.m_l1 ≠ wc.m_l2

theorem watched_clause.Proper.mem {wc : watched_clause} (h : wc.Proper) (hw : wc.Watches w o) :
    w ∈ wc.m_clause.lits ∧ o ∈ wc.m_clause.lits ∧ w ≠ o := by
  rcases hw with ⟨rfl, rfl⟩ | ⟨rfl, rfl⟩
  · exact ⟨h.m_l1, h.m_l2, h.ne⟩
  · exact ⟨h.m_l2, h.m_l1, h.ne.symm⟩

theorem watched_clause.Proper.order {wc : watched_clause} (h : wc.Proper) (hw : wc.Watches (~~~l) o) :
    wc.order l = ⟨wc.m_clause, o, ~~~l⟩ := by
  rw [watched_clause.order]
  rcases hw with ⟨hw, rfl⟩ | ⟨hw, rfl⟩
  · rw [if_pos hw.symm, ← hw]
  · rw [if_neg fun h1 => h.ne (h1.trans hw), hw]

/-! ### The visit of one watch -/

/-- What the visit of the watch `~l` of the clause at `idx` with the other watch `o` leads to. -/
inductive Visits (s : drat) (l : literal) (idx : Nat) (c : drat.clause) (o : literal) : drat → visit → Prop
  | satisfied : s.value o = .l_true → Visits s l idx c o (s.set_watched_clause idx ⟨c, o, ~~~l⟩) .keep
  | moved {lit : literal} : s.value o ≠ .l_true → lit ∈ c.lits → lit ≠ o → lit ≠ ~~~l → s.value lit ≠ .l_false →
      Visits s l idx c o ((s.set_watched_clause idx ⟨c, o, lit⟩).push_watch (~~~lit) idx) .drop
  | conflict : s.value o = .l_false → (∀ m ∈ c.lits, m ≠ o → m ≠ ~~~l → s.value m = .l_false) →
      Visits s l idx c o { s.set_watched_clause idx ⟨c, o, ~~~l⟩ with m_inconsistent := true } .conflict
  | unit : s.value o = .l_undef → (∀ m ∈ c.lits, m ≠ o → m ≠ ~~~l → s.value m = .l_false) →
      Visits s l idx c o ((s.set_watched_clause idx ⟨c, o, ~~~l⟩).push_unit o (some c)) .keep

/-- The visit of a watch has four outcomes: the other watch is true, the watch moves, the clause is in conflict, or it
is a unit. -/
theorem visits_visit_watch {wc : watched_clause} (hidx : s.m_watched_clauses[idx]? = some wc) (hproper : wc.Proper)
    (hw : wc.Watches (~~~l) o) : Visits s l idx wc.m_clause o (s.visit_watch l idx).1 (s.visit_watch l idx).2 := by
  have hvalue wc' m : (s.set_watched_clause idx wc').value m = s.value m := rfl
  rw [visit_watch, hidx]
  simp only [hproper.order hw, hvalue]
  split
  next htrue => exact .satisfied htrue
  next htrue =>
    split
    next lit hfind =>
      have hmem := mem_of_find?_eq_some hfind
      have hlit : lit ≠ o ∧ lit ≠ ~~~l ∧ s.value lit ≠ .l_false := by simpa using find?_some hfind
      have hset : (s.set_watched_clause idx ⟨wc.m_clause, o, ~~~l⟩).set_watched_clause idx ⟨wc.m_clause, o, lit⟩ =
          s.set_watched_clause idx ⟨wc.m_clause, o, lit⟩ := by
        simp [set_watched_clause]
      rw [hset]
      exact .moved htrue hmem hlit.1 hlit.2.1 hlit.2.2
    next hfind =>
      have hothers : ∀ m ∈ wc.m_clause.lits, m ≠ o → m ≠ ~~~l → s.value m = .l_false := by
        intro m hm hmo hml
        have hnot := find?_eq_none.mp hfind m hm
        simp only [decide_eq_true_eq, not_and, not_not] at hnot
        exact hnot hmo hml
      split
      next hfalse => exact .conflict hfalse hothers
      next hfalse =>
        have hundef : s.value o = .l_undef := by
          cases ho : s.value o with
          | l_false => exact absurd ho hfalse
          | l_undef => rfl
          | l_true => exact absurd ho htrue
        have hassign := assign_of_undef (s := s.set_watched_clause idx ⟨wc.m_clause, o, ~~~l⟩) hundef (some wc.m_clause)
        rw [hassign]
        exact .unit hundef hothers

/-! ### The watch lists -/

/-- The lists `ws` hold each clause at its two watches. -/
structure Watched (wcs : List watched_clause) (ws : literal → List Nat) : Prop where
  mem_iff : ∀ p idx, idx ∈ ws p ↔ ∃ wc, wcs[idx]? = some wc ∧ ∃ o, wc.Watches (~~~p) o
  nodup : ∀ p, (ws p).Nodup

section Lists

variable {wcs : List watched_clause} {ws : literal → List Nat} {wc : watched_clause}

theorem getElem?_set_eq_some {i : Nat} {wc' wc'' : watched_clause} (hidx : wcs[idx]? = some wc) :
    (wcs.set idx wc')[i]? = some wc'' ↔ (i = idx ∧ wc'' = wc') ∨ (i ≠ idx ∧ wcs[i]? = some wc'') := by
  have hlt : idx < wcs.length := (List.getElem?_eq_some_iff.mp hidx).1
  by_cases hi : i = idx
  · subst hi
    simp [hlt, eq_comm]
  · simp [getElem?_set_ne (Ne.symm hi), hi]

/-- The watches of a clause may be exchanged. -/
theorem Watched.swap (h : Watched wcs ws) (hidx : wcs[idx]? = some wc) {wc' : watched_clause}
    (hsame : ∀ w o, wc'.Watches w o ↔ wc.Watches w o) : Watched (wcs.set idx wc') ws where
  mem_iff p i := by
    rw [h.mem_iff]
    constructor
    · rintro ⟨wc'', hi, o, ho⟩
      by_cases heq : i = idx
      · subst heq
        obtain rfl := Option.some.inj (hidx.symm.trans hi)
        exact ⟨wc', (getElem?_set_eq_some hidx).mpr (.inl ⟨rfl, rfl⟩), o, (hsame _ _).mpr ho⟩
      · exact ⟨wc'', (getElem?_set_eq_some hidx).mpr (.inr ⟨heq, hi⟩), o, ho⟩
    · rintro ⟨wc'', hi, o, ho⟩
      rcases (getElem?_set_eq_some hidx).mp hi with ⟨rfl, rfl⟩ | ⟨-, hi⟩
      · exact ⟨wc, hidx, o, (hsame _ _).mp ho⟩
      · exact ⟨wc'', hi, o, ho⟩
  nodup := h.nodup

/-- The watch `~l` of the clause at `idx` is replaced by `lit`. -/
theorem Watched.move {kept todo : List Nat} (h : Watched wcs (update ws l (kept ++ idx :: todo)))
    (hidx : wcs[idx]? = some wc) (hproper : wc.Proper) (hw : wc.Watches (~~~l) o) {lit : literal} (hlit : lit ≠ o)
    (hlit' : lit ≠ ~~~l) :
    Watched (wcs.set idx ⟨wc.m_clause, o, lit⟩)
      (update (update ws (~~~lit) (ws (~~~lit) ++ [idx])) l (kept ++ todo)) := by
  have hl : ~~~lit ≠ l := fun heq => hlit' (Cnf.Lit.compl_eq_iff.mp heq)
  have hnodup := nodup_middle.mp (update_self l _ ws ▸ h.nodup l)
  rw [nodup_cons] at hnodup
  have hfresh : idx ∉ ws (~~~lit) := fun hmem => by
    have hat : idx ∈ update ws l (kept ++ idx :: todo) (~~~lit) := by rwa [update_of_ne hl]
    obtain ⟨wc', hwc', hlit''⟩ := (h.mem_iff _ _).mp hat
    obtain rfl := Option.some.inj (hidx.symm.trans hwc')
    rw [Cnf.Lit.compl_compl, hw.exists_iff] at hlit''
    exact hlit''.elim hlit' hlit
  constructor
  · intro p i
    have hold := h.mem_iff p i
    by_cases hi : i = idx
    · subst hi
      have hmk : watched_clause.Watches ⟨wc.m_clause, o, lit⟩ o lit := .inl ⟨rfl, rfl⟩
      have hget : (wcs.set i ⟨wc.m_clause, o, lit⟩)[i]? = some ⟨wc.m_clause, o, lit⟩ :=
        (getElem?_set_eq_some hidx).mpr (.inl ⟨rfl, rfl⟩)
      simp only [hidx, Option.some.injEq, exists_eq_left', hw.exists_iff] at hold
      simp only [hget, Option.some.injEq, exists_eq_left', hmk.exists_iff]
      by_cases hpl : p = l
      · subst hpl
        have ho : ~~~p ≠ o := (hproper.mem hw).2.2
        simp [hnodup.1, ho, hlit'.symm]
      · rw [update_of_ne hpl] at hold ⊢
        by_cases hplit : p = ~~~lit
        · subst hplit
          simp
        · have hne : ~~~p ≠ lit := fun h => hplit (Cnf.Lit.compl_eq_iff.mp h)
          rw [update_of_ne hplit, hold]
          simp [hne, hpl]
    · rw [getElem?_set_ne (Ne.symm hi), ← hold]
      by_cases hpl : p = l
      · subst hpl
        simp [hi]
      · rw [update_of_ne hpl, update_of_ne hpl]
        by_cases hplit : p = ~~~lit
        · subst hplit
          simp [hi]
        · rw [update_of_ne hplit]
  · intro p
    have hold := h.nodup p
    by_cases hpl : p = l
    · subst hpl
      simpa using hnodup.2
    · rw [update_of_ne hpl] at hold ⊢
      by_cases hplit : p = ~~~lit
      · subst hplit
        rw [update_self, ← concat_eq_append]
        exact hold.concat hfresh
      · rwa [update_of_ne hplit]

end Lists

end sat.drat
