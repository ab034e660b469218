import BooledASS.Logic.Cnf

/-!
# Repairing a model

A model of a simplified clause set is made a model of the original one by a sequence of repairs: where a removed clause
is false, one of its literals is made true.
-/

open List Function

namespace Cnf

variable {ν : Type} [DecidableEq ν] {a : ν → Bool} {l m : Lit ν} {c d : List (Lit ν)}

/-- The assignment in which `l` is true. -/
def Lit.assign (l : Lit ν) (a : ν → Bool) : ν → Bool := update a l.var (!l.sign)

/-- Make the clause true with the literal `r.1`. -/
def repair (a : ν → Bool) (r : Lit ν × List (Lit ν)) : ν → Bool := if Satisfies a r.2 then a else r.1.assign a

theorem Lit.assign_of_holds (h : l.Holds a) : l.assign a = a := by rw [Lit.assign, ← h, update_eq_self]

theorem repair_congr (h : ∀ x, x ∈ c ↔ x ∈ d) : repair a (l, c) = repair a (l, d) := by
  have hsat : Satisfies a c ↔ Satisfies a d := by
    unfold Satisfies
    simp only [h]
  simp only [repair, hsat]

theorem repair_of_satisfies (h : Satisfies a c) : repair a (l, c) = a := if_pos h
theorem repair_of_not_satisfies (h : ¬ Satisfies a c) : repair a (l, c) = l.assign a := if_neg h

/-- The clause is false apart from the literals of the variable. -/
def Needs (a : ν → Bool) (v : ν) (c : List (Lit ν)) : Prop := ∀ x ∈ c, x.var ≠ v → ¬ x.Holds a

/-- A repair decides the value of one variable by the other literals of the clause. -/
theorem repair_eq_assign (hl : l ∈ c) (huniq : ∀ x ∈ c, x.var = l.var → x = l) (h : Needs a l.var c) :
    repair a (l, c) = l.assign a := by
  by_cases hsat : Satisfies a c
  · obtain ⟨x, hx, hold⟩ := hsat
    obtain rfl : x = l := by
      by_contra hne
      exact h x hx (fun hvar => hne (huniq x hx hvar)) hold
    rw [repair_of_satisfies ⟨x, hx, hold⟩, Lit.assign_of_holds hold]
  · rw [repair_of_not_satisfies hsat]

theorem repair_eq_self (h : ¬ Needs a l.var c) : repair a (l, c) = a := by
  unfold Needs at h
  push Not at h
  obtain ⟨x, hx, -, hold⟩ := h
  exact repair_of_satisfies ⟨x, hx, hold⟩

variable {v : ν} {rs : List (Lit ν × List (Lit ν))}

theorem needs_assign (hv : l.var = v) : Needs (l.assign a) v c ↔ Needs a v c := by
  refine forall₂_congr fun x _ => imp_congr_right fun hne => ?_
  rw [Lit.Holds, Lit.Holds, Lit.assign, update_of_ne (by rwa [hv])]

theorem needs_repair (hv : l.var = v) (d : List (Lit ν)) : Needs (repair a (l, d)) v c ↔ Needs a v c := by
  unfold repair
  split
  · exact Iff.rfl
  · exact needs_assign hv

/-- Repairs of one variable, each with the only literal of the variable in its clause. -/
structure RepairsOf (v : ν) (rs : List (Lit ν × List (Lit ν))) : Prop where
  var : ∀ r ∈ rs, r.1.var = v
  mem : ∀ r ∈ rs, r.1 ∈ r.2
  unique : ∀ r ∈ rs, ∀ x ∈ r.2, x.var = v → x = r.1

omit [DecidableEq ν] in
theorem RepairsOf.tail {r : Lit ν × List (Lit ν)} (h : RepairsOf v (r :: rs)) : RepairsOf v rs :=
  ⟨fun x hx => h.var x (mem_cons_of_mem r hx), fun x hx => h.mem x (mem_cons_of_mem r hx),
    fun x hx => h.unique x (mem_cons_of_mem r hx)⟩

/-- If the clauses that need the variable agree on its value, then this is the value after the repairs. -/
theorem foldl_repair (h : RepairsOf v rs) (hagree : ∀ r ∈ rs, ∀ t ∈ rs, Needs a v r.2 → Needs a v t.2 → r.1 = t.1) :
    (∀ r ∈ rs, Needs a v r.2 → rs.foldl repair a = r.1.assign a) ∧
      ((∀ r ∈ rs, ¬ Needs a v r.2) → rs.foldl repair a = a) := by
  induction rs generalizing a with
  | nil => simp
  | cons r rs ih =>
    have hvar : r.1.var = v := h.var r (by simp)
    have hagree' : ∀ t ∈ rs, ∀ t' ∈ rs, Needs (repair a r) v t.2 → Needs (repair a r) v t'.2 → t.1 = t'.1 := by
      intro t ht t' ht' hn hn'
      rw [needs_repair hvar] at hn hn'
      exact hagree t (mem_cons_of_mem r ht) t' (mem_cons_of_mem r ht') hn hn'
    obtain ⟨hneed, hnone⟩ := ih h.tail hagree'
    rw [foldl_cons]
    refine ⟨fun t ht hn => ?_, fun hall => ?_⟩
    · by_cases hrest : ∃ t' ∈ rs, Needs a v t'.2
      · -- a later clause decides, with the same literal
        obtain ⟨t', ht', hn'⟩ := hrest
        rw [hneed t' ht' ((needs_repair hvar _).mpr hn'), hagree t ht t' (mem_cons_of_mem r ht') hn hn']
        have hvar' : t'.1.var = v := h.var t' (mem_cons_of_mem r ht')
        unfold repair
        split
        · rfl
        · rw [Lit.assign, Lit.assign, Lit.assign, hvar, hvar', update_idem]
      · push Not at hrest
        obtain rfl : t = r := (mem_cons.mp ht).resolve_right fun ht' => hrest t ht' hn
        rw [hnone fun t' ht' hn' => hrest t' ht' ((needs_repair hvar _).mp hn')]
        subst hvar
        exact repair_eq_assign (h.mem t (by simp)) (h.unique t (by simp)) hn
    · have hself : repair a r = a := by
        subst hvar
        exact repair_eq_self (hall r (by simp))
      rw [hnone fun t ht hn => hall t (mem_cons_of_mem r ht) ((needs_repair hvar _).mp hn), hself]

/-- The order of such repairs does not matter. -/
theorem foldl_repair_reverse (h : RepairsOf v rs)
    (hagree : ∀ r ∈ rs, ∀ t ∈ rs, Needs a v r.2 → Needs a v t.2 → r.1 = t.1) :
    rs.reverse.foldl repair a = rs.foldl repair a := by
  have hrev : RepairsOf v rs.reverse := ⟨by simpa using h.var, by simpa using h.mem, by simpa using h.unique⟩
  obtain ⟨hneed, hnone⟩ := foldl_repair h hagree
  obtain ⟨hneed', hnone'⟩ := foldl_repair hrev (by simpa using hagree)
  by_cases hex : ∃ r ∈ rs, Needs a v r.2
  · obtain ⟨r, hr, hn⟩ := hex
    rw [hneed r hr hn, hneed' r (by simpa using hr) hn]
  · push Not at hex
    rw [hnone hex, hnone' (by simpa using hex)]

/-- The two clauses of an equivalence set the variable to the value of the other literal. -/
theorem repair_equivalence (hne : m.var ≠ l.var) :
    repair (repair a (~~~l, [~~~l, ~~~m])) (l, [l, m]) = if m.Holds a then (~~~l).assign a else l.assign a := by
  have huniq : ∀ x ∈ [l, m], x.var = l.var → x = l := by simp [hne]
  have huniq' : ∀ x ∈ [~~~l, ~~~m], x.var = (~~~l).var → x = ~~~l := by simp [hne]
  split
  next hm =>
    rw [repair_eq_assign (by simp) huniq' (by simpa [Needs, hne] using hm)]
    refine repair_of_satisfies ⟨m, by simp, ?_⟩
    rwa [Lit.Holds, Lit.assign, Lit.compl_var, update_of_ne hne]
  next hm =>
    rw [repair_of_satisfies ⟨~~~m, by simp, Lit.holds_compl.mpr hm⟩]
    exact repair_eq_assign (by simp) huniq (by simpa [Needs, hne] using hm)

end Cnf
