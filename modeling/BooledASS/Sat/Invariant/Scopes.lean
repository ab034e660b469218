import BooledASS.Sat.Invariant.Backtrack
import BooledASS.Sat.Invariant.Frames

open Cnf List

namespace sat.solver

/-- Where the scope `k` begins on the trail, or the end of the trail. -/
def trail_limit (s : solver) (k : Nat) : Nat := s.m_scopes[k]?.elim s.m_trail.length scope.m_trail_lim

/-- The scopes from some level on have been undone; what stood before them on the trail stays there. -/
def Cut (s s' : solver) : Prop := ∃ k, s'.m_scopes = s.m_scopes.take k ∧ s.m_trail.take (s.trail_limit k) <+: s'.m_trail

/-- Every scope begins with a literal of its own. -/
structure ScopesOk (s : solver) : Prop where
  sorted : (s.m_scopes.map scope.m_trail_lim).Pairwise (· < ·)
  lim_lt : ∀ sc ∈ s.m_scopes, sc.m_trail_lim < s.m_trail.length

variable {s s' : solver}

theorem Grown.cut (h : Grown s s') : Cut s s' := by
  refine ⟨s.scope_lvl, by simpa [scope_lvl] using h.scopes, ?_⟩
  have hnone : s.m_scopes[s.scope_lvl]? = none := getElem?_eq_none_iff.mpr le_rfl
  simpa [trail_limit, hnone] using h.trail

theorem Cut.grown {s1 : solver} (h : Cut s s1) (h' : Grown s1 s') : Cut s s' := by
  obtain ⟨k, hscopes, htrail⟩ := h
  exact ⟨k, h'.scopes.trans hscopes, htrail.trans h'.trail⟩

/-- Only the trail and the scopes count. -/
theorem Cut.congr_left {s1 : solver} (h : Cut s s') (htrail : s1.m_trail = s.m_trail)
    (hscopes : s1.m_scopes = s.m_scopes) : Cut s1 s' := by
  obtain ⟨k, h1, h2⟩ := h
  exact ⟨k, hscopes ▸ h1, by rwa [trail_limit, htrail, hscopes]⟩

section

variable (h : s.ScopesOk)
include h

theorem ScopesOk.lim_lt_lim {i k : Nat} {sc sc' : scope} (hi : s.m_scopes[i]? = some sc)
    (hk : s.m_scopes[k]? = some sc') (hik : i < k) : sc.m_trail_lim < sc'.m_trail_lim := by
  obtain ⟨hi, rfl⟩ := List.getElem?_eq_some_iff.mp hi
  obtain ⟨hk, rfl⟩ := List.getElem?_eq_some_iff.mp hk
  have hp := pairwise_iff_getElem.mp h.sorted i k (by rwa [length_map]) (by rwa [length_map]) hik
  rwa [getElem_map, getElem_map] at hp

/-- Later scopes begin later on the trail. -/
theorem ScopesOk.limit_mono {i k : Nat} (hik : i ≤ k) : s.trail_limit i ≤ s.trail_limit k := by
  rcases hik.eq_or_lt with rfl | hlt
  · exact le_rfl
  unfold trail_limit
  cases hk : s.m_scopes[k]? with
  | none =>
    cases hi : s.m_scopes[i]? with
    | none => exact le_rfl
    | some sc => exact (h.lim_lt sc (mem_of_getElem? hi)).le
  | some sck =>
    have hi := getElem?_eq_getElem (hlt.trans (List.getElem?_eq_some_iff.mp hk).1)
    rw [hi]
    exact (h.lim_lt_lim hi hk hlt).le

theorem ScopesOk.limit_le (k : Nat) : s.trail_limit k ≤ s.m_trail.length := by
  unfold trail_limit
  cases hk : s.m_scopes[k]? with
  | none => exact le_rfl
  | some sc => exact (h.lim_lt sc (mem_of_getElem? hk)).le

/-- Undoing scopes keeps the others as they are, each with its decision on the trail. -/
theorem ScopesOk.cut (hcut : Cut s s') : s'.ScopesOk := by
  obtain ⟨k, hscopes, htrail⟩ := hcut
  refine ⟨?_, fun sc hsc => ?_⟩
  · rw [hscopes, map_take]
    exact h.sorted.sublist (take_sublist _ _)
  · rw [hscopes] at hsc
    obtain ⟨i, hi, hieq⟩ := getElem_of_mem hsc
    rw [length_take] at hi
    rw [getElem_take] at hieq
    have hlen := htrail.length_le
    rw [length_take, min_eq_left (h.limit_le k)] at hlen
    refine lt_of_lt_of_le ?_ hlen
    unfold trail_limit
    cases hk : s.m_scopes[k]? with
    | none => exact hieq ▸ h.lim_lt _ (getElem_mem _)
    | some sck => exact h.lim_lt_lim (hieq ▸ getElem?_eq_getElem _) hk (by omega)

/-- A decision opens a scope and is its first literal. -/
theorem ScopesOk.decide_lit {l : literal} (hundef : s.value l = .l_undef) : (s.push.assign_scoped l).ScopesOk := by
  have heq : s.push.assign_scoped l = s.push.assign_core l (.none s.push.scope_lvl) := by
    have hvalue : s.push.value l = .l_undef := hundef
    simp [assign_scoped, assign, hvalue]
  have hscopes : (s.push.assign_scoped l).m_scopes =
      s.m_scopes ++ [⟨s.m_trail.length, s.m_clauses_to_reinit.length⟩] := by
    rw [heq]
    rfl
  have htrail : (s.push.assign_scoped l).m_trail = s.m_trail ++ [l] := by
    rw [heq]
    rfl
  refine ⟨?_, ?_⟩
  · rw [hscopes, map_append, pairwise_append]
    refine ⟨h.sorted, by simp, fun x hx y hy => ?_⟩
    obtain ⟨sc, hsc, rfl⟩ := mem_map.mp hx
    obtain rfl : y = s.m_trail.length := by simpa using hy
    exact h.lim_lt sc hsc
  · rw [hscopes, htrail, length_append]
    exact Lists.forall_mem_concat (fun sc hsc => (h.lim_lt sc hsc).trans (Nat.lt_succ_self _)) (Nat.lt_succ_self _)

/-- The literal with which the scope `k` begins. -/
theorem ScopesOk.scope_literal {k : Nat} (hk : k < s.scope_lvl) : ∃ d ∈ s.m_trail, s.scope_literal k = some d := by
  have hlt := h.lim_lt s.m_scopes[k] (getElem_mem hk)
  exact ⟨s.m_trail[s.m_scopes[k].m_trail_lim], getElem_mem _, by simp [solver.scope_literal, getElem?_eq_getElem hk]⟩

end

/-- It does not exceed the level of the scope. -/
theorem TrailInv.scope_literal_level {F : Set (List literal)} {G : Prop} (ht : s.TrailInv F G) (h : s.ScopesOk)
    {k : Nat} {d : literal} (hd : s.scope_literal k = some d) : d ∈ s.m_trail ∧ s.lvl d.var ≤ k + 1 := by
  obtain ⟨sc, hsc, hlim⟩ := Option.bind_eq_some_iff.mp hd
  have hmem := mem_of_getElem? hlim
  refine ⟨hmem, ?_⟩
  cases hnext : s.m_scopes[k + 1]? with
  | none =>
    have hlen : s.scope_lvl ≤ k + 1 := getElem?_eq_none_iff.mp hnext
    exact (ht.level_le d hmem).trans hlen
  | some sc' =>
    have hlt := h.lim_lt_lim hsc hnext (Nat.lt_succ_self k)
    refine ht.level_lim (k + 1) sc' hnext d ?_
    exact mem_of_getElem? ((getElem?_take_of_lt hlt).trans hlim)

theorem pop_cut (n : Nat) : Cut s (s.pop n) := by
  unfold pop
  dsimp only
  split
  · exact (Grown.refl s).cut
  · rename_i sc hsc
    have hunwind : Cut s (s.unwind sc (s.scope_lvl - n)) :=
      ⟨s.scope_lvl - n, rfl, by simp [trail_limit, hsc, unwind, unassign_vars]⟩
    exact (hunwind.grown (reinit_loop_attached _ _ _).toGrown).grown ⟨rfl, prefix_refl _, rfl⟩

theorem pop_reinit_eq (n : Nat) (hfree : s.tracking_assumptions = false) : s.pop_reinit n = some (s.pop n) := by
  have htrack := (pop_searchFrame n).tracking_assumptions.trans hfree
  simp [pop_reinit, reinit_assumptions, htrack]

/-- Backjumping undoes scopes; the lemma that is learned then only appends to the trail. -/
theorem backjump_and_learn_cut (hfree : s.tracking_assumptions = false)
    (h : s.backjump_and_learn = some s') : Cut s s' := by
  have hpop : ∀ {n s1}, s.pop_reinit n = some s1 → Cut s s1 := fun {n s1} hs1 => by
    rw [pop_reinit_eq n hfree, Option.some.injEq] at hs1
    exact hs1 ▸ pop_cut n
  unfold backjump_and_learn at h
  split at h
  · obtain ⟨s1, hs1, rfl⟩ := Option.map_eq_some_iff.mp h
    exact (hpop hs1).grown (mk_clause_core_grown _ _)
  · obtain ⟨s1, hs1, rfl⟩ := Option.map_eq_some_iff.mp h
    have hback : Cut s s1 := by
      unfold backjump at hs1
      dsimp only at hs1
      split at hs1
      · exact hpop hs1
      · exact hpop hs1
    exact (hback.grown (mk_clause_core_grown _ _)).grown ⟨rfl, prefix_refl _, rfl⟩

end sat.solver
