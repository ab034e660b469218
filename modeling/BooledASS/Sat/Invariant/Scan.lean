import BooledASS.Sat.Invariant.Watch

open Cnf List

namespace sat.solver

variable {s : solver} {curr_level : Nat}

/-- The local variables of the scan once the literals `seen` of a clause have been passed. -/
structure ScanInv (s : solver) (curr_level : Nat) (seen : List literal) (v : scan_vars) : Prop where
  level_ge : curr_level ≤ v.assign_level
  level_le : ∀ y ∈ seen, s.value y = .l_false → s.lvl y.var ≤ v.assign_level
  max_at : v.max_index = 1 ∧ v.assign_level = curr_level ∨
    ∃ i y, v.max_index = i + 2 ∧ seen[i]? = some y ∧ s.value y = .l_false ∧ s.lvl y.var = v.assign_level
  all_false : v.num_undef = 0 → v.undef_index = 0 ∧ ∀ y ∈ seen, s.value y = .l_false
  undef : v.num_undef ≠ 0 → ∃ i x, v.undef_index = i + 2 ∧ seen[i]? = some x ∧ s.value x = .l_undef ∧
    (v.num_undef = 1 → ∀ k y, seen[k]? = some y → k ≠ i → s.value y = .l_false)

private theorem ScanInv.pass_undef {seen : List literal} {v : scan_vars} {x : literal}
    (h : ScanInv s curr_level seen v) (hx : s.value x = .l_undef) :
    ScanInv s curr_level (seen ++ [x]) { v with undef_index := seen.length + 2, num_undef := v.num_undef + 1 } where
  level_ge := h.level_ge
  level_le := Lists.forall_mem_concat h.level_le fun hfalse => by simp [hx] at hfalse
  max_at := by
    refine h.max_at.imp_right ?_
    rintro ⟨i, y, hi, hy, hrest⟩
    exact ⟨i, y, hi, by rw [getElem?_append_left (List.getElem?_eq_some_iff.mp hy).1, hy], hrest⟩
  all_false hzero := by simp at hzero
  undef _ := by
    refine ⟨seen.length, x, rfl, by simp, hx, fun hone k y hy hk => ?_⟩
    have hzero : v.num_undef = 0 := by simpa using hone
    have hlt : k < seen.length := by
      have hlen := (List.getElem?_eq_some_iff.mp hy).1
      simp only [length_append, length_singleton] at hlen
      omega
    rw [getElem?_append_left hlt] at hy
    exact (h.all_false hzero).2 y (mem_of_getElem? hy)

private theorem ScanInv.pass_false {seen : List literal} {v : scan_vars} {x : literal}
    (h : ScanInv s curr_level seen v) (hx : s.value x = .l_false) :
    ScanInv s curr_level (seen ++ [x]) (if s.lvl x.var > v.assign_level then
        { v with assign_level := s.lvl x.var, max_index := seen.length + 2 } else v) := by
  have hnone : v.num_undef = 0 → v.undef_index = 0 ∧ ∀ y ∈ seen ++ [x], s.value y = .l_false := by
    intro hzero
    obtain ⟨hindex, hall⟩ := h.all_false hzero
    exact ⟨hindex, Lists.forall_mem_concat hall hx⟩
  have hsome : v.num_undef ≠ 0 → ∃ i z, v.undef_index = i + 2 ∧ (seen ++ [x])[i]? = some z ∧ s.value z = .l_undef ∧
      (v.num_undef = 1 → ∀ k y, (seen ++ [x])[k]? = some y → k ≠ i → s.value y = .l_false) := by
    intro hpos
    obtain ⟨i, z, hi, hz, hundef, hothers⟩ := h.undef hpos
    have hilt := (List.getElem?_eq_some_iff.mp hz).1
    refine ⟨i, z, hi, by rw [getElem?_append_left hilt, hz], hundef, fun hone k y hy hk => ?_⟩
    rcases Nat.lt_or_ge k seen.length with hlt | hge
    · rw [getElem?_append_left hlt] at hy
      exact hothers hone k y hy hk
    · rw [getElem?_append_right hge] at hy
      obtain rfl : y = x := by simpa using mem_of_getElem? hy
      exact hx
  split
  · rename_i hgt
    exact ⟨h.level_ge.trans hgt.le, Lists.forall_mem_concat (fun y hy hfalse => (h.level_le y hy hfalse).trans hgt.le)
      fun _ => le_rfl, .inr ⟨seen.length, x, rfl, by simp, hx, rfl⟩, hnone, hsome⟩
  · rename_i hle
    refine ⟨h.level_ge, Lists.forall_mem_concat h.level_le fun _ => not_lt.mp hle, h.max_at.imp_right ?_, hnone, hsome⟩
    rintro ⟨i, y, hi, hy, hrest⟩
    exact ⟨i, y, hi, by rw [getElem?_append_left (List.getElem?_eq_some_iff.mp hy).1, hy], hrest⟩

/-- The scan stops at a true literal, or has passed all literals, or has met two unassigned ones. -/
theorem scan_clause_spec (rest seen : List literal) (v : scan_vars) (h : ScanInv s curr_level seen v) :
    match s.scan_clause rest (seen.length + 2) v with
    | .error lit => lit ∈ rest ∧ s.value lit = .l_true
    | .ok v' => ∃ more, more <+: rest ∧ ScanInv s curr_level (seen ++ more) v' ∧ (more = rest ∨ 2 ≤ v'.num_undef) := by
  induction rest generalizing seen v with
  | nil => exact ⟨[], prefix_rfl, by simpa using h, .inl rfl⟩
  | cons x rest ih =>
    have hnext : ∀ v', ScanInv s curr_level (seen ++ [x]) v' → match s.scan_clause rest (seen.length + 2 + 1) v' with
        | .error lit => lit ∈ x :: rest ∧ s.value lit = .l_true
        | .ok v' => ∃ more, more <+: x :: rest ∧ ScanInv s curr_level (seen ++ more) v' ∧
            (more = x :: rest ∨ 2 ≤ v'.num_undef) := by
      intro v' h'
      have hrec := ih (seen ++ [x]) v' h'
      rw [length_append, length_singleton, Nat.add_right_comm] at hrec
      cases hscan : s.scan_clause rest (seen.length + 2 + 1) v' with
      | error lit =>
        rw [hscan] at hrec
        exact ⟨mem_cons_of_mem _ hrec.1, hrec.2⟩
      | ok v'' =>
        rw [hscan] at hrec
        obtain ⟨more, hpre, hinv, hend⟩ := hrec
        exact ⟨x :: more, (prefix_cons_inj x).mpr hpre, by simpa using hinv, hend.imp_left fun heq => by rw [heq]⟩
    rw [scan_clause]
    by_cases hn : v.num_undef ≤ 1
    · rw [if_pos hn]
      cases hval : s.value x with
      | l_true => exact ⟨by simp, hval⟩
      | l_undef => exact hnext _ (h.pass_undef hval)
      | l_false =>
        have hpass := hnext _ (h.pass_false hval)
        by_cases hlvl : s.lvl x.var > v.assign_level
        · simpa only [hlvl, if_true] using hpass
        · simpa only [hlvl, if_false] using hpass
    · rw [if_neg hn]
      exact ⟨[], List.nil_prefix, by simpa using h, .inr (by omega)⟩

end sat.solver
