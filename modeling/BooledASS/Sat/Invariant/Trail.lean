import BooledASS.Sat.Analysis.Lemma

open Cnf List

namespace sat.solver

variable (s : solver) (F : Set (List literal)) (G : Prop)

/-- `k` is the greatest level of the literals. -/
structure LevelMax (lits : List literal) (k : Nat) : Prop where
  le : ∀ m ∈ lits, s.lvl m.var ≤ k
  attained : ∃ m ∈ lits, s.lvl m.var = k

/-- The level `k` of a propagated literal is no less than those of the other literals of its clause. Only
a search of which `G` holds is held to give it the greatest of them: a lemma of one literal that has been
propagated already lowers the level of that literal to 0. What is learned is sound all the same. -/
structure LevelBound (lits : List literal) (k : Nat) : Prop where
  le : ∀ m ∈ lits, s.lvl m.var ≤ k
  attained : G → ∃ m ∈ lits, s.lvl m.var = k

/-- A justification for `l` after the trail `pre`: none, or a clause entailed by `F` whose other
literals are false in `pre` and do not exceed the level of the justification. -/
def Supports (pre : List literal) (l : literal) (j : justification) : Prop :=
  j.get_kind = .NONE ∨ ∃ others, s.Reason l j.get_kind others ∧ (∀ m ∈ others, ~~~m ∈ pre) ∧
    Entails F (l :: others) ∧ s.LevelBound G others j.level

/-- The invariant of the trail under chronological backtracking. Levels need not increase along the
trail, but before the limit of a scope there are only levels below that scope's. -/
structure TrailInv : Prop extends s.TrailOk where
  bounded : ∀ l ∈ s.m_trail, l.var < s.m_num_vars
  lim_le : ∀ sc ∈ s.m_scopes, sc.m_trail_lim ≤ s.m_qhead
  lim_sorted : (s.m_scopes.map scope.m_trail_lim).Pairwise (· ≤ ·)
  qhead_le : s.m_qhead ≤ s.m_trail.length
  level_le : ∀ l ∈ s.m_trail, s.lvl l.var ≤ s.scope_lvl
  level_lim : ∀ k sc, s.m_scopes[k]? = some sc → ∀ l ∈ s.m_trail.take sc.m_trail_lim, s.lvl l.var ≤ k
  unit : ∀ l ∈ s.m_trail, s.lvl l.var = 0 → Entails F [l]
  reasons : ∀ pre l post, s.m_trail = pre ++ l :: post → s.Supports F G pre l (s.m_justification l.var)

variable {s F G} {l : literal} {j : justification}

theorem TrailInv.analyzable (h : s.TrailInv F G) : s.Analyzable F where
  toTrailOk := h.toTrailOk
  unit := h.unit
  just pre l post htrail _ := by
    refine (h.reasons pre l post htrail).imp_right ?_
    rintro ⟨others, hreason, hearlier, hF, -⟩
    exact ⟨others, hreason, hearlier, hF⟩

variable {sc : scope} {m : literal} {s' : solver} {k : Nat}

theorem TrailInv.lim_le_length (h : s.TrailInv F G) (hsc : sc ∈ s.m_scopes) : sc.m_trail_lim ≤ s.m_trail.length :=
  (h.lim_le sc hsc).trans h.qhead_le

theorem TrailOk.undef_iff (h : s.TrailOk) : s.value l = .l_undef ↔ l ∉ s.m_trail ∧ ~~~l ∉ s.m_trail := by
  rw [← h.value_true, ← h.value_false]
  cases s.value l <;> simp

theorem TrailOk.var_fresh (h : s.TrailOk) (hundef : s.value l = .l_undef) : ∀ m ∈ s.m_trail, m.var ≠ l.var := by
  intro m hm hvar
  obtain ⟨h1, h2⟩ := h.undef_iff.mp hundef
  rcases Lit.eq_or_eq_compl_of_var_eq hvar with rfl | rfl
  · exact h1 hm
  · exact h2 hm

/-- A literal without a value is assigned and appended to the trail. -/
theorem TrailOk.assign_core (h : s.TrailOk) (hundef : s.value l = .l_undef) : (s.assign_core l j).TrailOk where
  nodup := by
    rw [assign_core_trail, map_append, nodup_append]
    refine ⟨h.nodup, by simp, fun v hv w hw => ?_⟩
    obtain ⟨m, hm, rfl⟩ := mem_map.mp hv
    obtain rfl : w = l.var := by simpa using hw
    exact h.var_fresh hundef m hm
  value_true m := by
    rw [value_assign_core_eq_true, assign_core_trail, mem_append, mem_singleton, h.value_true]
    constructor
    · rintro (rfl | ⟨_, hm⟩)
      · exact .inr rfl
      · exact .inl hm
    · rintro (hm | rfl)
      · exact .inr ⟨h.var_fresh hundef m hm, hm⟩
      · exact .inl rfl

/-- Levels of the literals of a trail are not changed by assigning another variable. -/
theorem lvl_assign_core_of_mem (h : s.TrailOk) (hundef : s.value l = .l_undef)
    (hm : m ∈ s.m_trail ∨ ~~~m ∈ s.m_trail) : (s.assign_core l j).lvl m.var = s.lvl m.var := by
  refine lvl_assign_core_of_ne ?_
  rcases hm with hm | hm
  · exact h.var_fresh hundef m hm
  · exact h.var_fresh hundef (~~~m) hm

theorem Reason.congr {k : justification.kind} {others : List literal}
    (h : s.Reason l k others) (hcls : s'.m_cls = s.m_cls) : s'.Reason l k others := by
  cases h with
  | binary l2 => exact .binary l2
  | clause off others hw => exact .clause off others (by rwa [hcls])

theorem LevelMax.bound {lits : List literal} (h : s.LevelMax lits k) : s.LevelBound G lits k :=
  ⟨h.le, fun _ => h.attained⟩

theorem LevelBound.congr {lits : List literal} (h : s.LevelBound G lits k)
    (hlvl : ∀ m ∈ lits, s'.lvl m.var = s.lvl m.var) : s'.LevelBound G lits k := by
  refine ⟨fun m hm => hlvl m hm ▸ h.le m hm, fun hG => ?_⟩
  obtain ⟨m, hm, hmk⟩ := h.attained hG
  exact ⟨m, hm, hlvl m hm ▸ hmk⟩

theorem Supports.congr {pre : List literal} (h : s.Supports F G pre l j)
    (hcls : s'.m_cls = s.m_cls) (hjust : s'.m_justification = s.m_justification) : s'.Supports F G pre l j := by
  refine h.imp_right ?_
  rintro ⟨others, hreason, hearlier, hF, hbound⟩
  exact ⟨others, hreason.congr hcls, hearlier, hF, hbound.congr fun m _ => by rw [lvl, hjust, lvl]⟩

theorem Supports.assign_core {pre : List literal} {jm : justification} (h : s.Supports F G pre m jm) (hs : s.TrailOk)
    (hundef : s.value l = .l_undef) (hpre : ∀ x ∈ pre, x ∈ s.m_trail) : (s.assign_core l j).Supports F G pre m jm := by
  refine h.imp_right ?_
  rintro ⟨others, hreason, hearlier, hF, hbound⟩
  exact ⟨others, hreason.congr rfl, hearlier, hF, hbound.congr fun y hy =>
    lvl_assign_core_of_mem hs hundef (.inr (hpre _ (hearlier y hy)))⟩

/-- Assigning an unassigned literal with a supported justification keeps the invariant. -/
theorem TrailInv.assign_core (h : s.TrailInv F G) (hundef : s.value l = .l_undef)
    (hvar : l.var < s.m_num_vars) (hlevel : j.level ≤ s.scope_lvl) (hj : s.Supports F G s.m_trail l j)
    (hunit : j.level = 0 → Entails F [l]) : (s.assign_core l j).TrailInv F G where
  toTrailOk := h.toTrailOk.assign_core hundef
  bounded := Lists.forall_mem_concat h.bounded hvar
  lim_le := h.lim_le
  lim_sorted := h.lim_sorted
  qhead_le := by
    rw [assign_core_trail, length_append]
    exact Nat.le_add_right_of_le h.qhead_le
  level_le := by
    refine Lists.forall_mem_concat (fun m hm => ?_) ?_
    · rw [lvl_assign_core_of_mem h.toTrailOk hundef (.inl hm)]
      exact h.level_le m hm
    · rw [lvl_assign_core_self]
      exact hlevel
  level_lim k sc hsc m hm := by
    have hlen := h.lim_le_length (mem_of_getElem? hsc)
    rw [assign_core_trail, take_append_of_le_length hlen] at hm
    rw [lvl_assign_core_of_mem h.toTrailOk hundef (.inl (mem_of_mem_take hm))]
    exact h.level_lim k sc hsc m hm
  unit := by
    refine Lists.forall_mem_concat (fun m hm => ?_) ?_
    · rw [lvl_assign_core_of_mem h.toTrailOk hundef (.inl hm)]
      exact h.unit m hm
    · rw [lvl_assign_core_self]
      exact hunit
  reasons pre m post htrail := by
    rcases Lists.concat_eq_append_cons htrail with ⟨rfl, rfl⟩ | ⟨post', htrail'⟩
    · by_cases hzero : j.level = 0
      · exact .inl (by simp [solver.assign_core, hzero, justification.none])
      · have hjust : (s.assign_core m j).m_justification m.var = j := by simp [solver.assign_core, hzero]
        rw [hjust]
        exact hj.assign_core h.toTrailOk hundef fun x hx => hx
    · have hm : m ∈ s.m_trail := by simp [htrail']
      rw [justification_assign_core_of_ne (h.toTrailOk.var_fresh hundef m hm)]
      exact (h.reasons pre m post' htrail').assign_core h.toTrailOk hundef fun x hx => by simp [htrail', hx]

/-- Opening a scope when the queue is empty. -/
theorem TrailInv.push (h : s.TrailInv F G) (hq : s.m_qhead = s.m_trail.length) : s.push.TrailInv F G where
  toTrailOk := ⟨h.nodup, h.value_true⟩
  bounded := h.bounded
  lim_le := Lists.forall_mem_concat h.lim_le hq.ge
  lim_sorted := by
    simp only [solver.push, map_append, pairwise_append]
    refine ⟨h.lim_sorted, by simp, fun a ha b hb => ?_⟩
    obtain ⟨sc, hsc, rfl⟩ := mem_map.mp ha
    obtain rfl : b = s.m_trail.length := by simpa using hb
    exact h.lim_le_length hsc
  qhead_le := h.qhead_le
  level_le m hm := by
    have hle := h.level_le m hm
    have hlvl : s.push.scope_lvl = s.scope_lvl + 1 := by simp [scope_lvl, solver.push]
    rw [hlvl]
    exact Nat.le_succ_of_le hle
  level_lim k sc hsc m hm := by
    rcases Nat.lt_or_ge k s.m_scopes.length with hk | hk
    · have hsc' : s.m_scopes[k]? = some sc := by
        rwa [show s.push.m_scopes = s.m_scopes ++ _ from rfl, getElem?_append_left hk] at hsc
      exact h.level_lim k sc hsc' m hm
    · exact (h.level_le m (mem_of_mem_take hm)).trans hk
  unit := h.unit
  reasons pre m post htrail := (h.reasons pre m post htrail).congr rfl rfl

/-- The trail that is left when the levels above `k` are undone. -/
theorem unwind_trail (hlow : ∀ m ∈ s.m_trail.take sc.m_trail_lim, s.lvl m.var ≤ k) :
    (s.unwind sc k).m_trail = s.m_trail.filter fun m => s.lvl m.var ≤ k := by
  have hkeep : (s.m_trail.take sc.m_trail_lim).filter (fun m => decide (s.lvl m.var ≤ k)) =
      s.m_trail.take sc.m_trail_lim :=
    filter_eq_self.mpr (by simpa using hlow)
  conv_rhs => rw [← take_append_drop sc.m_trail_lim s.m_trail, filter_append, hkeep]
  rfl

theorem mem_unwind_trail (hlow : ∀ m ∈ s.m_trail.take sc.m_trail_lim, s.lvl m.var ≤ k)
    : m ∈ (s.unwind sc k).m_trail ↔ m ∈ s.m_trail ∧ s.lvl m.var ≤ k := by
  rw [unwind_trail hlow, mem_filter, decide_eq_true_eq]

theorem unwind_qhead (h : s.TrailInv F G) (hsc : s.m_scopes[k]? = some sc) : (s.unwind sc k).m_qhead = sc.m_trail_lim :=
  length_take_of_le (h.lim_le_length (mem_of_getElem? hsc))

/-- What lies before the limit of the undone scope is not touched. -/
theorem take_unwind_trail (h : s.TrailInv F G) {n : Nat} (hsc : s.m_scopes[k]? = some sc)
    (hn : n ≤ sc.m_trail_lim) : (s.unwind sc k).m_trail.take n = s.m_trail.take n := by
  have hlen : n ≤ (s.m_trail.take sc.m_trail_lim).length := by
    rwa [length_take_of_le (h.lim_le_length (mem_of_getElem? hsc))]
  rw [show (s.unwind sc k).m_trail = s.m_trail.take sc.m_trail_lim ++ _ from rfl,
    take_append_of_le_length hlen, take_take, Nat.min_eq_left hn]

theorem TrailInv.lim_mono (h : s.TrailInv F G) {i : Nat} {sci : scope} (hsci : s.m_scopes[i]? = some sci)
    (hsc : s.m_scopes[k]? = some sc) (hik : i < k) : sci.m_trail_lim ≤ sc.m_trail_lim := by
  have hs := pairwise_iff_getElem.mp h.lim_sorted
  obtain ⟨hi, rfl⟩ := List.getElem?_eq_some_iff.mp hsci
  obtain ⟨hk, rfl⟩ := List.getElem?_eq_some_iff.mp hsc
  have hle := hs i k (by simpa using hi) (by simpa using hk) hik
  rwa [getElem_map, getElem_map] at hle

theorem unwind_scopes {i : Nat} {sci : scope} (h : (s.unwind sc k).m_scopes[i]? = some sci) :
    i < k ∧ s.m_scopes[i]? = some sci := by
  rw [show (s.unwind sc k).m_scopes = s.m_scopes.take k from rfl, getElem?_take] at h
  split at h
  · exact ⟨‹_›, h⟩
  · cases h

/-- Backtracking to level `k` cuts the trail and puts the literals of levels up to `k` back at its end. -/
theorem TrailOk.unwind (h : s.TrailOk)
    (hlow : ∀ m ∈ s.m_trail.take sc.m_trail_lim, s.lvl m.var ≤ k) : (s.unwind sc k).TrailOk where
  nodup := by
    rw [unwind_trail hlow]
    exact (filter_sublist.map _).nodup h.nodup
  value_true m := by
    rw [mem_unwind_trail hlow, ← h.value_true]
    have hundone : ((s.m_trail.drop sc.m_trail_lim).filter (fun l => decide (k < s.lvl l.var))).any
        (fun l => l.var == m.var) ↔ k < s.lvl m.var ∧ ∃ l ∈ s.m_trail, l.var = m.var := by
      simp only [any_eq_true, mem_filter, decide_eq_true_eq, beq_iff_eq]
      constructor
      · rintro ⟨l, ⟨hl, hlvl⟩, hvar⟩
        exact ⟨hvar ▸ hlvl, l, mem_of_mem_drop hl, hvar⟩
      · rintro ⟨hlvl, l, hl, hvar⟩
        refine ⟨l, ⟨?_, hvar ▸ hlvl⟩, hvar⟩
        rw [← take_append_drop sc.m_trail_lim s.m_trail] at hl
        refine (mem_append.mp hl).resolve_left fun htake => ?_
        have hle := hlow l htake
        rw [hvar] at hle
        omega
    have hassign : (s.unwind sc k).m_assignment m.var =
        if k < s.lvl m.var ∧ ∃ l ∈ s.m_trail, l.var = m.var then .l_undef else s.m_assignment m.var :=
      if_congr hundone rfl rfl
    by_cases hc : k < s.lvl m.var ∧ ∃ l ∈ s.m_trail, l.var = m.var
    · rw [if_pos hc] at hassign
      have hundef : (s.unwind sc k).value m ≠ .l_true := by cases hs : m.sign <;> simp [solver.value, hassign, hs]
      simp only [hundef, false_iff, not_and, not_le]
      exact fun _ => hc.1
    · rw [if_neg hc] at hassign
      have hsame : (s.unwind sc k).value m = s.value m := by simp only [solver.value, hassign]
      rw [hsame]
      refine ⟨fun hm => ⟨hm, ?_⟩, fun hm => hm.1⟩
      by_contra hlt
      exact hc ⟨not_le.mp hlt, m, (h.value_true m).mp hm, rfl⟩

/-- Undoing the levels above `k`. A literal that stays keeps its reason, since the literals of the
reason have no higher level. -/
theorem TrailInv.unwind (h : s.TrailInv F G) (hsc : s.m_scopes[k]? = some sc) : (s.unwind sc k).TrailInv F G where
  toTrailOk := h.toTrailOk.unwind (h.level_lim k sc hsc)
  bounded m hm := h.bounded m ((mem_unwind_trail (h.level_lim k sc hsc)).mp hm).1
  lim_le sci hsci := by
    obtain ⟨i, hi⟩ := getElem?_of_mem hsci
    obtain ⟨hlt, hi⟩ := unwind_scopes hi
    rw [unwind_qhead h hsc]
    exact h.lim_mono hi hsc hlt
  lim_sorted := by
    rw [show (s.unwind sc k).m_scopes = s.m_scopes.take k from rfl, map_take]
    exact h.lim_sorted.sublist (take_sublist k _)
  qhead_le := by
    rw [show (s.unwind sc k).m_trail = s.m_trail.take sc.m_trail_lim ++ _ from rfl, length_append]
    exact Nat.le_add_right _ _
  level_le m hm := by
    have hk : k ≤ s.m_scopes.length := (List.getElem?_eq_some_iff.mp hsc).1.le
    have hlvl : (s.unwind sc k).scope_lvl = k := length_take_of_le hk
    rw [hlvl]
    exact ((mem_unwind_trail (h.level_lim k sc hsc)).mp hm).2
  level_lim i sci hsci m hm := by
    obtain ⟨hlt, hsci⟩ := unwind_scopes hsci
    rw [take_unwind_trail h hsc (h.lim_mono hsci hsc hlt)] at hm
    exact h.level_lim i sci hsci m hm
  unit m hm := h.unit m ((mem_unwind_trail (h.level_lim k sc hsc)).mp hm).1
  reasons pre m post htrail := by
    have hm := (mem_unwind_trail (h.level_lim k sc hsc)).mp (show m ∈ (s.unwind sc k).m_trail by simp [htrail])
    rw [unwind_trail (h.level_lim k sc hsc)] at htrail
    obtain ⟨pre', post', htrail', rfl⟩ := Lists.filter_eq_append_cons htrail
    refine (h.reasons pre' m post' htrail').imp_right ?_
    rintro ⟨others, hreason, hearlier, hF, hmax⟩
    refine ⟨others, hreason.congr rfl, fun x hx => ?_, hF, hmax.le, hmax.attained⟩
    exact mem_filter.mpr ⟨hearlier x hx, by simpa using (hmax.le x hx).trans hm.2⟩

/-- Reordering a clause keeps the invariant when the literals it justifies stay among its watches. -/
theorem TrailInv.set_cls (h : s.TrailInv F G) {off : clause_offset} {c : clause}
    (hc : ∀ m ∈ s.m_trail, ∀ others, Watches m (s.m_cls off).m_lits others →
      ∃ others', Watches m c.m_lits others' ∧ ∀ x, x ∈ others' ↔ x ∈ others) :
    (s.set_cls off c).TrailInv F G where
  __ := h
  reasons pre m post htrail := by
    refine (h.reasons pre m post htrail).imp_right ?_
    rintro ⟨others, hreason, hearlier, hF, hmax⟩
    have hm : m ∈ s.m_trail := by
      rw [show s.m_trail = _ from htrail]
      simp
    suffices hnew : ∃ others', (s.set_cls off c).Reason m (s.m_justification m.var).get_kind others' ∧
        ∀ x, x ∈ others' ↔ x ∈ others by
      obtain ⟨others', hreason', hmem⟩ := hnew
      refine ⟨others', hreason', fun x hx => hearlier x ((hmem x).mp hx), hF.weaken fun x hx => ?_,
        fun x hx => hmax.le x ((hmem x).mp hx), fun hG => ?_⟩
      · simpa [hmem] using hx
      · obtain ⟨x, hx, hxk⟩ := hmax.attained hG
        exact ⟨x, (hmem x).mpr hx, hxk⟩
    generalize (s.m_justification m.var).get_kind = kind at hreason
    cases hreason with
    | binary l2 => exact ⟨[l2], .binary l2, fun _ => Iff.rfl⟩
    | clause off' others hw =>
      by_cases hoff : off' = off
      · subst hoff
        obtain ⟨others', hw', hmem⟩ := hc m hm others hw
        exact ⟨others', .clause off' others' (by simpa [solver.set_cls] using hw'), hmem⟩
      · exact ⟨others, .clause off' others (by simpa [solver.set_cls, Function.update_of_ne hoff] using hw),
          fun _ => Iff.rfl⟩

end sat.solver
