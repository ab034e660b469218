import BooledASS.Sat.Invariant.Visit

open Cnf List

namespace sat.solver

/-- A conflict is a clause entailed by `F` with all literals false. An assumption that is false is a
conflict without a clause, at the level of the assumptions. -/
structure ConflictInv (s : solver) (F : Set (List literal)) : Prop where
  mem : ∀ a ∈ s.conflict_antecedents, a ∈ s.m_trail
  entails : s.tracking_assumptions ∧ s.scope_lvl ≤ 1 ∨ Entails F (s.conflict_antecedents.map (~~~·))
  shape : ∀ off not_l, s.m_conflict.get_kind = .CLAUSE off → s.m_not_l = some not_l →
    ∃ others, Watches (~~~not_l) (s.m_cls off).m_lits others
  level : s.m_conflict.get_kind = .NONE → s.m_conflict.level = 0 ∨
    s.tracking_assumptions ∧ s.m_conflict.level ≤ s.scope_lvl ∧ s.scope_lvl ≤ 1
  live : ∀ off, s.m_conflict.get_kind = .CLAUSE off → s.Live off

/-- The state after the visit of the watch `w`. -/
def Visited (F : Set (List literal)) (G : Prop) (l : literal) (cl : Nat) (kept : List watched) (w : watched)
    (todo : List watched) : solver × visit → Prop
  | (s, .keep w') => s.Visiting F G l cl (kept ++ [w']) todo
  | (s, .drop) => s.Visiting F G l cl kept todo
  | (s, .conflict) => s.m_inconsistent ∧ s.ConflictInv F ∧
      s.VisitInv F G (Function.update s.m_watches l (kept ++ w :: todo)) fun _ => []

variable {s : solver} {F : Set (List literal)} {G : Prop} {l : literal} {cl : Nat} {kept todo : List watched}

/-- A falsified clause is a conflict; the watches not visited yet are behind the open scopes. -/
theorem Visiting.conflict {j : justification} {not_l : Option literal} {w : watched}
    (h : s.Visiting F G l cl kept (w :: todo))
    (hconf : ({ s with m_inconsistent := true, m_conflict := j, m_not_l := not_l } : solver).ConflictInv F) :
    Visited F G l cl kept w todo (s.set_conflict j not_l, .conflict) := by
  rw [set_conflict, if_neg (by simp [h.consistent])]
  have hs : SameCore s { s with m_inconsistent := true, m_conflict := j, m_not_l := not_l } :=
    ⟨rfl, rfl, rfl, rfl, rfl, rfl, rfl, rfl, rfl, rfl⟩
  refine ⟨rfl, hconf, hs.trailInv h.inv.trail, hs.dbInv h.inv.db, fun hG n k hb => hs.guardAt ?_⟩
  rcases hb with ⟨sc, hsc, rfl⟩ | ⟨hfalse, _⟩
  · have hlate := h.late sc (mem_of_getElem? hsc)
    have hg := h.inv.guard hG sc.m_trail_lim k (.inl ⟨sc, hsc, rfl⟩)
    refine ⟨fun m l2 b hm htake => ?_, fun off hoff w' hw' htake => ?_⟩
    · have hbin := hg.bin m l2 b hm htake
      rwa [Function.update_of_ne fun heq : m = l => hlate (heq ▸ htake)] at hbin
    · have hcls := hg.cls off hoff w' hw' htake
      rwa [Function.update_of_ne fun heq : ~~~w' = l => hlate (heq ▸ htake)] at hcls
  · cases hfalse

variable {off : clause_offset} {b c0 : literal} {rest : List literal}

/-- A visited clause that stays as it is. -/
theorem Visiting.keep_same {b' : literal} (h : s.Visiting F G l cl kept (.CLAUSE b off :: todo)) (hoff : s.Live off)
    (hb' : b' ∈ (s.m_cls off).m_lits)
    (htrue : ~~~l ∈ (s.m_cls off).m_lits.take 2 → ∃ t ∈ (s.m_cls off).m_lits, t ∈ s.m_trail) :
    s.Visiting F G l cl (kept ++ [.CLAUSE b' off]) todo := by
  have hkeep := h.keep_clause b' hoff (List.Perm.refl _) (h.inv.db.clause_ok off hoff).removed
    (fun _ => Iff.rfl) (fun m _ others hw => ⟨others, hw, fun _ => Iff.rfl⟩) hb' htrue
  have hself : s.set_cls off (s.m_cls off) = s := by simp [set_cls]
  rwa [hself] at hkeep

/-- A watch of the clause is not true: it does not justify anything. -/
private theorem Visiting.not_watches (h : s.Visiting F G l cl kept todo)
    (hlits : (s.m_cls off).m_lits = c0 :: ~~~l :: rest) (hc0 : s.value c0 ≠ .l_true) {m : literal}
    (hm : m ∈ s.m_trail) {others : List literal} : ¬ Watches m (s.m_cls off).m_lits others := by
  rw [hlits]
  intro hw
  cases hw with
  | first => exact hc0 ((h.inv.trail.value_true _).mpr hm)
  | second => exact h.inv.trail.toTrailOk.not_compl_mem h.mem_trail hm

variable {i : Nat} {x : literal} {v : scan_vars}

private theorem swap_lits (hlits : (s.m_cls off).m_lits = c0 :: ~~~l :: rest) (hx : rest[i]? = some x) :
    ((s.m_cls off).swap 1 (i + 2)).m_lits = c0 :: x :: rest.set i (~~~l) := by
  simp only [clause.swap, hlits]
  exact swapAt_one_succ _ _ _ _ _ hx

private theorem mem_set_of_ne {k : Nat} {y : literal} (hy : rest[k]? = some y) (hne : k ≠ i) : y ∈ rest.set i (~~~l) :=
  mem_of_getElem? (i := k) (by rw [getElem?_set_ne hne.symm, hy])

/-- The greatest level of the false literals of a clause, one of which is the negation of `l`. -/
private theorem ScanInv.levelMax (hv : ScanInv s (s.lvl l.var) rest v) (hx : rest[i]? = some x)
    (hundef : s.value x = .l_undef) (hothers : ∀ k y, rest[k]? = some y → k ≠ i → s.value y = .l_false)
    (c0 : literal) : s.LevelMax (c0 :: rest.set i (~~~l)) (max v.assign_level (s.lvl c0.var)) := by
  have hl : ~~~l ∈ rest.set i (~~~l) := mem_of_getElem? (i := i) (by simp [(List.getElem?_eq_some_iff.mp hx).1])
  refine ⟨fun m hm => ?_, ?_⟩
  · rcases mem_cons.mp hm with rfl | hm
    · exact le_max_right _ _
    · refine le_trans ?_ (le_max_left _ _)
      obtain ⟨k, hk⟩ := getElem?_of_mem hm
      by_cases hki : k = i
      · subst hki
        obtain rfl : ~~~l = m := by simpa [(List.getElem?_eq_some_iff.mp hx).1] using hk
        exact hv.level_ge
      · rw [getElem?_set_ne (Ne.symm hki)] at hk
        exact hv.level_le m (mem_of_getElem? hk) (hothers k m hk hki)
  · rcases le_total v.assign_level (s.lvl c0.var) with hle | hle
    · exact ⟨c0, by simp, (max_eq_right hle).symm⟩
    · rw [max_eq_left hle]
      rcases hv.max_at with ⟨_, heq⟩ | ⟨k, y, _, hy, hfalse, heq⟩
      · exact ⟨~~~l, mem_cons_of_mem _ hl, heq.symm⟩
      · have hki : k ≠ i := by
          rintro rfl
          rw [hx, Option.some.injEq] at hy
          rw [hy, hfalse] at hundef
          cases hundef
        exact ⟨y, mem_cons_of_mem _ (mem_set_of_ne hy hki), heq⟩

private theorem mem_set_false {m : literal} (h : s.Visiting F G l cl kept todo)
    (hothers : ∀ k y, rest[k]? = some y → k ≠ i → s.value y = .l_false)
    (hm : m ∈ rest.set i (~~~l)) : s.value m = .l_false := by
  obtain ⟨k, hk⟩ := getElem?_of_mem hm
  by_cases hki : k = i
  · subst hki
    have hlt : k < rest.length := by simpa using (List.getElem?_eq_some_iff.mp hk).1
    obtain rfl : ~~~l = m := by simpa [hlt] using hk
    exact h.inv.trail.toTrailOk.value_false.mpr (by simpa using h.mem_trail)
  · rw [getElem?_set_ne (Ne.symm hki)] at hk
    exact hothers k m hk hki

section

variable (h : s.Visiting F G l cl kept (.CLAUSE b off :: todo))
include h

/-- The unassigned literal `x` becomes a watch; if all other literals are false it is propagated. -/
private theorem settle_undef (hoff : s.Live off)
    (hlits : (s.m_cls off).m_lits = c0 :: ~~~l :: rest) (hc0 : s.value c0 ≠ .l_true)
    (hi : v.undef_index = i + 2) (hx : rest[i]? = some x) (hundef : s.value x = .l_undef)
    (hprop : v.num_undef = 1 → ScanInv s (s.lvl l.var) rest v ∧
      ∀ k y, rest[k]? = some y → k ≠ i → s.value y = .l_false) :
    Visited F G l cl kept (.CLAUSE b off) todo (s.settle_clause (.CLAUSE b off) off v) := by
  have hat : (s.m_cls off).at 0 = c0 := by simp [clause.at, hlits]
  have hswap := swap_lits hlits hx
  have hxrest : x ∈ rest := mem_of_getElem? hx
  have hremoved := (h.inv.db.clause_ok off hoff).removed
  -- `c0` is not true and `x` not assigned, so that nothing is to be shown for a watch on the trail
  have hmoved {c : clause} (hperm : c.m_lits.Perm (s.m_cls off).m_lits) (hremoved : c.m_removed = false)
      (htake : ∀ w ∈ c.m_lits.take 2, w = c0 ∨ w = x) (hmem : c0 ∈ c.m_lits) :=
    h.move_watch c0 hoff hlits hxrest hperm hremoved htake
      (fun m hm others hw => absurd hw (h.not_watches hlits hc0 hm)) hmem fun _ n k _ htake =>
        absurd (mem_of_mem_take htake) (h.inv.trail.toTrailOk.undef_iff.mp hundef).2
  have hne : v.undef_index ≠ 0 := by omega
  unfold settle_clause
  simp only [hat]
  rw [if_pos hne, hi, show (s.set_watch (i + 2) off).value c0 = s.value c0 from rfl]
  split
  · rename_i hfalse
    obtain ⟨hscan, hothers⟩ := hprop hfalse.2
    set c : clause := ((s.m_cls off).swap 1 (i + 2)).swap 0 1 with hc
    have hclits : c.m_lits = x :: c0 :: rest.set i (~~~l) := by
      rw [hc, clause.swap, hswap]
      exact swapAt_zero_one _ _ _
    have hperm : c.m_lits.Perm (s.m_cls off).m_lits := (swapAt_perm _ 0 1).trans (swapAt_perm _ 1 (i + 2))
    have hmove := hmoved hperm hremoved (by simp [hclits]) (by simp [hclits])
    have hcls : ((s.set_cls off c).push_watch (~~~x) (.CLAUSE c0 off)).m_cls off = c := by simp [push_watch, set_cls]
    have hmax := hscan.levelMax hx hundef hothers c0
    have hwatch : Watches x (((s.set_cls off c).push_watch (~~~x) (.CLAUSE c0 off)).m_cls off).m_lits
        (c0 :: rest.set i (~~~l)) := by
      rw [hcls, hclits]
      exact .first _
    have hassign := hmove.assign_core (hmove.inv.assignable_clause hoff hwatch (fun m hm => show s.value m = .l_false by
        rcases mem_cons.mp hm with rfl | hm
        · exact hfalse.1
        · exact mem_set_false h hothers hm) ⟨hmax.le, hmax.attained⟩) hundef
    have heq : ((s.set_watch (i + 2) off).set_cls off (((s.set_watch (i + 2) off).m_cls off).swap 0 1)).propagate_clause
          (max v.assign_level (s.lvl c0.var)) off =
        ((s.set_cls off c).push_watch (~~~x) (.CLAUSE c0 off)).assign_core x
          (.clause (max v.assign_level (s.lvl c0.var)) off) := by
      have h1 : (s.set_watch (i + 2) off).m_cls off = (s.m_cls off).swap 1 (i + 2) := by
        simp [set_watch, push_watch, set_cls]
      have hat0 : ((s.m_cls off).swap 1 (i + 2)).at 0 = c0 := by simp [clause.at, hswap]
      have hat1 : ((s.m_cls off).swap 1 (i + 2)).at 1 = x := by simp [clause.at, hswap]
      have hatc : c.at 0 = x := by simp [clause.at, hclits]
      rw [h1, ← hc]
      simp [propagate_clause, set_watch, push_watch, set_cls, hat0, hat1, hatc]
    rw [if_pos hfalse.1]
    show Visited F G l cl kept (.CLAUSE b off) todo (_, .drop)
    rw [heq]
    exact hassign
  · have hmove := hmoved (c := (s.m_cls off).swap 1 (i + 2)) (swapAt_perm _ _ _) hremoved (by simp [hswap])
      (by simp [hswap])
    have heq : s.set_watch (i + 2) off =
        (s.set_cls off ((s.m_cls off).swap 1 (i + 2))).push_watch (~~~x) (.CLAUSE c0 off) := by
      simp [set_watch, clause.at, hswap]
    show Visited F G l cl kept (.CLAUSE b off) todo (_, .drop)
    rw [heq]
    exact hmove

/-- All literals but the first one are false: the clause is in conflict or propagates. -/
private theorem settle_false (hoff : s.Live off) (hb : b ∈ (s.m_cls off).m_lits)
    (hlits : (s.m_cls off).m_lits = c0 :: ~~~l :: rest) (hc0 : s.value c0 ≠ .l_true)
    (hv : ScanInv s (s.lvl l.var) rest v) (hzero : v.undef_index = 0) (hfalse : ∀ y ∈ rest, s.value y = .l_false) :
    Visited F G l cl kept (.CLAUSE b off) todo (s.settle_clause (.CLAUSE b off) off v) := by
  have hat : (s.m_cls off).at 0 = c0 := by simp [clause.at, hlits]
  have hl : s.value (~~~l) = .l_false := h.inv.trail.toTrailOk.value_false.mpr (by simpa using h.mem_trail)
  have hall : ∀ y ∈ ~~~l :: rest, s.value y = .l_false := forall_mem_cons.mpr ⟨hl, hfalse⟩
  unfold settle_clause
  simp only [hat]
  rw [if_neg (by simpa using hzero)]
  by_cases hc : s.value c0 = .l_false
  · rw [if_pos hc, if_pos hc]
    refine h.conflict ⟨fun a ha => ?_, .inr ?_, by simp, by simp [justification.clause], fun off' hkind => ?_⟩
    · simp only [conflict_antecedents, antecedents, justification.clause, clause_antecedents] at ha
      obtain ⟨y, hy, rfl⟩ := mem_map.mp ha
      refine h.inv.trail.toTrailOk.value_false.mp ?_
      rw [hlits] at hy
      rcases mem_cons.mp hy with rfl | hy
      · exact hc
      · exact hall y hy
    · show Entails F (((s.m_cls off).m_lits.map (~~~·)).map (~~~·))
      rw [map_compl_compl]
      exact (h.inv.db.clause_ok off hoff).entails
    · obtain rfl : off = off' := by simpa [justification.clause] using hkind
      exact hoff
  · have hundef : s.value c0 = .l_undef := by
      cases hval : s.value c0 with
      | l_undef => rfl
      | l_true => exact absurd hval hc0
      | l_false => exact absurd hval hc
    rw [if_neg hc, if_neg hc]
    have hwatch : Watches c0 (s.m_cls off).m_lits (~~~l :: rest) := hlits ▸ .first _
    have hmax : s.LevelMax (~~~l :: rest) v.assign_level := by
      refine ⟨forall_mem_cons.mpr ⟨hv.level_ge, fun y hy => hv.level_le y hy (hfalse y hy)⟩, ?_⟩
      rcases hv.max_at with ⟨_, heq⟩ | ⟨i, y, _, hy, _, heq⟩
      · exact ⟨~~~l, by simp, heq.symm⟩
      · exact ⟨y, mem_cons_of_mem _ (mem_of_getElem? hy), heq⟩
    have hassign := h.assign_core (h.inv.assignable_clause hoff hwatch hall hmax) hundef
    set s1 := s.assign_core c0 (.clause v.assign_level off) with hs1
    have hc0trail : c0 ∈ s1.m_trail := by simp [hs1]
    by_cases hindex : v.max_index = 1
    · rw [if_neg (by simpa using hindex)]
      have hkeep := hassign.keep_same hoff hb fun _ => ⟨c0, show c0 ∈ (s.m_cls off).m_lits by simp [hlits], hc0trail⟩
      show Visited F G l cl kept (.CLAUSE b off) todo (s.propagate_clause v.assign_level off, _)
      rw [propagate_clause, hat]
      exact hkeep
    · rw [if_pos hindex]
      obtain ⟨i, y, hi, hy, hyfalse, hylvl⟩ := hv.max_at.resolve_left fun hmax1 => hindex hmax1.1
      have hswap := swap_lits hlits hy
      have hperm : ((s.m_cls off).swap 1 (i + 2)).m_lits.Perm (s.m_cls off).m_lits := swapAt_perm _ _ _
      have hmove := hassign.move_watch (c := (s.m_cls off).swap 1 (i + 2)) c0 hoff hlits
        (mem_of_getElem? hy) hperm (h.inv.db.clause_ok off hoff).removed (by simp [hswap])
        (fun m hm others hw => ?_) (by simp [hswap]) (fun _ n k hbound htake => ?_)
      · have heq : (s.set_watch v.max_index off).propagate_clause v.assign_level off =
            (s1.set_cls off ((s.m_cls off).swap 1 (i + 2))).push_watch (~~~y) (.CLAUSE c0 off) := by
          have hat0 : ((s.m_cls off).swap 1 (i + 2)).at 0 = c0 := by simp [clause.at, hswap]
          have hat1 : ((s.m_cls off).swap 1 (i + 2)).at 1 = y := by simp [clause.at, hswap]
          rw [hi]
          simp [hs1, propagate_clause, set_watch, push_watch, set_cls, solver.assign_core, hat0, hat1]
        show Visited F G l cl kept (.CLAUSE b off) todo (_, .drop)
        rw [heq]
        exact hmove
      · -- the first literal is the only watch that is true, and it stays where it is
        change Watches m (s.m_cls off).m_lits others at hw
        rw [hlits] at hw
        cases hw with
        | first =>
          refine ⟨y :: rest.set i (~~~l), hswap ▸ .first _, fun x => ?_⟩
          have hp := hperm
          rw [hswap, hlits] at hp
          exact ((perm_cons c0).mp hp).mem_iff
        | second => exact absurd hm (hassign.inv.trail.toTrailOk.not_compl_mem hassign.mem_trail)
      · refine ⟨c0, by simp [hswap], hc0trail, ?_⟩
        have hle := (hassign.inv.trail.bound_le hbound).2.2 _ htake
        rw [Lit.compl_var, hs1, lvl_assign_core_of_mem h.inv.trail.toTrailOk hundef
          (.inr (h.inv.trail.toTrailOk.value_false.mp hyfalse)), hylvl] at hle
        rw [hs1, lvl_assign_core_self]
        exact hle

/-- The end of the visit of a clause, after the scan of its other literals: a new watch, a conflict, or a unit, whose
watch may move to a literal of the highest level. -/
theorem settle_clause_spec {seen : List literal} (hoff : s.Live off)
    (hb : b ∈ (s.m_cls off).m_lits) (hlits : (s.m_cls off).m_lits = c0 :: ~~~l :: rest) (hc0 : s.value c0 ≠ .l_true)
    (hv : ScanInv s (s.lvl l.var) seen v) (hseen : seen <+: rest) (hend : seen = rest ∨ 2 ≤ v.num_undef) :
    Visited F G l cl kept (.CLAUSE b off) todo (s.settle_clause (.CLAUSE b off) off v) := by
  by_cases hnum : v.num_undef = 0
  · obtain rfl : seen = rest := hend.resolve_right (by omega)
    obtain ⟨hzero, hfalse⟩ := hv.all_false hnum
    exact settle_false h hoff hb hlits hc0 hv hzero hfalse
  · obtain ⟨i, x, hi, hx, hundef, hothers⟩ := hv.undef hnum
    have hx' : rest[i]? = some x := by
      obtain ⟨post, rfl⟩ := hseen
      rw [getElem?_append_left (List.getElem?_eq_some_iff.mp hx).1, hx]
    refine settle_undef h hoff hlits hc0 hi hx' hundef fun hone => ?_
    obtain rfl : seen = rest := hend.resolve_right (by omega)
    exact ⟨hv, hothers hone⟩

end

end sat.solver
