import BooledASS.Sat.Drat.Resting

open List Function Option

namespace sat.drat

open Cnf

variable {s s' s0 : drat} {l m w o l1 l2 : literal} {F : Set (List literal)} {c : drat.clause}

/-- The checker between two calls. -/
def Inv (F : Set (List literal)) (s : drat) : Prop :=
  (s.m_inconsistent ∧ Refutes F ∅) ∨ (s.m_inconsistent = false ∧ Resting F s)

/-! ### A conflict stays -/

section

variable (h : s.m_inconsistent)
include h

theorem inconsistent_assign (l : literal) (c : Option drat.clause) : (s.assign l c).m_inconsistent := by
  rw [assign]
  split <;> first | rfl | exact h

theorem inconsistent_assign_propagate (l : literal) (c : Option drat.clause) :
    (s.assign_propagate l c).m_inconsistent := by
  have hassign := inconsistent_assign h l c
  rw [assign_propagate, propagate_units, if_pos hassign]
  exact hassign

theorem verify_of_inconsistent (c : List literal) : s.verify c = some s := by rw [verify, if_pos h]

theorem verify_redundant_of_inconsistent (c : List literal) (st : status) : s.verify_redundant c st = some s := by
  rw [verify_redundant, verify_of_inconsistent h, ite_self]

theorem inconsistent_del_watch (c : drat.clause) (l : literal) : (s.del_watch c l).m_inconsistent := by
  rw [del_watch]
  split <;> exact h

end

variable {st : status} {N : Nat} {fixed : Set literal}

section

variable (h : s.m_inconsistent)
include h

theorem inconsistent_append_unit (happend : s.append_unit l st = some s') : s'.m_inconsistent := by
  rw [append_unit, verify_redundant_of_inconsistent h] at happend
  cases happend
  split
  · exact h
  · exact inconsistent_assign_propagate h l none

theorem inconsistent_append_binary (happend : s.append_binary l1 l2 st = some s') : s'.m_inconsistent := by
  rw [append_binary, verify_redundant_of_inconsistent h] at happend
  split at happend
  next => exact some.inj happend ▸ h
  next =>
    cases happend
    dsimp only [mk_clause]
    split_ifs
    · rfl
    · exact inconsistent_assign_propagate (by exact h) _ _
    · exact inconsistent_assign_propagate (by exact h) _ _
    · exact h

/-- A checker that is inconsistent stays so, whether the clause is added or deleted. -/
theorem inconsistent_append_new_clause {c : List literal}
    (happend : s.append_new_clause c st = some s') : s'.m_inconsistent := by
  have hnext : (s.mk_clause c).2.m_inconsistent := h
  rw [append_new_clause, append_clause, verify_redundant_of_inconsistent hnext] at happend
  cases happend
  dsimp only
  split
  · split
    · exact h
    · refine inconsistent_del_watch ?_ _ _
      exact h
    · refine inconsistent_del_watch (inconsistent_del_watch ?_ _ _) _ _
      exact h
  · split
    · rfl
    · refine inconsistent_assign_propagate ?_ _ _
      exact h
    · exact h

/-- No call makes an inconsistent checker consistent again. -/
theorem inconsistent_exec {a : call} (hexec : s.exec a = some s') : s'.m_inconsistent := by
  have hverify {c : List literal} (hv : s.verify c = some s') : s'.m_inconsistent := by
    rw [verify_of_inconsistent h] at hv
    exact some.inj hv ▸ h
  unfold exec at hexec
  split at hexec
  · exact hverify hexec
  · exact inconsistent_append_unit h hexec
  · exact inconsistent_append_binary h hexec
  · exact inconsistent_append_new_clause h hexec
  · split at hexec
    · exact some.inj hexec ▸ rfl
    · exact hverify hexec
  · exact inconsistent_append_unit h hexec
  · exact inconsistent_append_new_clause h hexec
  · exact hverify hexec
  · exact inconsistent_append_unit h hexec
  · rw [verify_of_inconsistent h] at hexec
    exact inconsistent_append_new_clause h hexec

end

/-! ### Verification -/

theorem Resting.verify (h : Resting F s) (hcons : s.m_inconsistent = false) {c : List literal}
    (hverify : s.verify c = some s') : Resting F s' ∧ s'.m_inconsistent = false ∧ s'.m_next = s.m_next := by
  obtain ⟨-, hrest, hcons', hnext, -⟩ := h.is_drup hcons c
  rw [drat.verify, if_neg (by simp [hcons])] at hverify
  split at hverify
  next t heq =>
    rw [heq] at hrest hcons' hnext
    cases hverify
    exact ⟨hrest, hcons', hnext⟩
  next => cases hverify

theorem Resting.verify_redundant (h : Resting F s) (hcons : s.m_inconsistent = false) {c : List literal}
    (hverify : s.verify_redundant c st = some s') :
    Resting F s' ∧ s'.m_inconsistent = false ∧ s'.m_next = s.m_next := by
  rw [drat.verify_redundant] at hverify
  split at hverify
  next => exact h.verify hcons hverify
  next => exact some.inj hverify ▸ ⟨h, hcons, rfl⟩

/-! ### A clause is added -/

/-- The end of a propagation from the clauses is a state between two calls. -/
theorem inv_of_propagating (h : Propagating F ∅ fixed s0 N s.m_watches s)
    (haddresses : ∀ wc ∈ s0.m_watched_clauses, wc.m_clause.ptr < s0.m_next)
    (hend : s.m_inconsistent ∨ Settled {m | m ∈ s.units} s ∧
      ∀ c ∈ F, c ≠ [] ∧ ((∃ wc ∈ s0.m_watched_clauses, wc.m_clause.lits = c) ∨ ∃ l ∈ c, s.value l = .l_true)) :
    Inv F s := by
  cases hinc : s.m_inconsistent with
  | true => exact .inl ⟨hinc, h.conflict hinc⟩
  | false =>
    obtain ⟨hsettled, hcovered⟩ := hend.resolve_left (by simp [hinc])
    refine .inr ⟨hinc, h.watched, h.proper, h.from_clauses, fun wc hwc => ?_, h.units, h.derived, hsettled, ?_⟩
    · obtain ⟨wc0, hwc0, heq⟩ := exists_clause_of_map h.clauses.symm hwc
      exact heq ▸ h.next ▸ haddresses wc0 hwc0
    · intro c hc
      refine ⟨(hcovered c hc).1, (hcovered c hc).2.imp_left ?_⟩
      rintro ⟨wc, hwc, rfl⟩
      obtain ⟨wc', hwc', heq⟩ := exists_clause_of_map h.clauses hwc
      exact ⟨wc', hwc', by rw [heq]⟩

/-- A true literal is still true after a propagation. -/
theorem Propagating.value_true {N' : Nat} {S : Set literal} {ws ws' : literal → List Nat}
    (h : Propagating F S fixed s0 N ws s) (h' : Propagating F S fixed s0 N' ws' s')
    (hunits : s.m_units <+: s'.m_units) (hl : s.value l = .l_true) : s'.value l = .l_true :=
  (h'.units l).mpr ((hunits.map Prod.fst).subset ((h.units l).mp hl))

/-- Propagation of a literal of a new clause that then is satisfied. -/
theorem inv_assign_propagate {c : List literal} (h : Propagating (insert c F) ∅ fixed s0 N s.m_watches s)
    (haddresses : ∀ wc ∈ s0.m_watched_clauses, wc.m_clause.ptr < s0.m_next) (hsettled : SettledBut l s)
    (hcovered : ∀ c ∈ F, c ≠ [] ∧ ((∃ wc ∈ s0.m_watched_clauses, wc.m_clause.lits = c) ∨ ∃ l ∈ c, s.value l = .l_true))
    (hl : l ∈ c) (hderives : Derives (insert c F) ∅ l) (r : Option drat.clause) :
    Inv (insert c F) (s.assign_propagate l r) ∧
      ((s.assign_propagate l r).m_inconsistent ∨ (s.assign_propagate l r).value l = .l_true) := by
  obtain ⟨N', hprop, hend, hunits⟩ := h.assign_propagate hsettled hderives r
  refine ⟨inv_of_propagating hprop haddresses (hend.imp_right fun he => ⟨he.2, ?_⟩),
    hend.imp_right fun he => (hprop.units l).mpr he.1⟩
  intro d hd
  rcases Set.mem_insert_iff.mp hd with rfl | hd
  · exact ⟨ne_nil_of_mem hl, .inr ⟨l, hl, (hprop.units l).mpr he.1⟩⟩
  · refine ⟨(hcovered d hd).1, (hcovered d hd).2.imp_right ?_⟩
    rintro ⟨m, hm, htrue⟩
    exact ⟨m, hm, h.value_true hprop hunits htrue⟩

/-- A unit clause is assigned and propagated. The checker is then inconsistent, or at rest for the clauses with the
unit. -/
theorem Resting.append_unit (h : Resting F s) (hcons : s.m_inconsistent = false)
    (hst : st.is_deleted = false) (happend : s.append_unit l st = some s') : Inv (insert [l] F) s' := by
  obtain ⟨t, ht, rfl⟩ := map_eq_some_iff.mp happend
  obtain ⟨hrest, hcons', -⟩ := h.verify_redundant hcons ht
  rw [if_neg (by simp [hst])]
  have hderives : Derives (insert [l] F) ∅ l :=
    .unit (Set.mem_insert _ _) (by simp) fun m hm hne => absurd (mem_singleton.mp hm) hne
  obtain ⟨hinv, htrue⟩ := inv_assign_propagate (hrest.start hcons' (Set.subset_insert _ F) ∅) hrest.addresses
    (settledBut_of_settled hrest.settled l) hrest.covered (mem_singleton.mpr rfl) hderives none
  -- the unit is recorded once more
  rcases hinv with ⟨hinc, hrefutes⟩ | ⟨hinc, hrest'⟩
  · exact .inl ⟨hinc, hrefutes⟩
  · have hmem : l ∈ (t.assign_propagate l none).units := (hrest'.units l).mp (htrue.resolve_left (by simp [hinc]))
    have hunits : ∀ m, m ∈ (t.assign_propagate l none).units ++ [l] ↔ m ∈ (t.assign_propagate l none).units := by
      intro m
      simp only [mem_append, mem_singleton, or_iff_left_iff_imp]
      rintro rfl
      exact hmem
    have hmap : drat.units { t.assign_propagate l none with
        m_units := (t.assign_propagate l none).m_units ++ [(l, none)] } = (t.assign_propagate l none).units ++ [l] := by
      simp [drat.units]
    refine .inr ⟨hinc, { hrest' with
      units := fun m => ?_
      derived := fun m hm => ?_
      settled := fun wc hwc w o hw hd => ?_ }⟩
    · rw [hmap, hunits]
      exact hrest'.units m
    · rw [hmap, hunits] at hm
      exact hrest'.derived m hm
    · rw [hmap] at hd
      exact hrest'.settled wc hwc w o hw ((hunits _).mp hd)

/-- The lists after a clause was attached. -/
theorem Watched.attach {wcs : List watched_clause} {ws : literal → List Nat} (h : Watched wcs ws) (hne : l1 ≠ l2) :
    Watched (wcs ++ [⟨c, l1, l2⟩]) (Function.update (Function.update ws (~~~l1) (ws (~~~l1) ++ [wcs.length])) (~~~l2)
        (Function.update ws (~~~l1) (ws (~~~l1) ++ [wcs.length]) (~~~l2) ++ [wcs.length])) := by
  have hcompl : ~~~l2 ≠ ~~~l1 := fun heq => hne (Lit.compl_inj.mp heq).symm
  rw [update_of_ne hcompl]
  have hlists p : update (update ws (~~~l1) (ws (~~~l1) ++ [wcs.length])) (~~~l2)
      (ws (~~~l2) ++ [wcs.length]) p = if ~~~p = l1 ∨ ~~~p = l2 then ws p ++ [wcs.length] else ws p := by
    by_cases h2 : p = ~~~l2
    · subst h2
      simp
    · rw [update_of_ne h2]
      by_cases h1 : p = ~~~l1
      · subst h1
        simp
      · have h1' : ~~~p ≠ l1 := fun heq => h1 (Lit.compl_eq_iff.mp heq)
        have h2' : ~~~p ≠ l2 := fun heq => h2 (Lit.compl_eq_iff.mp heq)
        simp [update_of_ne h1, h1', h2']
  have hold {p : literal} {i : Nat} (hi : i ∈ ws p) : i < wcs.length := by
    obtain ⟨wc, hwc, -⟩ := (h.mem_iff p i).mp hi
    exact (List.getElem?_eq_some_iff.mp hwc).1
  have hmk : watched_clause.Watches ⟨c, l1, l2⟩ l1 l2 := .inl ⟨rfl, rfl⟩
  constructor
  · intro p i
    rw [hlists]
    rcases Nat.lt_trichotomy i wcs.length with hlt | rfl | hgt
    · have hi : i ≠ wcs.length := Nat.ne_of_lt hlt
      rw [getElem?_append_left hlt, ← h.mem_iff]
      split <;> simp [hi]
    · have hnot : wcs.length ∉ ws p := fun hmem => Nat.lt_irrefl _ (hold hmem)
      simp only [getElem?_concat_length, some.injEq, exists_eq_left', hmk.exists_iff]
      split
      next hp => simp [hp]
      next hp => simp [hp, hnot]
    · have hnone : (wcs ++ [⟨c, l1, l2⟩])[i]? = none := by
        rw [List.getElem?_eq_none_iff, length_append]
        exact hgt
      have hnot : i ∉ ws p := fun hmem => Nat.lt_asymm hgt (hold hmem)
      have hi : i ≠ wcs.length := Nat.ne_of_gt hgt
      rw [hnone]
      split <;> simp [hnot, hi]
  · intro p
    rw [hlists]
    split
    · rw [← concat_eq_append]
      exact (h.nodup p).concat fun hmem => Nat.lt_irrefl _ (hold hmem)
    · exact h.nodup p

section

variable (h : Resting F s)
include h

/-- The state in which a new clause has been attached. -/
theorem Resting.attach (hcons : s.m_inconsistent = false) (hne : l1 ≠ l2) (h1 : l1 ∈ c.lits) (h2 : l2 ∈ c.lits) :
    Propagating (insert c.lits F) ∅ ∅ (s.attach c l1 l2)
      (s.m_units.length + (s.attach c l1 l2).watched_lits.length) (s.attach c l1 l2).m_watches (s.attach c l1 l2) where
  watched := h.watched.attach hne
  proper := Lists.forall_mem_concat h.proper ⟨h1, h2, hne⟩
  clauses := rfl
  next := rfl
  from_clauses :=
    Lists.forall_mem_concat (fun wc hwc => Set.mem_insert_of_mem _ (h.from_clauses wc hwc)) (Set.mem_insert _ _)
  units := h.units
  derived l hl := (h.derived l hl).mono (Set.subset_insert _ _) subset_rfl
  conflict hinc := absurd hinc (by simp [drat.attach, push_watch, hcons])
  adds := .refl
  fixed_true l hl := absurd hl (Set.notMem_empty l)
  kept wc hwc w o hw hfix := absurd hfix (Set.notMem_empty _)
  bound := bound_of_length _ _

theorem Resting.addresses_attach (hc : c.ptr < s.m_next) (l1 l2 : literal) :
    ∀ wc ∈ (s.attach c l1 l2).m_watched_clauses, wc.m_clause.ptr < (s.attach c l1 l2).m_next :=
  Lists.forall_mem_concat h.addresses hc

/-- The clauses that were covered before are, and the new one is watched. -/
theorem Resting.covered_attach (hne : c.lits ≠ []) (l1 l2 : literal) : ∀ d ∈ insert c.lits F, d ≠ [] ∧
    ((∃ wc ∈ (s.attach c l1 l2).m_watched_clauses, wc.m_clause.lits = d) ∨ ∃ l ∈ d, s.value l = .l_true) := by
  intro d hd
  rcases Set.mem_insert_iff.mp hd with rfl | hd
  · exact ⟨hne, .inl ⟨⟨c, l1, l2⟩, mem_append_right _ (mem_singleton.mpr rfl), rfl⟩⟩
  · refine ⟨(h.covered d hd).1, (h.covered d hd).2.imp_left ?_⟩
    rintro ⟨wc, hwc, rfl⟩
    exact ⟨wc, mem_append_left _ hwc, rfl⟩

/-- The watches of the clauses that were there before are settled. -/
theorem Resting.settledBut_attach
    (hnew : (~~~l1 ∈ s.units → s.value l2 = .l_true ∨ l2 = l) ∧ (~~~l2 ∈ s.units → s.value l1 = .l_true ∨ l1 = l)) :
    SettledBut l (s.attach c l1 l2) := by
  refine Lists.forall_mem_concat (fun wc hwc w o hw hd => .inl (h.settled wc hwc w o hw hd)) fun w o hw => ?_
  rcases watches_mk.mp hw with ⟨rfl, rfl⟩ | ⟨rfl, rfl⟩
  · exact hnew.1
  · exact hnew.2

theorem Resting.not_mem_units (hl : s.value l ≠ .l_false) : ~~~l ∉ s.units := fun hmem =>
  hl (by simpa using (h.units _).mpr hmem)

/-- A clause is attached at two literals that are not false. -/
theorem Resting.inv_attach (hcons : s.m_inconsistent = false) (hc : c.ptr < s.m_next) (hne : l1 ≠ l2)
    (h1 : l1 ∈ c.lits) (h2 : l2 ∈ c.lits) (hv1 : s.value l1 ≠ .l_false) (hv2 : s.value l2 ≠ .l_false) :
    Inv (insert c.lits F) (s.attach c l1 l2) := by
  refine inv_of_propagating (h.attach hcons hne h1 h2) (h.addresses_attach hc l1 l2)
    (.inr ⟨Lists.forall_mem_concat h.settled fun w o hw hd => ?_, h.covered_attach (ne_nil_of_mem h1) l1 l2⟩)
  rcases watches_mk.mp hw with ⟨rfl, rfl⟩ | ⟨rfl, rfl⟩
  · exact absurd hd (h.not_mem_units hv1)
  · exact absurd hd (h.not_mem_units hv2)

theorem Resting.derives_of_false (c : List literal) (hl : s.value l = .l_false) : Derives (insert c F) ∅ (~~~l) :=
  (h.derived _ ((h.units _).mp (by simp [hl]))).mono (Set.subset_insert _ _) subset_rfl

/-- A clause with false literals only. -/
theorem Resting.refutes_of_false {c : List literal} (hc : ∀ l ∈ c, s.value l = .l_false) : Refutes (insert c F) ∅ :=
  .inl ⟨c, Set.mem_insert _ _, fun l hl => h.derives_of_false c (hc l hl)⟩

/-- A clause with one literal that is not false. -/
theorem Resting.derives_of_others_false {c : List literal} (hl : l ∈ c)
    (hc : ∀ m ∈ c, m ≠ l → s.value m = .l_false) : Derives (insert c F) ∅ l :=
  .unit (Set.mem_insert _ _) hl fun m hm hne => h.derives_of_false c (hc m hm hne)

theorem Resting.with_proof {n : Nat} (hn : s.m_next ≤ n) (pr : List (drat.clause × status)) :
    Resting F { s with m_next := n, m_proof := pr } :=
  { h with addresses := fun wc hwc => (h.addresses wc hwc).trans_le hn }

/-- A binary clause is watched by both literals, and propagated if one of them is false. -/
theorem Resting.append_binary (hcons : s.m_inconsistent = false) (hst : st.is_deleted = false)
    (hne : l1 ≠ l2) (happend : s.append_binary l1 l2 st = some s') : Inv (insert [l1, l2] F) s' := by
  rw [drat.append_binary, if_neg (by simp [hst])] at happend
  obtain ⟨t, ht, rfl⟩ := map_eq_some_iff.mp happend
  obtain ⟨hrest0, hcons', -⟩ := h.verify_redundant hcons ht
  dsimp only [mk_clause]
  have hrest : Resting F { t with m_next := t.m_next + 1, m_proof := t.m_proof ++ [(⟨t.m_next, [l1, l2]⟩, st)] } :=
    hrest0.with_proof (Nat.le_succ _) _
  have hlt : t.m_next < t.m_next + 1 := Nat.lt_succ_self _
  have hattach := hrest.attach (c := ⟨t.m_next, [l1, l2]⟩) hcons' hne (by simp) (by simp)
  have haddresses := hrest.addresses_attach (c := ⟨t.m_next, [l1, l2]⟩) hlt l1 l2
  have hcovered := hrest.covered_attach (c := ⟨t.m_next, [l1, l2]⟩) (by simp) l1 l2
  split_ifs with hboth hv1 hv2
  · refine .inl ⟨rfl, hrest.refutes_of_false fun l hl => ?_⟩
    rcases mem_cons.mp hl with rfl | hl
    · exact hboth.1
    · exact (mem_singleton.mp hl) ▸ hboth.2
  · have hderives : Derives (insert [l1, l2] F) ∅ l2 := by
      refine hrest.derives_of_others_false (by simp) fun m hm hm2 => ?_
      rcases mem_cons.mp hm with rfl | hm
      · exact hv1
      · exact absurd (mem_singleton.mp hm) hm2
    have hv2 : ~~~l2 ∉ t.units := hrest.not_mem_units fun h2 => hboth ⟨hv1, h2⟩
    exact (inv_assign_propagate hattach haddresses
      (hrest.settledBut_attach ⟨fun _ => .inr rfl, fun hmem => absurd hmem hv2⟩)
      (fun d hd => hcovered d (Set.mem_insert_of_mem _ hd)) (by simp) hderives _).1
  · have hderives : Derives (insert [l1, l2] F) ∅ l1 := by
      refine hrest.derives_of_others_false (by simp) fun m hm hm1 => ?_
      obtain rfl : m = l2 := by simpa [hm1] using hm
      exact hv2
    have hv1' : ~~~l1 ∉ t.units := hrest.not_mem_units hv1
    exact (inv_assign_propagate hattach haddresses
      (hrest.settledBut_attach ⟨fun hmem => absurd hmem hv1', fun _ => .inr rfl⟩)
      (fun d hd => hcovered d (Set.mem_insert_of_mem _ hd)) (by simp) hderives _).1
  · exact hrest.inv_attach hcons' hlt hne (by simp) (by simp) hv1 hv2

/-- No clause is watched under the address of a new clause. -/
theorem Resting.del_watch {n : Nat} (hn : s.m_next ≤ c.ptr) (pr : List (drat.clause × status))
    (l : literal) :
    drat.del_watch { s with m_next := n, m_proof := pr } c l = { s with m_next := n, m_proof := pr } := by
  have hnone : ((s.m_watches (~~~l)).findIdx? fun idx =>
      (s.m_watched_clauses[idx]?).any fun wc => wc.m_clause.ptr = c.ptr) = none := by
    refine findIdx?_eq_none_iff.mpr fun idx _ => ?_
    cases hidx : s.m_watched_clauses[idx]? with
    | none => rfl
    | some wc =>
      have hlt := (h.addresses wc (mem_of_getElem? hidx)).trans_le hn
      simpa using Nat.ne_of_lt hlt
  rw [drat.del_watch, hnone]

/-- A deletion detaches nothing: the address of the clause is new. -/
theorem Resting.append_deleted_clause {c : List literal} (hst : st.is_deleted)
    (happend : s.append_new_clause c st = some s') : Resting F s' ∧ s'.m_inconsistent = s.m_inconsistent := by
  have hred : st.is_redundant = false := by
    rw [status.is_deleted, decide_eq_true_eq] at hst
    simp [status.is_redundant, hst]
  rw [drat.append_new_clause, append_clause, drat.verify_redundant, if_neg (by simp [hred])] at happend
  cases happend
  have hrest pr : Resting F { s with m_next := s.m_next + 1, m_proof := pr } := h.with_proof (Nat.le_succ _) pr
  dsimp only [mk_clause]
  rw [if_pos hst]
  split
  · exact ⟨hrest _, rfl⟩
  · rw [h.del_watch le_rfl]
    exact ⟨hrest _, rfl⟩
  · rw [h.del_watch le_rfl, h.del_watch le_rfl]
    exact ⟨hrest _, rfl⟩

/-- A longer clause is watched by two literals that are not false, if there are two. With one it is propagated, with
none the checker is inconsistent. -/
theorem Resting.append_new_clause (hcons : s.m_inconsistent = false) {c : List literal} (hst : st.is_deleted = false)
    (hnodup : c.Nodup) (happend : s.append_new_clause c st = some s') : Inv (insert c F) s' := by
  obtain ⟨t, ht, rfl⟩ := map_eq_some_iff.mp happend
  have hmk : Resting F (s.mk_clause c).2 := h.with_proof (Nat.le_succ _) _
  obtain ⟨hrest0, hcons', hnext⟩ := hmk.verify_redundant hcons ht
  have hrest : Resting F { t with m_proof := t.m_proof ++ [((s.mk_clause c).1, st)] } := hrest0.with_proof le_rfl _
  have hlt : s.m_next < t.m_next := hnext ▸ Nat.lt_succ_self s.m_next
  rw [if_neg (by simp [hst])]
  have hothers {ls : List literal} (hfilter : (s.mk_clause c).1.lits.filter
      (fun l => drat.value { t with m_proof := t.m_proof ++ [((s.mk_clause c).1, st)] } l ≠ .l_false) = ls) :
      (∀ l ∈ ls, l ∈ c ∧ t.value l ≠ .l_false) ∧ ∀ l ∈ c, l ∉ ls → t.value l = .l_false := by
    subst hfilter
    refine ⟨fun l hl => ?_, fun l hl hnot => ?_⟩
    · obtain ⟨hl, hv⟩ := mem_filter.mp hl
      exact ⟨hl, of_decide_eq_true hv⟩
    · by_contra hv
      exact hnot (mem_filter.mpr ⟨hl, decide_eq_true hv⟩)
  split
  next hfilter =>
    obtain ⟨-, hfalse⟩ := hothers hfilter
    exact .inl ⟨rfl, hrest.refutes_of_false fun l hl => hfalse l hl (by simp)⟩
  next l1 hfilter =>
    obtain ⟨hmem, hfalse⟩ := hothers hfilter
    have hl1 : l1 ∈ c := (hmem l1 (by simp)).1
    have hderives : Derives (insert c F) ∅ l1 :=
      hrest.derives_of_others_false hl1 fun m hm hne => hfalse m hm (by simpa using hne)
    exact (inv_assign_propagate (hrest.start hcons' (Set.subset_insert _ F) ∅) hrest.addresses
      (settledBut_of_settled hrest.settled l1) hrest.covered hl1 hderives _).1
  next l1 l2 ls hfilter =>
    obtain ⟨hmem, -⟩ := hothers hfilter
    obtain ⟨hl1, hv1⟩ := hmem l1 (by simp)
    obtain ⟨hl2, hv2⟩ := hmem l2 (by simp)
    have hdup : (l1 :: l2 :: ls).Nodup := hfilter ▸ hnodup.filter _
    have hne : l1 ≠ l2 := fun heq => (nodup_cons.mp hdup).1 (by simp [heq])
    exact hrest.inv_attach hcons' hlt hne hl1 hl2 hv1 hv2

end

end sat.drat
