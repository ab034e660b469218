import BooledASS.Sat.Drat.Visit

open List Function

namespace sat.drat

open Cnf

variable {s s' s0 : drat} {l m w o : literal} {idx : Nat} {F : Set (List literal)} {S fixed done : Set literal}
  {ws : literal → List Nat} {N : Nat}

def units (s : drat) : List literal := s.m_units.map Prod.fst

/-- The units of the state after those of `s0` are the variables that have a value in addition. -/
structure Adds (s0 s : drat) : Prop where
  units : ∃ new, s.m_units = s0.m_units ++ new ∧ (∀ u ∈ new, s0.m_assignment u.1.var = .l_undef) ∧
    ∀ v, (∀ u ∈ new, u.1.var ≠ v) → s.m_assignment v = s0.m_assignment v

/-- What holds during a propagation from the literals `S` over the clauses `F` that was started in `s0`, with the
watch lists `ws`. The literals of `fixed` are those that stay when the propagation is undone. -/
structure Propagating (F : Set (List literal)) (S fixed : Set literal) (s0 : drat) (N : Nat) (ws : literal → List Nat)
    (s : drat) : Prop where
  watched : Watched s.m_watched_clauses ws
  proper : ∀ wc ∈ s.m_watched_clauses, wc.Proper
  clauses : s.m_watched_clauses.map (·.m_clause) = s0.m_watched_clauses.map (·.m_clause)
  next : s.m_next = s0.m_next
  from_clauses : ∀ wc ∈ s.m_watched_clauses, wc.m_clause.lits ∈ F
  units : ∀ l, s.value l = .l_true ↔ l ∈ s.units
  derived : ∀ l ∈ s.units, Derives F S l
  conflict : s.m_inconsistent → Refutes F S
  adds : Adds s0 s
  fixed_true : ∀ l ∈ fixed, s.value l = .l_true
  kept : ∀ wc ∈ s.m_watched_clauses, ∀ w o, wc.Watches w o → ~~~w ∈ fixed → o ∈ fixed
  bound : s.m_units.length + (s0.watched_lits.filter fun l => s.value l = .l_undef).length ≤ N

/-- A watch that was made false by a literal of `done` has a true partner. -/
def Settled (done : Set literal) (s : drat) : Prop :=
  ∀ wc ∈ s.m_watched_clauses, ∀ w o, wc.Watches w o → ~~~w ∈ done → s.value o = .l_true

/-- The same for the literal `l` in addition, except for the clauses at `todo`. -/
def SettledFor (done : Set literal) (l : literal) (todo : List Nat) (s : drat) : Prop :=
  ∀ i wc, s.m_watched_clauses[i]? = some wc → ∀ w o, wc.Watches w o →
    ~~~w ∈ done ∨ (~~~w = l ∧ i ∉ todo) → s.value o = .l_true

variable {wc : watched_clause}

theorem mem_watched_lits_of_clauses (h : s.m_watched_clauses.map (·.m_clause) = s0.m_watched_clauses.map (·.m_clause))
    (hwc : wc ∈ s.m_watched_clauses) (hl : l ∈ wc.m_clause.lits) : l ∈ s0.watched_lits := by
  have hmem : wc.m_clause ∈ s0.m_watched_clauses.map (·.m_clause) := h ▸ mem_map_of_mem hwc
  obtain ⟨wc0, hwc0, heq⟩ := mem_map.mp hmem
  exact mem_flatMap.mpr ⟨wc0, hwc0, heq ▸ hl⟩

theorem map_clause_set (idx : Nat) {wcs : List watched_clause} (hidx : wcs[idx]? = some wc)
    (l1 l2 : literal) : (wcs.set idx ⟨wc.m_clause, l1, l2⟩).map (·.m_clause) = wcs.map (·.m_clause) := by
  refine ext_getElem? fun i => ?_
  by_cases hi : i = idx
  · subst hi
    obtain ⟨hlt, rfl⟩ := List.getElem?_eq_some_iff.mp hidx
    simp [hlt]
  · simp [getElem?_set_ne (Ne.symm hi)]

theorem mem_set_or {wcs : List watched_clause} {wc' : watched_clause} (h : wc' ∈ wcs.set idx wc) :
    wc' ∈ wcs ∨ wc' = wc := mem_or_eq_of_mem_set h

/-- A literal that gets a value is no longer counted. -/
theorem filter_undef_push_unit (hl : s.value l = .l_undef) (c : Option drat.clause) {vs : List literal}
    (hmem : l ∈ vs) :
    (vs.filter fun m => (s.push_unit l c).value m = .l_undef).length + 1 ≤
      (vs.filter fun m => s.value m = .l_undef).length := by
  have hle (xs : List literal) : (xs.filter fun m => (s.push_unit l c).value m = .l_undef).length ≤
      (xs.filter fun m => s.value m = .l_undef).length := by
    refine (monotone_filter_right xs fun m hm => ?_).length_le
    rw [decide_eq_true_eq] at hm ⊢
    by_contra hne
    exact hne (value_push_unit_of_ne_undef hl hne c ▸ hm)
  obtain ⟨pre, post, rfl⟩ := append_of_mem hmem
  have hself : (s.push_unit l c).value l ≠ .l_undef := by simp [value_push_unit_self]
  have h1 := hle pre
  have h2 := hle post
  simp only [filter_append, length_append, filter_cons, hl, hself, decide_true, decide_false, if_true, length_cons]
  simp only [Bool.false_eq_true, if_false]
  omega

section Unit

variable (h : Propagating F S fixed s0 N ws s)
include h

theorem Propagating.false_of_true (hl : s.value l = .l_false) : Derives F S (~~~l) :=
  h.derived _ ((h.units _).mp (by simp [hl]))

/-- A literal that follows is assigned. -/
theorem Propagating.push_unit (hl : s.value l = .l_undef) (hderives : Derives F S l) (c : Option drat.clause)
    (hbound : s.m_units.length + 1 +
      (s0.watched_lits.filter fun m => (s.push_unit l c).value m = .l_undef).length ≤ N) :
    Propagating F S fixed s0 N ws (s.push_unit l c) where
  __ := h
  units m := by
    rw [value_push_unit_eq_true hl, h.units]
    simp [drat.units, drat.push_unit]
  derived m hm := by
    have hmem : m ∈ s.units ∨ m = l := by simpa [drat.units, drat.push_unit] using hm
    exact hmem.elim (h.derived m) fun heq => heq ▸ hderives
  conflict := h.conflict
  adds := by
    obtain ⟨new, hnew, hundef, hsame⟩ := h.adds.units
    have hfresh : s0.m_assignment l.var = .l_undef := by
      by_cases hvar : ∀ u ∈ new, u.1.var ≠ l.var
      · rw [← hsame _ hvar]
        cases hsign : l.sign <;> cases hval : s.m_assignment l.var <;> simp [value, hsign, hval, lbool.neg] at hl ⊢
      · push Not at hvar
        obtain ⟨u, hu, heq⟩ := hvar
        exact heq ▸ hundef u hu
    refine ⟨new ++ [(l, c)], by simp [drat.push_unit, hnew], Lists.forall_mem_concat hundef hfresh, fun v hv => ?_⟩
    have hne : v ≠ l.var := fun heq => hv (l, c) (by simp) heq.symm
    rw [← hsame v fun u hu => hv u (mem_append_left _ hu)]
    exact update_of_ne hne _ _
  fixed_true m hm := (value_push_unit_eq_true hl c).mpr (.inl (h.fixed_true m hm))
  kept := h.kept
  bound := by simpa [drat.push_unit] using hbound

theorem Propagating.push_watched_unit (hl : s.value l = .l_undef) (hderives : Derives F S l) (c : Option drat.clause)
    (hmem : l ∈ s0.watched_lits) : Propagating F S fixed s0 N ws (s.push_unit l c) := by
  refine h.push_unit hl hderives c ?_
  have hcount := filter_undef_push_unit hl c hmem
  have hbound := h.bound
  omega

/-- The watches of one clause are replaced by watches of the same clause. -/
theorem Propagating.set_watches {wc : watched_clause} (hidx : s.m_watched_clauses[idx]? = some wc) {l1 l2 : literal}
    (hproper : (watched_clause.mk wc.m_clause l1 l2).Proper) {ws' : literal → List Nat}
    (hwatched : Watched (s.m_watched_clauses.set idx ⟨wc.m_clause, l1, l2⟩) ws')
    (hkept : (~~~l1 ∈ fixed → l2 ∈ fixed) ∧ (~~~l2 ∈ fixed → l1 ∈ fixed)) :
    Propagating F S fixed s0 N ws' (s.set_watched_clause idx ⟨wc.m_clause, l1, l2⟩) where
  watched := hwatched
  proper wc' hwc' := (mem_set_or hwc').elim (h.proper wc') fun heq => heq ▸ hproper
  clauses := (map_clause_set idx hidx l1 l2).trans h.clauses
  next := h.next
  from_clauses wc' hwc' := by
    rcases mem_set_or hwc' with hwc' | rfl
    · exact h.from_clauses wc' hwc'
    · exact h.from_clauses wc (mem_of_getElem? hidx)
  units := h.units
  derived := h.derived
  conflict := h.conflict
  adds := ⟨h.adds.units⟩
  fixed_true := h.fixed_true
  kept wc' hwc' := by
    rcases mem_set_or hwc' with hwc' | rfl
    · exact h.kept wc' hwc'
    · rintro w o (⟨rfl, rfl⟩ | ⟨rfl, rfl⟩)
      · exact hkept.1
      · exact hkept.2
  bound := h.bound

end Unit

/-! ### One watch -/

section Visit

variable {kept todo : List Nat} {c : drat.clause} {v : visit} {wc : watched_clause}

theorem settledFor_swap (h : SettledFor done l todo s) (hidx : s.m_watched_clauses[idx]? = some wc)
    (hw : wc.Watches (~~~l) o) : SettledFor done l todo (s.set_watched_clause idx ⟨wc.m_clause, o, ~~~l⟩) := by
  intro i wc' hi w' o' hw' hdone
  rcases (getElem?_set_eq_some hidx).mp hi with ⟨rfl, rfl⟩ | ⟨-, hi⟩
  · refine h i wc hidx w' o' ?_ hdone
    rcases watches_mk.mp hw' with ⟨rfl, rfl⟩ | ⟨rfl, rfl⟩
    · exact hw.symm
    · exact hw
  · exact h i wc' hi w' o' hw' hdone

/-- After the visit of a watch that stays, its clause no longer is an exception. -/
theorem settledFor_keep (h : SettledFor done l (idx :: todo) s) (hidx : s.m_watched_clauses[idx]? = some wc)
    (hproper : wc.Proper) (hw : wc.Watches (~~~l) o) (ho : s.value o = .l_true) : SettledFor done l todo s := by
  intro i wc' hi w' o' hw' hdone
  rcases hdone with hdone | ⟨hl, hnot⟩
  · exact h i wc' hi w' o' hw' (.inl hdone)
  · by_cases heq : i = idx
    · subst heq
      obtain rfl := Option.some.inj (hidx.symm.trans hi)
      have hw'' : wc.Watches (~~~l) o' := by
        rw [← hl, Lit.compl_compl]
        exact hw'
      have ho' : o' = o := by
        rcases hw with ⟨h1, rfl⟩ | ⟨h1, rfl⟩ <;> rcases hw'' with ⟨h2, rfl⟩ | ⟨h2, rfl⟩
        · rfl
        · exact absurd (h1.symm.trans h2) hproper.ne
        · exact absurd (h2.symm.trans h1) hproper.ne
        · rfl
      exact ho' ▸ ho
    · exact h i wc' hi w' o' hw' (.inr ⟨hl, by simp [heq, hnot]⟩)

theorem settledFor_push_unit (h : SettledFor done l todo s) (ho : s.value o = .l_undef) (c : Option drat.clause) :
    SettledFor done l todo (s.push_unit o c) := fun i wc hi w' o' hw' hdone =>
  (value_push_unit_eq_true ho c).mpr (.inl (h i wc hi w' o' hw' hdone))

variable (h : Propagating F S fixed s0 N (update s.m_watches l (kept ++ idx :: todo)) s)
include h

theorem Propagating.watch_at (hl : s.value l = .l_true) :
    ∃ wc o, s.m_watched_clauses[idx]? = some wc ∧ wc.Proper ∧ wc.Watches (~~~l) o ∧ s.value (~~~l) = .l_false := by
  have hmem : idx ∈ update s.m_watches l (kept ++ idx :: todo) l := by simp
  obtain ⟨wc, hwc, o, ho⟩ := (h.watched.mem_iff _ _).mp hmem
  exact ⟨wc, o, hwc, h.proper wc (mem_of_getElem? hwc), ho, by simp [hl, lbool.neg]⟩

/-- The clause at `idx` with its watches in the order of the loop. -/
theorem Propagating.set_order (hidx : s.m_watched_clauses[idx]? = some wc) (hw : wc.Watches (~~~l) o) :
    Propagating F S fixed s0 N (update s.m_watches l (kept ++ idx :: todo))
      (s.set_watched_clause idx ⟨wc.m_clause, o, ~~~l⟩) := by
  have hproper := h.proper wc (mem_of_getElem? hidx)
  obtain ⟨hmw, hmo, hne⟩ := hproper.mem hw
  refine h.set_watches hidx ⟨hmo, hmw, hne.symm⟩ (h.watched.swap hidx fun w' o' => ?_) ⟨?_, ?_⟩
  · rw [watches_mk]
    rcases hw with ⟨h1, rfl⟩ | ⟨h1, rfl⟩
    · rw [h1, watched_clause.Watches, or_comm]
    · rw [h1, watched_clause.Watches]
  · exact h.kept wc (mem_of_getElem? hidx) o (~~~l) hw.symm
  · exact h.kept wc (mem_of_getElem? hidx) (~~~l) o hw

/-- All literals of the clause but `o` are false when the other watch is and no other watch was found. -/
theorem Propagating.derives_others (hl : s.value l = .l_true)
    (hothers : ∀ m ∈ c.lits, m ≠ o → m ≠ ~~~l → s.value m = .l_false) : ∀ m ∈ c.lits, m ≠ o → Derives F S (~~~m) := by
  intro m hm hne
  by_cases hml : m = ~~~l
  · subst hml
    rw [Lit.compl_compl]
    exact h.derived l ((h.units l).mp hl)
  · exact h.false_of_true (hothers m hm hne hml)

end Visit

/-- The loop over the watch list of `l`. -/
structure Visiting (F : Set (List literal)) (S fixed : Set literal) (s0 : drat) (N : Nat) (done : Set literal)
    (l : literal) (kept todo : List Nat) (s : drat) : Prop where
  propagating : Propagating F S fixed s0 N (update s.m_watches l (kept ++ todo)) s
  settled : SettledFor done l todo s
  done_true : ∀ m ∈ done, s.value m = .l_true
  self_true : s.value l = .l_true

section Loop

variable {kept todo : List Nat} {wc : watched_clause}

section

variable (h : Visiting F S fixed s0 N done l kept (idx :: todo) s)
include h

theorem Visiting.satisfied (hidx : s.m_watched_clauses[idx]? = some wc) (hproper : wc.Proper) (hw : wc.Watches (~~~l) o)
    (ho : s.value o = .l_true) :
    Visiting F S fixed s0 N done l (kept ++ [idx]) todo (s.set_watched_clause idx ⟨wc.m_clause, o, ~~~l⟩) where
  propagating := by
    rw [append_assoc]
    exact h.propagating.set_order hidx hw
  settled := settledFor_swap (settledFor_keep h.settled hidx hproper hw ho) hidx hw
  done_true := h.done_true
  self_true := h.self_true

/-- The other watch is the only literal that is not false. It is assigned, with the clause as its reason, and the
watch stays. -/
theorem Visiting.unit (hidx : s.m_watched_clauses[idx]? = some wc) (hproper : wc.Proper) (hw : wc.Watches (~~~l) o)
    (ho : s.value o = .l_undef) (hothers : ∀ m ∈ wc.m_clause.lits, m ≠ o → m ≠ ~~~l → s.value m = .l_false) :
    Visiting F S fixed s0 N done l (kept ++ [idx]) todo
      ((s.set_watched_clause idx ⟨wc.m_clause, o, ~~~l⟩).push_unit o (some wc.m_clause)) := by
  have hmem := mem_of_getElem? hidx
  have hderives : Derives F S o :=
    .unit (h.propagating.from_clauses wc hmem) (hproper.mem hw).2.1 (h.propagating.derives_others h.self_true hothers)
  have horder := h.propagating.set_order hidx hw
  have hswap := settledFor_swap h.settled hidx hw
  have hget : (s.set_watched_clause idx ⟨wc.m_clause, o, ~~~l⟩).m_watched_clauses[idx]? =
      some ⟨wc.m_clause, o, ~~~l⟩ := (getElem?_set_eq_some hidx).mpr (.inl ⟨rfl, rfl⟩)
  refine ⟨?_, ?_, fun m hm => ?_, ?_⟩
  · rw [append_assoc]
    exact horder.push_watched_unit ho hderives _
      (mem_watched_lits_of_clauses h.propagating.clauses hmem (hproper.mem hw).2.1)
  · refine settledFor_keep (settledFor_push_unit hswap ho _) hget ?_ (.inr ⟨rfl, rfl⟩) (value_push_unit_self _)
    exact horder.proper _ (mem_of_getElem? hget)
  · exact (value_push_unit_eq_true ho (some wc.m_clause)).mpr (.inl (h.done_true m hm))
  · exact (value_push_unit_eq_true ho (some wc.m_clause)).mpr (.inl h.self_true)

/-- The watch goes to a literal that is not false, in the list of its complement, and leaves the list that is visited.
-/
theorem Visiting.moved
    (hidx : s.m_watched_clauses[idx]? = some wc) (hproper : wc.Proper) (hw : wc.Watches (~~~l) o) {lit : literal}
    (hmem : lit ∈ wc.m_clause.lits) (hlit : lit ≠ o) (hlit' : lit ≠ ~~~l) (hvalue : s.value lit ≠ .l_false) :
    Visiting F S fixed s0 N done l kept todo
      ((s.set_watched_clause idx ⟨wc.m_clause, o, lit⟩).push_watch (~~~lit) idx) := by
  have hl : s.value (~~~l) ≠ .l_true := value_ne_true_of_compl (by simpa using h.self_true)
  have hlitfalse : s.value (~~~lit) ≠ .l_true := by simpa using hvalue
  have hat := mem_of_getElem? hidx
  have hset : Propagating F S fixed s0 N
      (update (update s.m_watches (~~~lit) (s.m_watches (~~~lit) ++ [idx])) l (kept ++ todo))
      (s.set_watched_clause idx ⟨wc.m_clause, o, lit⟩) := by
    refine h.propagating.set_watches hidx ⟨(hproper.mem hw).2.1, hmem, hlit.symm⟩
      (h.propagating.watched.move hidx hproper hw hlit hlit') ⟨fun hfix => ?_, fun hfix => ?_⟩
    -- a watch that is false for good has a partner that is true for good, but `~l` is false
    · exact absurd (h.propagating.fixed_true _ (h.propagating.kept wc hat o _ hw.symm hfix)) hl
    · exact absurd (h.propagating.fixed_true _ hfix) hlitfalse
  refine ⟨{ hset with adds := ⟨hset.adds.units⟩ }, ?_, h.done_true, h.self_true⟩
  intro i wc' hi w' o' hw' hdone
  rcases (getElem?_set_eq_some hidx).mp hi with ⟨rfl, rfl⟩ | ⟨hne, hi⟩
  · have hfalse : s.value (~~~w') = .l_true := by
      rcases hdone with hdone | ⟨heq, -⟩
      · exact h.done_true _ hdone
      · exact heq ▸ h.self_true
    rcases watches_mk.mp hw' with ⟨rfl, rfl⟩ | ⟨rfl, rfl⟩
    · rcases hdone with hdone | ⟨heq, -⟩
      · exact absurd (h.settled i wc hidx _ _ hw.symm (.inl hdone)) hl
      · exact absurd (Lit.compl_eq_iff.mp heq) (hproper.mem hw).2.2.symm
    · exact absurd hfalse hlitfalse
  · refine h.settled i wc' hi w' o' hw' (hdone.imp_right fun hd => ⟨hd.1, ?_⟩)
    simp [hne, hd.2]

theorem Visiting.conflict (hidx : s.m_watched_clauses[idx]? = some wc) (hw : wc.Watches (~~~l) o)
    (ho : s.value o = .l_false) (hothers : ∀ m ∈ wc.m_clause.lits, m ≠ o → m ≠ ~~~l → s.value m = .l_false) :
    Propagating F S fixed s0 N (update s.m_watches l (kept ++ idx :: todo))
      { s.set_watched_clause idx ⟨wc.m_clause, o, ~~~l⟩ with m_inconsistent := true } := by
  refine { h.propagating.set_order hidx hw with conflict := fun _ => ?_, adds := ⟨h.propagating.adds.units⟩ }
  refine .inl ⟨wc.m_clause.lits, h.propagating.from_clauses wc (mem_of_getElem? hidx), fun m hm => ?_⟩
  by_cases hmo : m = o
  · exact hmo ▸ h.propagating.false_of_true ho
  · exact h.propagating.derives_others h.self_true hothers m hm hmo

end

/-- The state after the loop: a conflict, or no clause is left to settle. -/
theorem Visiting.visit_watches (h : Visiting F S fixed s0 N done l kept todo s) :
    Propagating F S fixed s0 N (update (visit_watches l kept s todo).1.m_watches l (visit_watches l kept s todo).2)
        (visit_watches l kept s todo).1 ∧
      ((visit_watches l kept s todo).1.m_inconsistent ∨ SettledFor done l [] (visit_watches l kept s todo).1) ∧
      s.m_units <+: (visit_watches l kept s todo).1.m_units := by
  induction todo generalizing s kept with
  | nil =>
    refine ⟨?_, .inr h.settled, prefix_rfl⟩
    simpa [drat.visit_watches] using h.propagating
  | cons idx todo ih =>
    obtain ⟨wc, o, hidx, hproper, hw, -⟩ := h.propagating.watch_at h.self_true
    have hvisits := visits_visit_watch hidx hproper hw
    rw [drat.visit_watches]
    generalize s.visit_watch l idx = r at hvisits
    obtain ⟨s', v⟩ := r
    cases hvisits with
    | satisfied ho => exact ih (h.satisfied hidx hproper hw ho)
    | moved _ hmem hlit hlit' hvalue => exact ih (h.moved hidx hproper hw hmem hlit hlit' hvalue)
    | conflict ho hothers => exact ⟨h.conflict hidx hw ho hothers, .inl rfl, prefix_rfl⟩
    | unit ho hothers =>
      obtain ⟨hprop, hsettled, hunits⟩ := ih (h.unit hidx hproper hw ho hothers)
      exact ⟨hprop, hsettled, (prefix_append _ _).trans hunits⟩

end Loop

/-! ### All units -/

/-- One more literal is settled. -/
theorem Propagating.propagate (h : Propagating F S fixed s0 N s.m_watches s) (hsettled : Settled done s)
    (hdone : ∀ m ∈ done, s.value m = .l_true) (hl : s.value l = .l_true) :
    Propagating F S fixed s0 N (s.propagate l).m_watches (s.propagate l) ∧
      ((s.propagate l).m_inconsistent ∨ Settled (insert l done) (s.propagate l)) ∧
      s.m_units <+: (s.propagate l).m_units := by
  have hstart : Visiting F S fixed s0 N done l [] (s.m_watches l) s := by
    refine ⟨by simpa using h, fun i wc hi w o hw hd => ?_, hdone, hl⟩
    rcases hd with hd | ⟨heq, hnot⟩
    · exact hsettled wc (mem_of_getElem? hi) w o hw hd
    · refine absurd ((h.watched.mem_iff l i).mpr ⟨wc, hi, o, ?_⟩) hnot
      rwa [← heq, Lit.compl_compl]
  obtain ⟨hprop, hend, hunits⟩ := hstart.visit_watches
  refine ⟨{ hprop with adds := ⟨hprop.adds.units⟩ }, hend.imp_right fun hend wc hwc w o hw hd => ?_, hunits⟩
  obtain ⟨i, hi⟩ := mem_iff_getElem?.mp hwc
  exact hend i wc hi w o hw ((Set.mem_insert_iff.mp hd).elim (fun heq => .inr ⟨heq, by simp⟩) .inl)

theorem Settled.mono (h : Settled done s) {done' : Set literal} (hsub : done' ⊆ done) : Settled done' s :=
  fun wc hwc w o hw hd => h wc hwc w o hw (hsub hd)

/-- The units before position `i` are settled when the loop starts, and all of them when it ends: the fuel is enough
for the units that can be added. -/
theorem Propagating.propagate_units {fuel i : Nat} (h : Propagating F S fixed s0 N s.m_watches s)
    (hsettled : s.m_inconsistent ∨ Settled {m | m ∈ s.units.take i} s) (hfuel : N < i + fuel) :
    Propagating F S fixed s0 N (propagate_units fuel s i).m_watches (propagate_units fuel s i) ∧
      ((propagate_units fuel s i).m_inconsistent ∨
        Settled {m | m ∈ (propagate_units fuel s i).units} (propagate_units fuel s i)) ∧
      s.m_units <+: (propagate_units fuel s i).m_units := by
  induction fuel generalizing s i with
  | zero =>
    refine ⟨h, hsettled.imp_right fun hs => hs.mono fun m hm => ?_, prefix_rfl⟩
    have hlen : s.units.length ≤ i := by
      have hbound := h.bound
      simp only [drat.units, length_map]
      omega
    simpa [drat.propagate_units, take_of_length_le hlen] using hm
  | succ fuel ih =>
    rw [drat.propagate_units]
    split
    next hinc => exact ⟨h, .inl hinc, prefix_rfl⟩
    next hinc =>
      have hs := hsettled.resolve_left hinc
      split
      next hnone =>
        refine ⟨h, .inr (hs.mono fun m hm => ?_), prefix_rfl⟩
        have hlen : s.units.length ≤ i := by simpa [drat.units] using getElem?_eq_none_iff.mp hnone
        simpa [take_of_length_le hlen] using hm
      next l c hsome =>
        have hget : s.units[i]? = some l := by simp [drat.units, hsome]
        have hl : s.value l = .l_true := (h.units l).mpr (mem_of_getElem? hget)
        have hdone : ∀ m ∈ {m | m ∈ s.units.take i}, s.value m = .l_true :=
          fun m hm => (h.units m).mpr (mem_of_mem_take hm)
        obtain ⟨hprop, hend, hunits⟩ := h.propagate hs hdone hl
        have hgrow : s.units <+: (s.propagate l).units := hunits.map _
        have htake : ∀ m ∈ (s.propagate l).units.take (i + 1), m = l ∨ m ∈ s.units.take i := by
          intro m hm
          obtain ⟨post, hpost⟩ := hgrow
          have hlt : i < s.units.length := (List.getElem?_eq_some_iff.mp hget).1
          rw [← hpost, take_append_of_le_length hlt, take_add_one, hget] at hm
          simpa [or_comm] using hm
        obtain ⟨hprop', hend', hunits'⟩ :=
          ih hprop (hend.imp_right fun hs' => hs'.mono fun m hm => Set.mem_insert_iff.mpr (htake m hm)) (by omega)
        exact ⟨hprop', hend', hunits.trans hunits'⟩

end sat.drat
