import BooledASS.Sat.Analysis.DynSubRes

open Cnf

namespace sat.solver

variable {s0 s : solver} {F : Set (List literal)} {A : List literal}

/-- No mark is left from an earlier conflict. -/
structure MarksClear (s : solver) : Prop where
  mark : ∀ v, s.m_mark v = false
  lit_mark : ∀ l, s.m_lit_mark l = false
  unmark : s.m_unmark = []

/-- The lemma `~~~c :: L` of a conflict: all its literals are false, and `c` alone is of the conflict
level. -/
structure LemmaShape (s0 : solver) (c : literal) (L : List literal) : Prop where
  uip_mem : c ∈ s0.m_trail
  uip_level : s0.lvl c.var = s0.m_conflict_lvl
  false : ∀ x ∈ L, ~~~x ∈ s0.m_trail
  level : ∀ x ∈ L, 0 < s0.lvl x.var ∧ s0.lvl x.var ≠ s0.m_conflict_lvl
  blamed : ∀ x ∈ L, s0.BlamedBy (~~~x)
  nodup : (L.map Lit.var).Nodup

variable {L : List literal} {c : literal}

theorem LemmaShape.sublist {L' : List literal} (h : LemmaShape s0 c L) (hsub : L'.Sublist L) : LemmaShape s0 c L' :=
  ⟨h.uip_mem, h.uip_level, fun x hx => h.false x (hsub.subset hx),
    fun x hx => h.level x (hsub.subset hx), fun x hx => h.blamed x (hsub.subset hx), (hsub.map _).nodup h.nodup⟩

theorem LemmaShape.var_ne (h : LemmaShape s0 c L) : ∀ x ∈ L, x.var ≠ c.var :=
  fun x hx hxc => (h.level x hx).2 (hxc ▸ h.uip_level)

theorem LemmaShape.cons_nodup (h : LemmaShape s0 c L) : ((~~~c :: L).map Lit.var).Nodup := by
  rw [List.map_cons, List.nodup_cons]
  refine ⟨fun hmem => ?_, h.nodup⟩
  obtain ⟨x, hx, hxc⟩ := List.mem_map.mp hmem
  exact h.var_ne x hx hxc

/-- The second half of the analysis, from the lemma of the first UIP on. -/
theorem simplify_lemma_spec {s1 : solver} (h0 : s0.Analyzable F) (hshape : LemmaShape s0 c L) (hL : LemmaMarks s0 s1 L)
    (hlemma : s1.m_lemma = ~~~c :: L) (hunmark : s1.m_unmark = []) (hlit : ∀ l, s1.m_lit_mark l = false) :
    ∃ s' L', s1.simplify_lemma = some s' ∧ Frame s0 s' ∧ MarksClear s' ∧ s'.m_lemma = ~~~c :: L' ∧
    LemmaShape s0 c L' ∧ (s0.BinariesOk F → Entails F (~~~c :: L) → Entails F (~~~c :: L')) := by
  have hreset : ∀ {s2 : solver} {K : List literal}, LemmaMarks s0 s2 K → LemmaShape s0 c K →
      s2.m_lemma = ~~~c :: K → s2.reset_lemma_var_marks = { s2 with m_mark := fun _ => false } :=
    fun hK hshapeK hlemmaK => reset_lemma_var_marks_eq hlemmaK hK.marked hshapeK.var_ne
  unfold simplify_lemma
  by_cases hmin : s1.m_config.m_minimize_lemmas
  · obtain ⟨s2, kept, hrun, hlemma2, hsub, hmarks2, hunmark2, hlit2, hent⟩ := minimize_lemma_spec h0 hL hunmark hlemma
    have hshape2 := hshape.sublist hsub
    simp only [hmin, hrun, hreset hmarks2 hshape2 hlemma2]
    set s3 : solver := { s2 with m_mark := fun _ => false } with hs3
    have hf3 : Frame s0 s3 := hmarks2.frame.trans rfl
    have hclear3 : MarksClear s3 := ⟨fun _ => rfl, fun l => by simp [hs3, hlit2, hlit], hunmark2⟩
    by_cases hdyn : s3.m_config.m_dyn_sub_res
    · obtain ⟨kept', hdynrun, hsub', hent'⟩ := dyn_sub_res_spec (s := s3) hlemma2
        (.of_map _ hshape2.cons_nodup) hclear3.lit_mark
      have hbins : s0.BinariesOk F → s3.BinariesOk F := by
        have hw : s3.m_watches = s0.m_watches := by rw [hf3]
        have hc : s3.m_cached_bins = s0.m_cached_bins := by rw [hf3]
        exact fun hb => by rwa [BinariesOk, hw, hc]
      rw [if_pos hdyn, hdynrun]
      exact ⟨_, kept', rfl, hf3.trans rfl, ⟨hclear3.mark, hclear3.lit_mark, hclear3.unmark⟩, rfl,
        hshape2.sublist hsub', fun hb hF => hent' (hbins hb) (hent hF)⟩
    · rw [if_neg hdyn]
      exact ⟨s3, kept, rfl, hf3, hclear3, hlemma2, hshape2, fun _ => hent⟩
  · rw [if_neg hmin, hreset hL hshape hlemma]
    exact ⟨_, L, rfl, hL.frame.trans rfl, ⟨fun _ => rfl, hlit, hunmark⟩, hlemma, hshape, fun _ => id⟩

/-- Conflict analysis succeeds and leaves no marks. The lemma is entailed when nothing of the conflict
level precedes a decision and the binary clauses used for subsumption are entailed. -/
theorem conflict_lemma_spec (h0 : s0.Analyzable F) (hconf : s0.ConflictOk F A) (hlvl0 : 0 < s0.m_conflict_lvl)
    (hclear : s0.MarksClear) : ∃ s' c L, s0.conflict_lemma = some s' ∧ Frame s0 s' ∧ MarksClear s' ∧
    s'.m_lemma = ~~~c :: L ∧ LemmaShape s0 c L ∧ (s0.DecisionFirst → s0.BinariesOk F → Entails F (~~~c :: L)) := by
  obtain ⟨s1, c, hrun, hinv, hc, hclvl, hent⟩ := resolve_first_uip_spec h0 hconf hlvl0 hclear.mark
  have hshape : LemmaShape s0 c s1.m_lemma :=
    ⟨hc, hclvl, hinv.lemma_false, hinv.lemma_level, hinv.lemma_blamed, hinv.lemma_nodup⟩
  have hmarks : LemmaMarks s0 { s1 with m_lemma := ~~~c :: s1.m_lemma } s1.m_lemma := by
    refine ⟨hinv.frame.trans rfl, fun v => ⟨fun hv => ?_, ?_⟩, hinv.lemma_nodup, hinv.lemma_false,
      fun x hx => ⟨(hinv.lemma_level x hx).1, ~~~x, hinv.lemma_false x hx, rfl⟩⟩
    · exact (hinv.marked v hv).resolve_right (by simp)
    · rintro ⟨x, hx, rfl⟩
      exact hinv.lemma_marked x hx
  have hunmark : s1.m_unmark = [] := hinv.unmark.trans hclear.unmark
  have hlit : ∀ l, s1.m_lit_mark l = false := fun l => by rw [hinv.lit_mark, hclear.lit_mark]
  obtain ⟨s', L', hsimp, hf, hclear', hlemma, hshape', hent'⟩ := simplify_lemma_spec h0 hshape hmarks rfl hunmark hlit
  exact ⟨s', c, L', by rw [conflict_lemma, hrun]; exact hsimp, hf, hclear', hlemma, hshape',
    fun hfirst hb => hent' hb (hent hfirst)⟩

end sat.solver
