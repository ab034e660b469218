import BooledASS.Sat.Completeness

open Cnf Option

namespace sat.solver

/-- The clauses a conflict analysis may use: the database, the literals of level 0, and a unit clause
whose addition is the conflict. -/
inductive ClauseSet (s : solver) : List literal → Prop
  | database (lits : List literal) : s.InDatabase lits → ClauseSet s lits
  | unit (l : literal) : l ∈ s.m_trail → s.lvl l.var = 0 → ClauseSet s [l]
  | conflict (not_l : literal) : s.m_conflict = .none 0 → s.m_not_l = some not_l → ClauseSet s [~~~not_l]

/-- A literal without a justification after the trail `pre` is the decision of its level: nothing of
that level precedes it. The assumptions share level 1. -/
def IsDecision (s : solver) (pre : List literal) (l : literal) : Prop :=
  (s.m_justification l.var).get_kind = .NONE ∧
    ((∀ m ∈ pre, s.lvl m.var ≠ s.lvl l.var) ∨ s.tracking_assumptions ∧ s.lvl l.var = 1)

/-- `l` is justified by a binary clause or as a watch of a longer one; all other literals of the clause
are false, and have become so before `l`. -/
inductive IsPropagated (s : solver) (pre : List literal) (l : literal) : Prop
  | bin (l2 : literal) (learned : Bool) : (s.m_justification l.var).get_kind = .BINARY l2 →
      .BINARY l2 learned ∈ s.m_watches (~~~l) → ~~~l2 ∈ pre → IsPropagated s pre l
  | cls (off : clause_offset) (others : List literal) : (s.m_justification l.var).get_kind = .CLAUSE off →
      off ∈ s.m_clauses ∨ off ∈ s.m_learned → Watches l (s.m_cls off).m_lits others →
      (∀ m ∈ others, ~~~m ∈ pre) → IsPropagated s pre l

/-- The conflict is a clause with all literals false: a unit clause, a binary clause, or a longer one,
one of whose watches may be given by `m_not_l`. -/
inductive IsConflict (s : solver) : Prop
  | unit (not_l : literal) : s.m_conflict = .none 0 → s.m_not_l = some not_l → not_l ∈ s.m_trail → IsConflict s
  | bin (not_l l2 : literal) (learned : Bool) : s.m_conflict.get_kind = .BINARY l2 →
      s.m_not_l = some not_l → .BINARY l2 learned ∈ s.m_watches not_l → not_l ∈ s.m_trail →
      ~~~l2 ∈ s.m_trail → IsConflict s
  | cls (off : clause_offset) : s.m_conflict.get_kind = .CLAUSE off →
      off ∈ s.m_clauses ∨ off ∈ s.m_learned → (∀ m ∈ (s.m_cls off).m_lits, ~~~m ∈ s.m_trail) →
      (∀ not_l, s.m_not_l = some not_l → ∃ others, Watches (~~~not_l) (s.m_cls off).m_lits others) →
      IsConflict s

/-- A state in which a conflict is analysed. Levels need not increase along the trail. -/
structure InConflict (s : solver) : Prop where
  trail : s.TrailOk
  justified : ∀ pre l post, s.m_trail = pre ++ l :: post → 0 < s.lvl l.var → s.IsDecision pre l ∨ s.IsPropagated pre l
  conflict : s.IsConflict
  above_base : 0 < s.analysis_state.m_conflict_lvl
  above_assumptions : s.tracking_assumptions → 1 < s.analysis_state.m_conflict_lvl
  marks : s.MarksClear
  no_tautology : ∀ l l2 learned, .BINARY l2 learned ∈ s.m_watches (~~~l) → l2 ≠ ~~~l
  cached : ∀ l, ∀ l2 ∈ (s.m_cached_bins (~~~l)).getD [], Entails {c | s.ClauseSet c} [l, l2] ∧ l2 ≠ ~~~l

variable {s : solver}

theorem IsPropagated.justified {pre : List literal} {l : literal} (h : s.IsPropagated pre l) :
    s.Justified {c | s.ClauseSet c} pre l := by
  cases h with
  | bin l2 b hk hw hmem =>
    exact ⟨[l2], hk ▸ .binary l2, by simpa using hmem, .of_mem (.database _ (.bin l l2 b hw))⟩
  | cls off others hk hoff hw hmem =>
    refine ⟨others, hk ▸ .clause off others hw, hmem, ?_⟩
    exact (Entails.of_mem (.database _ (.cls off hoff))).weaken fun m hm => by simpa using (hw.mem_iff m).mp hm

theorem InConflict.analyzable (h : s.InConflict) : s.Analyzable {c | s.ClauseSet c} where
  toTrailOk := h.trail
  unit l hl hzero := .of_mem (.unit l hl hzero)
  just pre l post htrail hpos := (h.justified pre l post htrail hpos).imp (fun hd => hd.1) IsPropagated.justified

/-- What the conflict blames is a clause. -/
theorem IsConflict.entails (h : s.IsConflict) : Entails {c | s.ClauseSet c} (s.conflict_antecedents.map (~~~·)) := by
  cases h with
  | unit not_l hc hnl _ =>
    have hante : s.conflict_antecedents = [not_l] := by
      simp [conflict_antecedents, antecedents, hc, hnl, justification.none]
    rw [hante]
    exact .of_mem (.conflict not_l hc hnl)
  | bin not_l l2 b hc hnl hw _ _ =>
    have hante : s.conflict_antecedents = [not_l, ~~~l2] := by simp [conflict_antecedents, antecedents, hc, hnl]
    rw [hante]
    exact .of_mem (.database _ (by simpa using InDatabase.bin (~~~not_l) l2 b (by simpa using hw)))
  | cls off hc hoff _ hshape =>
    refine (Entails.of_mem (.database _ (.cls off hoff))).weaken fun m hm => mem_map_compl.mpr ?_
    exact (mem_conflict_antecedents hc hshape (~~~m)).mpr (by simpa using hm)

/-- All literals of that clause are false. -/
theorem IsConflict.conflictInv (h : s.IsConflict) : s.ConflictInv {c | s.ClauseSet c} := by
  have hentails := h.entails
  cases h with
  | unit not_l hc hnl hmem =>
    refine ⟨?_, .inr hentails, ?_, fun _ => .inl (by rw [hc]; rfl), ?_⟩
    · simpa [conflict_antecedents, antecedents, hc, hnl, justification.none] using hmem
    · simp [hc, justification.none]
    · simp [hc, justification.none]
  | bin not_l l2 b hc hnl hw hmem hmem2 =>
    refine ⟨?_, .inr hentails, by simp [hc], by simp [hc], by simp [hc]⟩
    simpa [conflict_antecedents, antecedents, hc, hnl] using ⟨hmem, hmem2⟩
  | cls off hc hoff hmem hshape =>
    refine ⟨fun a ha => ?_, .inr hentails, fun off' not_l hoff' hnl => ?_, by simp [hc], fun off' hoff' => ?_⟩
    · simpa using hmem (~~~a) ((mem_conflict_antecedents hc hshape a).mp ha)
    · obtain rfl : off = off' := by simpa [hc] using hoff'
      exact hshape not_l hnl
    · obtain rfl : off = off' := by simpa [hc] using hoff'
      exact hoff

/-- Only decisions have no justification, and above the assumptions they come first of their level. -/
theorem InConflict.decisionFirst (h : s.InConflict) : s.analysis_state.DecisionFirst := by
  intro pre l post htrail hnone hlvl m hm
  have hpos : 0 < s.lvl l.var := hlvl ▸ h.above_base
  rcases h.justified pre l post htrail hpos with ⟨-, hfirst | ⟨htrack, hone⟩⟩ | hprop
  · exact fun heq => hfirst m hm (heq.trans hlvl.symm)
  · have habove := h.above_assumptions htrack
    have hlvl' : s.lvl l.var = s.analysis_state.m_conflict_lvl := hlvl
    omega
  · obtain ⟨others, hreason, -⟩ := hprop.justified
    exact absurd hnone hreason.kind_ne_none

theorem InConflict.binariesOk (h : s.InConflict) : s.BinariesOk {c | s.ClauseSet c} := by
  intro l l2 hl2
  rcases List.mem_append.mp hl2 with hmem | hmem
  · obtain ⟨b, hb⟩ := mem_leading_binaries hmem
    exact ⟨.of_mem (.database _ (.bin l l2 b hb)), h.no_tautology l l2 b hb⟩
  · exact h.cached l l2 hmem

/-- Conflict analysis learns only consequences. It ends with a lemma that is entailed by the clauses and
false under the assignment, and with all marks cleared. `resolve_conflict_core` backtracks and adds that
lemma, unless it only goes back chronologically, and leaves no marks either. -/
theorem conflict_lemma_sound (h : s.InConflict) : ∃ s1, s.analysis_state.conflict_lemma = some s1 ∧
    Entails {c | s.ClauseSet c} s1.m_lemma ∧ (∀ l ∈ s1.m_lemma, s.value l = .l_false) ∧ s1.MarksClear ∧
    (¬ s.BacktracksOnly → s.resolve_conflict_core = s1.backjump_and_learn.map fun s' => (s', .l_undef)) ∧
    ∀ s' r, s.resolve_conflict_core = some (s', r) → s'.MarksClear := by
  have hconf := h.conflict.conflictInv
  have hattained := (hconf.level_attained h.above_base h.above_assumptions).1
  have hanalyzable : s.analysis_state.Analyzable {c | s.ClauseSet c} :=
    ⟨⟨h.trail.nodup, h.trail.value_true⟩, h.analyzable.unit, fun pre l post htrail hpos =>
      (h.analyzable.just pre l post htrail hpos).imp_right fun ⟨others, hreason, hrest⟩ =>
        ⟨others, hreason.congr rfl, hrest⟩⟩
  have hbins : s.analysis_state.BinariesOk {c | s.ClauseSet c} := h.binariesOk
  have hclear : s.analysis_state.MarksClear := ⟨h.marks.mark, h.marks.lit_mark, h.marks.unmark⟩
  obtain ⟨s1, c, L, hrun, hframe, hclear1, hlemma, hshape, hent⟩ :=
    conflict_lemma_spec hanalyzable ⟨.antecedents, hconf.mem, h.conflict.entails, hattained⟩ h.above_base hclear
  have hcore := resolve_conflict_core_eq h.above_base h.above_assumptions
  rw [hrun, bind_some] at hcore
  refine ⟨s1, hrun, hlemma ▸ hent h.decisionFirst hbins, ?_, hclear1, fun hback => ?_, fun s' r hres => ?_⟩
  · rw [hlemma]
    refine List.forall_mem_cons.mpr ⟨h.trail.value_false.mpr ?_, fun l hl => ?_⟩
    · rw [Lit.compl_compl]
      exact hshape.uip_mem
    · exact h.trail.value_false.mpr (hshape.false l hl)
  · rw [hcore, if_neg hback]
  · rw [hcore] at hres
    split at hres
    · obtain ⟨s2, hs2, heq⟩ := map_eq_some_iff.mp hres
      obtain ⟨rfl, -⟩ := Prod.mk.inj heq
      have hmarks := (pop_reinit_searchFrame hs2).marksClear ⟨h.marks.mark, h.marks.lit_mark, h.marks.unmark⟩
      exact ⟨hmarks.mark, hmarks.lit_mark, hmarks.unmark⟩
    · obtain ⟨s2, hs2, heq⟩ := map_eq_some_iff.mp hres
      obtain ⟨rfl, -⟩ := Prod.mk.inj heq
      exact (backjump_and_learn_searchFrame hs2).marksClear hclear1

/-- The literal of variable 1 has been propagated at level 1 after the decision of level 2; the clause
then in conflict has its greatest level at that decision. -/
def late_conflict : solver where
  m_num_vars := 3
  m_assignment v := if v = 0 then .l_false else if v ≤ 2 then .l_true else .l_undef
  m_justification v := if v = 0 then .none 1 else if v = 1 then .binary 1 ⟨0, false⟩ else .none 2
  m_trail := [⟨0, true⟩, ⟨2, false⟩, ⟨1, false⟩]
  m_qhead := 3
  m_scopes := [⟨0, 0⟩, ⟨1, 0⟩]
  m_inconsistent := true
  m_conflict := .clause 2 0
  m_cls _ := { m_lits := [⟨2, true⟩, ⟨1, true⟩, ⟨0, false⟩] }
  m_next_off := 1
  m_clauses := [0]
  m_watches l :=
    if l = ⟨0, true⟩ then [.BINARY ⟨1, false⟩ false]
    else if l = ⟨1, true⟩ then [.BINARY ⟨0, false⟩ false]
    else if l = ⟨2, false⟩ ∨ l = ⟨1, false⟩ then [.CLAUSE ⟨1, true⟩ 0]
    else []

/-- The state satisfies what conflict analysis assumes, although the last literal of the trail is of a level below
that of the conflict. -/
theorem late_conflict_inConflict : late_conflict.InConflict where
  trail :=
    { nodup := by decide
      value_true := by
        rintro ⟨_ | _ | _ | v, _ | _⟩
        all_goals first | decide | simp [value, late_conflict] }
  justified pre l post htrail _ := by
    rcases pre with _ | ⟨a, _ | ⟨b, _ | _⟩⟩
    · obtain ⟨rfl, -⟩ : ⟨0, true⟩ = l ∧ _ := List.cons.inj htrail
      exact .inl ⟨rfl, .inl (by simp)⟩
    · obtain ⟨rfl, rfl, -⟩ : ⟨0, true⟩ = a ∧ ⟨2, false⟩ = l ∧ _ := by simpa [late_conflict] using htrail
      exact .inl ⟨rfl, .inl (by decide)⟩
    · obtain ⟨rfl, rfl, rfl, -⟩ : ⟨0, true⟩ = a ∧ ⟨2, false⟩ = b ∧ ⟨1, false⟩ = l ∧ _ := by
        simpa [late_conflict] using htrail
      exact .inr (.bin ⟨0, false⟩ false rfl (by decide) (by decide))
    · simp [late_conflict] at htrail
  conflict := .cls 0 rfl (.inl (by decide)) (by decide) fun _ hnl => by cases hnl
  above_base := by decide
  above_assumptions := by decide
  marks := ⟨fun _ => rfl, fun _ => rfl, rfl⟩
  no_tautology l l2 learned hw := by
    have hcases : ∀ m, .BINARY l2 learned ∈ late_conflict.m_watches m →
        m = ⟨0, true⟩ ∧ l2 = ⟨1, false⟩ ∨ m = ⟨1, true⟩ ∧ l2 = ⟨0, false⟩ := by
      intro m hm
      simp only [late_conflict] at hm
      split at hm
      · exact .inl ⟨‹_›, by simp_all⟩
      · split at hm
        · exact .inr ⟨‹_›, by simp_all⟩
        · split at hm <;> simp at hm
    rcases hcases _ hw with ⟨hl, rfl⟩ | ⟨hl, rfl⟩
    · rw [hl]
      decide
    · rw [hl]
      decide
  cached l l2 h := by cases h

/-- The analysis of that conflict; the late literal has been removed by minimization. -/
theorem conflict_lemma_sound_late : ∃ s1, late_conflict.analysis_state.conflict_lemma = some s1 ∧
    s1.m_lemma = [⟨2, true⟩, ⟨0, false⟩] ∧ Entails {c | late_conflict.ClauseSet c} [⟨2, true⟩, ⟨0, false⟩] := by
  obtain ⟨s1, hrun, hent, -⟩ := conflict_lemma_sound late_conflict_inConflict
  have hlemma : late_conflict.analysis_state.conflict_lemma.map m_lemma = some [⟨2, true⟩, ⟨0, false⟩] := by decide
  rw [hrun, map_some, some.injEq] at hlemma
  exact ⟨s1, hrun, hlemma, hlemma ▸ hent⟩

end sat.solver
