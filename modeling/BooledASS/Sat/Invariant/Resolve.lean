import BooledASS.Sat.Invariant.Input
import BooledASS.Sat.Invariant.Scopes

open Cnf List Option

namespace sat.solver

variable {s : solver} {F : Set (List literal)} {G : Prop} {l0 : literal} {rest : List literal} {k : Nat}

/-- Conflict analysis changes its own data: marks, the lemma, the conflict level and counters. -/
def ResolveFrame (s s' : solver) : Prop :=
  s' = { s with
    m_mark := s'.m_mark, m_lemma := s'.m_lemma, m_unmark := s'.m_unmark, m_lit_mark := s'.m_lit_mark
    m_conflict_lvl := s'.m_conflict_lvl, m_conflicts_since_init := s'.m_conflicts_since_init
    m_force_conflict_analysis := s'.m_force_conflict_analysis }

theorem BaseInv.resolveFrame {s' : solver} (h : s.BaseInv F G) (hframe : ResolveFrame s s')
    (hclear : s'.MarksClear) : s'.BaseInv F G := by
  rw [hframe] at hclear ⊢
  exact ⟨h.visit.congr ⟨rfl, rfl, rfl, rfl, rfl, rfl, rfl, rfl, rfl, rfl⟩ id, h.reinit,
    h.var_scope, hclear, h.cached, h.assumptions, h.free⟩

theorem Inv.resolveFrame {s' : solver} (h : s.Inv F G) (hframe : ResolveFrame s s') (hclear : s'.MarksClear) :
    s'.Inv F G := by
  refine ⟨h.toBaseInv.resolveFrame hframe hclear, fun hinc => ?_⟩
  rw [hframe] at hinc ⊢
  obtain ⟨h1, h2, h3, h4, h5⟩ := h.conflict hinc
  exact ⟨h1, h2, h3, h4, h5⟩

theorem Frame.resolveFrame {s' : solver} (h : Frame s s') : ResolveFrame s s' := by
  unfold ResolveFrame
  rw [h]

theorem update_max_level_fst (l : literal) (acc : Nat × Bool) :
    (s.update_max_level l acc).1 = max acc.1 (s.lvl l.var) := by
  unfold update_max_level
  split
  · rename_i hlt
    exact (max_eq_left hlt.le).symm
  · rename_i hge
    exact (max_eq_right (not_lt.mp hge)).symm

theorem update_max_level_foldl (lits : List literal) (acc : Nat × Bool) :
    (lits.foldl (fun acc l => s.update_max_level l acc) acc).1 = lits.foldl (fun k l => max k (s.lvl l.var)) acc.1 := by
  induction lits generalizing acc with
  | nil => rfl
  | cons l lits ih => rw [foldl_cons, foldl_cons, ih, update_max_level_fst]

/-- A clause in conflict blames the complements of its literals. -/
theorem mem_conflict_antecedents {off : clause_offset} (hkind : s.m_conflict.get_kind = .CLAUSE off)
    (hshape : ∀ not_l, s.m_not_l = some not_l → ∃ others, Watches (~~~not_l) (s.m_cls off).m_lits others)
    (a : literal) : a ∈ s.conflict_antecedents ↔ ~~~a ∈ (s.m_cls off).m_lits := by
  cases hnl : s.m_not_l with
  | none => simp [conflict_antecedents, antecedents, hkind, hnl, clause_antecedents, mem_map_compl]
  | some nl =>
    obtain ⟨others, hw⟩ := hshape nl hnl
    have hcl : clause_antecedents (s.m_cls off) (some (~~~nl)) = others := clause_antecedents_of_watches hw
    simp only [conflict_antecedents, antecedents, hkind, hnl, map_some, hcl, toList_some,
      mem_append, mem_singleton, mem_map_compl, hw.mem_iff, Lit.compl_inj]

/-- The conflict level is the greatest level of the blamed literals, unless an assumption is false. -/
theorem ConflictInv.get_max_lvl_spec (h : s.ConflictInv F) (hk : k = (s.get_max_lvl s.m_not_l s.m_conflict).1) :
    (∀ a ∈ s.conflict_antecedents, s.lvl a.var ≤ k) ∧ (k = 0 ∨ (∃ a ∈ s.conflict_antecedents, s.lvl a.var = k) ∨
        s.tracking_assumptions ∧ k ≤ 1) := by
  set base := s.m_not_l.elim 0 fun l => s.lvl l.var with hbase
  have hnot : ∀ a ∈ s.m_not_l.toList, s.lvl a.var = base := by
    intro a ha
    rw [mem_toList] at ha
    simp [hbase, mem_def.mp ha]
  have hbase_mem : base = 0 ∨ ∃ a ∈ s.conflict_antecedents, s.lvl a.var = base := by
    cases hnl : s.m_not_l with
    | none => exact .inl (by simp [hbase, hnl])
    | some nl => exact .inr ⟨nl, by simp [conflict_antecedents, hnl], by simp [hbase, hnl]⟩
  unfold get_max_lvl at hk
  cases hkind : s.m_conflict.get_kind with
  | NONE =>
    replace hk : k = max base s.m_conflict.level := by rw [hk, hkind]
    have hante : s.conflict_antecedents = s.m_not_l.toList := by simp [conflict_antecedents, antecedents, hkind]
    refine ⟨fun a ha => ?_, ?_⟩
    · rw [hk, hnot a (hante ▸ ha)]
      exact le_max_left _ _
    · rcases h.level hkind with hzero | ⟨htrack, hle, hone⟩
      · obtain rfl : k = base := by simpa [hzero] using hk
        exact hbase_mem.imp_right .inl
      · rcases le_total base s.m_conflict.level with hlt | hlt
        · exact .inr (.inr ⟨htrack, by omega⟩)
        · obtain rfl : k = base := by rw [hk, max_eq_left hlt]
          exact hbase_mem.imp_right .inl
  | BINARY l =>
    rw [hkind] at hk
    simp only [update_max_level_fst] at hk
    have hante : s.conflict_antecedents = s.m_not_l.toList ++ [~~~l] := by
      simp [conflict_antecedents, antecedents, hkind]
    refine ⟨?_, ?_⟩
    · rw [hante, hk]
      exact Lists.forall_mem_concat (fun a ha => hnot a ha ▸ le_max_left _ _) (le_max_right _ _)
    · rcases le_total base (s.lvl l.var) with hle | hle
      · exact .inr (.inl ⟨~~~l, by simp [hante], by rw [hk, max_eq_right hle, Lit.compl_var]⟩)
      · obtain rfl : k = base := by rw [hk, max_eq_left hle]
        exact hbase_mem.imp_right .inl
  | CLAUSE off =>
    rw [hkind] at hk
    simp only [update_max_level_foldl] at hk
    have hmem := mem_conflict_antecedents hkind fun nl => h.shape off nl hkind
    obtain ⟨-, h2, h3⟩ := Lists.foldl_max_spec (fun l : literal => s.lvl l.var) (s.m_cls off).m_lits base
    rw [← hk] at h2 h3
    refine ⟨fun a ha => h2 (~~~a) ((hmem a).mp ha), ?_⟩
    · rcases h3 with h3 | ⟨x, hx, h3⟩
      · rw [h3]
        exact hbase_mem.imp_right .inl
      · exact .inr (.inl ⟨~~~x, (hmem _).mpr (by simpa using hx), h3⟩)

/-- The binary clauses that lemmas are shortened with are entailed. -/
theorem BaseInv.binariesOk (h : s.BaseInv F G) : s.BinariesOk F := by
  intro l l2 hl2
  rcases mem_append.mp hl2 with hmem | hmem
  · obtain ⟨b, hb⟩ := mem_leading_binaries hmem
    obtain ⟨hvar, -, hF⟩ := h.visit.db.bin_ok _ _ _ hb
    exact ⟨by simpa using hF, fun heq => hvar (by rw [heq])⟩
  · exact h.cached l l2 hmem

theorem BaseInv.analysis_state (h : s.BaseInv F G) : s.analysis_state.BaseInv F G :=
  h.resolveFrame rfl ⟨h.clear.mark, h.clear.lit_mark, h.clear.unmark⟩

/-- Past the tests for unsatisfiability the conflict has a literal of the conflict level. -/
theorem ConflictInv.level_attained (h : s.ConflictInv F) (hpos : 0 < s.analysis_state.m_conflict_lvl)
    (htrack : s.tracking_assumptions → 1 < s.analysis_state.m_conflict_lvl) :
    (∃ a ∈ s.conflict_antecedents, s.lvl a.var = s.analysis_state.m_conflict_lvl) ∧
      ∀ a ∈ s.conflict_antecedents, s.lvl a.var ≤ s.analysis_state.m_conflict_lvl := by
  obtain ⟨hmax, hatt⟩ := h.get_max_lvl_spec (k := s.analysis_state.m_conflict_lvl) rfl
  refine ⟨?_, hmax⟩
  rcases hatt with hzero | hatt | ⟨ht, hone⟩
  · omega
  · exact hatt
  · have := htrack ht
    omega

/-- It is then a clause, and not an assumption that is false. -/
theorem ConflictInv.conflictOk (h : s.ConflictInv F) (hlvl : ∀ a ∈ s.m_trail, s.lvl a.var ≤ s.scope_lvl)
    (hpos : 0 < s.analysis_state.m_conflict_lvl)
    (htrack : s.tracking_assumptions → 1 < s.analysis_state.m_conflict_lvl) :
    s.analysis_state.ConflictOk F s.conflict_antecedents := by
  obtain ⟨a, ha, heq⟩ := (h.level_attained hpos htrack).1
  refine ⟨.antecedents, h.mem, h.entails.resolve_left fun ⟨ht, hone⟩ => ?_, a, ha, heq⟩
  have h1 := htrack ht
  have h2 := hlvl a (h.mem a ha)
  omega

/-- A conflict as `resolve_conflict_core` can take it. It is a falsified clause; when the clause has at
most two literals, `m_not_l` may also be its false literal instead of the complement, provided that no
other literal has a higher level. -/
inductive Resolvable (s : solver) (F : Set (List literal)) : Prop
  | clause : s.ConflictInv F → Resolvable s F
  | flipped_bin (not_l l : literal) : s.m_not_l = some not_l → s.m_conflict.get_kind = .BINARY l →
      ~~~not_l ∈ s.m_trail → ~~~l ∈ s.m_trail → s.lvl l.var ≤ s.lvl not_l.var → Entails F [not_l, l] →
      Resolvable s F
  | flipped_unit (not_l : literal) : s.m_not_l = some not_l → s.m_conflict = .none 0 →
      ~~~not_l ∈ s.m_trail → s.lvl not_l.var = 0 → Entails F [not_l] → Resolvable s F

private theorem flipped_conflict_lvl {not_l l : literal} (hnl : s.m_not_l = some not_l)
    (hk : s.m_conflict.get_kind = .BINARY l) (hle : s.lvl l.var ≤ s.lvl not_l.var) :
    s.analysis_state.m_conflict_lvl = s.lvl not_l.var := by
  show (s.get_max_lvl s.m_not_l s.m_conflict).1 = _
  simp [get_max_lvl, hk, hnl, update_max_level_fst, hle]

/-- Past the tests for unsatisfiability there is a conflict clause to analyse. -/
theorem Resolvable.conflictOk (h : s.Resolvable F) (ht : s.TrailInv F G) (hpos : 0 < s.analysis_state.m_conflict_lvl)
    (htrack : s.tracking_assumptions → 1 < s.analysis_state.m_conflict_lvl) : (∃ A, s.analysis_state.ConflictOk F A) ∧
    ∀ a ∈ s.conflict_antecedents, s.lvl a.var ≤ s.analysis_state.m_conflict_lvl := by
  cases h with
  | clause hconf => exact ⟨⟨_, hconf.conflictOk ht.level_le hpos htrack⟩, (hconf.level_attained hpos htrack).2⟩
  | flipped_bin not_l l hnl hk hmem hmem' hle hF =>
    have hlvl := flipped_conflict_lvl hnl hk hle
    refine ⟨⟨[~~~not_l, ~~~l], .flipped not_l l hnl hk hlvl.symm, ?_, by simpa using hF, ~~~not_l, by simp,
      hlvl.symm⟩, ?_⟩
    · simpa using ⟨hmem, hmem'⟩
    · simpa [conflict_antecedents, antecedents, hnl, hk, hlvl] using hle
  | flipped_unit not_l hnl hk hmem hzero hF =>
    have hlvl : s.analysis_state.m_conflict_lvl = 0 := by
      show (s.get_max_lvl s.m_not_l s.m_conflict).1 = 0
      simp [get_max_lvl, hk, hnl, hzero, justification.none]
    omega

/-- A conflict of level 0 without assumptions refutes the clauses. -/
theorem Resolvable.refutes (h : s.Resolvable F) (ht : s.TrailInv F G)
    (hzero : s.analysis_state.m_conflict_lvl = 0) (hfree : s.tracking_assumptions = false) : Entails F [] := by
  have hrefute : ∀ A : List literal, (∀ a ∈ A, a ∈ s.m_trail ∧ s.lvl a.var = 0) → Entails F (A.map (~~~·)) →
      Entails F [] := fun A hA hF => hF.of_entailsFrom fun x hx => by
    have ⟨hmem, hlvl⟩ := hA _ (mem_map_compl.mp hx)
    exact .inr fun a ha _ => (ht.unit _ hmem hlvl).holds_of_unit ha
  cases h with
  | clause hconf =>
    have hle := (hconf.get_max_lvl_spec (k := 0) hzero.symm).1
    refine hrefute _ (fun a ha => ⟨hconf.mem a ha, Nat.le_zero.mp (hle a ha)⟩) (hconf.entails.resolve_left ?_)
    simp [hfree]
  | flipped_bin not_l l hnl hk hmem hmem' hle hF =>
    have hlvl : s.lvl not_l.var = 0 := (flipped_conflict_lvl hnl hk hle).symm.trans hzero
    refine hrefute [~~~not_l, ~~~l] ?_ (by simpa using hF)
    simpa using ⟨⟨hmem, hlvl⟩, hmem', Nat.le_zero.mp (hlvl ▸ hle)⟩
  | flipped_unit not_l hnl hk hmem hlvl hF => exact hrefute [~~~not_l] (by simpa using ⟨hmem, hlvl⟩) (by simpa using hF)

/-- The literals of a lemma other than the first UIP are below the conflict level. -/
theorem LemmaShape.level_lt {c : literal} {L : List literal} (ht : s.TrailInv F G)
    (hante : ∀ a ∈ s.conflict_antecedents, s.lvl a.var ≤ s.m_conflict_lvl)
    (h : LemmaShape s c L) : ∀ x ∈ L, s.lvl x.var < s.m_conflict_lvl := by
  intro x hx
  refine lt_of_le_of_ne ?_ (h.level x hx).2
  rcases h.blamed x hx with ⟨b, hb, hvar⟩ | ⟨d, hd, hdl, hmem⟩
  · rw [show x.var = b.var from hvar.symm]
    exact hante b hb
  · obtain ⟨pre, post, htrail⟩ := append_of_mem hd
    rcases ht.reasons pre d post htrail with hnone | ⟨others, hreason, -, -, hbound⟩
    · simp [antecedents, hnone] at hmem
    · rw [hreason.antecedents_eq, mem_map_compl, Lit.compl_compl] at hmem
      rw [← hdl]
      exact hbound.le x hmem

theorem backjump_lvl_le (hle : ∀ x ∈ rest, s.lvl x.var ≤ k) : s.backjump_lvl rest ≤ k := by
  induction rest with
  | nil => exact Nat.zero_le _
  | cons x rest ih =>
    obtain ⟨h1, h2⟩ := forall_mem_cons.mp hle
    exact max_le h1 (ih h2)

theorem le_backjump_lvl {x : literal} (hx : x ∈ rest) : s.lvl x.var ≤ s.backjump_lvl rest := by
  induction rest with
  | nil => cases hx
  | cons y rest ih =>
    rcases mem_cons.mp hx with rfl | hx
    · exact le_max_left _ _
    · exact (ih hx).trans (le_max_right _ _)

/-- When lemmas are learned without going back to the highest level of their other literals, the
asserting literal is unassigned after backtracking. -/
def AssertsUnassigned (s : solver) : Prop :=
  ∀ l0 rest s', s.m_lemma = l0 :: rest → s.use_backjumping (s.scope_lvl - s.backjump_lvl rest) = false →
    s.backjump l0 rest = some s' → s'.value l0 = lbool.l_undef

/-- The lemma is asserting after the pop. -/
theorem Popped.asserting {s' : solver} {n : Nat} (hp : Popped s n s')
    (hfalse : ∀ x ∈ rest, ~~~x ∈ s.m_trail) (hpos : ∀ x ∈ rest, 0 < s.lvl x.var)
    (hle : ∀ x ∈ rest, s.lvl x.var ≤ s.scope_lvl - n) (hlt : s.scope_lvl - n < s.lvl l0.var)
    (htop : G → s'.value l0 ≠ .l_undef → s.scope_lvl - n ≤ s.backjump_lvl rest) :
    s'.Asserting G l0 rest := by
  have hstays : ∀ x ∈ rest, ~~~x ∈ s'.m_trail ∧ s'.lvl x.var = s.lvl x.var := fun x hx =>
    hp.stays (~~~x) (hfalse x hx) (hle x hx)
  refine ⟨fun x hx => (hstays x hx).1, fun x hx => (hstays x hx).2 ▸ hpos x hx, fun _ sc hsc hmem => ?_,
    fun hG hne k hk => ?_⟩
  · have hearly := (hp.early sc hsc _ hmem).2
    rw [Lit.compl_var] at hearly
    omega
  · rw [hp.scope_lvl]
    exact (htop hG hne).trans (backjump_lvl_le fun x hx => (hstays x hx).2 ▸ hk x hx)

/-- Backtracking for a lemma whose first literal alone has the conflict level. -/
theorem BaseInv.backjump_spec (h : s.BaseInv F G) (hfalse : ∀ x ∈ rest, ~~~x ∈ s.m_trail)
    (hpos : ∀ x ∈ rest, 0 < s.lvl x.var) (hlt : ∀ x ∈ rest, s.lvl x.var < s.lvl l0.var)
    (hl0 : 0 < s.lvl l0.var) (hscope : s.lvl l0.var ≤ s.scope_lvl) (htrack : s.tracking_assumptions → 1 < s.lvl l0.var)
    (hlemma : s.m_lemma = l0 :: rest) (hG : G → s.AssertsUnassigned) :
    ∃ s', s.backjump l0 rest = some s' ∧ s'.Inv F G ∧ PopFrame s s' ∧ s'.Asserting G l0 rest := by
  have hbl : s.backjump_lvl rest < s.lvl l0.var :=
    Nat.lt_of_le_sub_one hl0 (backjump_lvl_le fun x hx => Nat.le_sub_one_of_lt (hlt x hx))
  have hasserts := fun hGG => hG hGG l0 rest
  unfold backjump at hasserts ⊢
  simp only [max_eq_left hbl.le] at hasserts ⊢
  by_cases hjump : s.use_backjumping (s.scope_lvl - s.backjump_lvl rest)
  · rw [if_pos hjump]
    have hsub : s.scope_lvl - (s.scope_lvl - s.backjump_lvl rest) = s.backjump_lvl rest := by omega
    have hpop : s.scope_lvl - (s.scope_lvl - s.backjump_lvl rest) < s.scope_lvl := by omega
    obtain ⟨s', hs', hinv, hframe, hskip⟩ := h.pop_reinit_spec (.inl hpop)
    refine ⟨s', hs', hinv, hframe, ?_⟩
    by_cases hplain : 0 < s.backjump_lvl rest ∨ s.tracking_assumptions = false
    · have heq := hskip (hsub.symm ▸ hplain)
      subst heq
      refine (h.pop_spec (.inl hpop)).2.asserting hfalse hpos (fun x hx => ?_) (by omega) fun _ _ => hsub.le
      rw [hsub]
      exact le_backjump_lvl hx
    · obtain ⟨hzero, htr⟩ := not_or.mp hplain
      -- a unit lemma with assumptions, which are assigned again at once
      have hnG : ¬ G := fun hGG => htr (h.free hGG)
      have hnil : rest = [] := eq_nil_iff_forall_not_mem.mpr fun x hx =>
        hzero ((hpos x hx).trans_le (le_backjump_lvl hx))
      subst hnil
      exact ⟨by simp, by simp, fun hGG => absurd hGG hnG, fun hGG => absurd hGG hnG⟩
  · rw [if_neg hjump]
    have hpop : s.scope_lvl - (s.scope_lvl - s.lvl l0.var + 1) < s.scope_lvl := by omega
    obtain ⟨s', hs', hinv, hframe, hskip⟩ := h.pop_reinit_spec (.inl hpop)
    refine ⟨s', hs', hinv, hframe, ?_⟩
    have heq : s' = s.pop (s.scope_lvl - s.lvl l0.var + 1) := by
      refine hskip ?_
      cases htr : s.tracking_assumptions with
      | false => exact .inr rfl
      | true =>
        have := htrack htr
        exact .inl (by omega)
    have hundef : G → s'.value l0 = .l_undef := fun hGG => by
      refine hasserts hGG s' hlemma (by simpa using hjump) ?_
      rw [if_neg hjump]
      exact hs'
    subst heq
    refine (h.pop_spec (.inl hpop)).2.asserting hfalse hpos (fun x hx => ?_) (by omega)
      fun hGG hne => absurd (hundef hGG) hne
    have := hlt x hx
    omega

/-- Learning a lemma and backtracking for it. -/
theorem BaseInv.backjump_and_learn_spec (h : s.BaseInv F G) (hlemma : s.m_lemma = l0 :: rest)
    (hok : s.LitsOk F (l0 :: rest)) (hfalse : ∀ x ∈ rest, ~~~x ∈ s.m_trail)
    (hpos : ∀ x ∈ rest, 0 < s.lvl x.var) (hlt : ∀ x ∈ rest, s.lvl x.var < s.lvl l0.var)
    (hl0 : 0 < s.lvl l0.var) (hscope : s.lvl l0.var ≤ s.scope_lvl)
    (htrack : s.tracking_assumptions → 1 < s.lvl l0.var) (hG : G → s.AssertsUnassigned) :
    ∃ s', s.backjump_and_learn = some s' ∧ s'.Inv F G := by
  obtain ⟨s1, hs1, hinv, hframe, hassert⟩ := h.backjump_spec hfalse hpos hlt hl0 hscope htrack hlemma hG
  have hnv : s1.m_num_vars = s.m_num_vars := by rw [hframe]
  have hbl : ¬ s.lvl l0.var < s.backjump_lvl rest := not_lt.mpr (backjump_lvl_le fun x hx => (hlt x hx).le)
  have hlearn := hinv.learn ⟨hok.nodup, hnv ▸ hok.bounded, hok.entails⟩ hassert
  refine ⟨{ s1.mk_clause_core (l0 :: rest) true with m_lemma := [] }, ?_,
    hlearn.resolveFrame rfl ⟨hlearn.clear.mark, hlearn.clear.lit_mark, hlearn.clear.unmark⟩⟩
  unfold backjump_and_learn
  rw [hlemma]
  simp only [if_neg hbl, hs1, map_some]

/-- The lemma of a conflict: it is entailed when nothing of the conflict level stands before a literal
without a justification. -/
theorem BaseInv.conflict_lemma_spec (h : s.BaseInv F G) (hconf : s.Resolvable F)
    (hpos : 0 < s.analysis_state.m_conflict_lvl)
    (htrack : s.tracking_assumptions → 1 < s.analysis_state.m_conflict_lvl) :
    ∃ s1 c L, s.analysis_state.conflict_lemma = some s1 ∧ Frame s.analysis_state s1 ∧ MarksClear s1 ∧
      s1.m_lemma = ~~~c :: L ∧ LemmaShape s.analysis_state c L ∧
      (∀ x ∈ L, s.lvl x.var < s.analysis_state.m_conflict_lvl) ∧
      (s.analysis_state.DecisionFirst → Entails F (~~~c :: L)) := by
  have hinv := h.analysis_state
  obtain ⟨⟨A, hok⟩, hante⟩ := hconf.conflictOk h.visit.trail hpos htrack
  obtain ⟨s1, c, L, hrun, hframe, hclear1, hlemma, hshape, hent⟩ :=
    solver.conflict_lemma_spec hinv.visit.trail.analyzable hok hpos hinv.clear
  exact ⟨s1, c, L, hrun, hframe, hclear1, hlemma, hshape, hshape.level_lt hinv.visit.trail hante,
    fun hfirst => hent hfirst hinv.binariesOk⟩

/-- Resolving a conflict keeps the invariant. When it does not find the clauses to be unsatisfiable the
conflict is gone. -/
theorem BaseInv.resolve_conflict_core_spec (h : s.BaseInv F G) (hconf : s.Resolvable F)
    (hF : Entails F [] ∨ s.analysis_state.DecisionFirst)
    (hG : G → ∀ s1, s.analysis_state.conflict_lemma = some s1 → s1.AssertsUnassigned) :
    ∃ s' r, s.resolve_conflict_core = some (s', r) ∧
      (s'.Inv F G ∧ r = .l_undef ∨ s' = s.enter_conflict.1 ∧ r = .l_false ∧
        (s.tracking_assumptions = false → Entails F [])) ∧
      (s.tracking_assumptions = false → Cut s s') ∧ s'.m_num_vars = s.m_num_vars ∧
      s'.tracking_assumptions = s.tracking_assumptions := by
  have henter : s.enter_conflict.1.BaseInv F G := h.resolveFrame rfl ⟨h.clear.mark, h.clear.lit_mark, h.clear.unmark⟩
  unfold resolve_conflict_core
  by_cases hcore : s.enter_conflict.1.m_conflict_lvl ≤ 1 ∧ s.enter_conflict.1.tracking_assumptions
  · rw [if_pos hcore]
    exact ⟨_, _, rfl, .inr ⟨rfl, rfl, fun hfree => absurd (hcore.2.symm.trans hfree) (by decide)⟩,
      fun _ => (Grown.refl s).cut, rfl, rfl⟩
  rw [if_neg hcore]
  by_cases hzero : s.enter_conflict.1.m_conflict_lvl = 0
  · rw [if_pos hzero]
    exact ⟨_, _, rfl, .inr ⟨rfl, rfl, hconf.refutes h.visit.trail hzero⟩, fun _ => (Grown.refl s).cut, rfl, rfl⟩
  rw [if_neg hzero]
  have hpos : 0 < s.analysis_state.m_conflict_lvl := Nat.pos_of_ne_zero hzero
  have htrack : s.tracking_assumptions → 1 < s.analysis_state.m_conflict_lvl := fun ht =>
    not_le.mp fun hle => hcore ⟨hle, ht⟩
  obtain ⟨s1, c, L, hrun, hframe, hclear1, hlemma, hshape, hlt, hent⟩ := h.conflict_lemma_spec hconf hpos htrack
  have hscope : s.analysis_state.m_conflict_lvl ≤ s.scope_lvl := by
    rw [← hshape.uip_level]
    exact h.visit.trail.level_le c hshape.uip_mem
  split
  · have hscope' : s.enter_conflict.1.m_conflict_lvl ≤ s.enter_conflict.1.scope_lvl := hscope
    obtain ⟨s', hs', hinv, -⟩ := henter.pop_reinit_spec
      (n := s.enter_conflict.1.scope_lvl - s.enter_conflict.1.m_conflict_lvl + 1) (.inl (by omega))
    have hframe' := pop_reinit_searchFrame hs'
    refine ⟨{ s' with m_force_conflict_analysis := true }, .l_undef, by rw [hs']; rfl,
      .inl ⟨hinv.resolveFrame rfl ⟨hinv.clear.mark, hinv.clear.lit_mark, hinv.clear.unmark⟩, rfl⟩, fun hfree => ?_,
      hframe'.num_vars, hframe'.tracking_assumptions⟩
    rw [pop_reinit_eq _ (show s.enter_conflict.1.tracking_assumptions = false from hfree), Option.some.injEq] at hs'
    exact hs' ▸ pop_cut _
  · have hinv1 : s1.BaseInv F G := h.analysis_state.resolveFrame hframe.resolveFrame hclear1
    have hF' : Entails F (~~~c :: L) := hF.elim (fun hnil => hnil.weaken (by simp)) hent
    have hnv : s1.m_num_vars = s.m_num_vars := by rw [hframe]; rfl
    have hcl : s1.lvl (~~~c).var = s.analysis_state.m_conflict_lvl := by
      rw [hframe.lvl]
      exact hshape.uip_level
    have hvars : ∀ m ∈ ~~~c :: L, m.var < s1.m_num_vars := by
      rw [hnv]
      exact forall_mem_cons.mpr ⟨h.visit.trail.bounded c hshape.uip_mem,
        fun m hm => h.visit.trail.bounded (~~~m) (hshape.false m hm)⟩
    obtain ⟨s', hs', hinv'⟩ := hinv1.backjump_and_learn_spec hlemma ⟨hshape.cons_nodup, hvars, hF'⟩
      (hframe.trail ▸ hshape.false) (fun x hx => hframe.lvl x.var ▸ (hshape.level x hx).1)
      (fun x hx => by rw [hcl, hframe.lvl]; exact hlt x hx) (hcl ▸ hpos)
      (by rw [hcl, show s1.scope_lvl = s.scope_lvl by rw [hframe]; rfl]; exact hscope)
      (fun ht => hcl ▸ htrack (by rwa [hframe] at ht)) (fun hGG => hG hGG s1 hrun)
    have hbind : s.analysis_state.conflict_lemma.bind backjump_and_learn = some s' := by
      rw [hrun]
      exact hs'
    have hframe' := backjump_and_learn_searchFrame hs'
    have htrack1 : s1.tracking_assumptions = s.tracking_assumptions := by rw [hframe]; rfl
    refine ⟨s', .l_undef, congrArg (Option.map fun s => (s, lbool.l_undef)) hbind, .inl ⟨hinv', rfl⟩,
      fun hfree => ?_, hframe'.num_vars.trans hnv, hframe'.tracking_assumptions.trans htrack1⟩
    exact (backjump_and_learn_cut (htrack1.trans hfree) hs').congr_left hframe.trail.symm (by rw [hframe]; rfl)

theorem Inv.resolve_conflict_core_spec (h : s.Inv F G) (hinc : s.m_inconsistent)
    (hF : Entails F [] ∨ s.analysis_state.DecisionFirst)
    (hG : G → ∀ s1, s.analysis_state.conflict_lemma = some s1 → s1.AssertsUnassigned) :
    ∃ s' r, s.resolve_conflict_core = some (s', r) ∧ s'.Inv F G := by
  obtain ⟨s', r, hrun, ⟨hinv, -⟩ | ⟨rfl, -⟩, -⟩ :=
    h.toBaseInv.resolve_conflict_core_spec (.clause (h.conflict hinc)) hF hG
  · exact ⟨s', r, hrun, hinv⟩
  · exact ⟨_, r, hrun, h.resolveFrame rfl ⟨h.clear.mark, h.clear.lit_mark, h.clear.unmark⟩⟩

/-- The conflict is not analysed: one literal alone has the conflict level, and its level is undone. -/
def BacktracksOnly (s : solver) : Prop :=
  s.enter_conflict.1.allow_backtracking ∧ s.enter_conflict.2 ∧ (!s.enter_conflict.1.m_force_conflict_analysis)

instance (s : solver) : Decidable s.BacktracksOnly := inferInstanceAs (Decidable (_ ∧ _ ∧ _))

/-- `resolve_conflict_core` above level 0 and above the assumptions. -/
theorem resolve_conflict_core_eq (hpos : 0 < s.analysis_state.m_conflict_lvl)
    (htrack : s.tracking_assumptions → 1 < s.analysis_state.m_conflict_lvl) :
    s.resolve_conflict_core = if s.BacktracksOnly then
        (s.enter_conflict.1.pop_reinit (s.scope_lvl - s.analysis_state.m_conflict_lvl + 1)).map fun s' =>
          ({ s' with m_force_conflict_analysis := true }, .l_undef)
      else (s.analysis_state.conflict_lemma.bind backjump_and_learn).map fun s' => (s', .l_undef) := by
  have hcore : ¬ (s.enter_conflict.1.m_conflict_lvl ≤ 1 ∧ s.enter_conflict.1.tracking_assumptions) :=
    fun hc => absurd (htrack hc.2) (not_lt.mpr hc.1)
  have hzero : ¬ s.enter_conflict.1.m_conflict_lvl = 0 := hpos.ne'
  unfold resolve_conflict_core
  rw [if_neg hcore, if_neg hzero]
  rfl

/-- `resolve_conflict_core` computes the lemma `c`, backtracks and adds it. -/
def Learns (s : solver) (c : List literal) : Prop :=
  ∃ s1, s.analysis_state.conflict_lemma = some s1 ∧ s1.m_lemma = c ∧
    s.resolve_conflict_core = s1.backjump_and_learn.map fun s' => (s', .l_undef)

theorem Learns.conflict_lvl_pos {c : List literal} (h : s.Learns c) (hfree : s.tracking_assumptions = false) :
    0 < s.analysis_state.m_conflict_lvl := by
  obtain ⟨s1, -, -, hcore⟩ := h
  by_contra hzero
  have hzero' : s.enter_conflict.1.m_conflict_lvl = 0 := Nat.eq_zero_of_not_pos hzero
  have hfree' : s.enter_conflict.1.tracking_assumptions = false := hfree
  have hfalse : s.resolve_conflict_core = some (s.enter_conflict.1, .l_false) := by
    unfold resolve_conflict_core
    rw [if_neg (by simp [hfree']), if_pos hzero']
  rw [hfalse] at hcore
  obtain ⟨s2, -, heq⟩ := map_eq_some_iff.mp hcore.symm
  cases (Prod.mk.inj heq).2

/-- What is learned is entailed when literals without a justification come first of the conflict level. -/
theorem BaseInv.learns_entails {c : List literal} (h : s.BaseInv F G) (hconf : s.Resolvable F)
    (hfree : s.tracking_assumptions = false) (hfirst : s.analysis_state.DecisionFirst) (hc : s.Learns c) :
    Entails F c := by
  have hpos := hc.conflict_lvl_pos hfree
  obtain ⟨s1, hrun, rfl, -⟩ := hc
  obtain ⟨s2, d, L, hrun2, -, -, hlemma, -, -, hent⟩ := h.conflict_lemma_spec hconf hpos (by simp [hfree])
  rw [hrun, some.injEq] at hrun2
  rw [hrun2, hlemma]
  exact hent hfirst

end sat.solver
