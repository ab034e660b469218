import BooledASS.Sat.Analysis.FirstUip

open Cnf List

namespace sat.solver

variable {s0 s : solver} {lvl_set : BitVec 32}

/-- The state after the variables `new` have been marked and put on `m_unmark`. -/
def markAll (s : solver) (new : List bool_var) : solver :=
  { s with m_mark := fun v => s.m_mark v || decide (v ∈ new), m_unmark := s.m_unmark ++ new }

theorem markAll_nil (s : solver) : s.markAll [] = s := by simp [markAll]
theorem markAll_frame (s : solver) (new : List bool_var) : Frame s (s.markAll new) := rfl

variable {new : List bool_var} {v : bool_var} {F : Set (List literal)} {L : List literal} {s1 : solver}

theorem markAll_marked : (s.markAll new).m_mark v ↔ s.m_mark v ∨ v ∈ new := by
  simp [markAll]

theorem markAll_append (s : solver) (new new' : List bool_var) :
    (s.markAll new).markAll new' = s.markAll (new ++ new') := by
  simp [markAll, Bool.or_assoc]

theorem foldl_reset_mark (s : solver) (vs : List bool_var) :
    vs.foldl (fun s v => s.reset_mark v) s = { s with m_mark := fun v => s.m_mark v && decide (v ∉ vs) } := by
  induction vs generalizing s with
  | nil => simp
  | cons w vs ih =>
    rw [foldl_cons, ih]
    have hmark : (fun v => (s.reset_mark w).m_mark v && decide (v ∉ vs)) =
        fun v => s.m_mark v && decide (v ∉ w :: vs) := by
      funext v
      by_cases hv : v = w <;> simp [reset_mark, hv]
    rw [hmark]
    rfl

/-- Undoing the marks of variables that were unmarked before gives back the state. -/
theorem reset_unmark_markAll (hnew : ∀ v ∈ new, s.m_mark v = false) :
    (s.markAll new).reset_unmark s.m_unmark.length = s := by
  have hdrop : (s.markAll new).m_unmark.drop s.m_unmark.length = new := by simp [markAll]
  have htake : (s.markAll new).m_unmark.take s.m_unmark.length = s.m_unmark := by simp [markAll]
  have hmark : (fun v => (s.markAll new).m_mark v && decide (v ∉ new)) = s.m_mark := by
    funext v
    by_cases hv : v ∈ new
    · simp [hv, hnew v hv]
    · simp [markAll, hv]
  rw [reset_unmark, hdrop, htake, foldl_reset_mark, hmark]
  rfl

/-- The variable has a reason all of whose antecedents are marked or of level 0. -/
def Closed (s : solver) (v : bool_var) : Prop :=
  ¬ ((s.m_justification v).get_kind = .NONE ∧ s.lvl v > 0) ∧
    ∀ a ∈ s.antecedents_of_var v, s.lvl a.var = 0 ∨ s.m_mark a.var

theorem Closed.markAll (h : s.Closed v) (new : List bool_var) : (s.markAll new).Closed v :=
  ⟨h.1, fun a ha => (h.2 a ha).imp_right fun hm => markAll_marked.mpr (.inl hm)⟩

/-- The literals of the trail that are not marked yet. -/
def unmarked (s : solver) : List literal := s.m_trail.filter fun l => !s.m_mark l.var

theorem length_unmarked_markAll {a : literal} (hnodup : (s.m_trail.map Lit.var).Nodup) (ha : a ∈ s.m_trail)
    (hmark : s.m_mark a.var = false) : s.unmarked.length = (s.markAll [a.var]).unmarked.length + 1 := by
  refine Lists.length_filter_of_flip hnodup ha (fun z _ hza => ?_) ?_ ?_
  · simp [markAll, hza]
  · simp [hmark]
  · simp [markAll]

/-- The outcome of going through antecedents: new marks for the pushed literals, and on success every
antecedent is marked or of level 0. -/
theorem process_antecedents_for_minimization_spec (h0 : s0.TrailOk) (hs : Frame s0 s)
    (stack ants : List literal) (hants : ∀ a ∈ ants, a ∈ s0.m_trail) :
    ∃ pushed : List literal, (∀ a ∈ pushed, a ∈ ants ∧ 0 < s0.lvl a.var ∧ s.m_mark a.var = false) ∧
      (s.process_antecedents_for_minimization lvl_set stack ants).1 = s.markAll (pushed.map Lit.var) ∧
      ∀ stack', (s.process_antecedents_for_minimization lvl_set stack ants).2 = some stack' →
        (∀ a, a ∈ stack' ↔ a ∈ stack ∨ a ∈ pushed) ∧
        stack'.length + (s.markAll (pushed.map Lit.var)).unmarked.length = stack.length + s.unmarked.length ∧
        ∀ a ∈ ants, s0.lvl a.var = 0 ∨ (s.markAll (pushed.map Lit.var)).m_mark a.var := by
  induction ants generalizing s stack with
  | nil => exact ⟨[], by simp, by simp [process_antecedents_for_minimization, markAll_nil],
      by simp [process_antecedents_for_minimization, markAll_nil]⟩
  | cons a ants ih =>
    obtain ⟨ha, hants⟩ := forall_mem_cons.mp hants
    unfold process_antecedents_for_minimization
    rw [hs.lvl, is_marked]
    by_cases hnew : (!s.m_mark a.var) ∧ s0.lvl a.var > 0
    · rw [if_pos hnew]
      have hmark : s.m_mark a.var = false := by simpa using hnew.1
      by_cases hset : may_contain lvl_set (s0.lvl a.var)
      · rw [if_pos hset]
        have hone : { s.mark a.var with m_unmark := s.m_unmark ++ [a.var] } = s.markAll [a.var] := by
          have hfun : Function.update s.m_mark a.var true = fun v => s.m_mark v || decide (v ∈ [a.var]) := by
            funext v
            by_cases hv : v = a.var <;> simp [hv]
          simp only [mark, markAll, hfun]
        rw [hone]
        obtain ⟨pushed, hpushed, hstate, hok⟩ := ih (hs.trans (markAll_frame s _)) (a :: stack) hants
        refine ⟨a :: pushed, ?_, ?_, ?_⟩
        · refine forall_mem_cons.mpr ⟨⟨by simp, hnew.2, hmark⟩, fun b hb => ?_⟩
          obtain ⟨hb, hlvl, hbm⟩ := hpushed b hb
          exact ⟨.tail _ hb, hlvl, by simp [markAll] at hbm; exact hbm.1⟩
        · rw [hstate, markAll_append]
          rfl
        · intro stack' hstack'
          obtain ⟨hmem, hlen, hclosed⟩ := hok stack' hstack'
          rw [markAll_append] at hlen hclosed
          have hdec := length_unmarked_markAll (hs.trail ▸ h0.nodup) (hs.trail ▸ ha) hmark
          refine ⟨fun b => ?_, ?_, forall_mem_cons.mpr ⟨.inr ?_, hclosed⟩⟩
          · rw [hmem]
            simp only [mem_cons]
            tauto
          · rw [length_cons] at hlen
            simp only [map_cons, cons_append, nil_append] at hlen ⊢
            omega
          · exact markAll_marked.mpr (.inr (by simp))
      · rw [if_neg hset]
        exact ⟨[], by simp, by simp [markAll_nil], by simp⟩
    · rw [if_neg hnew]
      obtain ⟨pushed, hpushed, hstate, hok⟩ := ih hs stack hants
      refine ⟨pushed, fun b hb => ?_, hstate, fun stack' hstack' => ?_⟩
      · obtain ⟨hb, hrest⟩ := hpushed b hb
        exact ⟨.tail _ hb, hrest⟩
      · obtain ⟨hmem, hlen, hclosed⟩ := hok stack' hstack'
        refine ⟨hmem, hlen, forall_mem_cons.mpr ⟨?_, hclosed⟩⟩
        rcases Nat.eq_zero_or_pos (s0.lvl a.var) with hzero | hpos
        · exact .inl hzero
        · refine .inr (markAll_marked.mpr (.inl ?_))
          by_contra hm
          exact hnew ⟨by simpa using hm, hpos⟩

/-- A variable assigned above level 0. -/
def Above (s : solver) (v : bool_var) : Prop := 0 < s.lvl v ∧ ∃ l ∈ s.m_trail, l.var = v

theorem Analyzable.antecedents_of_var_eq {pre post : List literal}
    {l : literal} (h0 : s0.Analyzable F) (htrail : s0.m_trail = pre ++ l :: post) (hpos : 0 < s0.lvl l.var) :
    s0.antecedents_of_var l.var = s0.antecedents (some l) (s0.m_justification l.var) := by
  rcases h0.just pre l post htrail hpos with hnone | ⟨others, hreason, hearlier, _⟩
  · simp [antecedents_of_var, antecedents, hnone]
  · rw [hreason.antecedents_eq, hreason.antecedents_of_var_eq rfl]
    intro hl
    exact h0.toTrailOk.var_not_mem_pre htrail _ (hearlier _ hl) (by simp)

theorem Analyzable.antecedents_of_var_mem
    (h0 : s0.Analyzable F) (hv : s0.Above v) : ∀ a ∈ s0.antecedents_of_var v, a ∈ s0.m_trail := by
  obtain ⟨hpos, l, hl, rfl⟩ := hv
  obtain ⟨pre, post, htrail⟩ := append_of_mem hl
  intro a ha
  rw [h0.antecedents_of_var_eq htrail hpos] at ha
  rw [htrail]
  exact mem_append_left _ (h0.antecedents_mem htrail hpos a ha)

theorem Frame.antecedents_of_var (h : Frame s0 s) (v : bool_var) :
    s.antecedents_of_var v = s0.antecedents_of_var v := by
  simp only [solver.antecedents_of_var, h.cls, h.justification]

/-- Every variable to be shown implied is on the stack or has been dealt with. The search ends within
the fuel: a failed one leaves no trace, after a successful one all of them have been dealt with. -/
theorem implied_loop_spec (h0 : s0.Analyzable F) (hs : Frame s0 s)
    (lvl_set : BitVec 32) {root : bool_var} (fuel : Nat) (new : List bool_var) (stack : List literal)
    (hnew : ∀ v ∈ new, s.m_mark v = false ∧ s0.Above v) (hstack : ∀ x ∈ stack, s0.Above x.var)
    (hclosed : ∀ v ∈ root :: new, v ∈ stack.map Lit.var ∨ (s.markAll new).Closed v)
    (hfuel : stack.length + (s.markAll new).unmarked.length ≤ fuel) :
    implied_loop lvl_set s.m_unmark.length fuel (s.markAll new) stack = some (s, false) ∨
      ∃ new', implied_loop lvl_set s.m_unmark.length fuel (s.markAll new) stack = some (s.markAll new', true) ∧
        (∀ v ∈ new', s.m_mark v = false ∧ s0.Above v) ∧ ∀ v ∈ root :: new', (s.markAll new').Closed v := by
  induction fuel generalizing new stack with
  | zero =>
    obtain rfl : stack = [] := eq_nil_of_length_eq_zero (by omega)
    refine .inr ⟨new, by simp [implied_loop], hnew, fun v hv => ?_⟩
    simpa using hclosed v hv
  | succ fuel ih =>
    cases stack with
    | nil =>
      refine .inr ⟨new, by simp [implied_loop], hnew, fun v hv => ?_⟩
      simpa using hclosed v hv
    | cons lit stack =>
      obtain ⟨hlit, hstack⟩ := forall_mem_cons.mp hstack
      have hf : Frame s0 (s.markAll new) := hs.trans (markAll_frame s new)
      unfold implied_loop
      by_cases hdec : ((s.markAll new).m_justification lit.var).get_kind = .NONE ∧ (s.markAll new).lvl lit.var > 0
      · rw [if_pos hdec, reset_unmark_markAll fun v hv => (hnew v hv).1]
        exact .inl rfl
      · rw [if_neg hdec]
        obtain ⟨pushed, hpushed, hstate, hok⟩ := process_antecedents_for_minimization_spec
          h0.toTrailOk hf stack ((s.markAll new).antecedents_of_var lit.var)
          (by rw [hf.antecedents_of_var]; exact h0.antecedents_of_var_mem hlit)
        rw [markAll_append] at hstate hok
        have hnew' : ∀ v ∈ new ++ pushed.map Lit.var, s.m_mark v = false ∧ s0.Above v := by
          intro v hv
          rcases mem_append.mp hv with hv | hv
          · exact hnew v hv
          · obtain ⟨a, ha, rfl⟩ := mem_map.mp hv
            obtain ⟨hants, hpos, hmark⟩ := hpushed a ha
            rw [hf.antecedents_of_var] at hants
            simp only [markAll, Bool.or_eq_false_iff] at hmark
            exact ⟨hmark.1, hpos, a, h0.antecedents_of_var_mem hlit a hants, rfl⟩
        generalize process_antecedents_for_minimization lvl_set (s.markAll new) stack
          ((s.markAll new).antecedents_of_var lit.var) = r at hstate hok
        obtain ⟨sr, stack'⟩ := r
        obtain rfl : sr = s.markAll (new ++ pushed.map Lit.var) := hstate
        cases stack' with
        | none =>
          simp only
          rw [reset_unmark_markAll fun v hv => (hnew' v hv).1]
          exact .inl rfl
        | some stack' =>
          obtain ⟨hmem, hlen, hants⟩ := hok stack' rfl
          refine ih (new ++ pushed.map Lit.var) stack' hnew' (fun x hx => ?_) (fun v hv => ?_) ?_
          · rcases (hmem x).mp hx with hx | hx
            · exact hstack x hx
            · exact (hnew' x.var (mem_append_right _ (mem_map_of_mem hx))).2
          · have hpush : ∀ w ∈ pushed.map Lit.var, w ∈ stack'.map Lit.var := fun w hw => by
              obtain ⟨a, ha, rfl⟩ := mem_map.mp hw
              exact mem_map_of_mem ((hmem a).mpr (.inr ha))
            have hold : v ∈ root :: new → v ∈ stack'.map Lit.var ∨
                (s.markAll (new ++ pushed.map Lit.var)).Closed v := by
              intro hv
              rcases hclosed v hv with hv | hv
              · rcases mem_cons.mp (map_cons ▸ hv) with rfl | hv
                · refine .inr ⟨hdec, fun a ha => ?_⟩
                  rw [(hs.trans (markAll_frame s _)).lvl]
                  exact hants a ha
                · obtain ⟨x, hx, rfl⟩ := mem_map.mp hv
                  exact .inl (mem_map_of_mem ((hmem x).mpr (.inl hx)))
              · exact .inr (markAll_append s new _ ▸ hv.markAll _)
            rcases mem_cons.mp hv with rfl | hv
            · exact hold (by simp)
            · rcases mem_append.mp hv with hv | hv
              · exact hold (.tail _ hv)
              · exact .inl (hpush v hv)
          · rw [length_cons] at hfuel
            omega

theorem implied_by_marked_spec (h0 : s0.Analyzable F) (hs : Frame s0 s) (lvl_set : BitVec 32)
    {lit : literal} (hlit : s0.Above lit.var) : s.implied_by_marked lvl_set lit = some (s, false) ∨
    ∃ new, s.implied_by_marked lvl_set lit = some (s.markAll new, true) ∧
    (∀ v ∈ new, s.m_mark v = false ∧ s0.Above v) ∧ ∀ v ∈ lit.var :: new, (s.markAll new).Closed v := by
  have hfuel : s.unmarked.length ≤ s.m_trail.length := length_filter_le _ _
  have hroot : ∀ v ∈ [lit.var], v ∈ [lit].map Lit.var ∨ (s.markAll []).Closed v := by simp
  have h := implied_loop_spec h0 hs lvl_set (s.m_trail.length + 1) [] [lit] (by simp) (by simpa using hlit) hroot
    (by rw [markAll_nil]; simp only [length_singleton]; omega)
  rwa [markAll_nil] at h

/-- The state `s1` before minimization: the marked variables are those of the lemma literals `L` that
may be removed. -/
structure LemmaMarks (s0 s1 : solver) (L : List literal) : Prop where
  frame : Frame s0 s1
  marked : ∀ v, s1.m_mark v ↔ ∃ x ∈ L, x.var = v
  nodup : (L.map Lit.var).Nodup
  false : ∀ x ∈ L, ~~~x ∈ s0.m_trail
  above : ∀ x ∈ L, s0.Above x.var

/-- The loop of `minimize_lemma` in the state `s1.markAll U`: a literal is kept, still to be tried,
or its variable is in `U`, whose members have reasons within the marked variables. -/
structure MinInv (s0 s1 : solver) (L left : List literal) (U : List bool_var) : Prop where
  sublist : left.Sublist L
  split : ∀ x ∈ L, x ∈ left ∨ x.var ∈ U
  fresh : ∀ x ∈ left, x.var ∉ U
  closed : ∀ v ∈ U, (s1.markAll U).Closed v
  above : ∀ v ∈ U, s0.Above v

/-- A literal that is implied by marked ones is removed. It stays marked with the variables that the search for it has
visited, so that later searches can end in them. -/
theorem MinInv.remove {kept rest : List literal} {U : List bool_var} {l : literal}
    (hL : LemmaMarks s0 s1 L) (h : MinInv s0 s1 L (kept ++ l :: rest) U)
    (hnew : ∀ v ∈ new, (s1.markAll U).m_mark v = false ∧ s0.Above v)
    (hclosed : ∀ v ∈ l.var :: new, (s1.markAll (U ++ new)).Closed v) :
    MinInv s0 s1 L (kept ++ rest) (U ++ new ++ [l.var]) := by
  have hsub : (kept ++ rest).Sublist (kept ++ l :: rest) := .append_left (sublist_cons_self l rest) kept
  have hnodup := (h.sublist.map Lit.var).nodup hL.nodup
  have hmem : ∀ v, v ∈ U ++ new ++ [l.var] ↔ v ∈ U ∨ v ∈ new ∨ v = l.var := by simp
  refine ⟨hsub.trans h.sublist, fun x hx => ?_, fun x hx hxU => ?_, fun v hv => ?_, fun v hv => ?_⟩
  · rcases h.split x hx with hx | hx
    · simp only [mem_append, mem_cons] at hx ⊢
      rcases hx with hx | rfl | hx
      · exact .inl (.inl hx)
      · simp
      · exact .inl (.inr hx)
    · exact .inr ((hmem _).mpr (.inl hx))
  · rcases (hmem _).mp hxU with hU | hnewx | hl
    · exact h.fresh x (hsub.subset hx) hU
    · have hfalse := (hnew _ hnewx).1
      have hx1 := (hL.marked x.var).mpr ⟨x, h.sublist.subset (hsub.subset hx), rfl⟩
      simp [markAll, hx1] at hfalse
    · rw [map_append, map_cons, nodup_middle, nodup_cons, ← map_append, ← hl] at hnodup
      exact hnodup.1 (mem_map_of_mem hx)
  · rw [← markAll_append]
    rcases (hmem v).mp hv with hv | hv | rfl
    · exact markAll_append s1 U new ▸ ((h.closed v hv).markAll new).markAll _
    · exact (hclosed v (by simp [hv])).markAll _
    · exact (hclosed _ (by simp)).markAll _
  · rcases (hmem v).mp hv with hv | hv | rfl
    · exact h.above v hv
    · exact (hnew v hv).2
    · exact hL.above l (h.sublist.subset (by simp))

/-- The loop keeps a literal or removes it, and never runs out of fuel. What is removed has reasons within the marked
variables. -/
theorem minimize_loop_spec
    (h0 : s0.Analyzable F) (hL : LemmaMarks s0 s1 L) (lvl_set : BitVec 32) (rest kept : List literal)
    (U : List bool_var) (h : MinInv s0 s1 L (kept ++ rest) U) :
    ∃ kept' U', minimize_loop lvl_set (s1.markAll U) kept rest = some (s1.markAll U', kept') ∧
      MinInv s0 s1 L kept' U' := by
  induction rest generalizing kept U with
  | nil => exact ⟨kept, U, rfl, by simpa using h⟩
  | cons l rest ih =>
    have hlL : l ∈ L := h.sublist.subset (by simp)
    unfold minimize_loop
    rcases implied_by_marked_spec h0 (hL.frame.trans (markAll_frame s1 U)) lvl_set
      (hL.above l hlL) with hfail | ⟨new, hok, hnew, hclosed⟩
    · rw [hfail]
      exact ih (kept ++ [l]) U (by simpa using h)
    · rw [hok]
      rw [markAll_append] at hclosed ⊢
      have hpush : { s1.markAll (U ++ new) with
          m_unmark := (s1.markAll (U ++ new)).m_unmark ++ [l.var] } =
          s1.markAll (U ++ new ++ [l.var]) := by
        have hl1 := (hL.marked l.var).mpr ⟨l, hlL, rfl⟩
        have hfun : (fun v => s1.m_mark v || decide (v ∈ U ++ new)) =
            fun v => s1.m_mark v || decide (v ∈ U ++ new ++ [l.var]) := by
          funext v
          by_cases hv : v = l.var <;> simp [hv, hl1]
        rw [markAll, markAll, hfun]
        simp only [append_assoc]
      simp only
      rw [hpush]
      exact ih kept _ (h.remove hL hnew hclosed)

/-- A removed literal is implied by the kept ones, through reasons further down the trail. -/
theorem MinInv.entails {l0 : literal} {kept : List literal} {U : List bool_var} (h0 : s0.Analyzable F)
    (hL : LemmaMarks s0 s1 L) (h : MinInv s0 s1 L kept U) (hF : Entails F (l0 :: L)) : Entails F (l0 :: kept) := by
  have hf : Frame s0 (s1.markAll U) := hL.frame.trans (markAll_frame s1 U)
  have himplied : ∀ l ∈ s0.m_trail, l.var ∈ U → EntailsFrom F {m | ~~~m ∈ l0 :: kept} l := by
    refine .of_reasons fun pre l post htrail hl => ?_
    have hpos : 0 < s0.lvl l.var := (h.above _ hl).1
    obtain ⟨hdec, hants⟩ := h.closed _ hl
    rw [hf.justification, hf.lvl] at hdec
    rw [hf.antecedents_of_var, h0.antecedents_of_var_eq htrail hpos] at hants
    rcases h0.just pre l post htrail hpos with hnone | ⟨others, hreason, hearlier, hFl⟩
    · exact absurd ⟨hnone, hpos⟩ hdec
    · rw [hreason.antecedents_eq] at hants
      refine ⟨others.map (~~~·), Entails.entailsFrom (by rwa [map_compl_compl]), fun a ha => ?_⟩
      have hapre : a ∈ pre := by
        obtain ⟨m, hm, rfl⟩ := mem_map.mp ha
        exact hearlier m hm
      have hatrail : a ∈ s0.m_trail := by simp [htrail, hapre]
      refine ⟨hapre, ?_⟩
      rcases hants a ha with hzero | hmark
      · rw [hf.lvl] at hzero
        exact .inr fun b hb _ => (h0.unit a hatrail hzero).holds_of_unit hb
      · rcases markAll_marked.mp hmark with hmark | hU
        · obtain ⟨x, hx, hxa⟩ := (hL.marked _).mp hmark
          rcases h.split x hx with hkept | hU
          · have hxa' : ~~~x = a := h0.eq_of_var_eq (hL.false x hx) hatrail hxa
            exact .inr fun b _ hb => hb a (by simp [← hxa', hkept])
          · exact .inl (show a.var ∈ U from hxa ▸ hU)
        · exact .inl hU
  refine hF.of_entailsFrom fun x hx => ?_
  rcases mem_cons.mp hx with rfl | hx
  · simp
  · rcases h.split x hx with hkept | hU
    · exact .inl (.tail _ hkept)
    · exact .inr (himplied _ (hL.false x hx) hU)

/-- Minimization succeeds and keeps the first literal; what it removes from the rest leaves an
entailed clause, and the marked variables are those of the rest that is kept. -/
theorem minimize_lemma_spec {l0 : literal}
    (h0 : s0.Analyzable F) (hL : LemmaMarks s0 s1 L) (hunmark : s1.m_unmark = []) (hlemma : s1.m_lemma = l0 :: L) :
    ∃ s2 kept, s1.minimize_lemma = some s2 ∧ s2.m_lemma = l0 :: kept ∧ kept.Sublist L ∧ LemmaMarks s0 s2 kept ∧
    s2.m_unmark = [] ∧ s2.m_lit_mark = s1.m_lit_mark ∧ (Entails F (l0 :: L) → Entails F (l0 :: kept)) := by
  have hstart : MinInv s0 s1 L ([] ++ L) [] := ⟨.refl L, fun x hx => .inl hx, by simp, by simp, by simp⟩
  obtain ⟨kept, U, hrun, hinv⟩ := minimize_loop_spec h0 hL s1.lemma_lvl_set L [] [] hstart
  rw [markAll_nil] at hrun
  have hreset : (s1.markAll U).reset_unmark 0 = { s1 with m_mark := fun v => s1.m_mark v && decide (v ∉ U) } := by
    have hfun : (fun v => (s1.markAll U).m_mark v && decide (v ∉ (s1.markAll U).m_unmark)) =
        fun v => s1.m_mark v && decide (v ∉ U) := by
      funext v
      by_cases hv : v ∈ U <;> simp [markAll, hunmark, hv]
    rw [reset_unmark, drop_zero, foldl_reset_mark, hfun]
    simp [markAll, hunmark]
  refine ⟨{ s1 with m_mark := fun v => s1.m_mark v && decide (v ∉ U), m_lemma := l0 :: kept }, kept,
    by rw [minimize_lemma, hlemma]; simp only [hrun, hreset], rfl, hinv.sublist,
    ⟨hL.frame.trans rfl, fun v => ?_, (hinv.sublist.map _).nodup hL.nodup,
      fun x hx => hL.false x (hinv.sublist.subset hx),
      fun x hx => hL.above x (hinv.sublist.subset hx)⟩, hunmark, rfl, hinv.entails h0 hL⟩
  simp only [Bool.and_eq_true, hL.marked, decide_eq_true_eq]
  constructor
  · rintro ⟨⟨x, hx, rfl⟩, hU⟩
    exact ⟨x, (hinv.split x hx).resolve_right hU, rfl⟩
  · rintro ⟨x, hx, rfl⟩
    exact ⟨⟨x, hinv.sublist.subset hx, rfl⟩, hinv.fresh x hx⟩

end sat.solver
