import Mathlib.Data.List.TakeWhile
import BooledASS.Sat.Analysis.Basic

open Cnf List

namespace sat.solver

/-- Conflict analysis changes marks and the lemma only. -/
def Frame (s0 s : solver) : Prop :=
  s = { s0 with
    m_mark := s.m_mark, m_lemma := s.m_lemma, m_unmark := s.m_unmark, m_lit_mark := s.m_lit_mark }

section Frame

variable {s0 s : solver}

section

variable (h : Frame s0 s)
include h

private theorem Frame.eq : s = { s0 with
    m_mark := s.m_mark, m_lemma := s.m_lemma, m_unmark := s.m_unmark, m_lit_mark := s.m_lit_mark } := h

theorem Frame.trail : s.m_trail = s0.m_trail := by rw [h.eq]
theorem Frame.justification : s.m_justification = s0.m_justification := by rw [h.eq]
theorem Frame.lvl (v : bool_var) : s.lvl v = s0.lvl v := by rw [solver.lvl, h.justification, solver.lvl]
theorem Frame.conflict_lvl : s.m_conflict_lvl = s0.m_conflict_lvl := by rw [h.eq]
theorem Frame.cls : s.m_cls = s0.m_cls := by rw [h.eq]

theorem Frame.antecedents (c : Option literal) (js : sat.justification) : s.antecedents c js = s0.antecedents c js := by
  simp only [solver.antecedents, h.cls]

end

theorem Frame.trans {s1 s2 : solver} (h : Frame s0 s1) (h' : Frame s1 s2) : Frame s0 s2 := by
  unfold Frame at *
  rw [h']
  rw [h]

end Frame

/-- The literals that conflict analysis may blame: those of the conflict, and the antecedents of
literals of the conflict level. -/
def BlamedBy (s0 : solver) (a : literal) : Prop :=
  (∃ b ∈ s0.conflict_antecedents, b.var = a.var) ∨ ∃ c ∈ s0.m_trail, s0.lvl c.var = s0.m_conflict_lvl ∧
    a ∈ s0.antecedents (some c) (s0.m_justification c.var)

/-- The literals of `rest` still to be resolved upon. -/
def pending (s : solver) (rest : List literal) : List literal :=
  rest.filter fun y => s.m_mark y.var && s.lvl y.var == s.m_conflict_lvl

/-- The state of the walk down the trail when `rest` is left of it, from its end: the marked
variables are those of the lemma and the pending ones, which are counted by `num_marks`. -/
structure WalkInv (s0 s : solver) (num_marks : Nat) (rest : List literal) : Prop where
  frame : Frame s0 s
  unmark : s.m_unmark = s0.m_unmark
  lit_mark : s.m_lit_mark = s0.m_lit_mark
  lemma_false : ∀ x ∈ s.m_lemma, ~~~x ∈ s0.m_trail
  lemma_level : ∀ x ∈ s.m_lemma, 0 < s0.lvl x.var ∧ s0.lvl x.var ≠ s0.m_conflict_lvl
  lemma_blamed : ∀ x ∈ s.m_lemma, s0.BlamedBy (~~~x)
  lemma_nodup : (s.m_lemma.map Lit.var).Nodup
  lemma_marked : ∀ x ∈ s.m_lemma, s.m_mark x.var
  marked : ∀ v, s.m_mark v → (∃ x ∈ s.m_lemma, x.var = v) ∨ ∃ y ∈ rest, y.var = v ∧ s0.lvl v = s0.m_conflict_lvl
  count : num_marks = (pending s rest).length

variable {s0 s : solver} {n : Nat} {rest A : List literal} {a x y : literal}

theorem mem_pending (h : Frame s0 s) :
    y ∈ pending s rest ↔ y ∈ rest ∧ s.m_mark y.var ∧ s0.lvl y.var = s0.m_conflict_lvl := by
  simp [pending, h.lvl, h.conflict_lvl]

/-- Marking one more variable of a list without repeated variables adds one to the count. -/
theorem length_pending_mark (hnodup : (rest.map Lit.var).Nodup) (ha : a ∈ rest) (hmark : s.m_mark a.var = false)
    (hlvl : s.lvl a.var = s.m_conflict_lvl) : (pending (s.mark a.var) rest).length = (pending s rest).length + 1 := by
  refine Lists.length_filter_of_flip hnodup ha (fun z _ hza => ?_) ?_ ?_
  · simp [mark, lvl, Function.update_of_ne hza]
  · simpa [mark, lvl] using hlvl
  · simp [hmark]

/-- What has been done with a literal that was blamed: it is of level 0, its complement is in the
lemma, or it is pending. -/
def Blamed (s0 s : solver) (rest : List literal) (a : literal) : Prop :=
  s0.lvl a.var = 0 ∨ ~~~a ∈ s.m_lemma ∨ a ∈ pending s rest

/-- The lemma and the pending literals only grow. -/
def Grows (s s' : solver) (rest : List literal) : Prop :=
  (∀ x ∈ s.m_lemma, x ∈ s'.m_lemma) ∧ ∀ y ∈ pending s rest, y ∈ pending s' rest

variable {s' : solver} {F : Set (List literal)} {c : literal}

theorem Blamed.mono (h : Blamed s0 s rest a) (hg : Grows s s' rest) : Blamed s0 s' rest a :=
  h.imp id (Or.imp (hg.1 _) (hg.2 _))

theorem Grows.refl (s : solver) (rest : List literal) : Grows s s rest := ⟨fun _ hx => hx, fun _ hy => hy⟩

theorem Grows.trans {s'' : solver} (h : Grows s s' rest) (h' : Grows s' s'' rest) : Grows s s'' rest :=
  ⟨fun x hx => h'.1 x (h.1 x hx), fun y hy => h'.2 y (h.2 y hy)⟩

theorem mark_marked {v w : bool_var} : (s.mark v).m_mark w ↔ w = v ∨ s.m_mark w := by
  by_cases h : w = v <;> simp [mark, h]

/-- An antecedent of the conflict level is marked and counted; the walk down the trail comes to it later. -/
theorem WalkInv.mark_pending (h : WalkInv s0 s n rest) (hnodup : (rest.map Lit.var).Nodup)
    (ha : a ∈ rest) (hmark : s.m_mark a.var = false) (hlvl : s0.lvl a.var = s0.m_conflict_lvl) :
    WalkInv s0 (s.mark a.var) (n + 1) rest ∧ Grows s (s.mark a.var) rest ∧ Blamed s0 (s.mark a.var) rest a := by
  have hf : Frame s0 (s.mark a.var) := h.frame.trans rfl
  have hgrow : ∀ y ∈ pending s rest, y ∈ pending (s.mark a.var) rest := by
    intro y hy
    obtain ⟨hy, hym, hyl⟩ := (mem_pending h.frame).mp hy
    exact (mem_pending hf).mpr ⟨hy, mark_marked.mpr (.inr hym), hyl⟩
  refine ⟨⟨hf, h.unmark, h.lit_mark, h.lemma_false, h.lemma_level, h.lemma_blamed, h.lemma_nodup, ?_, ?_, ?_⟩,
    ⟨fun _ hx => hx, hgrow⟩, ?_⟩
  · exact fun x hx => mark_marked.mpr (.inr (h.lemma_marked x hx))
  · intro v hv
    rcases mark_marked.mp hv with rfl | hv
    · exact .inr ⟨a, ha, rfl, hlvl⟩
    · exact h.marked v hv
  · have hlvl' : s.lvl a.var = s.m_conflict_lvl := by rw [h.frame.lvl, h.frame.conflict_lvl, hlvl]
    rw [length_pending_mark hnodup ha hmark hlvl', h.count]
  · exact .inr (.inr ((mem_pending hf).mpr ⟨ha, mark_marked.mpr (.inl rfl), hlvl⟩))

/-- The complement of an antecedent of a lower level, other than the base level, is a literal of the lemma. -/
theorem WalkInv.push_lemma (h : WalkInv s0 s n rest) (ha : a ∈ s0.m_trail)
    (hmark : s.m_mark a.var = false) (hpos : 0 < s0.lvl a.var)
    (hlvl : s0.lvl a.var ≠ s0.m_conflict_lvl) (hblamed : s0.BlamedBy a) :
    let s' : solver := { s.mark a.var with m_lemma := s.m_lemma ++ [~~~a] }
    WalkInv s0 s' n rest ∧ Grows s s' rest ∧ Blamed s0 s' rest a := by
  intro s'
  have hf : Frame s0 s' := h.frame.trans rfl
  have hmem : ∀ x, x ∈ s'.m_lemma ↔ x ∈ s.m_lemma ∨ x = ~~~a := by simp [s']
  have hmarked : ∀ {w}, s'.m_mark w ↔ w = a.var ∨ s.m_mark w := mark_marked
  have hfresh : ∀ x ∈ s.m_lemma, x.var ≠ a.var := fun x hx hxa => by simpa [hxa, hmark] using h.lemma_marked x hx
  have hpending : pending s' rest = pending s rest := by
    refine filter_congr fun z _ => ?_
    rw [hf.lvl, hf.conflict_lvl, h.frame.lvl, h.frame.conflict_lvl]
    by_cases hza : z.var = a.var
    · simp [hza, beq_eq_false_iff_ne.mpr hlvl]
    · simp [s', mark, Function.update_of_ne hza]
  refine ⟨⟨hf, h.unmark, h.lit_mark, ?_, ?_, ?_, ?_, ?_, ?_, by rw [hpending, h.count]⟩,
    ⟨fun x hx => (hmem x).mpr (.inl hx), ?_⟩, .inr (.inl ((hmem _).mpr (.inr rfl)))⟩
  · intro x hx
    rcases (hmem x).mp hx with hx | rfl
    · exact h.lemma_false x hx
    · simpa using ha
  · intro x hx
    rcases (hmem x).mp hx with hx | rfl
    · exact h.lemma_level x hx
    · exact ⟨hpos, hlvl⟩
  · intro x hx
    rcases (hmem x).mp hx with hx | rfl
    · exact h.lemma_blamed x hx
    · simpa using hblamed
  · rw [map_append, nodup_append]
    refine ⟨h.lemma_nodup, by simp, fun v hv w hw => ?_⟩
    obtain ⟨x, hx, rfl⟩ := mem_map.mp hv
    obtain rfl : w = a.var := by simpa using hw
    exact hfresh x hx
  · intro x hx
    rcases (hmem x).mp hx with hx | rfl
    · exact hmarked.mpr (.inr (h.lemma_marked x hx))
    · exact hmarked.mpr (.inl rfl)
  · intro v hv
    rcases hmarked.mp hv with rfl | hv
    · exact .inl ⟨~~~a, (hmem _).mpr (.inr rfl), rfl⟩
    · exact (h.marked v hv).imp_left fun ⟨x, hx, hxv⟩ => ⟨x, (hmem x).mpr (.inl hx), hxv⟩
  · exact fun y hy => by rwa [hpending]

/-- An antecedent of the conflict level is marked, one of a lower level goes to the lemma, and one of the base level
is dropped. Each is accounted for once. -/
theorem process_antecedent_spec (h0 : s0.TrailOk) (h : WalkInv s0 s n rest) (hnodup : (rest.map Lit.var).Nodup)
    (hrest : ∀ y ∈ rest, y ∈ s0.m_trail) (ha : a ∈ s0.m_trail) (hlvl : s0.lvl a.var = s0.m_conflict_lvl → a ∈ rest)
    (hblamed : s0.BlamedBy a) : WalkInv s0 (s.process_antecedent a n).1 (s.process_antecedent a n).2 rest ∧
    Grows s (s.process_antecedent a n).1 rest ∧ Blamed s0 (s.process_antecedent a n).1 rest a := by
  have hf := h.frame
  cases hmark : s.m_mark a.var with
  | true =>
    have heq : s.process_antecedent a n = (s, n) := by simp [process_antecedent, is_marked, hmark]
    rw [heq]
    refine ⟨h, .refl s rest, ?_⟩
    rcases h.marked a.var hmark with ⟨x, hx, hxa⟩ | ⟨y, hy, hya, hylvl⟩
    · have hxa' : ~~~x = a := h0.eq_of_var_eq (h.lemma_false x hx) ha hxa
      exact .inr (.inl (by simpa [← hxa'] using hx))
    · obtain rfl : y = a := h0.eq_of_var_eq (hrest y hy) ha hya
      exact .inr (.inr ((mem_pending hf).mpr ⟨hy, hmark, hylvl⟩))
  | false =>
    by_cases hzero : s0.lvl a.var = 0
    · have heq : s.process_antecedent a n = (s, n) := by simp [process_antecedent, hf.lvl, hzero]
      rw [heq]
      exact ⟨h, .refl s rest, .inl hzero⟩
    · have hpos : 0 < s0.lvl a.var := Nat.pos_of_ne_zero hzero
      by_cases hc : s0.lvl a.var = s0.m_conflict_lvl
      · have heq : s.process_antecedent a n = (s.mark a.var, n + 1) := by
          simp [process_antecedent, is_marked, hmark, hf.lvl, hf.conflict_lvl, ← hc, hpos]
        rw [heq]
        exact h.mark_pending hnodup (hlvl hc) hmark hc
      · have heq : s.process_antecedent a n = ({ s.mark a.var with m_lemma := s.m_lemma ++ [~~~a] }, n) := by
          simp [process_antecedent, is_marked, hmark, hf.lvl, hf.conflict_lvl, hc, hpos]
        rw [heq]
        exact h.push_lemma ha hmark hpos hc hblamed

/-- All antecedents of one literal, one after the other. Each of them ends up in the lemma, among the pending
literals, or at the base level. -/
theorem process_antecedents_spec (h0 : s0.TrailOk) (hnodup : (rest.map Lit.var).Nodup)
    (hrest : ∀ y ∈ rest, y ∈ s0.m_trail) (h : WalkInv s0 s n rest)
    (hA : ∀ a ∈ A, a ∈ s0.m_trail ∧ (s0.lvl a.var = s0.m_conflict_lvl → a ∈ rest) ∧ s0.BlamedBy a) :
    let p := s.process_antecedents A n
    WalkInv s0 p.1 p.2 rest ∧ Grows s p.1 rest ∧ ∀ a ∈ A, Blamed s0 p.1 rest a := by
  induction A generalizing s n with
  | nil => exact ⟨h, Grows.refl s rest, by simp⟩
  | cons a A ih =>
    obtain ⟨ha, hA⟩ := forall_mem_cons.mp hA
    obtain ⟨hinv, hgrow, hblamed⟩ := process_antecedent_spec h0 h hnodup hrest ha.1 ha.2.1 ha.2.2
    obtain ⟨hinv', hgrow', hblamed'⟩ := ih hinv hA
    refine ⟨hinv', hgrow.trans hgrow', ?_⟩
    exact forall_mem_cons.mpr ⟨hblamed.mono hgrow', hblamed'⟩

/-- Blaming the antecedents of a clause turns it into the lemma and the pending literals. -/
theorem entails_of_blamed {c : List literal} (h0 : s0.Analyzable F) (hA : ∀ a ∈ A, a ∈ s0.m_trail)
    (hblamed : ∀ a ∈ A, Blamed s0 s rest a) (hc : ∀ x ∈ c, x ∈ s.m_lemma ∨ ~~~x ∈ pending s rest ∨ ~~~x ∈ A)
    (h : Entails F c) : Entails F (s.m_lemma ++ (pending s rest).map (~~~·)) := by
  have hmem : ∀ x, ~~~x ∈ pending s rest → x ∈ s.m_lemma ++ (pending s rest).map (~~~·) :=
    fun x hx => mem_append_right _ (mem_map.mpr ⟨~~~x, hx, by simp⟩)
  refine h.of_entailsFrom fun x hx => ?_
  rcases hc x hx with hl | hp | hxA
  · exact .inl (mem_append_left _ hl)
  · exact .inl (hmem x hp)
  · rcases hblamed _ hxA with hzero | hl | hp
    · exact .inr fun a ha _ => (h0.unit _ (hA _ hxA) hzero).holds_of_unit ha
    · exact .inl (mem_append_left _ (by simpa using hl))
    · exact .inl (hmem x hp)

theorem WalkInv.skip (h : WalkInv s0 s n (c :: rest)) (hc : ¬ (s.m_mark c.var ∧ s0.lvl c.var = s0.m_conflict_lvl)) :
    WalkInv s0 s n rest ∧ pending s (c :: rest) = pending s rest := by
  have hpending : pending s (c :: rest) = pending s rest := by
    refine filter_cons_of_neg ?_
    simpa [h.frame.lvl, h.frame.conflict_lvl] using hc
  refine ⟨⟨h.frame, h.unmark, h.lit_mark, h.lemma_false, h.lemma_level, h.lemma_blamed, h.lemma_nodup,
    h.lemma_marked, fun v hv => ?_, by rw [h.count, hpending]⟩, hpending⟩
  refine (h.marked v hv).imp_right fun ⟨y, hy, hyv, hlvl⟩ => ?_
  rcases mem_cons.mp hy with rfl | hy
  · exact absurd ⟨hyv ▸ hv, hyv ▸ hlvl⟩ hc
  · exact ⟨y, hy, hyv, hlvl⟩

/-- The next marked literal of the trail is unmarked, counted off, and taken to be resolved upon. -/
theorem WalkInv.take (h : WalkInv s0 s n (c :: rest))
    (hnodup : ((c :: rest).map Lit.var).Nodup) (hmark : s.m_mark c.var) (hlvl : s0.lvl c.var = s0.m_conflict_lvl) :
    WalkInv s0 (s.reset_mark c.var) (n - 1) rest ∧ pending s (c :: rest) = c :: pending (s.reset_mark c.var) rest := by
  have hfresh : ∀ z ∈ rest, z.var ≠ c.var := fun z hz hzc => by
    rw [map_cons, nodup_cons] at hnodup
    exact hnodup.1 (hzc ▸ mem_map_of_mem hz)
  have hmarked : ∀ v, (s.reset_mark c.var).m_mark v ↔ v ≠ c.var ∧ s.m_mark v := by
    intro v
    by_cases hv : v = c.var <;> simp [reset_mark, hv]
  have hrest : pending (s.reset_mark c.var) rest = pending s rest := by
    refine filter_congr fun z hz => ?_
    simp [reset_mark, lvl, Function.update_of_ne (hfresh z hz)]
  have hpending : pending s (c :: rest) = c :: pending (s.reset_mark c.var) rest := by
    rw [hrest]
    refine filter_cons_of_pos ?_
    simpa [h.frame.lvl, h.frame.conflict_lvl] using ⟨hmark, hlvl⟩
  refine ⟨⟨h.frame.trans rfl, h.unmark, h.lit_mark, h.lemma_false, h.lemma_level, h.lemma_blamed, h.lemma_nodup,
    fun x hx => ?_, fun v hv => ?_, ?_⟩, hpending⟩
  · refine (hmarked _).mpr ⟨fun hxc => ?_, h.lemma_marked x hx⟩
    exact (h.lemma_level x hx).2 (hxc ▸ hlvl)
  · obtain ⟨hvc, hv⟩ := (hmarked v).mp hv
    refine (h.marked v hv).imp_right ?_
    rintro ⟨y, hy, hyv, hl⟩
    rcases mem_cons.mp hy with rfl | hy
    · exact absurd hyv.symm hvc
    · exact ⟨y, hy, hyv, hl⟩
  · rw [h.count, hpending, length_cons, Nat.add_sub_cancel]

/-- The antecedents of a literal of the trail stand before it. -/
theorem Analyzable.antecedents_mem {pre post : List literal}
    (h0 : s0.Analyzable F) (htrail : s0.m_trail = pre ++ c :: post) (hpos : 0 < s0.lvl c.var) :
    ∀ a ∈ s0.antecedents (some c) (s0.m_justification c.var), a ∈ pre := by
  intro a ha
  rcases h0.just pre c post htrail hpos with hnone | ⟨others, hreason, hearlier, _⟩
  · simp [antecedents, hnone] at ha
  · rw [hreason.antecedents_eq] at ha
    obtain ⟨m, hm, rfl⟩ := mem_map.mp ha
    exact hearlier m hm

/-- Resolving the lemma so far with the reason of the pending literal `c`, whose antecedents have been
blamed in `s'`. -/
theorem entails_after_resolution {others : List literal} (h0 : s0.Analyzable F)
    (hmem : ∀ a ∈ s0.antecedents (some c) (s0.m_justification c.var), a ∈ s0.m_trail) (hgrow : Grows s s' rest)
    (hblamed : ∀ a ∈ s0.antecedents (some c) (s0.m_justification c.var), Blamed s0 s' rest a)
    (hreason : s0.Reason c (s0.m_justification c.var).get_kind others) (hF : Entails F (c :: others))
    (hE : Entails F (s.m_lemma ++ (c :: pending s rest).map (~~~·))) :
    Entails F (s'.m_lemma ++ (pending s' rest).map (~~~·)) := by
  rw [hreason.antecedents_eq] at hmem hblamed
  have hres : Entails F (s.m_lemma ++ ((pending s rest).map (~~~·) ++ others)) := by
    refine hF.resolve hE (l := c) (fun m hm => ?_) fun m hm => ?_
    · exact (mem_cons.mp hm).imp_right fun hm => by simp [hm]
    · simp only [map_cons, mem_append, mem_cons] at hm ⊢
      tauto
  refine entails_of_blamed h0 hmem hblamed (fun x hx => ?_) hres
  rcases mem_append.mp hx with hx | hx
  · exact .inl (hgrow.1 x hx)
  · rcases mem_append.mp hx with hx | hx
    · obtain ⟨z, hz, rfl⟩ := mem_map.mp hx
      exact .inr (.inl (hgrow.2 _ (by simpa using hz)))
    · exact .inr (.inr (mem_map_of_mem hx))

/-- The walk down the trail ends at a literal of the conflict level, the only one left, and the lemma
with its complement is entailed when nothing of the conflict level precedes a decision. -/
theorem resolve_walk_spec (h0 : s0.Analyzable F) (hlvl0 : 0 < s0.m_conflict_lvl) (h : WalkInv s0 s n rest) (hn : 0 < n)
    {post : List literal} (htrail : s0.m_trail = rest.reverse ++ post) : ∃ s' c, s.resolve_walk n rest = some (s', c) ∧
    WalkInv s0 s' 0 [] ∧ c ∈ s0.m_trail ∧ s0.lvl c.var = s0.m_conflict_lvl ∧
    (s0.DecisionFirst → Entails F (s.m_lemma ++ (pending s rest).map (~~~·)) → Entails F (~~~c :: s'.m_lemma)) := by
  induction rest generalizing s n post with
  | nil =>
    have hcount := h.count
    simp [pending] at hcount
    omega
  | cons c rest ih =>
    have htrail' : s0.m_trail = rest.reverse ++ c :: post := by simpa using htrail
    have hsub : ∀ y ∈ rest, y ∈ s0.m_trail := fun y hy => by simp [htrail', hy]
    have hnodup : ((c :: rest).map Lit.var).Nodup := by
      have hall := h0.nodup
      rw [htrail, map_append, map_reverse] at hall
      exact nodup_reverse.mp (nodup_append.mp hall).1
    rw [resolve_walk, h.frame.lvl, h.frame.conflict_lvl]
    by_cases hc : s.m_mark c.var ∧ s0.lvl c.var = s0.m_conflict_lvl
    · rw [if_pos (by simpa [is_marked] using hc)]
      obtain ⟨hinv, hpending⟩ := h.take hnodup hc.1 hc.2
      rw [hpending, if_neg (Nat.pos_iff_ne_zero.mp hn)]
      set s1 := s.reset_mark c.var with hs1
      have hcount := hinv.count
      have hlemma : s1.m_lemma = s.m_lemma := rfl
      by_cases hlast : 0 < n - 1
      · rw [if_pos hlast, hinv.frame.antecedents, hinv.frame.justification]
        have hmem := h0.antecedents_mem htrail' (hc.2 ▸ hlvl0)
        obtain ⟨hinv', hgrow, hblamed⟩ := process_antecedents_spec h0.toTrailOk
          (nodup_cons.mp hnodup).2 hsub hinv fun a ha =>
            ⟨by simp [htrail', mem_reverse.mp (hmem a ha)],
              fun _ => mem_reverse.mp (hmem a ha), .inr ⟨c, by simp [htrail'], hc.2, ha⟩⟩
        obtain ⟨y, hy⟩ := exists_mem_of_length_pos (hcount ▸ hlast)
        have hn' := hinv'.count ▸ length_pos_of_mem (hgrow.2 y hy)
        obtain ⟨s', d, hrun, hend, hd, hdlvl, hent⟩ := ih hinv' hn' htrail'
        refine ⟨s', d, hrun, hend, hd, hdlvl, fun hfirst hE => hent hfirst ?_⟩
        rcases h0.just _ c post htrail' (hc.2 ▸ hlvl0) with hnone | ⟨others, hreason, _, hF⟩
        · -- a decision with a pending literal below it would not be the first of its level
          obtain ⟨hyrest, _, hylvl⟩ := (mem_pending hinv.frame).mp hy
          exact absurd hylvl (hfirst _ c post htrail' hnone hc.2 y (mem_reverse.mpr hyrest))
        · exact entails_after_resolution h0 (fun a ha => hsub a (mem_reverse.mp (hmem a ha)))
            hgrow hblamed hreason hF hE
      · rw [if_neg hlast]
        have hzero : n - 1 = 0 := by omega
        have hnil : pending s1 rest = [] := eq_nil_of_length_eq_zero (by rw [← hcount, hzero])
        refine ⟨s1, c, rfl, ⟨hinv.frame, hinv.unmark, hinv.lit_mark, hinv.lemma_false, hinv.lemma_level,
          hinv.lemma_blamed, hinv.lemma_nodup, hinv.lemma_marked, fun v hv => ?_, rfl⟩, by simp [htrail'], hc.2,
          fun _ hE => ?_⟩
        · refine (hinv.marked v hv).imp_right fun ⟨y, hy, hyv, hyl⟩ => ?_
          have hyp : y ∈ pending s1 rest := (mem_pending hinv.frame).mpr ⟨hy, hyv ▸ hv, hyv ▸ hyl⟩
          simp [hnil] at hyp
        · refine hE.weaken fun x hx => ?_
          rw [hnil] at hx
          simpa [hlemma, or_comm] using hx
    · rw [if_neg (by simpa [is_marked] using hc)]
      obtain ⟨hinv, hpending⟩ := h.skip hc
      rw [hpending]
      exact ih hinv hn htrail'

theorem mem_skip_literals (ha : a ∈ s0.m_trail) (hlvl : s0.lvl a.var = s0.m_conflict_lvl) :
    a ∈ s0.skip_literals_above_conflict_level := by
  have hsplit := takeWhile_append_dropWhile
    (p := fun l : literal => decide (s0.m_conflict_lvl < s0.lvl l.var)) (l := s0.m_trail.reverse)
  have hmem : a ∈ s0.m_trail.reverse := mem_reverse.mpr ha
  rw [← hsplit] at hmem
  refine (mem_append.mp hmem).resolve_left fun htake => ?_
  have habove := mem_takeWhile_imp htake
  simp [hlvl] at habove

theorem trail_eq_skip_literals : ∃ post, s0.m_trail = s0.skip_literals_above_conflict_level.reverse ++ post := by
  refine ⟨(s0.m_trail.reverse.takeWhile fun l => decide (s0.m_conflict_lvl < s0.lvl l.var)).reverse, ?_⟩
  rw [skip_literals_above_conflict_level, ← reverse_append, takeWhile_append_dropWhile, reverse_reverse]

/-- The true literals that a conflict blames. A literal of the conflict level is only marked, so
`m_not_l` may then be given by its complement. -/
inductive Blames (s : solver) : List literal → Prop
  | antecedents : Blames s s.conflict_antecedents
  | flipped (not_l l : literal) : s.m_not_l = some not_l → s.m_conflict.get_kind = .BINARY l →
      s.lvl not_l.var = s.m_conflict_lvl → Blames s [~~~not_l, ~~~l]

theorem process_antecedent_flipped {l : literal} (h : s.lvl l.var = s.m_conflict_lvl) :
    s.process_antecedent l n = s.process_antecedent (~~~l) n := by
  simp [process_antecedent, h]

/-- The analysis walks down the trail from the literals that the conflict blames. -/
theorem Blames.resolve_first_uip (h : s0.Blames A)
    (hrun : (process_antecedents { s0 with m_lemma := [] } A 0).1.resolve_walk
      (process_antecedents { s0 with m_lemma := [] } A 0).2 s0.skip_literals_above_conflict_level = some (s', c)) :
    s0.resolve_first_uip = some { s' with m_lemma := ~~~c :: s'.m_lemma } := by
  unfold solver.resolve_first_uip
  cases h with
  | antecedents =>
    rw [conflict_antecedents] at hrun
    cases hnl : s0.m_not_l <;>
      simp only [hnl, Option.toList, cons_append, nil_append, process_antecedents] at hrun ⊢ <;>
      rw [hrun]
  | flipped not_l l hnl hk hlvl =>
    have hflip := process_antecedent_flipped (s := { s0 with m_lemma := [] }) (n := 0) hlvl
    simp only [process_antecedents] at hrun
    rw [← hflip] at hrun
    simp only [hnl, solver.antecedents, hk, process_antecedents] at hrun ⊢
    rw [hrun]

theorem Blames.blamedBy (h : s0.Blames A) : ∀ a ∈ A, s0.BlamedBy a := by
  intro a ha
  cases h with
  | antecedents => exact .inl ⟨a, ha, rfl⟩
  | flipped not_l l hnl hk _ =>
    have hante : s0.conflict_antecedents = [not_l, ~~~l] := by simp [conflict_antecedents, solver.antecedents, hnl, hk]
    rcases mem_cons.mp ha with rfl | ha
    · exact .inl ⟨not_l, by simp [hante], rfl⟩
    · exact .inl ⟨a, by rw [hante]; exact .tail _ ha, rfl⟩

/-- The conflict clause, given by the true literals it blames. -/
structure ConflictOk (s : solver) (F : Set (List literal)) (A : List literal) : Prop where
  blames : s.Blames A
  mem : ∀ a ∈ A, a ∈ s.m_trail
  entails : Entails F (A.map (~~~·))
  level : ∃ a ∈ A, s.lvl a.var = s.m_conflict_lvl

/-- First-UIP resolution succeeds. The first literal of the lemma is the only one of the conflict
level; the marked variables are those of the other literals. -/
theorem resolve_first_uip_spec (h0 : s0.Analyzable F)
    (hconf : s0.ConflictOk F A) (hlvl0 : 0 < s0.m_conflict_lvl) (hmark : ∀ v, s0.m_mark v = false) :
    ∃ s' c, s0.resolve_first_uip = some { s' with m_lemma := ~~~c :: s'.m_lemma } ∧
      WalkInv s0 s' 0 [] ∧ c ∈ s0.m_trail ∧ s0.lvl c.var = s0.m_conflict_lvl ∧
      (s0.DecisionFirst → Entails F (~~~c :: s'.m_lemma)) := by
  set rest := s0.skip_literals_above_conflict_level with hrest
  obtain ⟨post, htrail⟩ := trail_eq_skip_literals
  have hnodup : (rest.map Lit.var).Nodup := by
    have hall := h0.nodup
    rw [htrail, map_append, map_reverse] at hall
    exact nodup_reverse.mp (nodup_append.mp hall).1
  have hsub : ∀ y ∈ rest, y ∈ s0.m_trail := fun y hy => by
    rw [htrail]
    simp [← hrest, hy]
  have hstart : WalkInv s0 { s0 with m_lemma := [] } 0 rest :=
    ⟨rfl, rfl, rfl, by simp, by simp, by simp, by simp, by simp, by simp [hmark], by simp [pending, hmark]⟩
  obtain ⟨hinv, -, hblamed⟩ := process_antecedents_spec h0.toTrailOk
    hnodup hsub hstart fun a ha => ⟨hconf.mem a ha, mem_skip_literals (hconf.mem a ha), hconf.blames.blamedBy a ha⟩
  obtain ⟨a, ha, halvl⟩ := hconf.level
  have hpos : 0 < (process_antecedents { s0 with m_lemma := [] } A 0).2 := by
    rw [hinv.count]
    rcases hblamed a ha with hzero | hlem | hpend
    · omega
    · exact absurd (by simpa using halvl) (hinv.lemma_level _ hlem).2
    · exact length_pos_of_mem hpend
  obtain ⟨s', c, hrun, hend, hc, hclvl, hent⟩ := resolve_walk_spec h0 hlvl0 hinv hpos htrail
  refine ⟨s', c, ?_, hend, hc, hclvl, fun hfirst => hent hfirst ?_⟩
  · exact hconf.blames.resolve_first_uip hrun
  · refine entails_of_blamed h0 hconf.mem hblamed (fun x hx => ?_) hconf.entails
    obtain ⟨y, hy, rfl⟩ := mem_map.mp hx
    exact .inr (.inr (by simpa using hy))

end sat.solver
