import BooledASS.Sat.Analysis.Minimize

open Cnf List

namespace sat.solver

variable {s0 s : solver} {l0 : literal} {kept : List literal}

/-- The state inside `update_lrb_reasoned`: the literals `extra` have been appended to the lemma and
marked, as has the first literal. -/
private def reasoned (s : solver) (l0 : literal) (extra : List literal) : solver :=
  { s with
    m_mark := fun v => s.m_mark v || decide (v = l0.var) || decide (v ∈ extra.map Lit.var)
    m_lemma := s.m_lemma ++ extra }

private theorem update_lrb_reasoned_fold (lits extra : List literal)
    (hextra : ∀ x ∈ extra, s.m_mark x.var = false ∧ x.var ≠ l0.var) :
    ∃ extra', lits.foldl update_lrb_reasoned_lit (reasoned s l0 extra) = reasoned s l0 extra' ∧
      ∀ x ∈ extra', s.m_mark x.var = false ∧ x.var ≠ l0.var := by
  induction lits generalizing extra with
  | nil => exact ⟨extra, rfl, hextra⟩
  | cons l lits ih =>
    rw [List.foldl_cons]
    cases hmark : (reasoned s l0 extra).m_mark l.var with
    | true =>
      have hsame : (reasoned s l0 extra).update_lrb_reasoned_lit l = reasoned s l0 extra := by
        simp [update_lrb_reasoned_lit, is_marked, hmark]
      rw [hsame]
      exact ih extra hextra
    | false =>
      have hpush : (reasoned s l0 extra).update_lrb_reasoned_lit l = reasoned s l0 (extra ++ [l]) := by
        have hfun : Function.update (reasoned s l0 extra).m_mark l.var true =
            (reasoned s l0 (extra ++ [l])).m_mark := by
          funext v
          by_cases hv : v = l.var
          · simp [hv, reasoned]
          · simp [hv, reasoned]
        simp only [update_lrb_reasoned_lit, is_marked, hmark, mark, hfun]
        simp [reasoned]
      rw [hpush]
      refine ih _ fun x hx => ?_
      rcases List.mem_append.mp hx with hx | hx
      · exact hextra x hx
      · obtain rfl : x = l := by simpa using hx
        simp only [reasoned, Bool.or_eq_false_iff, decide_eq_false_iff_not] at hmark
        exact hmark.1

/-- `update_lrb_reasoned` takes back every mark it makes. -/
theorem update_lrb_reasoned_eq (hlemma : s.m_lemma = l0 :: kept) (hl0 : s.m_mark l0.var = false) :
    s.update_lrb_reasoned = s := by
  have hfold : ∀ (lits extra : List literal), (∀ x ∈ extra, s.m_mark x.var = false ∧ x.var ≠ l0.var) → ∃ extra',
        lits.foldl (fun s l => (s.reason_literals l.var).foldl update_lrb_reasoned_lit s)
          (reasoned s l0 extra) = reasoned s l0 extra' ∧
        ∀ x ∈ extra', s.m_mark x.var = false ∧ x.var ≠ l0.var := by
    intro lits
    induction lits with
    | nil => exact fun extra hextra => ⟨extra, rfl, hextra⟩
    | cons l lits ih =>
      intro extra hextra
      obtain ⟨extra', heq, hextra'⟩ := update_lrb_reasoned_fold
        ((reasoned s l0 extra).reason_literals l.var) extra hextra
      rw [foldl_cons, heq]
      exact ih extra' hextra'
  have hstart : s.mark l0.var = reasoned s l0 [] := by
    have hfun : Function.update s.m_mark l0.var true = (reasoned s l0 []).m_mark := by
      funext v
      by_cases hv : v = l0.var <;> simp [hv, reasoned]
    simp only [mark, hfun]
    simp [reasoned]
  obtain ⟨extra, heq, hextra⟩ := hfold s.m_lemma.reverse [] (by simp)
  have hhead : (reasoned s l0 extra).m_lemma.head? = some l0 := by simp [reasoned, hlemma]
  have hdrop : (reasoned s l0 extra).m_lemma.drop s.m_lemma.length = extra := by simp [reasoned]
  have htake : (reasoned s l0 extra).m_lemma.take s.m_lemma.length = s.m_lemma := by simp [reasoned]
  have hvars : extra.foldl (fun s l => s.reset_mark l.var) ((reasoned s l0 extra).reset_mark l0.var) =
      (extra.map Lit.var).foldl (fun s v => s.reset_mark v) ((reasoned s l0 extra).reset_mark l0.var) := by
    rw [foldl_map]
  have hmark : (fun v => ((reasoned s l0 extra).reset_mark l0.var).m_mark v &&
      decide (v ∉ extra.map Lit.var)) = s.m_mark := by
    funext v
    by_cases hv : v = l0.var
    · simp [hv, reset_mark, hl0]
    · by_cases hve : v ∈ extra.map Lit.var
      · obtain ⟨x, hx, rfl⟩ := mem_map.mp hve
        simp [hve, (hextra x hx).1]
      · simp only [reset_mark, reasoned, Function.update_of_ne hv, hv, hve, decide_false, Bool.or_false,
          not_false_eq_true, decide_true, Bool.and_true]
  unfold update_lrb_reasoned
  simp only [show s.m_lemma.head? = some l0 by rw [hlemma]; rfl, Option.elim_some, hstart, heq, hhead,
    hdrop, htake, hvars, foldl_reset_mark, hmark]
  rfl

/-- After `reset_lemma_var_marks` no variable is marked. -/
theorem reset_lemma_var_marks_eq (hlemma : s.m_lemma = l0 :: kept) (hmarked : ∀ v, s.m_mark v ↔ ∃ x ∈ kept, x.var = v)
    (hl0 : ∀ x ∈ kept, x.var ≠ l0.var) :
    s.reset_lemma_var_marks = { s with m_mark := fun _ => false } := by
  have hl0' : s.m_mark l0.var = false := by
    by_contra h
    obtain ⟨x, hx, hxv⟩ := (hmarked l0.var).mp (by simpa using h)
    exact hl0 x hx hxv
  have hreset : s.m_lemma.tail.foldl (fun s l => s.reset_mark l.var) s = { s with m_mark := fun _ => false } := by
    have hmark : (fun v => s.m_mark v && decide (v ∉ kept.map Lit.var)) = fun _ => false := by
      funext v
      cases hv : s.m_mark v with
      | false => simp
      | true =>
        obtain ⟨x, hx, rfl⟩ := (hmarked v).mp hv
        simpa using ⟨x, hx, rfl⟩
    have htail : s.m_lemma.tail = kept := by rw [hlemma, tail_cons]
    rw [htail, ← foldl_map, foldl_reset_mark, hmark]
  unfold reset_lemma_var_marks
  cases s.m_config.m_branching_heuristic with
  | BH_VSIDS => simp only [update_lrb_reasoned_eq hlemma hl0', hreset]
  | BH_CHB => simp only [hreset]

theorem mem_leading_binaries {ws : List watched} {l2 : literal} (h : l2 ∈ leading_binaries ws) :
    ∃ b, .BINARY l2 b ∈ ws := by
  induction ws with
  | nil => simp [leading_binaries] at h
  | cons w ws ih =>
    cases w with
    | CLAUSE => simp [leading_binaries] at h
    | BINARY l' b =>
      rcases mem_cons.mp h with rfl | hin
      · exact ⟨b, by simp⟩
      · obtain ⟨b', hb'⟩ := ih hin
        exact ⟨b', .tail _ hb'⟩

/-- The watch lists and the cache hold entailed binary clauses, and no tautologies. -/
def BinariesOk (s : solver) (F : Set (List literal)) : Prop :=
  ∀ l l2, l2 ∈ leading_binaries (s.m_watches (~~~l)) ++ (s.m_cached_bins (~~~l)).getD [] → Entails F [l, l2] ∧ l2 ≠ ~~~l

/-- During `dyn_sub_res`: the marked literals of the lemma, the first one among them, form an
entailed clause. -/
structure SubResInv (s0 s : solver) (F : Set (List literal)) (l0 : literal) (lits : List literal) :
    Prop where
  frame : s = { s0 with m_lit_mark := s.m_lit_mark }
  sub : ∀ l, s.m_lit_mark l → l ∈ lits
  first : s.m_lit_mark l0
  entails : s0.BinariesOk F → Entails F lits → Entails F (lits.filter s.m_lit_mark)

variable {F : Set (List literal)} {lits : List literal}

/-- A binary clause `l \/ l2` removes `~l2` from the lemma: resolving the two leaves `l`, which is in the lemma
already. The first literal is never removed. -/
theorem SubResInv.step {l l2 : literal} (h : SubResInv s0 s F l0 lits) (hl : s0.BinariesOk F → s.m_lit_mark l)
    (hl2 : s0.BinariesOk F → Entails F [l, l2] ∧ l2 ≠ ~~~l) : SubResInv s0 (s.dyn_sub_res_step l0 l2) F l0 lits ∧
    (s0.BinariesOk F → (s.dyn_sub_res_step l0 l2).m_lit_mark l) := by
  unfold dyn_sub_res_step
  by_cases hc : s.is_marked_lit (~~~l2) ∧ l0 ≠ ~~~l2
  · rw [if_pos hc]
    have hmark : ∀ m, (s.unmark_lit (~~~l2)).m_lit_mark m ↔ m ≠ ~~~l2 ∧ s.m_lit_mark m := by
      intro m
      by_cases hm : m = ~~~l2 <;> simp [unmark_lit, hm]
    have hne : s0.BinariesOk F → l ≠ ~~~l2 := fun hb hl' => (hl2 hb).2 (by simp [hl'])
    refine ⟨⟨?_, fun m hm => h.sub m ((hmark m).mp hm).2, (hmark l0).mpr ⟨hc.2, h.first⟩,
      fun hb hF => ?_⟩, fun hb => (hmark l).mpr ⟨hne hb, hl hb⟩⟩
    · rw [unmark_lit, h.frame]
    · refine (h.entails hb hF).resolve (hl2 hb).1 (l := ~~~l2) (fun m hm => ?_) fun m hm => ?_
      · obtain ⟨hmem, hm⟩ := mem_filter.mp hm
        by_cases hml : m = ~~~l2
        · exact .inl hml
        · exact .inr (mem_filter.mpr ⟨hmem, (hmark m).mpr ⟨hml, hm⟩⟩)
      · simp only [mem_cons, not_mem_nil, or_false] at hm
        rcases hm with rfl | rfl
        · exact .inr (mem_filter.mpr ⟨h.sub m (hl hb), (hmark m).mpr ⟨hne hb, hl hb⟩⟩)
        · simp
  · rw [if_neg hc]
    exact ⟨h, hl⟩

/-- All binary clauses of one literal of the lemma. The literal stays marked while they are gone through, since none
of them is `l \/ ~l`. -/
theorem SubResInv.lit {l : literal} (h : SubResInv s0 s F l0 lits) :
    SubResInv s0 (s.dyn_sub_res_lit l0 l) F l0 lits := by
  unfold dyn_sub_res_lit
  have hwatches : s.m_watches = s0.m_watches := by rw [h.frame]
  have hcached : s.m_cached_bins = s0.m_cached_bins := by rw [h.frame]
  split
  · rename_i hl
    rw [hwatches, hcached]
    have hpairs : ∀ l2 ∈ leading_binaries (s0.m_watches (~~~l)) ++ (s0.m_cached_bins (~~~l)).getD [],
        s0.BinariesOk F → Entails F [l, l2] ∧ l2 ≠ ~~~l := fun l2 hl2 hb => hb l l2 hl2
    generalize leading_binaries (s0.m_watches (~~~l)) ++ (s0.m_cached_bins (~~~l)).getD [] = pairs at hpairs
    suffices hfold : ∀ s, SubResInv s0 s F l0 lits → (s0.BinariesOk F → s.m_lit_mark l) →
        SubResInv s0 (pairs.foldl (fun s l2 => s.dyn_sub_res_step l0 l2) s) F l0 lits from
      hfold s h fun _ => hl
    induction pairs with
    | nil => exact fun s h _ => h
    | cons l2 pairs ih =>
      obtain ⟨hl2, hpairs⟩ := forall_mem_cons.mp hpairs
      intro s h hl
      obtain ⟨hnext, hmark⟩ := h.step hl hl2
      exact ih hpairs _ hnext hmark
  · exact h

theorem mark_lits_eq (s : solver) (lits : List literal) :
    lits.foldl (fun s l => s.mark_lit l) s = { s with m_lit_mark := fun l => s.m_lit_mark l || decide (l ∈ lits) } := by
  induction lits generalizing s with
  | nil => simp
  | cons m lits ih =>
    rw [foldl_cons, ih]
    have hmark : (fun l => (s.mark_lit m).m_lit_mark l || decide (l ∈ lits)) =
        fun l => s.m_lit_mark l || decide (l ∈ m :: lits) := by
      funext l
      by_cases hl : l = m <;> simp [mark_lit, hl]
    rw [hmark]
    rfl

/-- The loop that collects the lemma keeps the marked literals in their order and clears all their marks. -/
theorem dyn_sub_res_collect_eq (s : solver) (kept rest : List literal) (hnodup : rest.Nodup) :
    s.dyn_sub_res_collect kept rest = ({ s with m_lit_mark := fun l => s.m_lit_mark l && decide (l ∉ rest) },
        kept ++ rest.filter s.m_lit_mark) := by
  induction rest generalizing s kept with
  | nil => simp [dyn_sub_res_collect]
  | cons m rest ih =>
    obtain ⟨hm, hnodup⟩ := nodup_cons.mp hnodup
    unfold dyn_sub_res_collect
    rw [is_marked_lit]
    cases hmark : s.m_lit_mark m with
    | true =>
      have hfun : (fun l => (s.unmark_lit m).m_lit_mark l && decide (l ∉ rest)) =
          fun l => s.m_lit_mark l && decide (l ∉ m :: rest) := by
        funext l
        by_cases hl : l = m <;> simp [unmark_lit, hl]
      have hfilter : rest.filter (s.unmark_lit m).m_lit_mark = rest.filter s.m_lit_mark := by
        refine filter_congr fun l hl => ?_
        have hlm : l ≠ m := fun h => hm (h ▸ hl)
        simp [unmark_lit, hlm]
      rw [ih _ _ hnodup, hfun, hfilter, filter_cons_of_pos hmark]
      simp [unmark_lit]
    | false =>
      have hfun : (fun l => s.m_lit_mark l && decide (l ∉ rest)) =
          fun l => s.m_lit_mark l && decide (l ∉ m :: rest) := by
        funext l
        by_cases hl : l = m <;> simp [hl, hmark]
      rw [if_neg (by simp), ih _ _ hnodup, hfun, filter_cons_of_neg (by simp [hmark])]

/-- Subsumption resolution keeps the first literal and an entailed part of the rest, and leaves no
literal marked. -/
theorem dyn_sub_res_spec (hlemma : s.m_lemma = l0 :: kept) (hnodup : (l0 :: kept).Nodup)
    (hmark : ∀ l, s.m_lit_mark l = false) :
    ∃ kept', s.dyn_sub_res = { s with m_lemma := l0 :: kept' } ∧ kept'.Sublist kept ∧
      (s.BinariesOk F → Entails F (l0 :: kept) → Entails F (l0 :: kept')) := by
  obtain ⟨lits, hlits⟩ : ∃ lits, lits = l0 :: kept := ⟨_, rfl⟩
  rw [← hlits] at hnodup
  have hstart : SubResInv s (lits.foldl (fun s l => s.mark_lit l) s) F l0 lits := by
    rw [mark_lits_eq]
    refine ⟨rfl, by simp [hmark], by simp [hlits], fun _ hF => ?_⟩
    rwa [filter_eq_self.mpr (by simp [hmark])]
  have hfold : ∀ (ls : List literal) s1, SubResInv s s1 F l0 lits →
      SubResInv s (ls.foldl (fun s l => s.dyn_sub_res_lit l0 l) s1) F l0 lits := by
    intro ls
    induction ls with
    | nil => exact fun _ h => h
    | cons l ls ih => exact fun s1 h => ih _ h.lit
  have hend := hfold lits _ hstart
  have hrun : s.dyn_sub_res = let r := (lits.foldl (fun s l => s.dyn_sub_res_lit l0 l)
        (lits.foldl (fun s l => s.mark_lit l) s)).dyn_sub_res_collect [] lits
      { r.1 with m_lemma := r.2 } := by
    unfold dyn_sub_res
    rw [hlemma, hlits]
  generalize lits.foldl (fun s l => s.dyn_sub_res_lit l0 l) (lits.foldl (fun s l => s.mark_lit l) s) = s2 at hend hrun
  refine ⟨kept.filter s2.m_lit_mark, ?_, filter_sublist, fun hb hF => ?_⟩
  · have hfilter : lits.filter s2.m_lit_mark = l0 :: kept.filter s2.m_lit_mark := by
      rw [hlits, filter_cons_of_pos hend.first]
    have hclear : (fun l => s2.m_lit_mark l && decide (l ∉ lits)) = s.m_lit_mark := by
      funext l
      cases hl : s2.m_lit_mark l with
      | false => simp [hmark]
      | true => simp [hmark, hend.sub l hl]
    rw [hrun, dyn_sub_res_collect_eq _ _ _ hnodup, hclear, hfilter, nil_append, hend.frame]
  · have h := hend.entails hb (hlits ▸ hF)
    rwa [hlits, filter_cons_of_pos hend.first] at h

end sat.solver
