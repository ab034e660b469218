import BooledASS.Sat.Invariant.Learn

open Cnf List Function

namespace sat.solver

variable {s : solver} {F : Set (List literal)} {G : Prop} {l0 : literal} {rest : List literal}

private theorem select_learned_fold (c : clause) (n : Nat) :
    ∃ i, (range' 1 (n + 1)).foldl (s.select_learned_step c) none = some i ∧
      1 ≤ i ∧ i ≤ n + 1 ∧ ∀ k, 1 ≤ k → k ≤ n + 1 → s.lvl (c.at k).var ≤ s.lvl (c.at i).var := by
  induction n with
  | zero =>
    refine ⟨1, rfl, le_rfl, le_rfl, fun k h1 h2 => ?_⟩
    obtain rfl : k = 1 := by omega
    exact le_rfl
  | succ n ih =>
    obtain ⟨i, heq, h1, h2, hmax⟩ := ih
    rw [range'_concat, foldl_append, heq, Nat.one_mul]
    simp only [foldl_cons, foldl_nil, select_learned_step]
    by_cases hlt : s.lvl (c.at (1 + (n + 1))).var > s.lvl (c.at i).var
    · refine ⟨1 + (n + 1), if_pos hlt, by omega, by omega, fun k hk1 hk2 => ?_⟩
      rcases Nat.lt_or_ge k (n + 2) with hk | hk
      · exact (hmax k hk1 (by omega)).trans hlt.le
      · rw [show k = 1 + (n + 1) by omega]
    · refine ⟨i, if_neg hlt, h1, by omega, fun k hk1 hk2 => ?_⟩
      rcases Nat.lt_or_ge k (n + 2) with hk | hk
      · exact hmax k hk1 (by omega)
      · rw [show k = 1 + (n + 1) by omega]
        exact not_lt.mp hlt

variable {c : clause} {r0 w0 w1 x : literal} {rs tail : List literal}

/-- The second watch of a lemma is a literal of greatest level after the first one. -/
theorem select_learned_watch_lit_spec (hlits : c.m_lits = l0 :: r0 :: rs) :
    ∃ m rest', (c.swap 1 (s.select_learned_watch_lit c)).m_lits = l0 :: m :: rest' ∧
      (m :: rest').Perm (r0 :: rs) ∧ ∀ y ∈ r0 :: rs, s.lvl y.var ≤ s.lvl m.var := by
  obtain ⟨i, heq, h1, h2, hmax⟩ := select_learned_fold (s := s) c rs.length
  have hsel : s.select_learned_watch_lit c = i := by
    unfold select_learned_watch_lit
    rw [show c.size - 1 = rs.length + 1 by simp [clause.size, hlits], heq]
    rfl
  have hat : ∀ k, c.at (k + 1) = (r0 :: rs).getD k ⟨0, false⟩ := fun k => by simp [clause.at, hlits]
  have hle : ∀ y ∈ r0 :: rs, s.lvl y.var ≤ s.lvl (c.at i).var := by
    intro y hy
    obtain ⟨k, hk, rfl⟩ := getElem_of_mem hy
    have hbound := hmax (k + 1) (by omega) (by simpa [Nat.lt_succ_iff] using hk)
    rwa [hat, getD_eq_getElem?_getD, getElem?_eq_getElem hk] at hbound
  rw [hsel]
  simp only [clause.swap, hlits]
  rcases i with _ | _ | j
  · omega
  · refine ⟨r0, rs, by simp [swapAt], List.Perm.refl _, ?_⟩
    simpa [clause.at, hlits] using hle
  · have hj : j < rs.length := by omega
    have hget : rs[j]? = some rs[j] := getElem?_eq_getElem hj
    have hswap := swapAt_one_succ l0 r0 _ rs j hget
    refine ⟨rs[j], rs.set j r0, hswap, ?_, ?_⟩
    · have hperm := swapAt_perm (l0 :: r0 :: rs) 1 (j + 2)
      rw [hswap] at hperm
      exact hperm.cons_inv
    · have hatj : c.at (j + 2) = rs[j] := by simp [clause.at, hlits, hget]
      rwa [hatj] at hle

theorem attach_level_spec {w : literal}
    (hlits : c.m_lits = w0 :: w1 :: tail) : s.LevelMax (w :: tail) (s.attach_level c w) := by
  have hdrop : s.attach_level c w = tail.foldl (fun k l => max k (s.lvl l.var)) (s.lvl w.var) := by
    simp [attach_level, hlits]
  obtain ⟨h1, h2, h3⟩ := Lists.foldl_max_spec (fun l : literal => s.lvl l.var) tail (s.lvl w.var)
  rw [hdrop]
  refine ⟨forall_mem_cons.mpr ⟨h1, h2⟩, ?_⟩
  rcases h3 with h3 | ⟨x, hx, h3⟩
  · exact ⟨w, by simp, h3.symm⟩
  · exact ⟨x, .tail _ hx, h3⟩

/-- Assigning does not look at the clause lists. -/
theorem assign_with (l : literal) (j : justification) (L C : List clause_offset) :
    { s with m_learned := L, m_clauses := C }.assign l j = { s.assign l j with m_learned := L, m_clauses := C } := by
  simp only [solver.assign, set_conflict, assign_core, update_assign]
  rw [show ({ s with m_learned := L, m_clauses := C } : solver).value l = s.value l from rfl,
    show ({ s with m_learned := L, m_clauses := C } : solver).lvl l.var = s.lvl l.var from rfl]
  split
  · split <;> rfl
  · rfl
  · split <;> rfl

/-- A clause that has just been attached needs no visit if its watches are settled. -/
theorem SearchInv.discharge_cls {W : literal → List watched} {off : clause_offset} (h : s.SearchInv F G W fun m =>
      if m = ~~~w0 ∨ m = ~~~w1 then [.CLAUSE x off] else []) (hc : s.m_cls off = c)
    (hlits : c.m_lits = w0 :: w1 :: tail) (hs : G → s.Settled w0 w1) : s.SearchInv F G W fun _ => [] := by
  refine ⟨h.visit.discharge (fun hG n k hb m l' b' htodo _ => ?_) fun hG n k hb off' w hw y htodo htake => ?_,
    h.conflict⟩
  · split at htodo <;> simp at htodo
  · split at htodo
    · rename_i heq
      obtain ⟨rfl, rfl⟩ : y = x ∧ off' = off := by simpa using htodo
      obtain ⟨h1, h2⟩ := hs hG n k hb
      rcases heq with heq | heq
      · exact absurd (heq ▸ htake) h1
      · exact ⟨w0, by simp [hc, hlits], h2 (heq ▸ htake)⟩
    · cases htodo

/-- The new clause with its watches. -/
theorem Inv.watch_nary_clause {s1 : solver} {W' : literal → List watched}
    {off : clause_offset} (h : s.Inv F G) (hframe : VisitFrame (s.with_clause c) s1)
    (hW' : WithCls s.m_watches W' w0 w1 x off) (hsearch : s1.SearchInv F G W' fun _ => []) :
    { s1 with m_watches := W' }.Inv F G := by
  have hother : ∀ s2 : solver, s2 = { s1 with m_watches := W' } → s2.m_clauses_to_reinit = s.m_clauses_to_reinit ∧
      s2.m_var_scope = s.m_var_scope ∧ s2.m_mark = s.m_mark ∧ s2.m_lit_mark = s.m_lit_mark ∧
      s2.m_unmark = s.m_unmark ∧ s2.m_cached_bins = s.m_cached_bins ∧ s2.m_assumptions = s.m_assumptions ∧
      s2.m_user_scope_literals = s.m_user_scope_literals ∧ s2.m_num_vars = s.m_num_vars := by
    rintro s2 rfl
    rw [hframe.frame]
    exact ⟨rfl, rfl, rfl, rfl, rfl, rfl, rfl, rfl, rfl⟩
  obtain ⟨e1, e2, e3, e4, e5, e6, e7, e8, e9⟩ := hother _ rfl
  refine ⟨⟨?_, fun cw hcw => ?_, ?_, ?_, ?_, ?_, ?_⟩, fun hinc => ?_⟩
  · exact hsearch.visit.congr ⟨rfl, rfl, rfl, rfl, rfl, rfl, rfl, rfl, rfl, rfl⟩ id
  · rw [e1] at hcw
    obtain ⟨l1', l2', b', rfl, hb'⟩ := h.reinit cw hcw
    exact ⟨l1', l2', b', rfl, (hW' _ _).mpr (.inl hb')⟩
  · rw [e2]
    exact h.var_scope
  · obtain ⟨h1, h2, h3⟩ := h.clear
    exact ⟨by rwa [e3], by rwa [e4], by rwa [e5]⟩
  · rw [e6]
    exact h.cached
  · rw [e7, e8, e9]
    exact h.assumptions
  · rw [e7, e8]
    exact h.free
  · exact { hsearch.conflict hinc with }

theorem Asserting.congr {s' : solver} (h : s.Asserting G l0 rest) (htrail : s'.m_trail = s.m_trail)
    (hscopes : s'.m_scopes = s.m_scopes) (hjust : s'.m_justification = s.m_justification)
    (hassign : s'.m_assignment = s.m_assignment) : s'.Asserting G l0 rest := by
  have hlvl : ∀ v, s'.lvl v = s.lvl v := fun v => by rw [lvl, hjust, lvl]
  refine ⟨htrail ▸ h.others, fun m hm => hlvl m.var ▸ h.level m hm, ?_, fun hG hne k hk => ?_⟩
  · rw [htrail, hscopes]
    exact h.late
  · rw [scope_lvl, hscopes]
    refine h.top hG ?_ k fun m hm => hlvl m.var ▸ hk m hm
    rwa [value, hassign] at hne

/-- A clause that is attached when all its literals but one are false: `x` is assigned, or the conflict
is found there. -/
private theorem Inv.attach_asserting {m blk : literal} {others : List literal} {k : Nat}
    {W' : literal → List watched} (h : s.Inv F G) (ha : s.Asserting G l0 rest) (hc : s.ClauseOk F c)
    (hlits : c.m_lits = l0 :: m :: tail) (hW' : WithCls s.m_watches W' l0 m blk s.m_next_off)
    (hblk : blk ∈ c.m_lits) (hmax : ∀ y ∈ rest, s.lvl y.var ≤ s.lvl m.var) (hw : Watches x c.m_lits others)
    (hfalse : ∀ y ∈ others, s.value y = .l_false) (hk : s.LevelMax others k) (hpos : 0 < k)
    (hx : s.value l0 ≠ .l_false ∧ x = l0 ∧ k = s.lvl m.var ∨ s.value l0 = .l_false ∧ s.value x = .l_false) :
    { (s.with_clause c).assign x (.clause k s.m_next_off) with m_watches := W' }.Inv F G := by
  set s1 := s.with_clause c with hs1
  have hcls : s1.m_cls s.m_next_off = c := update_self ..
  have hadd : s1.SearchInv F G W' fun y =>
      if y = ~~~l0 ∨ y = ~~~m then [.CLAUSE blk s.m_next_off] else [] :=
    h.toSearchInv.with_clause_conflict (h.visit.add_clause hW' hlits hblk hc)
  have hlive : s1.Live s.m_next_off := (hadd.visit.db.watch_ok (~~~l0) blk _ ((hW' _ _).mpr (.inr ⟨.inl rfl, rfl⟩))).1
  have hassignable := hadd.visit.assignable_clause hlive (hcls.symm ▸ hw) hfalse ⟨hk.le, hk.attained⟩
  have hassign := hadd.assign hassignable (by simp [justification.clause]) fun _ hzero => absurd hzero hpos.ne'
  have hclsa : (s1.assign x (.clause k s.m_next_off)).m_cls s.m_next_off = c := by rw [assign_cls, hcls]
  refine h.watch_nary_clause assign_frame hW' (hassign.discharge_cls hclsa hlits fun hG => ?_)
  have ha1 : s1.Asserting G l0 rest := ha.congr rfl rfl rfl rfl
  exact ha1.settled hG hadd.visit.trail hassign.visit.trail hmax hx hpos

/-- The state that `mk_nary_clause` leads to, from the literal that the new lemma is attached with. -/
private theorem mk_nary_clause_eq {lits : List literal} {c1 : clause} {k : Nat} {s2 : solver}
    (hbase : s.at_base_lvl = false) (hscope : ∀ v, s.m_var_scope v = 0) (hlearned : c1.m_learned)
    (hs2 : s2 = { s with m_cls := update s.m_cls s.m_next_off c1, m_next_off := s.m_next_off + 1 })
    (hsel : (s.alloc_clause lits true).1.attach_select s.m_next_off true = s2)
    (hprop : s2.attach_propagate s.m_next_off = (s2.assign x (.clause k s.m_next_off), false)) :
    s.mk_nary_clause lits true = { (s.with_clause c1).assign x (.clause k s.m_next_off) with
        m_watches := ((s2.assign x (.clause k s.m_next_off)).watch_nary_clause s.m_next_off).m_watches } := by
  have hbase' : (s.alloc_clause lits true).1.at_base_lvl = false := hbase
  have hframe : VisitFrame s2 (s2.assign x (.clause k s.m_next_off)) := assign_frame
  have hwith : s.with_clause c1 = { s2 with m_learned := s.m_learned ++ [s.m_next_off], m_clauses := s.m_clauses } := by
    simp [with_clause, hlearned, hs2]
  rw [hwith, assign_with]
  unfold mk_nary_clause attach_nary_clause
  simp only [hbase', show (s.alloc_clause lits true).2 = s.m_next_off from rfl, hsel, hprop, if_true,
    Bool.false_eq_true, if_false, Bool.false_or]
  generalize s2.assign x (.clause k s.m_next_off) = s3 at hframe
  have e1 : s3.m_learned = s.m_learned := by rw [show s3 = _ from hframe.frame, hs2]
  have e2 : s3.m_clauses = s.m_clauses := by rw [show s3 = _ from hframe.frame, hs2]
  have e3 : s3.m_var_scope = s.m_var_scope := by rw [show s3 = _ from hframe.frame, hs2]
  have hnot : (s3.watch_nary_clause s.m_next_off).has_variables_to_reinit lits = false := by
    have e4 : (s3.watch_nary_clause s.m_next_off).m_var_scope = s.m_var_scope := e3
    simp [has_variables_to_reinit, e4, hscope]
  rw [if_neg (by simp [hnot]), ← e1, ← e2]
  rfl

/-- The clause of a lemma with the watches that `attach_select` has put in front. -/
private structure Selected (s : solver) (F : Set (List literal)) (lits : List literal) (l0 m t0 : literal)
    (ts : List literal) (c : clause) : Prop where
  lits_eq : c.m_lits = l0 :: m :: t0 :: ts
  perm : c.m_lits.Perm lits
  learned : c.m_learned
  ok : s.ClauseOk F c
  select : (s.alloc_clause lits true).1.attach_select s.m_next_off true =
    { s with m_cls := update s.m_cls s.m_next_off c, m_next_off := s.m_next_off + 1 }
  max_level : ∀ y ∈ m :: t0 :: ts, s.lvl y.var ≤ s.lvl m.var

private theorem exists_selected {r1 : literal} (hok : s.LitsOk F (l0 :: r0 :: r1 :: rs)) :
    ∃ m t0 ts c, s.Selected F (l0 :: r0 :: r1 :: rs) l0 m t0 ts c ∧ (m :: t0 :: ts).Perm (r0 :: r1 :: rs) := by
  set lits := l0 :: r0 :: r1 :: rs with hlits
  set a := (s.alloc_clause lits true).1
  set c0 : clause := { m_lits := lits, m_learned := true } with hc0
  obtain ⟨m, tail, hclits, hperm, hmax⟩ := select_learned_watch_lit_spec (s := a) (c := c0) rfl
  have hperm1 : (c0.swap 1 (a.select_learned_watch_lit c0)).m_lits.Perm lits := swapAt_perm _ _ _
  cases tail with
  | nil => simpa using hperm.length_eq
  | cons t0 ts =>
    refine ⟨m, t0, ts, c0.swap 1 (a.select_learned_watch_lit c0), ⟨hclits, hperm1, rfl, ⟨?_, ?_, ?_, rfl, ?_⟩, ?_, ?_⟩,
      hperm⟩
    · simp [hperm1.length_eq, hlits]
    · exact ((hperm1.map _).nodup_iff).mpr hok.nodup
    · exact fun y hy => hok.bounded y (hperm1.mem_iff.mp hy)
    · exact hok.entails.weaken fun y hy => hperm1.mem_iff.mpr hy
    · simp only [attach_select, alloc_clause, set_cls, if_true, update_self, update_idem]
      rfl
    · exact fun y hy => hmax y (hperm.mem_iff.mp hy)

/-- A lemma of at least three literals. -/
theorem Inv.mk_nary_lemma (h : s.Inv F G) {r1 : literal} (hok : s.LitsOk F (l0 :: r0 :: r1 :: rs))
    (ha : s.Asserting G l0 (r0 :: r1 :: rs)) : (s.mk_nary_clause (l0 :: r0 :: r1 :: rs) true).Inv F G := by
  obtain ⟨m, t0, ts, c, hsel, hperm⟩ := exists_selected hok
  have hfalse : ∀ y ∈ m :: t0 :: ts, s.value y = .l_false := fun y hy =>
    h.visit.trail.toTrailOk.value_false.mpr (ha.others y (hperm.mem_iff.mp hy))
  have hpos : ∀ y ∈ m :: t0 :: ts, 0 < s.lvl y.var := fun y hy => ha.level y (hperm.mem_iff.mp hy)
  have hbase : s.at_base_lvl = false := by
    have hle := h.visit.trail.level_le _ (ha.others m (hperm.mem_iff.mp (by simp)))
    simpa [at_base_lvl] using ((hpos m (by simp)).trans_le hle).ne'
  set s2 : solver := { s with m_cls := update s.m_cls s.m_next_off c, m_next_off := s.m_next_off + 1 } with hs2
  have hcls2 : s2.m_cls s.m_next_off = c := update_self ..
  have hat0 : c.at 0 = l0 := by simp [clause.at, hsel.lits_eq]
  have hat1 : c.at 1 = m := by simp [clause.at, hsel.lits_eq]
  -- whichever watch is assigned, the clause and its watches are added in the same way
  have hfinish : ∀ x k, s2.attach_propagate s.m_next_off = (s2.assign x (.clause k s.m_next_off), false) →
      ∀ others, Watches x c.m_lits others → (∀ y ∈ others, s.value y = .l_false) → s.LevelMax others k →
      t0 ∈ others → (s.value l0 ≠ .l_false ∧ x = l0 ∧ k = s.lvl m.var ∨ s.value l0 = .l_false ∧ s.value x = .l_false) →
      (s.mk_nary_clause (l0 :: r0 :: r1 :: rs) true).Inv F G := by
    intro x k hprop others hw hothers hk ht0 hx
    rw [mk_nary_clause_eq hbase h.var_scope hsel.learned hs2 hsel.select hprop]
    have hW := watch_nary_clause_withCls (s := s2.assign x (.clause k s.m_next_off)) s.m_next_off
    rw [assign_watches, assign_cls, hcls2, hat0, hat1] at hW
    exact h.attach_asserting ha hsel.ok hsel.lits_eq hW (clause.block_mem (by simp [hsel.lits_eq]))
      (fun y hy => hsel.max_level y (hperm.mem_iff.mpr hy)) hw hothers hk
      ((hpos t0 (by simp)).trans_le (hk.le t0 ht0)) hx
  by_cases h0 : s.value l0 = .l_false
  · refine hfinish m (s2.attach_level c l0) ?_ (l0 :: t0 :: ts) (hsel.lits_eq ▸ .second _ _) ?_
      (attach_level_spec hsel.lits_eq) (by simp) (.inr ⟨h0, hfalse m (by simp)⟩)
    · unfold attach_propagate
      simp only [hcls2, hat0, hat1, show s2.value l0 = s.value l0 from rfl, h0, if_true, hsel.learned, Bool.not_true]
    · exact forall_mem_cons.mpr ⟨h0, fun y hy => hfalse y (mem_cons_of_mem _ hy)⟩
  · have hk : s.LevelMax (m :: t0 :: ts) (s2.attach_level c m) := attach_level_spec hsel.lits_eq
    have hkm : s2.attach_level c m = s.lvl m.var := by
      obtain ⟨y, hy, heq⟩ := hk.attained
      exact le_antisymm (heq ▸ hsel.max_level y hy) (hk.le m (by simp))
    refine hfinish l0 (s2.attach_level c m) ?_ (m :: t0 :: ts) (hsel.lits_eq ▸ .first _) hfalse hk (by simp)
      (.inl ⟨h0, rfl, hkm⟩)
    unfold attach_propagate
    simp only [hcls2, hat0, hat1, show s2.value l0 = s.value l0 from rfl, h0, if_false,
      show s2.value m = .l_false from hfalse m (by simp), if_true, hsel.learned, Bool.not_true]

/-- A lemma becomes part of the clauses after backtracking, and its first literal is assigned. -/
theorem Inv.learn (h : s.Inv F G) (hok : s.LitsOk F (l0 :: rest)) (ha : s.Asserting G l0 rest) :
    (s.mk_clause_core (l0 :: rest) true).Inv F G := by
  match rest, hok, ha with
  | [], hok, ha =>
    refine h.assign ⟨hok.bounded l0 (by simp), Nat.zero_le _, .inl rfl, fun _ => hok.entails,
      by simp [justification.none], by simp [justification.none]⟩ (fun _ _ => .inl rfl) fun htrue _ hne =>
      ⟨rfl, fun hG => hne ?_⟩
    have htop := ha.top hG (by simp [htrue]) 0 (by simp)
    exact Nat.le_zero.mp ((h.visit.trail.level_le l0 ((h.visit.trail.value_true l0).mp htrue)).trans htop)
  | [_], hok, ha => exact h.mk_bin_lemma hok ha
  | _ :: _ :: _, hok, ha => exact h.mk_nary_lemma hok ha

end sat.solver
