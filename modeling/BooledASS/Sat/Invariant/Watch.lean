import BooledASS.Sat.Invariant.Trail

open Cnf List sat.justification

namespace sat.solver

variable (s : solver) (F : Set (List literal)) (G : Prop) (W : literal → List watched)

/-- The clause is in the database. -/
def Live (off : clause_offset) : Prop := off ∈ s.m_clauses ∨ off ∈ s.m_learned

structure ClauseOk (c : clause) : Prop where
  two_lt : 2 < c.m_lits.length
  nodup : (c.m_lits.map Lit.var).Nodup
  bounded : ∀ x ∈ c.m_lits, x.var < s.m_num_vars
  removed : c.m_removed = false
  entails : Entails F c.m_lits

/-- The clauses with their watch lists `W`. Every long clause is watched by its first two literals and
every binary clause by both of its literals. -/
structure DbInv : Prop where
  live_lt : ∀ off, s.Live off → off < s.m_next_off
  clause_ok : ∀ off, s.Live off → s.ClauseOk F (s.m_cls off)
  bin_ok : ∀ m l2 b, .BINARY l2 b ∈ W m → l2.var ≠ m.var ∧ l2.var < s.m_num_vars ∧ Entails F [~~~m, l2]
  bin_sym : ∀ m l2 b, .BINARY l2 b ∈ W m → .BINARY (~~~m) b ∈ W (~~~l2)
  watch_ok : ∀ m x off, .CLAUSE x off ∈ W m → s.Live off ∧ x ∈ (s.m_cls off).m_lits
  watched : ∀ off, s.Live off → ∀ w ∈ (s.m_cls off).m_lits.take 2, ∃ x, .CLAUSE x off ∈ W (~~~w)
  reason_bin : ∀ l ∈ s.m_trail, ∀ l2, (s.m_justification l.var).get_kind = .BINARY l2 → ∃ b, .BINARY l b ∈ W (~~~l2)
  reason_cls : ∀ l ∈ s.m_trail, ∀ off, (s.m_justification l.var).get_kind = .CLAUSE off → s.Live off

/-- The prefixes of the trail whose literals have been propagated, with the level that was current
then: the part before each scope, and the part before the queue head. After a conflict the queue has
not been worked off, so that only the scopes count. -/
def Bound (n k : Nat) : Prop :=
  (∃ sc, s.m_scopes[k]? = some sc ∧ sc.m_trail_lim = n) ∨ (s.m_inconsistent = false ∧ n = s.m_qhead ∧ k = s.scope_lvl)

/-- A clause of which a watch is false before position `n` has a true literal of level at most `k`,
unless its watch is still to be visited. -/
structure GuardAt (todo : literal → List watched) (n k : Nat) : Prop where
  bin : ∀ m l2 b, .BINARY l2 b ∈ W m → m ∈ s.m_trail.take n →
    .BINARY l2 b ∈ todo m ∨ (l2 ∈ s.m_trail ∧ s.lvl l2.var ≤ k)
  cls : ∀ off, s.Live off → ∀ w ∈ (s.m_cls off).m_lits.take 2, ~~~w ∈ s.m_trail.take n →
    (∃ x, .CLAUSE x off ∈ todo (~~~w)) ∨ ∃ t ∈ (s.m_cls off).m_lits, t ∈ s.m_trail ∧ s.lvl t.var ≤ k

/-- The invariant of the search while the watches `todo` are still to be visited. Only a search of which
`G` holds is held to keep track of its unit clauses. -/
structure VisitInv (todo : literal → List watched) : Prop where
  trail : s.TrailInv F G
  db : s.DbInv F W
  guard : G → ∀ n k, s.Bound n k → s.GuardAt W todo n k

/-- `l` may be assigned with the justification `j`: it is a decision, or forced by a clause. -/
structure Assignable (l : literal) (j : justification) : Prop where
  bounded : l.var < s.m_num_vars
  level : j.level ≤ s.scope_lvl
  supports : s.Supports F G s.m_trail l j
  unit : j.level = 0 → Entails F [l]
  bin : ∀ l2, j.get_kind = .BINARY l2 → ∃ b, .BINARY l b ∈ W (~~~l2)
  cls : ∀ off, j.get_kind = .CLAUSE off → s.Live off

variable {s F G W} {todo : literal → List watched} {l : literal} {j : justification}
  {k n : Nat} {off : clause_offset} {s' : solver}

theorem TrailInv.bound_le (h : s.TrailInv F G) (hb : s.Bound n k) :
    n ≤ s.m_qhead ∧ k ≤ s.scope_lvl ∧ ∀ m ∈ s.m_trail.take n, s.lvl m.var ≤ k := by
  rcases hb with ⟨sc, hsc, rfl⟩ | ⟨_, rfl, rfl⟩
  · exact ⟨h.lim_le sc (mem_of_getElem? hsc), (List.getElem?_eq_some_iff.mp hsc).1.le, h.level_lim k sc hsc⟩
  · exact ⟨le_rfl, le_rfl, fun m hm => h.level_le m (mem_of_mem_take hm)⟩

theorem take_assign_core (h : s.TrailInv F G) (hb : s.Bound n k) :
    (s.assign_core l j).m_trail.take n = s.m_trail.take n :=
  take_append_of_le_length ((h.bound_le hb).1.trans h.qhead_le)

/-- Assigning a literal disturbs neither the clauses nor what has been propagated. -/
theorem VisitInv.assign_core (h : s.VisitInv F G W todo) (ha : s.Assignable F G W l j)
    (hundef : s.value l = .l_undef) : (s.assign_core l j).VisitInv F G W todo := by
  have hfresh := h.trail.toTrailOk.var_fresh hundef
  have hjust : ∀ m ∈ s.m_trail, (s.assign_core l j).m_justification m.var = s.m_justification m.var :=
    fun m hm => justification_assign_core_of_ne (hfresh m hm)
  have hself : ∀ k, ((s.assign_core l j).m_justification l.var).get_kind = k → k ≠ .NONE → j.get_kind = k := by
    intro k hk hne
    by_cases hzero : j.level = 0
    · simp [solver.assign_core, hzero] at hk
      exact absurd hk.symm hne
    · simpa [solver.assign_core, hzero] using hk
  refine ⟨h.trail.assign_core hundef ha.bounded ha.level ha.supports ha.unit, ?_, fun hG n k hb => ?_⟩
  · refine { h.db with clause_ok := fun off hoff => ?_, reason_bin := ?_, reason_cls := ?_ }
    · exact { h.db.clause_ok off hoff with }
    · exact Lists.forall_mem_concat (fun m hm l2 hk => h.db.reason_bin m hm l2 (hjust m hm ▸ hk))
        fun l2 hk => ha.bin l2 (hself _ hk (by simp))
    · exact Lists.forall_mem_concat (fun m hm off hk => h.db.reason_cls m hm off (hjust m hm ▸ hk))
        fun off hk => ha.cls off (hself _ hk (by simp))
  · have hb' : s.Bound n k := hb
    have hg := h.guard hG n k hb'
    have hkeep : ∀ t, t ∈ s.m_trail ∧ s.lvl t.var ≤ k →
        t ∈ (s.assign_core l j).m_trail ∧ (s.assign_core l j).lvl t.var ≤ k := fun t ht =>
      ⟨mem_append_left _ ht.1, (lvl_assign_core_of_mem h.trail.toTrailOk hundef (.inl ht.1)).symm ▸ ht.2⟩
    refine ⟨fun m l2 b hW hm => ?_, fun off hoff w hw hm => ?_⟩
    · rw [take_assign_core h.trail hb'] at hm
      exact (hg.bin m l2 b hW hm).imp_right (hkeep l2)
    · rw [take_assign_core h.trail hb'] at hm
      exact (hg.cls off hoff w hw hm).imp_right (.imp fun t => .imp_right (hkeep t))

/-- A clause with all other literals false at level 0 forces its literal at level 0. -/
theorem TrailInv.entails_unit (h : s.TrailInv F G) {x : literal} {others : List literal}
    (hfalse : ∀ m ∈ others, ~~~m ∈ s.m_trail) (hF : Entails F (x :: others))
    (hzero : ∀ m ∈ others, s.lvl m.var = 0) : Entails F [x] := by
  refine hF.of_entailsFrom fun m hm => ?_
  rcases mem_cons.mp hm with rfl | hm
  · simp
  · exact .inr fun a ha _ => (h.unit _ (hfalse m hm) (hzero m hm)).holds_of_unit ha

/-- A clause whose other literals are false forces its literal, at their greatest level. -/
theorem VisitInv.assignable_clause {x : literal} {others : List literal} (h : s.VisitInv F G W todo)
    (hoff : s.Live off) (hw : Watches x (s.m_cls off).m_lits others) (hfalse : ∀ m ∈ others, s.value m = .l_false)
    (hmax : s.LevelMax others k) : s.Assignable F G W x (.clause k off) := by
  have hmem : ∀ m ∈ others, ~~~m ∈ s.m_trail := fun m hm =>
    h.trail.toTrailOk.value_false.mp (hfalse m hm)
  have hok := h.db.clause_ok off hoff
  have hF : Entails F (x :: others) := hok.entails.weaken fun m hm => by simpa using (hw.mem_iff m).mp hm
  refine ⟨hok.bounded x ((hw.mem_iff x).mpr (.inl rfl)), ?_,
    .inr ⟨others, .clause off others hw, hmem, hF, hmax.bound⟩, fun hzero => ?_, ?_, ?_⟩
  · obtain ⟨m, hm, hmk⟩ := hmax.attained
    have hle := h.trail.level_le _ (hmem m hm)
    rwa [Lit.compl_var, hmk] at hle
  · exact h.trail.entails_unit hmem hF fun m hm => Nat.le_zero.mp (hzero ▸ hmax.le m hm)
  · simp [justification.clause]
  · intro off' heq
    obtain rfl : off = off' := by simpa [justification.clause] using heq
    exact hoff

/-- A binary clause forces one of its literals when the other one is false. -/
theorem VisitInv.assignable_bin {l1 l2 : literal} {b : Bool} (h : s.VisitInv F G W todo) (hw : .BINARY l2 b ∈ W (~~~l1))
    (hfalse : s.value l2 = .l_false) : s.Assignable F G W l1 (.binary (s.lvl l2.var) l2) := by
  have hl2 : ~~~l2 ∈ s.m_trail := h.trail.toTrailOk.value_false.mp hfalse
  have hF : Entails F [l1, l2] := by simpa using (h.db.bin_ok _ _ _ hw).2.2
  have hsym : .BINARY l1 b ∈ W (~~~l2) := by simpa using h.db.bin_sym _ _ _ hw
  refine ⟨(h.db.bin_ok _ _ _ hsym).2.1, h.trail.level_le (~~~l2) hl2,
    .inr ⟨[l2], .binary l2, by simpa using hl2, hF, LevelMax.bound ⟨by simp [binary],
      l2, by simp, rfl⟩⟩, fun hzero => ?_, fun m hm => ?_, by simp [binary]⟩
  · exact h.trail.entails_unit (by simpa using hl2) hF (by simpa [binary] using hzero)
  · obtain rfl : l2 = m := by simpa [binary] using hm
    exact ⟨b, hsym⟩

/-- The states agree on the assignment, the scopes and the clauses. -/
structure SameCore (s s' : solver) : Prop where
  num_vars : s'.m_num_vars = s.m_num_vars
  assignment : s'.m_assignment = s.m_assignment
  just : s'.m_justification = s.m_justification
  trail : s'.m_trail = s.m_trail
  qhead : s'.m_qhead = s.m_qhead
  scopes : s'.m_scopes = s.m_scopes
  cls : s'.m_cls = s.m_cls
  next_off : s'.m_next_off = s.m_next_off
  clauses : s'.m_clauses = s.m_clauses
  learned : s'.m_learned = s.m_learned

section

variable (hs : SameCore s s')
include hs

theorem SameCore.lvl (v : bool_var) : s'.lvl v = s.lvl v := by rw [solver.lvl, hs.just, solver.lvl]

theorem SameCore.live : s'.Live off ↔ s.Live off := by
  rw [Live, Live, hs.clauses, hs.learned]

/-- The invariant of the trail reads only the assignment, the scopes and the clauses. -/
theorem SameCore.trailInv (h : s.TrailInv F G) : s'.TrailInv F G where
  nodup := hs.trail ▸ h.nodup
  value_true m := by rw [hs.trail, ← h.value_true, value, hs.assignment, value]
  bounded := by
    rw [hs.trail, hs.num_vars]
    exact h.bounded
  lim_le := by
    rw [hs.scopes, hs.qhead]
    exact h.lim_le
  lim_sorted := hs.scopes ▸ h.lim_sorted
  qhead_le := by
    rw [hs.qhead, hs.trail]
    exact h.qhead_le
  level_le := by
    rw [hs.trail, scope_lvl, hs.scopes]
    exact fun m hm => hs.lvl m.var ▸ h.level_le m hm
  level_lim := by
    rw [hs.trail, hs.scopes]
    exact fun k sc hsc m hm => hs.lvl m.var ▸ h.level_lim k sc hsc m hm
  unit := by
    rw [hs.trail]
    exact fun m hm hzero => h.unit m hm (hs.lvl m.var ▸ hzero)
  reasons pre m post htrail := by
    rw [hs.just]
    exact (h.reasons pre m post (hs.trail ▸ htrail)).congr hs.cls hs.just

/-- The clauses keep their invariant for the same watch lists, which are given apart from the state. -/
theorem SameCore.dbInv (h : s.DbInv F W) : s'.DbInv F W where
  live_lt off hoff := hs.next_off ▸ h.live_lt off (hs.live.mp hoff)
  clause_ok off hoff := by
    obtain ⟨h1, h2, h3, h4, h5⟩ := h.clause_ok off (hs.live.mp hoff)
    rw [hs.cls]
    exact ⟨h1, h2, hs.num_vars ▸ h3, h4, h5⟩
  bin_ok := hs.num_vars ▸ h.bin_ok
  bin_sym := h.bin_sym
  watch_ok m x off hx := by
    rw [hs.cls, hs.live]
    exact h.watch_ok m x off hx
  watched off hoff := hs.cls ▸ h.watched off (hs.live.mp hoff)
  reason_bin := by
    rw [hs.trail, hs.just]
    exact h.reason_bin
  reason_cls m hm off hk := by
    rw [hs.live]
    exact h.reason_cls m (hs.trail ▸ hm) off (hs.just ▸ hk)

theorem SameCore.guardAt (h : s.GuardAt W todo n k) : s'.GuardAt W todo n k where
  bin m l2 b hm htake := by
    rw [hs.trail, hs.lvl]
    exact h.bin m l2 b hm (hs.trail ▸ htake)
  cls off hoff w hw htake := by
    rw [hs.cls] at hw ⊢
    rw [hs.trail] at htake ⊢
    refine (h.cls off (hs.live.mp hoff) w hw htake).imp_right ?_
    rintro ⟨t, ht, htrail, hle⟩
    exact ⟨t, ht, htrail, hs.lvl t.var ▸ hle⟩

end

/-- The invariant does not depend on the rest of the state. -/
theorem VisitInv.congr (h : s.VisitInv F G W todo) (hs : SameCore s s')
    (hcons : s'.m_inconsistent = false → s.m_inconsistent = false) : s'.VisitInv F G W todo where
  trail := hs.trailInv h.trail
  db := hs.dbInv h.db
  guard hG n k hb := by
    refine hs.guardAt (h.guard hG n k ?_)
    rcases hb with ⟨sc, hsc, hlim⟩ | ⟨hfalse, hn, hk⟩
    · exact .inl ⟨sc, hs.scopes ▸ hsc, hlim⟩
    · exact .inr ⟨hcons hfalse, hn.trans hs.qhead, hk.trans (by rw [scope_lvl, hs.scopes, scope_lvl])⟩

/-- Changing the order of the literals of one clause and the watches that refer to it. -/
theorem VisitInv.update_clause (h : s.VisitInv F G W todo) {c : clause}
    {W' todo' : literal → List watched} (hoff : s.Live off) (hperm : c.m_lits.Perm (s.m_cls off).m_lits)
    (hremoved : c.m_removed = false) (htrail : ∀ m ∈ s.m_trail, ∀ others, Watches m (s.m_cls off).m_lits others →
      ∃ others', Watches m c.m_lits others' ∧ ∀ x, x ∈ others' ↔ x ∈ others)
    (hbin : ∀ m l2 b, .BINARY l2 b ∈ W' m ↔ .BINARY l2 b ∈ W m)
    (hbin_todo : ∀ m l2 b, .BINARY l2 b ∈ todo m → .BINARY l2 b ∈ todo' m)
    (hcls : ∀ m x off', .CLAUSE x off' ∈ W' m → .CLAUSE x off' ∈ W m ∨ off' = off ∧ x ∈ c.m_lits)
    (hother : ∀ off', off' ≠ off → ∀ m x, .CLAUSE x off' ∈ W m → .CLAUSE x off' ∈ W' m)
    (hother_todo : ∀ off', off' ≠ off → ∀ m x, .CLAUSE x off' ∈ todo m → .CLAUSE x off' ∈ todo' m)
    (hwatched : ∀ w ∈ c.m_lits.take 2, ∃ x, .CLAUSE x off ∈ W' (~~~w))
    (hguard : G → ∀ n k, s.Bound n k → ∀ w ∈ c.m_lits.take 2, ~~~w ∈ s.m_trail.take n →
      (∃ x, .CLAUSE x off ∈ todo' (~~~w)) ∨ ∃ t ∈ c.m_lits, t ∈ s.m_trail ∧ s.lvl t.var ≤ k) :
    (s.set_cls off c).VisitInv F G W' todo' := by
  have hself : (s.set_cls off c).m_cls off = c := by simp [set_cls]
  have hne : ∀ off', off' ≠ off → (s.set_cls off c).m_cls off' = s.m_cls off' := fun off' hoff' => by
    simp [set_cls, Function.update_of_ne hoff']
  refine ⟨h.trail.set_cls htrail, ?_, fun hG n k hb => ⟨fun m l2 b hW hm => ?_, fun off' hoff' w hw hm => ?_⟩⟩
  · refine ⟨h.db.live_lt, fun off' hoff' => ?_, fun m l2 b hm => h.db.bin_ok m l2 b ((hbin m l2 b).mp hm),
      fun m l2 b hm => (hbin _ _ _).mpr (h.db.bin_sym m l2 b ((hbin m l2 b).mp hm)),
      fun m x off' hm => ?_, fun off' hoff' w hw => ?_, fun m hm l2 hk => ?_, h.db.reason_cls⟩
    · by_cases heq : off' = off
      · subst heq
        rw [hself]
        obtain ⟨h1, h2, h3, -, h5⟩ := h.db.clause_ok off' hoff'
        exact ⟨hperm.length_eq ▸ h1, ((hperm.map _).nodup_iff).mpr h2,
          fun x hx => h3 x (hperm.mem_iff.mp hx), hremoved, h5.weaken fun x hx => hperm.mem_iff.mpr hx⟩
      · rw [hne off' heq]
        exact { h.db.clause_ok off' hoff' with }
    · by_cases heq : off' = off
      · subst heq
        rw [hself]
        refine ⟨hoff, ?_⟩
        rcases hcls m x off' hm with hm | ⟨_, hx⟩
        · exact hperm.mem_iff.mpr (h.db.watch_ok m x off' hm).2
        · exact hx
      · rw [hne off' heq]
        exact h.db.watch_ok m x off' ((hcls m x off' hm).resolve_right fun hx => heq hx.1)
    · by_cases heq : off' = off
      · subst heq
        rw [hself] at hw
        exact hwatched w hw
      · rw [hne off' heq] at hw
        obtain ⟨x, hx⟩ := h.db.watched off' hoff' w hw
        exact ⟨x, hother off' heq _ x hx⟩
    · obtain ⟨b, hb⟩ := h.db.reason_bin m hm l2 hk
      exact ⟨b, (hbin _ _ _).mpr hb⟩
  · exact ((h.guard hG n k hb).bin m l2 b ((hbin m l2 b).mp hW) hm).imp_left (hbin_todo m l2 b)
  · by_cases heq : off' = off
    · subst heq
      rw [hself] at hw ⊢
      exact hguard hG n k hb w hw hm
    · rw [hne off' heq] at hw ⊢
      exact ((h.guard hG n k hb).cls off' hoff' w hw hm).imp_left (.imp (hother_todo off' heq _))

end sat.solver
