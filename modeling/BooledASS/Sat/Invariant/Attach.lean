import BooledASS.Sat.Invariant.Backtrack

open Cnf List

namespace sat.solver

/-- `W'` is `W` with the two watches of a binary clause. -/
def WithBin (W W' : literal → List watched) (l1 l2 : literal) (b : Bool) : Prop :=
  ∀ m w, w ∈ W' m ↔ w ∈ W m ∨ m = ~~~l1 ∧ w = .BINARY l2 b ∨ m = ~~~l2 ∧ w = .BINARY l1 b

/-- `W'` is `W` with the two watches of a longer clause. -/
def WithCls (W W' : literal → List watched) (w0 w1 x : literal) (off : clause_offset) : Prop :=
  ∀ m w, w ∈ W' m ↔ w ∈ W m ∨ (m = ~~~w0 ∨ m = ~~~w1) ∧ w = .CLAUSE x off

/-- The clause database with one more clause. -/
def with_clause (s : solver) (c : clause) : solver :=
  { s with
    m_cls := Function.update s.m_cls s.m_next_off c
    m_next_off := s.m_next_off + 1
    m_clauses := if c.m_learned then s.m_clauses else s.m_clauses ++ [s.m_next_off]
    m_learned := if c.m_learned then s.m_learned ++ [s.m_next_off] else s.m_learned }

variable {s : solver} {F : Set (List literal)} {G : Prop} {W W' todo : literal → List watched}
  {l0 l1 l2 : literal} {b : Bool} {c : clause} {m : literal}

theorem mem_push_watch {m' : literal} {w w' : watched} :
    w' ∈ (s.push_watch m w).m_watches m' ↔ w' ∈ s.m_watches m' ∨ m' = m ∧ w' = w := by
  by_cases hm : m' = m
  · subst hm
    simp [push_watch]
  · simp [push_watch, hm]

theorem watch_bin_clause_withBin :
    WithBin s.m_watches (s.watch_bin_clause l1 l2 b).m_watches l1 l2 b := fun m w => by
  rw [watch_bin_clause, mem_push_watch, mem_push_watch, or_assoc]

theorem watch_nary_clause_withCls (off : clause_offset) :
    WithCls s.m_watches (s.watch_nary_clause off).m_watches ((s.m_cls off).at 0) ((s.m_cls off).at 1)
      ((s.m_cls off).at ((s.m_cls off).size / 2)) off := fun m w => by
  rw [watch_nary_clause, mem_push_watch, mem_push_watch, or_assoc, or_and_right]

/-- A new binary clause; its watches are still to be visited. -/
theorem VisitInv.add_binary (h : s.VisitInv F G W fun _ => []) (hW : WithBin W W' l1 l2 b)
    (hvar : l1.var ≠ l2.var) (hl1 : l1.var < s.m_num_vars) (hl2 : l2.var < s.m_num_vars)
    (hF : Entails F [l1, l2]) :
    s.VisitInv F G W' fun m =>
      (if m = ~~~l1 then [.BINARY l2 b] else []) ++ if m = ~~~l2 then [.BINARY l1 b] else [] where
  trail := h.trail
  db :=
    { h.db with
      bin_ok := fun m l' b' hm => by
        rcases (hW _ _).mp hm with hm | ⟨rfl, heq⟩ | ⟨rfl, heq⟩
        · exact h.db.bin_ok m l' b' hm
        · cases heq
          exact ⟨hvar.symm, hl2, by simpa using hF⟩
        · cases heq
          exact ⟨hvar, hl1, hF.weaken fun x hx => by simpa [or_comm] using hx⟩
      bin_sym := fun m l' b' hm => by
        rcases (hW _ _).mp hm with hm | ⟨rfl, heq⟩ | ⟨rfl, heq⟩
        · exact (hW _ _).mpr (.inl (h.db.bin_sym m l' b' hm))
        · cases heq
          exact (hW _ _).mpr (.inr (.inr ⟨rfl, by simp⟩))
        · cases heq
          exact (hW _ _).mpr (.inr (.inl ⟨rfl, by simp⟩))
      watch_ok := fun m x off hm => h.db.watch_ok m x off (by simpa [hW m] using hm)
      watched := fun off hoff w hw => by
        obtain ⟨x, hx⟩ := h.db.watched off hoff w hw
        exact ⟨x, (hW _ _).mpr (.inl hx)⟩
      reason_bin := fun m hm l' hk => by
        obtain ⟨b', hb'⟩ := h.db.reason_bin m hm l' hk
        exact ⟨b', (hW _ _).mpr (.inl hb')⟩ }
  guard hG n k hb :=
    { bin := fun m l' b' hm htake => by
        rcases (hW _ _).mp hm with hm | ⟨rfl, heq⟩ | ⟨rfl, heq⟩
        · exact .inr (((h.guard hG n k hb).bin m l' b' hm htake).resolve_left (by simp))
        · exact .inl (by simp [heq])
        · exact .inl (by simp [heq])
      cls := fun off hoff w hw htake =>
        .inr (((h.guard hG n k hb).cls off hoff w hw htake).resolve_left (by simp)) }

private theorem with_clause_live {off : clause_offset} :
    (s.with_clause c).Live off ↔ s.Live off ∨ off = s.m_next_off := by
  unfold Live with_clause
  cases c.m_learned
  · simp only [Bool.false_eq_true, if_false, mem_append, mem_singleton]
    tauto
  · simp only [if_true, mem_append, mem_singleton]
    tauto

private theorem with_clause_cls {off : clause_offset} (h : s.DbInv F W) (hoff : s.Live off) :
    (s.with_clause c).m_cls off = s.m_cls off :=
  Function.update_of_ne (h.live_lt off hoff).ne _ _

private theorem with_clause_reason (h : s.DbInv F W) (hm : m ∈ s.m_trail)
    {others : List literal} (hr : s.Reason m (s.m_justification m.var).get_kind others) :
    (s.with_clause c).Reason m (s.m_justification m.var).get_kind others := by
  generalize hk : (s.m_justification m.var).get_kind = k at hr
  cases hr with
  | binary => exact .binary _
  | clause off others hw =>
    exact .clause off others (by rwa [with_clause_cls h (h.reason_cls m hm off hk)])

/-- A new longer clause; its watches are still to be visited. -/
theorem VisitInv.add_clause {w0 w1 x : literal} {rest : List literal} (h : s.VisitInv F G W fun _ => [])
    (hW : WithCls W W' w0 w1 x s.m_next_off) (hlits : c.m_lits = w0 :: w1 :: rest) (hx : x ∈ c.m_lits)
    (hc : s.ClauseOk F c) :
    (s.with_clause c).VisitInv F G W' fun m =>
      if m = ~~~w0 ∨ m = ~~~w1 then [.CLAUSE x s.m_next_off] else [] where
  trail :=
    { h.trail with
      reasons := fun pre m post htrail => by
        have hm : m ∈ s.m_trail := by
          rw [show s.m_trail = _ from htrail]
          simp
        refine (h.trail.reasons pre m post htrail).imp_right ?_
        rintro ⟨others, hreason, hearlier, hF, hbound⟩
        exact ⟨others, with_clause_reason h.db hm hreason, hearlier, hF, hbound.le, hbound.attained⟩ }
  db :=
    { live_lt := fun off hoff => by
        rcases with_clause_live.mp hoff with hoff | rfl
        · exact Nat.lt_succ_of_lt (h.db.live_lt off hoff)
        · exact Nat.lt_succ_self _
      clause_ok := fun off hoff => by
        rcases with_clause_live.mp hoff with hoff | rfl
        · rw [with_clause_cls h.db hoff]
          exact { h.db.clause_ok off hoff with }
        · rw [show (s.with_clause c).m_cls s.m_next_off = c from Function.update_self ..]
          exact { hc with }
      bin_ok := fun m l' b' hm => h.db.bin_ok m l' b' (by simpa [hW m] using hm)
      bin_sym := fun m l' b' hm =>
        (hW _ _).mpr (.inl (h.db.bin_sym m l' b' (by simpa [hW m] using hm)))
      watch_ok := fun m y off hm => by
        rcases (hW _ _).mp hm with hm | ⟨-, heq⟩
        · obtain ⟨hoff, hy⟩ := h.db.watch_ok m y off hm
          exact ⟨with_clause_live.mpr (.inl hoff), by rwa [with_clause_cls h.db hoff]⟩
        · cases heq
          exact ⟨with_clause_live.mpr (.inr rfl), by simpa [with_clause] using hx⟩
      watched := fun off hoff w hw => by
        rcases with_clause_live.mp hoff with hoff | rfl
        · rw [with_clause_cls h.db hoff] at hw
          obtain ⟨y, hy⟩ := h.db.watched off hoff w hw
          exact ⟨y, (hW _ _).mpr (.inl hy)⟩
        · have hw' : w = w0 ∨ w = w1 := by simpa [with_clause, hlits] using hw
          exact ⟨x, (hW _ _).mpr (.inr ⟨by simpa using hw', rfl⟩)⟩
      reason_bin := fun m hm l' hk => by
        obtain ⟨b', hb'⟩ := h.db.reason_bin m hm l' hk
        exact ⟨b', (hW _ _).mpr (.inl hb')⟩
      reason_cls := fun m hm off hk => with_clause_live.mpr (.inl (h.db.reason_cls m hm off hk)) }
  guard hG n k hb :=
    { bin := fun m l' b' hm htake => .inr
        (((h.guard hG n k hb).bin m l' b' (by simpa [hW m] using hm) htake).resolve_left (by simp))
      cls := fun off hoff w hw htake => by
        rcases with_clause_live.mp hoff with hoff | rfl
        · rw [with_clause_cls h.db hoff] at hw ⊢
          exact .inr (((h.guard hG n k hb).cls off hoff w hw htake).resolve_left (by simp))
        · have hw' : w = w0 ∨ w = w1 := by simpa [with_clause, hlits] using hw
          exact .inl ⟨x, by simp [hw']⟩ }

/-- The conflict stays one: its clause is an older one. -/
theorem SearchInv.with_clause_conflict {todo' : literal → List watched} (h : s.SearchInv F G W todo)
    (hv : (s.with_clause c).VisitInv F G W' todo') : (s.with_clause c).SearchInv F G W' todo' := by
  refine ⟨hv, fun hinc => ?_⟩
  have hconf := h.conflict hinc
  have hante : (s.with_clause c).conflict_antecedents = s.conflict_antecedents := by
    unfold conflict_antecedents antecedents
    rw [show (s.with_clause c).m_not_l = s.m_not_l from rfl, show (s.with_clause c).m_conflict = s.m_conflict from rfl]
    split
    · rfl
    · rfl
    · rename_i off hoff
      rw [with_clause_cls h.visit.db (hconf.live off hoff)]
  refine ⟨?_, ?_, fun off not_l hoff hnl => ?_, hconf.level, fun off hoff => ?_⟩
  · rw [hante]
    exact hconf.mem
  · rw [hante]
    exact hconf.entails
  · rw [with_clause_cls h.visit.db (hconf.live off hoff)]
    exact hconf.shape off not_l hoff hnl
  · exact with_clause_live.mpr (.inl (hconf.live off hoff))

/-- Watches that are guarded need not be visited. -/
theorem VisitInv.discharge (h : s.VisitInv F G W todo)
    (hbin : G → ∀ n k, s.Bound n k → ∀ m l' b', .BINARY l' b' ∈ todo m → m ∈ s.m_trail.take n →
      l' ∈ s.m_trail ∧ s.lvl l'.var ≤ k)
    (hcls : G → ∀ n k, s.Bound n k → ∀ off, ∀ w ∈ (s.m_cls off).m_lits.take 2, ∀ x, .CLAUSE x off ∈ todo (~~~w) →
      ~~~w ∈ s.m_trail.take n → ∃ t ∈ (s.m_cls off).m_lits, t ∈ s.m_trail ∧ s.lvl t.var ≤ k) :
    s.VisitInv F G W fun _ => [] where
  trail := h.trail
  db := h.db
  guard hG n k hb :=
    { bin := fun m l' b' hm htake => .inr <| ((h.guard hG n k hb).bin m l' b' hm htake).elim
        (fun htodo => hbin hG n k hb m l' b' htodo htake) id
      cls := fun off hoff w hw htake => .inr <| ((h.guard hG n k hb).cls off hoff w hw htake).elim
        (fun ⟨x, htodo⟩ => hcls hG n k hb off w hw x htodo htake) id }

/-- The two watches `l0` and `m` of a new clause are guarded by the asserting literal `l0`. -/
def Settled (s : solver) (l0 m : literal) : Prop :=
  ∀ n k, s.Bound n k → ~~~l0 ∉ s.m_trail.take n ∧ (~~~m ∈ s.m_trail.take n → l0 ∈ s.m_trail ∧ s.lvl l0.var ≤ k)

theorem settled_undef (h : s.TrailInv F G) (h0 : s.value l0 = .l_undef)
    (hm : s.value m = .l_undef) : s.Settled l0 m := fun _ _ _ =>
  ⟨fun htake => (h.toTrailOk.undef_iff.mp h0).2 (mem_of_mem_take htake),
    fun htake => absurd (mem_of_mem_take htake) (h.toTrailOk.undef_iff.mp hm).2⟩

theorem settled_assign_core (h : s.TrailInv F G) {j : justification}
    (h0 : s.value l0 = .l_undef) (hj : j.level = s.lvl m.var) : (s.assign_core l0 j).Settled l0 m := by
  intro n k hb
  have hb' : s.Bound n k := hb
  rw [take_assign_core h hb']
  refine ⟨fun htake => (h.toTrailOk.undef_iff.mp h0).2 (mem_of_mem_take htake), fun htake => ?_⟩
  refine ⟨by simp, ?_⟩
  rw [lvl_assign_core_self, hj]
  exact (h.bound_le hb').2.2 (~~~m) htake

theorem settled_true (h : s.TrailInv F G) (h0 : l0 ∈ s.m_trail)
    (hle : s.lvl l0.var ≤ s.lvl m.var) : s.Settled l0 m := fun _ _ hb =>
  ⟨fun htake => h.toTrailOk.not_compl_mem h0 (mem_of_mem_take htake),
    fun htake => ⟨h0, hle.trans ((h.bound_le hb).2.2 (~~~m) htake)⟩⟩

/-- After a conflict only what lies before the scopes counts. -/
theorem settled_conflict (h : s.TrailInv F G) (hinc : s.m_inconsistent)
    (hlate : ∀ sc ∈ s.m_scopes, ~~~l0 ∉ s.m_trail.take sc.m_trail_lim)
    (htop : s.scope_lvl ≤ s.lvl m.var) : s.Settled l0 m := by
  intro n k hb
  rcases hb with ⟨sc, hsc, rfl⟩ | ⟨hcons, -⟩
  · refine ⟨hlate sc (mem_of_getElem? hsc), fun htake => ?_⟩
    have hlt : k < s.scope_lvl := (List.getElem?_eq_some_iff.mp hsc).1
    have hle := h.level_lim k sc hsc _ htake
    rw [Lit.compl_var] at hle
    omega
  · rw [hinc] at hcons
    cases hcons

end sat.solver
