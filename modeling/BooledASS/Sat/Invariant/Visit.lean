import BooledASS.Sat.Invariant.Scan

open Cnf List Function

namespace sat.solver

/-- The state while the watch list of `l` is visited: `kept` has been written back and `todo` is still
to be visited. The literal, of level `cl`, comes after the limits of all scopes, from the queue. -/
structure Visiting (s : solver) (F : Set (List literal)) (G : Prop) (l : literal) (cl : Nat)
    (kept todo : List watched) : Prop where
  inv : s.VisitInv F G (update s.m_watches l (kept ++ todo)) (update (fun _ => []) l todo)
  consistent : s.m_inconsistent = false
  level : s.lvl l.var = cl
  mem : l ∈ s.m_trail.take s.m_qhead
  late : ∀ sc ∈ s.m_scopes, l ∉ s.m_trail.take sc.m_trail_lim

variable {s : solver} {F : Set (List literal)} {G : Prop} {l : literal} {cl : Nat} {kept todo : List watched}
  {m x b : literal} {off : clause_offset}

theorem mem_update_iff {V : literal → List watched} {ws : List watched} {w : watched} :
    w ∈ update V l ws m ↔ m = l ∧ w ∈ ws ∨ m ≠ l ∧ w ∈ V m := by
  by_cases hm : m = l <;> simp [hm]

theorem mem_update_mono {V : literal → List watched} {ws ws' : List watched} {w : watched} (h : w ∈ update V l ws m)
    (hws : w ∈ ws → w ∈ ws') : w ∈ update V l ws' m :=
  mem_update_iff.mpr ((mem_update_iff.mp h).imp_left (And.imp_right hws))

theorem Visiting.mem_trail (h : s.Visiting F G l cl kept todo) : l ∈ s.m_trail := mem_of_mem_take h.mem

/-- The literal under visit is not among the propagated ones of an earlier level. -/
theorem Visiting.bound_eq (h : s.Visiting F G l cl kept todo) {n k : Nat} (hb : s.Bound n k)
    (hl : l ∈ s.m_trail.take n) : k = s.scope_lvl := by
  rcases hb with ⟨sc, hsc, rfl⟩ | ⟨_, _, hk⟩
  · exact absurd hl (h.late sc (mem_of_getElem? hsc))
  · exact hk

theorem Visiting.assign_core (h : s.Visiting F G l cl kept todo) {j : justification}
    (ha : s.Assignable F G (update s.m_watches l (kept ++ todo)) x j)
    (hundef : s.value x = .l_undef) : (s.assign_core x j).Visiting F G l cl kept todo where
  inv := h.inv.assign_core ha hundef
  consistent := h.consistent
  level := (lvl_assign_core_of_mem h.inv.trail.toTrailOk hundef (.inl h.mem_trail)).trans h.level
  mem := by
    rw [assign_core_trail, show (s.assign_core x j).m_qhead = s.m_qhead from rfl,
      take_append_of_le_length h.inv.trail.qhead_le]
    exact h.mem
  late sc hsc := by
    rw [assign_core_trail, take_append_of_le_length (h.inv.trail.lim_le_length hsc)]
    exact h.late sc hsc

/-- A visited binary watch whose literal is true. -/
theorem Visiting.keep_binary {l2 : literal} {b : Bool} (h : s.Visiting F G l cl kept (.BINARY l2 b :: todo))
    (htrue : l2 ∈ s.m_trail) : s.Visiting F G l cl (kept ++ [.BINARY l2 b]) todo := { h with
  inv := by
    have hW : kept ++ [.BINARY l2 b] ++ todo = kept ++ .BINARY l2 b :: todo := by simp
    rw [hW]
    refine ⟨h.inv.trail, h.inv.db, fun hG n k hb => ⟨fun m m2 b' hm htake => ?_, fun off hoff w hw htake => ?_⟩⟩
    · rcases (h.inv.guard hG n k hb).bin m m2 b' hm htake with hin | hdone
      · by_cases heq : m2 = l2 ∧ m = l
        · obtain ⟨rfl, rfl⟩ := heq
          exact .inr ⟨htrue, h.bound_eq hb htake ▸ h.inv.trail.level_le _ htrue⟩
        · refine .inl ?_
          rcases mem_update_iff.mp hin with ⟨rfl, hlist⟩ | ⟨_, hlist⟩
          · simp_all
          · cases hlist
      · exact .inr hdone
    · refine ((h.inv.guard hG n k hb).cls off hoff w hw htake).imp_left ?_
      rintro ⟨x, hx⟩
      exact ⟨x, mem_update_mono hx (by simp)⟩ }

/-- The watches of the clauses other than the visited one are still to be visited as before. -/
private theorem todo_of_ne {off' : clause_offset} (hne : off' ≠ off)
    (h : .CLAUSE x off' ∈ update (fun _ => []) l (.CLAUSE b off :: todo) m) :
    .CLAUSE x off' ∈ update (fun _ => []) l todo m := mem_update_mono h (by simp [hne])

private theorem todo_binary {l2 : literal} {b' : Bool}
    (h : .BINARY l2 b' ∈ update (fun _ => []) l (.CLAUSE b off :: todo) m) :
    .BINARY l2 b' ∈ update (fun _ => []) l todo m := mem_update_mono h (by simp)

section

variable (h : s.Visiting F G l cl kept (.CLAUSE b off :: todo))
include h

/-- What the invariant says about the visited clause itself. -/
private theorem Visiting.guard_other (hoff : s.Live off)
    (hG : G) {n k : Nat} (hb : s.Bound n k) {w : literal} (hw : w ∈ (s.m_cls off).m_lits.take 2) (hne : ~~~w ≠ l)
    (htake : ~~~w ∈ s.m_trail.take n) : ∃ t ∈ (s.m_cls off).m_lits, t ∈ s.m_trail ∧ s.lvl t.var ≤ k := by
  refine ((h.inv.guard hG n k hb).cls off hoff w hw htake).resolve_left ?_
  rintro ⟨x, hx⟩
  rw [update_of_ne hne] at hx
  cases hx

/-- A visited clause that keeps its watches, the two perhaps exchanged. If `l` still is one of them,
some literal of the clause is true. -/
theorem Visiting.keep_clause {c : clause} (b' : literal) (hoff : s.Live off)
    (hperm : c.m_lits.Perm (s.m_cls off).m_lits) (hremoved : c.m_removed = false)
    (htake : ∀ w, w ∈ c.m_lits.take 2 ↔ w ∈ (s.m_cls off).m_lits.take 2)
    (hwatch : ∀ m ∈ s.m_trail, ∀ others, Watches m (s.m_cls off).m_lits others →
      ∃ others', Watches m c.m_lits others' ∧ ∀ x, x ∈ others' ↔ x ∈ others) (hb' : b' ∈ c.m_lits)
    (htrue : ~~~l ∈ (s.m_cls off).m_lits.take 2 → ∃ t ∈ c.m_lits, t ∈ s.m_trail) :
    (s.set_cls off c).Visiting F G l cl (kept ++ [.CLAUSE b' off]) todo := { h with
  inv := by
    have hW : kept ++ [watched.CLAUSE b' off] ++ todo = kept ++ .CLAUSE b' off :: todo := by simp
    rw [hW, show (s.set_cls off c).m_watches = s.m_watches from rfl]
    refine h.inv.update_clause hoff hperm hremoved hwatch (fun m l2 b => ?_) (fun m l2 b => todo_binary)
      (fun m x off' hx => ?_) (fun off' hne m x hx => ?_) (fun off' hne m x => todo_of_ne hne)
      (fun w hw => ?_) fun hG n k hb w hw hm => ?_
    · simp [mem_update_iff]
    · rcases mem_update_iff.mp hx with ⟨rfl, hlist⟩ | ⟨hm, hx⟩
      · simp only [mem_append, mem_cons, watched.CLAUSE.injEq] at hlist
        rcases hlist with hkept | ⟨rfl, rfl⟩ | htodo
        · exact .inl (mem_update_iff.mpr (.inl ⟨rfl, by simp [hkept]⟩))
        · exact .inr ⟨rfl, hb'⟩
        · exact .inl (mem_update_iff.mpr (.inl ⟨rfl, by simp [htodo]⟩))
      · exact .inl (mem_update_iff.mpr (.inr ⟨hm, hx⟩))
    · exact mem_update_mono hx (by simp [hne])
    · obtain ⟨x, hx⟩ := h.inv.db.watched off hoff w ((htake w).mp hw)
      rcases mem_update_iff.mp hx with ⟨heq, hx⟩ | ⟨hm, hx⟩
      · exact ⟨b', mem_update_iff.mpr (.inl ⟨heq, by simp⟩)⟩
      · exact ⟨x, mem_update_iff.mpr (.inr ⟨hm, hx⟩)⟩
    · right
      by_cases heq : ~~~w = l
      · have hwl : w = ~~~l := Lit.compl_eq_iff.mp heq
        obtain ⟨t, ht, htrail⟩ := htrue (hwl ▸ (htake w).mp hw)
        exact ⟨t, ht, htrail, h.bound_eq hb (heq ▸ hm) ▸ h.inv.trail.level_le t htrail⟩
      · obtain ⟨t, ht, hrest⟩ := h.guard_other hoff hG hb ((htake w).mp hw) heq hm
        exact ⟨t, hperm.mem_iff.mpr ht, hrest⟩ }

/-- A visited clause whose watch moves from `l` to the literal `x`. -/
theorem Visiting.move_watch {c0 : literal} {rest : List literal} {c : clause} (b' : literal) (hoff : s.Live off)
    (hlits : (s.m_cls off).m_lits = c0 :: ~~~l :: rest) (hx : x ∈ rest)
    (hperm : c.m_lits.Perm (s.m_cls off).m_lits) (hremoved : c.m_removed = false)
    (htake : ∀ w ∈ c.m_lits.take 2, w = c0 ∨ w = x)
    (hwatch : ∀ m ∈ s.m_trail, ∀ others, Watches m (s.m_cls off).m_lits others →
      ∃ others', Watches m c.m_lits others' ∧ ∀ x, x ∈ others' ↔ x ∈ others) (hb' : b' ∈ c.m_lits)
    (hguard : G → ∀ n k, s.Bound n k → ~~~x ∈ s.m_trail.take n → ∃ t ∈ c.m_lits, t ∈ s.m_trail ∧ s.lvl t.var ≤ k) :
    ((s.set_cls off c).push_watch (~~~x) (.CLAUSE b' off)).Visiting F G l cl kept todo := { h with
  inv := by
    have hnodup := (h.inv.db.clause_ok off hoff).nodup
    rw [hlits] at hnodup
    simp only [map_cons, nodup_cons, mem_cons, Lit.compl_var, not_or] at hnodup
    have hxl : ~~~x ≠ l := fun heq => hnodup.2.1 (by
      rw [← heq]
      exact mem_map.mpr ⟨x, hx, rfl⟩)
    have hc0l : ~~~c0 ≠ l := fun heq => hnodup.1.1 (by rw [← heq]; rfl)
    have hc0x : c0 ≠ x := fun heq => hnodup.1.2 (heq ▸ mem_map_of_mem hx)
    refine VisitInv.congr (s := s.set_cls off c) ?_ ⟨rfl, rfl, rfl, rfl, rfl, rfl, rfl, rfl, rfl, rfl⟩ id
    refine h.inv.update_clause hoff hperm hremoved hwatch (fun m l2 b => ?_) (fun m l2 b => todo_binary)
      (fun m y off' hy => ?_) (fun off' hne m y hy => ?_) (fun off' hne m y => todo_of_ne hne)
      (fun w hw => ?_) fun hG n k hb w hw hm => ?_
    · by_cases hm : m = ~~~x
      · simp [push_watch, set_cls, mem_update_iff, hm]
      · simp [push_watch, set_cls, mem_update_iff, hm]
    · rcases mem_update_iff.mp hy with ⟨rfl, hlist⟩ | ⟨hm, hpushed⟩
      · refine .inl (mem_update_iff.mpr (.inl ⟨rfl, ?_⟩))
        rcases mem_append.mp hlist with hlist | hlist <;> simp [hlist]
      · rcases mem_update_iff.mp hpushed with ⟨rfl, hlist⟩ | ⟨_, hlist⟩
        · rcases mem_append.mp hlist with hlist | hnew
          · exact .inl (mem_update_iff.mpr (.inr ⟨hm, hlist⟩))
          · obtain ⟨rfl, rfl⟩ : y = b' ∧ off' = off := by simpa using hnew
            exact .inr ⟨rfl, hb'⟩
        · exact .inl (mem_update_iff.mpr (.inr ⟨hm, hlist⟩))
    · rcases mem_update_iff.mp hy with ⟨rfl, hy⟩ | ⟨hm, hy⟩
      · exact mem_update_iff.mpr (.inl ⟨rfl, by simpa [hne] using hy⟩)
      · refine mem_update_iff.mpr (.inr ⟨hm, ?_⟩)
        by_cases hmx : m = ~~~x
        · subst hmx
          simp [push_watch, set_cls, hy]
        · simpa [push_watch, set_cls, hmx] using hy
    · rcases htake w hw with rfl | rfl
      · obtain ⟨y, hy⟩ := h.inv.db.watched off hoff w (by simp [hlits])
        rw [update_of_ne hc0l] at hy
        refine ⟨y, mem_update_iff.mpr (.inr ⟨hc0l, ?_⟩)⟩
        simpa [push_watch, set_cls, hc0x] using hy
      · exact ⟨b', mem_update_iff.mpr (.inr ⟨hxl, by simp [push_watch]⟩)⟩
    · right
      rcases htake w hw with rfl | rfl
      · obtain ⟨t, ht, hrest⟩ := h.guard_other hoff hG hb (by simp [hlits]) hc0l hm
        exact ⟨t, hperm.mem_iff.mpr ht, hrest⟩
      · exact hguard hG n k hb hm }

end

end sat.solver
