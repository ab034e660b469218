import BooledASS.Sat.Invariant.Attach

open Cnf

namespace sat.solver

/-- The literals `rest` of a lemma are false above level 0. Where unit clauses are kept track of, the
first literal `l0` has not been assigned before the open scopes, and it is unassigned unless no scope
above the levels of `rest` is open. -/
structure Asserting (s : solver) (G : Prop) (l0 : literal) (rest : List literal) : Prop where
  others : ∀ m ∈ rest, ~~~m ∈ s.m_trail
  level : ∀ m ∈ rest, 0 < s.lvl m.var
  late : G → ∀ sc ∈ s.m_scopes, ~~~l0 ∉ s.m_trail.take sc.m_trail_lim
  top : G → s.value l0 ≠ .l_undef → ∀ k, (∀ m ∈ rest, s.lvl m.var ≤ k) → s.scope_lvl ≤ k

/-- The literals of a new clause belong to different variables. -/
structure LitsOk (s : solver) (F : Set (List literal)) (lits : List literal) : Prop where
  nodup : (lits.map Lit.var).Nodup
  bounded : ∀ m ∈ lits, m.var < s.m_num_vars
  entails : Entails F lits

variable {s : solver} {F : Set (List literal)} {G : Prop} {W W' : literal → List watched}
  {l0 l1 : literal} {rest : List literal} {b : Bool}

theorem set_conflict_inconsistent (j : justification) (not_l : Option literal) :
    (s.set_conflict j not_l).m_inconsistent := by
  unfold set_conflict
  split
  · assumption
  · rfl

theorem set_conflict_trail (j : justification) (not_l : Option literal) : (s.set_conflict j not_l).m_trail = s.m_trail ∧
    (s.set_conflict j not_l).m_scopes = s.m_scopes ∧ (s.set_conflict j not_l).m_justification = s.m_justification := by
  unfold set_conflict
  split <;> exact ⟨rfl, rfl, rfl⟩

theorem assign_of_true {j : justification} (h0 : s.value l0 = .l_true) (hpos : 0 < j.level) : s.assign l0 j = s := by
  simp [assign, h0, update_assign, hpos.ne']

/-- The asserting literal guards its own watch and the watch `m` of greatest level, once it has been
assigned at that level or a conflict has been found. -/
theorem Asserting.settled {m x : literal} {j : justification} (ha : s.Asserting G l0 rest) (hG : G)
    (h : s.TrailInv F G) (h' : (s.assign x j).TrailInv F G) (hmax : ∀ y ∈ rest, s.lvl y.var ≤ s.lvl m.var)
    (hx : s.value l0 ≠ .l_false ∧ x = l0 ∧ j.level = s.lvl m.var ∨
      s.value l0 = .l_false ∧ s.value x = .l_false) (hpos : 0 < j.level) : (s.assign x j).Settled l0 m := by
  rcases hx with ⟨hne, rfl, hj⟩ | ⟨hfalse, hxf⟩
  · cases hval : s.value x with
    | l_false => exact absurd hval hne
    | l_undef =>
      simp only [solver.assign, hval]
      exact settled_assign_core h hval hj
    | l_true =>
      rw [assign_of_true hval hpos]
      have hmem := (h.value_true x).mp hval
      exact settled_true h hmem ((h.level_le x hmem).trans (ha.top hG (by simp [hval]) _ hmax))
  · simp only [solver.assign, hxf] at h' ⊢
    obtain ⟨htrail, hscopes, hjust⟩ := set_conflict_trail (s := s) j (some (~~~x))
    refine settled_conflict h' (set_conflict_inconsistent _ _) ?_ ?_
    · rw [htrail, hscopes]
      exact ha.late hG
    · rw [scope_lvl, hscopes, lvl, hjust]
      exact ha.top hG (by simp [hfalse]) _ hmax

/-- The watches of a binary lemma are guarded after `propagate_bin_clause`. -/
theorem Asserting.settled_bin {todo : literal → List watched} (ha : s.Asserting G l0 [l1]) (hG : G)
    (h : s.SearchInv F G W todo) (hw : .BINARY l1 b ∈ W (~~~l0)) : (s.propagate_bin_clause l0 l1).1.Settled l0 l1 := by
  have hl1 : s.value l1 = .l_false := h.visit.trail.toTrailOk.value_false.mpr (ha.others l1 (by simp))
  have hpos := ha.level l1 (by simp)
  have hinv := (h.propagate_bin_clause hw).1.visit.trail
  by_cases h0 : s.value l0 = .l_true
  · have heq : s.propagate_bin_clause l0 l1 = (s, false) := by simp [propagate_bin_clause, h0, hl1]
    rw [heq]
    have hmem := (h.visit.trail.value_true l0).mp h0
    exact settled_true h.visit.trail hmem
      ((h.visit.trail.level_le l0 hmem).trans (ha.top hG (by simp [h0]) _ (by simp)))
  · have heq : s.propagate_bin_clause l0 l1 = (s.assign l0 (.binary (s.lvl l1.var) l1), true) := by
      simp [propagate_bin_clause, h0, hl1]
    rw [heq] at hinv ⊢
    refine ha.settled hG h.visit.trail hinv (by simp) ?_ hpos
    by_cases hf : s.value l0 = .l_false
    · exact .inr ⟨hf, hf⟩
    · exact .inl ⟨hf, rfl, rfl⟩

/-- The watches of the new binary clause are the only ones to be visited. -/
theorem SearchInv.discharge_bin (h : s.SearchInv F G W fun m =>
      (if m = ~~~l0 then [.BINARY l1 b] else []) ++ if m = ~~~l1 then [.BINARY l0 b] else [])
    (hs : G → s.Settled l0 l1) : s.SearchInv F G W fun _ => [] := by
  refine ⟨h.visit.discharge (fun hG n k hb m l' b' htodo htake => ?_) fun hG n k hb off w hw x htodo htake => ?_,
    h.conflict⟩
  · obtain ⟨h1, h2⟩ := hs hG n k hb
    rcases List.mem_append.mp htodo with hm | hm
    · split at hm
      · rename_i heq
        exact absurd (heq ▸ htake) h1
      · cases hm
    · split at hm
      · rename_i heq
        obtain ⟨rfl, rfl⟩ : l' = l0 ∧ b' = b := by simpa using hm
        exact h2 (heq ▸ htake)
      · cases hm
  · rcases List.mem_append.mp htodo with hm | hm <;> split at hm <;> simp at hm

theorem find_binary_watch_iff {l l2 : literal} : s.find_binary_watch l l2 ↔ ∃ b, .BINARY l2 b ∈ s.m_watches l := by
  unfold find_binary_watch
  rw [List.any_eq_true]
  constructor
  · rintro ⟨w, hw, heq⟩
    cases w with
    | BINARY l' b =>
      obtain rfl : l' = l2 := by simpa using heq
      exact ⟨b, hw⟩
    | CLAUSE => simp at heq
  · rintro ⟨b, hb⟩
    exact ⟨_, hb, by simp⟩

theorem Inv.has_variables_to_reinit_bin (h : s.Inv F G) (l1 l2 : literal) :
    s.has_variables_to_reinit_bin l1 l2 = false := by
  simp [solver.has_variables_to_reinit_bin, h.var_scope]

/-- A new binary clause with its watches, possibly on the reinit stack. -/
theorem Inv.watch_bin_clause {s1 : solver} (h : s.Inv F G) (hframe : VisitFrame s s1)
    (hW' : WithBin s.m_watches W' l0 l1 b) (hsearch : s1.SearchInv F G W' fun _ => []) {stack : List clause_wrapper}
    (hstack : ∀ cw ∈ stack, cw ∈ s.m_clauses_to_reinit ∨ cw = .bin l0 l1) :
    { s1 with m_watches := W', m_clauses_to_reinit := stack }.Inv F G := by
  refine h.of_popFrame (hframe.frame.popFrame.trans rfl) ⟨?_, fun hinc => ?_⟩ fun cw hcw => ?_
  · exact hsearch.visit.congr ⟨rfl, rfl, rfl, rfl, rfl, rfl, rfl, rfl, rfl, rfl⟩ id
  · exact { hsearch.conflict hinc with }
  · rcases hstack cw hcw with hcw | rfl
    · obtain ⟨l1', l2', b', rfl, hb'⟩ := h.reinit cw hcw
      exact ⟨l1', l2', b', rfl, (hW' _ _).mpr (.inl hb')⟩
    · exact ⟨l0, l1, b, rfl, (hW' _ _).mpr (.inr (.inl ⟨rfl, rfl⟩))⟩

theorem VisitFrame.at_base_lvl {s1 : solver} (h : VisitFrame s s1) : s1.at_base_lvl = s.at_base_lvl := by
  have hscopes : s1.m_scopes = s.m_scopes := by rw [h.frame]
  rw [solver.at_base_lvl, scope_lvl, hscopes, solver.at_base_lvl, scope_lvl]

/-- A binary lemma. If the clause with the second literal negated is there, the first literal is a unit;
if the clause itself is there, it is only propagated. -/
theorem Inv.mk_bin_lemma (h : s.Inv F G) (hok : s.LitsOk F [l0, l1]) (ha : s.Asserting G l0 [l1]) :
    (s.mk_bin_clause l0 l1 true).Inv F G := by
  have hl1mem := ha.others l1 (by simp)
  have hl1 : s.value l1 = .l_false := h.visit.trail.toTrailOk.value_false.mpr hl1mem
  have hbase : s.at_base_lvl = false := by
    have h1 := ha.level l1 (by simp)
    have h2 := h.visit.trail.level_le _ hl1mem
    simp only [Lit.compl_var] at h2
    simpa [at_base_lvl] using (by omega)
  have hvar : l0.var ≠ l1.var := by simpa using hok.nodup
  unfold mk_bin_clause
  split
  · rename_i hc
    obtain ⟨-, hfind, hundef⟩ := hc
    obtain ⟨b, hb⟩ := find_binary_watch_iff.mp hfind
    have hF : Entails F [l0, ~~~l1] := by simpa using (h.visit.db.bin_ok _ _ _ hb).2.2
    have hunit : Entails F [l0] := hok.entails.resolve (l := l1) hF (by simp) (by simp)
    refine h.assign ⟨hok.bounded l0 (by simp), Nat.zero_le _, .inl rfl, fun _ => hunit,
      by simp [justification.none], by simp [justification.none]⟩ (by simp [hundef]) (by simp [hundef])
  · rw [if_neg (by simp [hl1])]
    split
    · rename_i hc
      obtain ⟨b, hb⟩ := find_binary_watch_iff.mp hc.2
      obtain ⟨hsearch, hframe, -, hwatch⟩ := h.toSearchInv.propagate_bin_clause hb
      have h1 : (s.propagate_bin_clause l0 l1).1.Inv F G := h.of_visitFrame hframe hwatch hsearch
      simpa [h1.has_variables_to_reinit_bin] using h1
    · have hW' : WithBin s.m_watches (s.watch_bin_clause l0 l1 true).m_watches l0 l1 true := watch_bin_clause_withBin
      have hw : .BINARY l1 true ∈ (s.watch_bin_clause l0 l1 true).m_watches (~~~l0) :=
        (hW' _ _).mpr (.inr (.inl ⟨rfl, rfl⟩))
      have hadd : s.SearchInv F G (s.watch_bin_clause l0 l1 true).m_watches fun m =>
          (if m = ~~~l0 then [.BINARY l1 true] else []) ++ if m = ~~~l1 then [.BINARY l0 true] else [] :=
        ⟨h.visit.add_binary hW' hvar (hok.bounded l0 (by simp)) (hok.bounded l1 (by simp)) hok.entails, h.conflict⟩
      obtain ⟨hsearch, hframe, -, hwatch⟩ := hadd.propagate_bin_clause hw
      have hdone := hsearch.discharge_bin fun hG => ha.settled_bin hG hadd hw
      generalize s.propagate_bin_clause l0 l1 = p at hframe hwatch hdone ⊢
      obtain ⟨s1, propagated⟩ := p
      simp only at hframe hwatch hdone ⊢
      have hreinit : s1.m_clauses_to_reinit = s.m_clauses_to_reinit := by rw [hframe.frame]
      have hscope : s1.m_var_scope = s.m_var_scope := by rw [hframe.frame]
      have hnot : s1.has_variables_to_reinit_bin l0 l1 = false := by
        simp [solver.has_variables_to_reinit_bin, hscope, h.var_scope]
      have hlists : (s1.watch_bin_clause l0 l1 true).m_watches = (s.watch_bin_clause l0 l1 true).m_watches := by
        simp only [solver.watch_bin_clause, push_watch, hwatch]
      rw [← hlists] at hdone hW'
      split
      · rw [if_neg (by simp [hframe.at_base_lvl, hbase])]
        refine h.watch_bin_clause hframe hW' hdone fun cw hcw => ?_
        have hmem : cw ∈ s1.m_clauses_to_reinit ++ [.bin l0 l1] := hcw
        simpa [hreinit] using hmem
      · rw [if_neg (by simp [hnot])]
        exact h.watch_bin_clause hframe hW' hdone fun cw hcw => .inl (hreinit ▸ hcw)

end sat.solver
