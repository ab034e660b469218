import Mathlib.Data.Fintype.Prod
import BooledASS.Parallel.BatchManager
import BooledASS.Parallel.TreeRun

open List Machine Interp Prod

namespace search_tree

open tree

variable {E M : Type} {t t' : tree E} {p q n : node_ptr} {C : List E} {l : E}

theorem modify_eq_self {root : node E} {f : node E → node E} (h : f (root.at_ptr p) = root.at_ptr p) :
    root.modify p f = root := by
  induction p generalizing f with
  | nil => exact h
  | cons turn p ih =>
    refine ih ?_
    have hset (m : node E) : m.set_child turn (m.child turn) = m := by
      cases m with
      | null => rfl
      | mk d left right => cases turn <;> rfl
    rw [show f ((root.at_ptr p).child turn) = (root.at_ptr p).child turn from h, hset]

/-- Closing a closed node changes nothing, whatever the core. -/
theorem close_of_closed (h : t.Closed n) (C : List E) : t.close n C = t := by
  obtain ⟨d, hd, hclosed⟩ := closed_iff.mp h
  have hself : (t.m_root.at_ptr n).close C = t.m_root.at_ptr n := by
    cases hn : t.m_root.at_ptr n with
    | null => rfl
    | mk d' left right =>
      have hdata : d' = d := by simpa [tree.get, node.get, hn, node.data] using hd
      rw [node.close, if_pos (hdata ▸ hclosed)]
  rw [tree.close, modify_eq_self hself]

variable [DecidableEq E]

/-- Closing nodes leaves the cores of the nodes that are closed already. -/
theorem core_propagate_closure_upward (hdown : t.m_root.Down) (hq : t.Closed q) (cur : node_ptr) :
    (t.propagate_closure_upward cur).core q = t.core q := by
  fun_induction propagate_closure_upward with
  | case1 | case2 => rfl
  | case3 => exact core_close_of_closed hdown hq
  | case4 _ _ _ _ _ _ ih =>
    exact (ih (down_close hdown) ((closed_close hdown).mpr (.inl hq))).trans (core_close_of_closed hdown hq)

theorem core_resolve_upward (hdown : t.m_root.Down) (hq : t.Closed q) (p : node_ptr) :
    (t.resolve_upward p).core q = t.core q := by
  fun_cases resolve_upward with
  | case1 => rfl
  | case2 => exact core_close_of_closed hdown hq
  | case3 =>
    exact (core_propagate_closure_upward (down_close hdown) ((closed_close hdown).mpr (.inl hq)) _).trans
      (core_close_of_closed hdown hq)

theorem conflict_node_self (hlit : t.literal n = some l) (hl : l ∈ C) : t.conflict_node C n = some n := by
  have hany : (C.any fun a => some a = t.literal n) := any_eq_true.mpr ⟨l, hl, by simp [hlit]⟩
  cases n with
  | nil => rw [conflict_node, if_pos hany]
  | cons turn p => rw [conflict_node, if_pos hany]

/-- For a closed node whose core is not contained in the conflict, only the stored cores are resolved once more. -/
theorem backtrack_of_closed {turn : Bool} (hlit : t.literal (turn :: p) = some l) (hl : l ∈ C)
    (hclosed : t.Closed (turn :: p)) (hcore : ¬ t.core (turn :: p) ⊆ C) :
    t.backtrack (turn :: p) C = some (t.resolve_upward p) := by
  obtain ⟨d, hd, -⟩ := Option.bind_eq_some_iff.mp hlit
  have hmem : ¬ (C.all fun a => some a ≠ t.literal (turn :: p)) := by
    simp only [hlit, all_eq_true, not_forall]
    exact ⟨l, hl, by simp⟩
  have hguard : ¬ (t.has_status .closed (turn :: p) ∧ (t.core (turn :: p)).all (· ∈ C)) := fun hc =>
    hcore fun x hx => of_decide_eq_true (all_eq_true.mp hc.2 x hx)
  rw [backtrack, if_neg (by simp [hd]), if_neg (by simpa using ne_nil_of_mem hl), conflict_node_self hlit hl,
    Option.map_some, close_with_core, if_neg hguard, if_neg hmem, close_of_closed hclosed]

/-- Whether a core takes effect that is reported for a closed node and does not contain its stored core: it is to
contain the core of the node or of a closed ancestor afterwards, and the core of the parent is to follow by resolution
with that of a closed sibling. The call does not read the reported core and keeps all stored ones, so that this is so
exactly if it was before: a proper ancestor is closed with a core that the report contains, and the core of the parent
is contained in the resolvent already. -/
theorem backtrack_closed_effect_iff (I : Interp E M) (F : Set E) (A : List E) (effort_unit : UInt32)
    (h : Reaches exec (Legal I F A) (tree.init effort_unit) t) {turn : Bool} (hlit : t.literal (turn :: p) = some l)
    (hl : l ∈ C) (hclosed : t.Closed (turn :: p)) (hcore : ¬ t.core (turn :: p) ⊆ C) :
    ∃ t', t.backtrack (turn :: p) C = some t' ∧ t' = t.resolve_upward p ∧
      ((∃ q, q <:+ turn :: p ∧ t.Closed q ∧ t'.core q ⊆ C) ∧ (t.Closed ((!turn) :: p) → t'.Closed p ∧
        ∀ x ∈ t'.core p, x ∈ C ∧ x ≠ l ∨ x ∈ t.core ((!turn) :: p) ∧ some x ≠ t.literal ((!turn) :: p)) ↔
      (∃ q, q <:+ p ∧ t.Closed q ∧ t.core q ⊆ C) ∧ (t.Closed ((!turn) :: p) →
        ∀ x ∈ t.core p, x ∈ C ∧ x ≠ l ∨ x ∈ t.core ((!turn) :: p) ∧ some x ≠ t.literal ((!turn) :: p))) := by
  have hinit : Solved I F A (init effort_unit) :=
    ⟨.init effort_unit, fun q hq => absurd hq (not_closed_init effort_unit _)⟩
  obtain ⟨hinv, hup⟩ := (hinit.reached h).1
  have hkept q (hq : t.Closed q) : (t.resolve_upward p).core q = t.core q := core_resolve_upward hinv.down hq p
  -- above two closed nodes everything is closed already
  have hparent (hsib : t.Closed ((!turn) :: p)) : t.Closed p := by
    cases turn with
    | false => exact hup p hclosed hsib
    | true => exact hup p hsib hclosed
  refine ⟨_, backtrack_of_closed hlit hl hclosed hcore, rfl, and_congr ⟨?_, ?_⟩ (forall_congr' fun hsib => ?_)⟩
  · rintro ⟨q, hq, hqclosed, hqcore⟩
    rw [hkept q hqclosed] at hqcore
    rcases suffix_cons_iff.mp hq with rfl | hq
    · exact absurd hqcore hcore
    · exact ⟨q, hq, hqclosed, hqcore⟩
  · rintro ⟨q, hq, hqclosed, hqcore⟩
    exact ⟨q, hq.trans (suffix_cons _ _), hqclosed, (hkept q hqclosed).symm ▸ hqcore⟩
  · rw [hkept p (hparent hsib)]
    exact and_iff_right ((shuts_resolve_upward hinv.down p).ext.closed p (hparent hsib))

/-- Whether a call is a split on a formula and its negation, or a conflict on the path of its node. -/
def on_path (t : tree (Bool × Bool → Bool)) : call (Bool × Bool → Bool) → Bool
  | .try_split _ _ a b _ _ => decide (b = fun m => !a m)
  | .backtrack n C => !C.isEmpty && C.all fun c => t.path_contains c n
  | _ => true

theorem legal_of_on_path {F : Set (Bool × Bool → Bool)} (hF : ∀ C, (ofBool (Bool × Bool)).Core F C)
    (t : tree (Bool × Bool → Bool)) (c : call (Bool × Bool → Bool)) (h : on_path t c) :
    Legal (ofBool (Bool × Bool)) F [] t c := by
  cases c with
  | try_split n epoch a b effort rand =>
    obtain rfl := of_decide_eq_true h
    exact complementary_mk_not a
  | backtrack n C =>
    simp only [on_path, Bool.and_eq_true, Bool.not_eq_true', isEmpty_eq_false_iff, all_eq_true, path_contains_iff] at h
    obtain ⟨c, hc⟩ := exists_mem_of_ne_nil C h.1
    exact ⟨hF C, fun l hl => .inr (h.2 l hl), .inr ⟨c, hc, h.2 c hc⟩⟩
  | _ => trivial

/-- Both formulas exclude each other. -/
def contradiction : Set (Bool × Bool → Bool) := {snd, fun m => !m.2}

theorem core_contradiction (C : List (Bool × Bool → Bool)) : (ofBool (Bool × Bool)).Core contradiction C := by
  intro m hm
  have htrue : m.2 := hm snd (.inl rfl)
  have hfalse : (!m.2) := hm (fun m => !m.2) (.inr rfl)
  simp [htrue] at hfalse

/-- The root is split on the first formula and its left child on the second one. The right one of the two leaves
below is closed. -/
def half_closed : List (call (Bool × Bool → Bool)) :=
  [.activate_root, .try_split [] 0 fst (fun m => !m.1) 1000 0, .activate_best_node, .activate_best_node,
    .try_split [false] 0 snd (fun m => !m.2) 1000 0, .backtrack [true, false] [fun m => !m.2]]

theorem reaches_of_on_path {calls : List (call (Bool × Bool → Bool))} {t : tree (Bool × Bool → Bool)}
    (h : run (fun t c => if on_path t c then exec t c else none) (tree.init 1000) calls = some t) :
    Reaches exec (Legal (ofBool (Bool × Bool)) contradiction []) (tree.init 1000) t :=
  .of_guarded_run (legal_of_on_path core_contradiction) h

/-- Whether the two formulas of the pair differ. -/
def differ (m : Bool × Bool) : Bool := m.1 != m.2

/-- Three levels: the leftmost leaf is closed with a core that has all literals of its path, and then its
grandparent with the first one alone. -/
def grandparent_closed : List (call (Bool × Bool → Bool)) :=
  [.activate_root, .try_split [] 0 fst (fun m => !m.1) 1000 0, .activate_best_node, .activate_best_node,
    .try_split [false] 0 snd (fun m => !m.2) 1000 0, .activate_best_node, .activate_best_node,
    .try_split [false, false] 0 differ (fun m => !differ m) 1000 0,
    .backtrack [false, false, false] [fst, snd, differ], .backtrack [false] [fst]]

/-- The report for the closed leaf has a core without the second literal. The grandparent was closed with the first
one alone, which the report contains. -/
theorem backtrack_closed_effect_iff_grandparent : ∃ t t' : tree (Bool × Bool → Bool),
    Reaches exec (Legal (ofBool (Bool × Bool)) contradiction []) (tree.init 1000) t ∧
    t.Closed [false, false, false] ∧ t.core [false, false, false] = [fst, snd, differ] ∧
    t.backtrack [false, false, false] [fst, differ] = some t' ∧
    ∃ q, q <:+ [false, false, false] ∧ t.Closed q ∧ t'.core q ⊆ [fst, differ] := by
  have hrun : (run (fun t c => if on_path t c then exec t c else none) (.init 1000) grandparent_closed).map
      (fun t => t.has_status .closed [false, false, false] && t.core [false, false, false] == [fst, snd, differ] &&
        t.literal [false, false, false] == some differ && t.has_status .closed [false] && t.core [false] == [fst] &&
        t.core [false, false] == [fst]) = some true := by decide
  obtain ⟨t, ht, hfacts⟩ := Option.map_eq_some_iff.mp hrun
  simp only [Bool.and_eq_true, beq_iff_eq] at hfacts
  obtain ⟨⟨⟨⟨⟨hclosed, hcore⟩, hlit⟩, hgrand⟩, hgrandcore⟩, hparent⟩ := hfacts
  have hreach := reaches_of_on_path ht
  have hsmaller : ¬ t.core [false, false, false] ⊆ [fst, differ] := by
    rw [hcore]
    decide
  obtain ⟨t', hback, -, heffect⟩ := backtrack_closed_effect_iff (ofBool (Bool × Bool)) contradiction [] 1000 hreach
    (C := [fst, differ]) hlit (by simp) hclosed hsmaller
  refine ⟨t, t', hreach, hclosed, hcore, hback, (heffect.mpr ⟨⟨[false], by decide, hgrand, ?_⟩, fun _ x hx => ?_⟩).1⟩
  · rw [hgrandcore]
    decide
  · obtain rfl : x = fst := by simpa [hparent] using hx
    exact .inl ⟨by decide, by decide⟩

/-- Both leaves are closed, the left one with a core that has the formula of its parent. -/
def both_closed : List (call (Bool × Bool → Bool)) := half_closed ++ [.backtrack [false, false] [fst, snd]]

/-- A smaller core is reported for the left leaf. It is not stored, neither there nor above, and the parent is not
resolved with it: the resolvent with the core of the right leaf is empty, but the root stays open. The same happens
to a minimised core. -/
theorem backtrack_drops_smaller_core : ∃ t t' : tree (Bool × Bool → Bool),
    Reaches exec (Legal (ofBool (Bool × Bool)) contradiction []) (tree.init 1000) t ∧
    t.Closed [false, false] ∧ t.core [false, false] = [fst, snd] ∧
    t.literal [false, false] = some snd ∧ t.Closed [true, false] ∧ t.core [true, false] = [fun m => !m.2] ∧
    t.backtrack [false, false] [snd] = some t' ∧
    (∀ q, q <:+ [false, false] → t'.Closed q → ¬ t'.core q ⊆ [snd]) ∧ ¬ t'.Closed [] ∧
    (smt.parallel.batch_manager.publish_minimized_core (M := Unit) { num_workers := 1 } { m_search_tree := t }
      [false, false] 2 [snd]).m_search_tree.core [false, false] = [fst, snd] := by
  have hrun : (run (fun t c => if on_path t c then exec t c else none) (.init 1000) both_closed).map
      (fun t => t.has_status .closed [false, false] && t.core [false, false] == [fst, snd] &&
        t.literal [false, false] == some snd && t.has_status .closed [true, false] &&
        t.core [true, false] == [fun m => !m.2] && t.has_status .closed [false] && t.core [false] == [fst] &&
        ((t.backtrack [false, false] [snd]).map fun t' => t'.core [false, false] == [fst, snd] &&
          t'.core [false] == [fst] && !t'.has_status .closed []) == some true &&
        (smt.parallel.batch_manager.publish_minimized_core (M := Unit) { num_workers := 1 } { m_search_tree := t }
          [false, false] 2 [snd]).m_search_tree.core [false, false] == [fst, snd]) = some true := by
    decide
  obtain ⟨t, ht, hfacts⟩ := Option.map_eq_some_iff.mp hrun
  simp only [Bool.and_eq_true, beq_iff_eq, Option.map_eq_some_iff] at hfacts
  obtain ⟨⟨⟨⟨⟨⟨⟨⟨hclosed, hcore⟩, hlit⟩, hsib⟩, hsibcore⟩, -⟩, -⟩, t', hback, ⟨hcore', hparent⟩, hroot⟩, hpublish⟩ :=
    hfacts
  have hroot : ¬ t'.Closed [] := by simpa using hroot
  refine ⟨t, t', reaches_of_on_path ht, hclosed, hcore, hlit, hsib, hsibcore, hback, fun q hq hqclosed => ?_, hroot,
    hpublish⟩
  have hne : (fst : Bool × Bool → Bool) ≠ snd := by decide
  simp only [suffix_cons_iff, suffix_nil] at hq
  rcases hq with rfl | rfl | rfl
  · simp [hcore', hne]
  · simp [hparent, hne]
  · exact absurd hqclosed hroot

end search_tree
