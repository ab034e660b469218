import Mathlib.Data.Fintype.Basic
import BooledASS.Parallel.TreeInvariant

open List Option Machine

namespace search_tree

open tree

variable {E M : Type} {I : Interp E M} {T : Set E} {A : List E} {t t' : tree E} {p n : node_ptr}

/-- What only grows keeps the invariant, provided that new children come in pairs with complementary literals. -/
theorem TreeInv.grow (h : TreeInv I T A t) (hg : Grows t t')
    (hsiblings : ∀ p turn, t'.Valid (turn :: p) → t'.Valid (false :: p) ∧ t'.Valid (true :: p) ∧
      ∃ a b, t'.literal (false :: p) = some a ∧ t'.literal (true :: p) = some b ∧ I.Complementary a b) :
    TreeInv I T A t' where
  root_valid := hg.valid _ h.root_valid
  root_null := (hg.literal _ h.root_valid).trans h.root_null
  siblings := hsiblings
  down := hg.down h.down
  core p hp := hg.core p (hg.open_ p hp) ▸ h.core p (hg.open_ p hp)
  core_path p hp l hl := by
    have hp' := hg.open_ p hp
    rw [hg.core p hp'] at hl
    exact (h.core_path p hp' l hl).imp_right hg.onPath
  empty p hp hnil := by
    have hp' := hg.open_ p hp
    exact hg.closed _ (h.empty p hp' ((hg.core p hp').symm.trans hnil))

theorem UpAt.grow (h : UpAt t p) (hg : Grows t t') : UpAt t' p :=
  fun hl hr => hg.closed p (h (hg.open_ _ hl) (hg.open_ _ hr))

section Update

variable {f : node_data E → node_data E} (hf : ∀ d, t.get n = some d → Tame f d)
include hf

theorem TreeInv.update_node (h : TreeInv I T A t) : TreeInv I T A (t.update_node n f) := by
  refine h.grow (grows_update_node hf) ?_
  intro p turn hp
  simp only [valid_update_node hf, literal_update_node hf] at hp ⊢
  exact h.siblings p turn hp

end Update

section Split

variable {a b : E} (hactive : t.has_status .active n) (hleaf : (t.m_root.at_ptr n).is_leaf)
include hactive hleaf

/-- A split on complementary literals keeps the invariant. -/
theorem TreeInv.split (h : TreeInv I T A t) (hab : I.Complementary a b) :
    TreeInv I T A { t with m_root := t.m_root.modify n (node.split a b) } := by
  have hget q : tree.get { t with m_root := t.m_root.modify n (.split a b) } q = _ := get_split t hactive hleaf a b q
  have hcases q turn (hq : tree.Valid { t with m_root := t.m_root.modify n (.split a b) } (turn :: q)) :
      q = n ∨ q ≠ n ∧ t.Valid (turn :: q) := by
    by_cases hqn : q = n
    · exact .inl hqn
    · refine .inr ⟨hqn, ?_⟩
      rwa [Valid, hget, if_neg (by simp [hqn]), if_neg (by simp [hqn])] at hq
  refine h.grow (grows_split hactive hleaf) fun q turn hq => ?_
  rcases hcases q turn hq with rfl | ⟨hqn, hv⟩
  · simp only [Valid, literal, hget]
    simp [hab]
  · have hold := h.siblings q turn hv
    simp only [Valid, literal, hget, cons.injEq, hqn]
    exact hold

end Split

theorem TreeInv.try_split (h : TreeInv I T A t) (n : node_ptr) (epoch effort rand : UInt32) {a b : E}
    (hab : I.Complementary a b) : TreeInv I T A (t.try_split n epoch a b effort rand).2 := by
  have hf : ∀ d, t.get n = some d → Tame (fun d => d.update_round_max_effort effort) d :=
    fun d _ => tame_update_round_max_effort effort d
  fun_cases tree.try_split with
  | case1 => exact h
  | case2 _ _ hsplit =>
    obtain ⟨hactive, hleaf⟩ := active_leaf_of_should_split hsplit
    exact (h.update_node hf).split hactive hleaf hab
  | case3 => exact h.update_node hf

/-- The calls that may be made: splits are on complementary literals, and a conflict is a core made of members of
`A` and of the path, with a literal of the path unless it is empty. -/
def Legal (I : Interp E M) (T : Set E) (A : List E) (t : tree E) : call E → Prop
  | .try_split _ _ a b _ _ => I.Complementary a b
  | .backtrack n C => I.Core T C ∧ (∀ l ∈ C, l ∈ A ∨ t.OnPath n l) ∧ (C = [] ∨ ∃ l ∈ C, t.OnPath n l)
  | _ => True

theorem Solved.update_node (h : Solved I T A t) {f : node_data E → node_data E}
    (hf : ∀ d, t.get n = some d → Tame f d) : Solved I T A (t.update_node n f) :=
  ⟨h.inv.update_node hf, fun q => (h.up q).grow (grows_update_node hf)⟩

variable [DecidableEq E]

/-- Every legal call keeps the tree sound and leaves no open node above two closed children. -/
theorem Solved.exec {c : call E} (h : Solved I T A t) (hc : Legal I T A t c) (hexec : exec t c = some t') :
    Solved I T A t' := by
  cases c with
  | activate_root =>
    cases hexec
    rw [activate_root]
    split
    next => exact h
    next hopen =>
      exact h.update_node fun d hd => tame_mark_new_activation fun hclosed => hopen (closed_iff.mpr ⟨d, hd, hclosed⟩)
  | activate_best_node =>
    cases hexec
    rw [activate_best_node]
    split
    next => exact h
    next n hn =>
      obtain ⟨d, hd, hopen⟩ := best_node_some t hn
      exact h.update_node fun d' hd' => tame_mark_new_activation (some.inj (hd.symm.trans hd') ▸ hopen)
  | try_split n epoch a b effort rand =>
    cases hexec
    exact ⟨h.inv.try_split n epoch effort rand hc, fun q => (h.up q).grow (grows_try_split t n epoch effort rand a b)⟩
  | dec_active_workers n =>
    cases hexec
    exact h.update_node fun d _ => tame_dec_active_workers d
  | backtrack n C => exact backtrack_spec h.inv h.up hc.1 hc.2.1 hexec

/-- No call opens a closed node. -/
theorem extends_exec {c : call E} (h : t.m_root.Down) (hexec : exec t c = some t') : Extends t t' := by
  cases c with
  | activate_root => exact some.inj hexec ▸ (grows_activate_root t).toExtends
  | activate_best_node => exact some.inj hexec ▸ (grows_activate_best_node t).toExtends
  | try_split n epoch a b effort rand =>
    exact some.inj hexec ▸ (grows_try_split t n epoch effort rand a b).toExtends
  | dec_active_workers n =>
    exact some.inj hexec ▸ (grows_update_node fun d _ => tame_dec_active_workers d).toExtends
  | backtrack n C => exact (shuts_backtrack h hexec).ext

/-- The tree at the start of a search. -/
def tree.init (effort_unit : UInt32) : tree E := ({} : tree E).set_effort_unit effort_unit

omit [DecidableEq E] in
theorem get_init (effort_unit : UInt32) (p : node_ptr) :
    (tree.init effort_unit : tree E).get p = if p = [] then some { m_literal := none } else none := by
  rcases eq_nil_or_concat p with rfl | ⟨q, turn, rfl⟩
  · rfl
  · rw [if_neg (by simp), tree.get, node.get_concat]
    cases turn <;> exact node.get_null q

omit [DecidableEq E] in
theorem not_closed_init (effort_unit : UInt32) (p : node_ptr) : ¬ (tree.init effort_unit : tree E).Closed p := by
  rw [closed_iff, get_init]
  rintro ⟨d, hd, hclosed⟩
  split at hd
  next => rw [← some.inj hd] at hclosed; cases hclosed
  next => cases hd

omit [DecidableEq E] in
theorem TreeInv.init (effort_unit : UInt32) : TreeInv I T A (tree.init effort_unit) where
  root_valid := rfl
  root_null := rfl
  siblings p turn hp := by rw [Valid, get_init] at hp; cases hp
  down p d hd hclosed := absurd (closed_iff.mpr ⟨d, hd, hclosed⟩) (not_closed_init effort_unit p)
  core p hp := absurd hp (not_closed_init effort_unit p)
  core_path p hp := absurd hp (not_closed_init effort_unit p)
  empty p hp := absurd hp (not_closed_init effort_unit p)

theorem Solved.reached (h : Solved I T A t) (hreach : Reaches search_tree.exec (Legal I T A) t t') :
    Solved I T A t' ∧ Extends t t' := by
  refine hreach.invariant (I := fun s => Solved I T A s ∧ Extends t s) ⟨h, .refl t⟩ fun s c s' hs hc hexec => ?_
  exact ⟨hs.1.exec hc hexec, hs.2.trans (extends_exec hs.1.inv.down hexec)⟩

/-- The tree is sound in every run: closed nodes have cores made of their path and of the assumptions, no node
with closed children is left open, closed nodes stay closed, a node that is not closed is found while there is
one, and every call that may be made returns. -/
theorem search_tree_sound (I : Interp E M) (F : Set E) (A : List E) (effort_unit : UInt32) {t : tree E}
    (h : Reaches exec (Legal I F A) (tree.init effort_unit) t) :
    (∀ p d, t.get p = some d → d.m_status = .closed → I.Core F d.m_core ∧ ∀ l ∈ d.m_core, l ∈ A ∨ t.OnPath p l) ∧
    (∀ p, t.Closed (false :: p) → t.Closed (true :: p) → t.Closed p) ∧
    (∀ t', Reaches exec (Legal I F A) t t' → ∀ p, t.Closed p → t'.Closed p) ∧
    (∀ n, t.activate_best_node.1 = some n → ∃ d, t.get n = some d ∧ d.m_status ≠ .closed) ∧
    (t.activate_best_node.1 = none → t.Closed []) ∧
    (∀ c, Legal I F A t c → (exec t c).isSome) := by
  have hinit : Solved I F A (.init effort_unit) :=
    ⟨.init effort_unit, fun q hl => absurd hl (not_closed_init effort_unit _)⟩
  have hs := (hinit.reached h).1
  have hbest : t.activate_best_node.1 = t.best_node := by
    rw [activate_best_node]
    split <;> simp_all
  refine ⟨fun p d hd hclosed => ?_, hs.up, fun t' ht' p hp => (hs.reached ht').2.closed p hp,
    fun n hn => best_node_some t (hbest ▸ hn), fun hnone => ?_, fun c hc => ?_⟩
  · have hp : t.Closed p := closed_iff.mpr ⟨d, hd, hclosed⟩
    have hcore : t.core p = d.m_core := by rw [core, hd]; rfl
    exact ⟨hcore ▸ hs.inv.core p hp, hcore ▸ hs.inv.core_path p hp⟩
  · obtain ⟨d, hd⟩ := isSome_iff_exists.mp hs.inv.root_valid
    exact closed_iff.mpr ⟨d, hd, best_node_none t hd (hbest ▸ hnone)⟩
  · cases c with
    | backtrack n C => exact backtrack_isSome hc.2.2
    | _ => rfl

/-- The node for `x` is closed where `x` is false in all models, and it stays closed. -/
theorem search_tree_sound_split :
    let I := Interp.ofBool Bool
    let F : Set (Bool → Bool) := {fun x => !x}
    ∃ t, run exec (.init 1000)
        [.activate_root, .try_split [] 0 (fun x => x) (fun x => !x) 1000 0, .backtrack [false] [fun x => x]] = some t ∧
      t.Closed [false] ∧ ∀ t', Reaches exec (Legal I F []) t t' → t'.Closed [false] := by
  intro I F
  refine ⟨_, rfl, by decide, fun t' ht' => ?_⟩
  refine (search_tree_sound I F [] 1000 ?_).2.2.1 t' ht' [false] (by decide)
  refine .step (.step (.step .refl (a := .activate_root) trivial rfl)
    (a := .try_split [] 0 (fun x => x) (fun x => !x) 1000 0) ?_ rfl) (a := .backtrack [false] [fun x => x]) ?_ rfl
  · exact Interp.complementary_mk_not (fun x => x)
  · refine ⟨fun m hm => ⟨_, mem_singleton_self _, ?_⟩, ?_, .inr ⟨_, mem_singleton_self _, ?_⟩⟩
    · have := hm (fun x => !x) rfl
      cases m <;> simp_all [I, Interp.ofBool]
    · intro l hl
      exact .inr (mem_singleton.mp hl ▸ ⟨[false], suffix_rfl, rfl⟩)
    · exact ⟨[false], suffix_rfl, rfl⟩

end search_tree
