import BooledASS.Logic.Formula
import BooledASS.Logic.Machine
import BooledASS.Parallel.TreeExtends

open List

namespace search_tree

variable {E M : Type}

open tree

/-- The invariant of the tree: the cores of the closed nodes are cores of `T`, made of members of `A` and of
literals on the path. -/
structure TreeInv (I : Interp E M) (T : Set E) (A : List E) (t : tree E) : Prop where
  root_valid : t.Valid []
  root_null : t.literal [] = none
  siblings : ∀ p turn, t.Valid (turn :: p) → t.Valid (false :: p) ∧ t.Valid (true :: p) ∧
    ∃ a b, t.literal (false :: p) = some a ∧ t.literal (true :: p) = some b ∧ I.Complementary a b
  down : t.m_root.Down
  core : ∀ p, t.Closed p → I.Core T (t.core p)
  core_path : ∀ p, t.Closed p → ∀ l ∈ t.core p, l ∈ A ∨ t.OnPath p l
  -- only a conflict that closes the root has an empty core
  empty : ∀ p, t.Closed p → t.core p = [] → t.Closed []

/-- A node is closed once its children are. -/
def UpAt (t : tree E) (p : node_ptr) : Prop := t.Closed (false :: p) → t.Closed (true :: p) → t.Closed p

variable {I : Interp E M} {T : Set E} {A : List E} {t : tree E} {p q n : node_ptr} {C : List E} {l : E}

/-- A node may be closed with a core from its path and the assumptions. Only the root may be closed with the empty
core. -/
theorem TreeInv.close (h : TreeInv I T A t) (hcore : I.Core T C)
    (hpath : ∀ l ∈ C, l ∈ A ∨ t.OnPath p l) (hempty : C = [] → p = []) : TreeInv I T A (t.close p C) where
  root_valid := (valid_close h.down).mpr h.root_valid
  root_null := (literal_close h.down).trans h.root_null
  siblings := by
    intro q turn hq
    simp only [valid_close h.down, literal_close h.down] at hq ⊢
    exact h.siblings q turn hq
  down := down_close h.down
  core := by
    intro q hq
    by_cases hold : t.Closed q
    · rw [core_close_of_closed h.down hold]
      exact h.core q hold
    · obtain ⟨hbelow, hvq⟩ := ((closed_close h.down).mp hq).resolve_left hold
      rwa [core_close_of_not_closed h.down hold hvq hbelow]
  core_path := by
    intro q hq l hl
    rw [onPath_close h.down]
    by_cases hold : t.Closed q
    · rw [core_close_of_closed h.down hold] at hl
      exact h.core_path q hold l hl
    · obtain ⟨hbelow, hvq⟩ := ((closed_close h.down).mp hq).resolve_left hold
      rw [core_close_of_not_closed h.down hold hvq hbelow] at hl
      exact (hpath l hl).imp_right fun hl => hl.mono hbelow
  empty := by
    intro q hq hnil
    rw [closed_close h.down]
    by_cases hold : t.Closed q
    · rw [core_close_of_closed h.down hold] at hnil
      exact .inl (h.empty q hold hnil)
    · obtain ⟨hbelow, hvq⟩ := ((closed_close h.down).mp hq).resolve_left hold
      rw [core_close_of_not_closed h.down hold hvq hbelow] at hnil
      exact .inr ⟨hempty hnil ▸ suffix_rfl, h.root_valid⟩

theorem TreeInv.closed_of_root (h : TreeInv I T A t) (hroot : t.Closed []) (hv : t.Valid p) : t.Closed p := by
  obtain ⟨d, hd, hclosed⟩ := closed_iff.mp hroot
  obtain ⟨d', hd'⟩ := Option.isSome_iff_exists.mp hv
  have hbelow : t.m_root.get (p ++ []) = some d' := by rwa [append_nil]
  exact closed_iff.mpr ⟨d', hd', h.down.below hd hclosed p hbelow⟩

/-- Closing a subtree can only leave the parent of its root open with closed children. -/
theorem UpAt.close (hdown : t.m_root.Down) (hup : ∀ q, ¬ p <:+ q → UpAt t q) (hq : ∀ turn, turn :: q ≠ p) :
    UpAt (t.close p C) q := by
  intro hl hr
  by_cases hbelow : p <:+ q
  · have hv : t.Valid q := ((valid_close hdown).mp hl.valid).parent
    exact (closed_close hdown).mpr (.inr ⟨hbelow, hv⟩)
  · have hchild turn (hc : (t.close p C).Closed (turn :: q)) : t.Closed (turn :: q) := by
      refine ((closed_close hdown).mp hc).resolve_right fun ⟨hsuffix, _⟩ => ?_
      rcases suffix_cons_iff.mp hsuffix with heq | hsuffix
      · exact hq turn heq.symm
      · exact hbelow hsuffix
    exact (closed_close hdown).mpr (.inl (hup q hbelow (hchild false hl) (hchild true hr)))

/-- The invariant with no node left open above closed children. -/
structure Solved (I : Interp E M) (T : Set E) (A : List E) (t : tree E) : Prop where
  inv : TreeInv I T A t
  up : ∀ q, UpAt t q

variable [DecidableEq E]

theorem path_contains_iff : t.path_contains l p ↔ t.OnPath p l := by
  induction p with
  | nil => rw [path_contains, onPath_nil, beq_iff_eq]
  | cons turn p ih => rw [path_contains, onPath_cons, Bool.or_eq_true, beq_iff_eq, ih]

/-- Where the resolvent is attached all of its literals are on the path, unless this is `p` itself. -/
theorem find_highest_attach_spec (res : List E) (p : node_ptr) : t.find_highest_attach p res <:+ p ∧
    (t.find_highest_attach p res = p ∨ ∀ l ∈ res, t.OnPath (t.find_highest_attach p res) l) := by
  have hloop attach (hattach : attach <:+ p) (hfound : attach = p ∨ ∀ l ∈ res, t.OnPath attach l) q (hq : q <:+ p) :
      t.find_highest_attach_loop res attach q <:+ p ∧ (t.find_highest_attach_loop res attach q = p ∨
          ∀ l ∈ res, t.OnPath (t.find_highest_attach_loop res attach q) l) := by
    induction q generalizing attach with
    | nil =>
      rw [find_highest_attach_loop]
      split
      next hall => exact ⟨hq, .inr fun l hl => path_contains_iff.mp (all_eq_true.mp hall l hl)⟩
      next => exact ⟨hattach, hfound⟩
    | cons turn q ih =>
      rw [find_highest_attach_loop]
      have hq' : q <:+ p := (suffix_cons turn q).trans hq
      split
      next hall => exact ih _ hq (.inr fun l hl => path_contains_iff.mp (all_eq_true.mp hall l hl)) hq'
      next => exact ih _ hattach hfound hq'
  exact hloop p suffix_rfl (.inl rfl) p suffix_rfl

theorem mem_foldl_push (x : Option E) (xs res : List E) (l : E) :
    l ∈ xs.foldl (fun res lit => if some lit ≠ x ∧ lit ∉ res then res ++ [lit] else res) res ↔
      l ∈ res ∨ (l ∈ xs ∧ some l ≠ x) := by
  induction xs generalizing res with
  | nil => simp
  | cons y xs ih =>
    have hpush : l ∈ (if some y ≠ x ∧ y ∉ res then res ++ [y] else res) ↔ l ∈ res ∨ (l = y ∧ some l ≠ x) := by
      split <;> grind
    rw [foldl_cons, ih, hpush, mem_cons, or_assoc, or_and_right]

theorem mem_compute_sibling_resolvent :
    l ∈ t.compute_sibling_resolvent p ↔ (l ∈ t.core (false :: p) ∧ some l ≠ t.literal (false :: p)) ∨
        (l ∈ t.core (true :: p) ∧ some l ≠ t.literal (true :: p)) := by
  rw [compute_sibling_resolvent]
  simp only [mem_foldl_push, not_mem_nil, false_or]

omit [DecidableEq E] in
theorem resolvable_iff : t.resolvable p ↔
    t.Closed (false :: p) ∧ t.Closed (true :: p) ∧ t.core (false :: p) ≠ [] ∧ t.core (true :: p) ≠ [] := by
  simp [resolvable, and_assoc]

section

variable (h : TreeInv I T A t)
include h

/-- The resolvent is a core for the parent of the two nodes. -/
theorem TreeInv.resolvent (hl : t.Closed (false :: p)) (hr : t.Closed (true :: p)) :
    I.Core T (t.compute_sibling_resolvent p) ∧ ∀ l ∈ t.compute_sibling_resolvent p, l ∈ A ∨ t.OnPath p l := by
  obtain ⟨-, -, a, b, ha, hb, hab⟩ := h.siblings p false hl.valid
  constructor
  · refine Interp.Core.resolve hab (h.core _ hl) (h.core _ hr) ?_ ?_
    · intro e he hne
      refine mem_compute_sibling_resolvent.mpr (.inl ⟨he, ?_⟩)
      rw [ha]
      exact fun heq => hne (Option.some.inj heq)
    · intro e he hne
      refine mem_compute_sibling_resolvent.mpr (.inr ⟨he, ?_⟩)
      rw [hb]
      exact fun heq => hne (Option.some.inj heq)
  · intro l hmem
    rcases mem_compute_sibling_resolvent.mp hmem with ⟨hmem, hne⟩ | ⟨hmem, hne⟩
    · exact (h.core_path _ hl l hmem).imp_right fun hpath =>
        (onPath_cons.mp hpath).resolve_left fun heq => hne heq.symm
    · exact (h.core_path _ hr l hmem).imp_right fun hpath =>
        (onPath_cons.mp hpath).resolve_left fun heq => hne heq.symm

omit [DecidableEq E] in
/-- Children that cannot be resolved do not leave an open parent behind. -/
theorem TreeInv.upAt_of_not_resolvable (hres : ¬ t.resolvable p) : UpAt t p := by
  intro hl hr
  have hroot : t.Closed [] := by
    by_contra hopen
    have hne q hq : t.core q ≠ [] := fun hnil => hopen (h.empty q hq hnil)
    exact hres (resolvable_iff.mpr ⟨hl, hr, hne _ hl, hne _ hr⟩)
  exact h.closed_of_root hroot hl.valid.parent

omit [DecidableEq E] in
theorem TreeInv.close_root (hcore : I.Core T []) : Solved I T A (t.close [] []) where
  inv := h.close hcore (by simp) fun _ => rfl
  up _ := UpAt.close h.down (fun q hq => absurd nil_suffix hq) fun _ => cons_ne_nil _ _

/-- A node whose children are closed: nothing is resolved, or the whole tree is closed, or the resolvent is used. -/
theorem TreeInv.resolve {t' : tree E} (hup : ∀ q, q ≠ p → UpAt t q)
    (hnext : I.Core T (t.compute_sibling_resolvent p) → (∀ l ∈ t.compute_sibling_resolvent p, l ∈ A ∨ t.OnPath p l) →
      t.compute_sibling_resolvent p ≠ [] → Solved I T A t') :
    Solved I T A (if !t.resolvable p then t
      else if (t.compute_sibling_resolvent p).isEmpty then t.close [] (t.compute_sibling_resolvent p) else t') := by
  by_cases hres : t.resolvable p
  · obtain ⟨hl, hr, -, -⟩ := resolvable_iff.mp hres
    obtain ⟨hcore, hpath⟩ := h.resolvent hl hr
    rw [if_neg (by simp [hres])]
    split
    next hnil =>
      rw [List.isEmpty_iff.mp hnil] at hcore ⊢
      exact h.close_root hcore
    next hne => exact hnext hcore hpath fun heq => hne (List.isEmpty_iff.mpr heq)
  · rw [if_pos (by simp [hres])]
    refine ⟨h, fun q => ?_⟩
    by_cases hq : q = p
    · exact hq ▸ h.upAt_of_not_resolvable hres
    · exact hup q hq

theorem propagate_closure_upward_spec (cur : node_ptr)
    (hup : ∀ q, (∀ turn, turn :: q ≠ cur) → UpAt t q) : Solved I T A (t.propagate_closure_upward cur) := by
  induction cur generalizing t with
  | nil => exact ⟨h, fun q => hup q fun _ => cons_ne_nil _ _⟩
  | cons turn parent ih =>
    have hother q (hne : q ≠ parent) : UpAt t q := hup q fun _ heq => hne (cons.inj heq).2
    refine h.resolve hother fun hcore hpath hne => ?_
    exact ih (h.close hcore hpath fun heq => absurd heq hne) fun q hq =>
      UpAt.close h.down (fun q hq => hother q fun heq => hq (heq ▸ suffix_rfl)) hq

/-- The resolvent of two closed nodes closes the highest node that has its literals on the path, or the root if it is
empty. This goes on upwards as far as both children of a node are closed. -/
theorem resolve_upward_spec (hup : ∀ q, q ≠ p → UpAt t q) : Solved I T A (t.resolve_upward p) := by
  refine h.resolve hup fun hcore hpath hne => ?_
  obtain ⟨habove, hfound⟩ := find_highest_attach_spec (t.compute_sibling_resolvent p) p
  have hpath' : ∀ l ∈ t.compute_sibling_resolvent p,
      l ∈ A ∨ t.OnPath (t.find_highest_attach p (t.compute_sibling_resolvent p)) l := by
    rcases hfound with heq | hall
    · rwa [heq]
    · exact fun l hl => .inr (hall l hl)
  have hclose := h.close hcore hpath' fun heq => absurd heq hne
  -- the node whose children were resolved is below the one that is closed
  exact propagate_closure_upward_spec hclose _ fun q hq =>
    UpAt.close h.down (fun q hq => hup q fun heq => hq (heq ▸ habove)) hq

/-- The call goes up from a node whose literal is not in the core, closes the first one whose literal is, and then
closes the ancestors with two closed children by resolution. It stops at a node that is closed with a part of the
core. -/
theorem close_with_core_spec (hup : ∀ q, UpAt t q) (hcore : I.Core T C) (n : node_ptr)
    (hpath : ∀ l ∈ C, l ∈ A ∨ t.OnPath n l) (hempty : C = [] → n = []) : Solved I T A (t.close_with_core C n) := by
  fun_induction close_with_core with
  | case1 | case3 => exact ⟨h, hup⟩
  | case2 =>
    exact ⟨h.close hcore hpath hempty,
      fun q => .close h.down (fun q hq => absurd nil_suffix hq) fun _ => cons_ne_nil _ _⟩
  | case4 _ _ _ hnot ih =>
    -- the literal of the node is not in the conflict
    refine ih (fun l hl => (hpath l hl).imp_right fun hl' => ?_) fun heq => absurd (hempty heq) (cons_ne_nil _ _)
    have hne := all_eq_true.mp hnot l hl
    exact (onPath_cons.mp hl').resolve_left fun heq => of_decide_eq_true hne heq.symm
  | case5 =>
    have hclose := h.close hcore hpath hempty
    exact resolve_upward_spec hclose fun q hq =>
      UpAt.close h.down (fun q _ => hup q) fun _ heq => hq (cons.inj heq).2

end

/-- Where the conflict is attached, and that no literal of the path is lost there. -/
theorem conflict_node_spec {m : node_ptr} (hm : t.conflict_node C n = some m) :
    m <:+ n ∧ (∀ l ∈ C, t.OnPath n l → t.OnPath m l) ∧ ∃ l ∈ C, t.literal m = some l := by
  induction n with
  | nil =>
    obtain ⟨hany, hm⟩ := Option.ite_none_right_eq_some.mp hm
    cases hm
    obtain ⟨l, hl, heq⟩ := any_eq_true.mp hany
    exact ⟨suffix_rfl, fun _ _ h => h, l, hl, (of_decide_eq_true heq).symm⟩
  | cons turn p ih =>
    rw [conflict_node] at hm
    split at hm
    next hany =>
      cases hm
      obtain ⟨l, hl, heq⟩ := any_eq_true.mp hany
      exact ⟨suffix_rfl, fun _ _ h => h, l, hl, (of_decide_eq_true heq).symm⟩
    next hnone =>
      obtain ⟨hsuffix, hkeep, hlit⟩ := ih hm
      refine ⟨hsuffix.trans (suffix_cons _ _), fun l hl hpath => ?_, hlit⟩
      refine hkeep l hl ((onPath_cons.mp hpath).resolve_left fun heq => hnone ?_)
      exact any_eq_true.mpr ⟨l, hl, decide_eq_true heq.symm⟩

/-- The walk up from a node finds a literal of the core that is on its path. -/
theorem conflict_node_isSome (hl : l ∈ C) (hpath : t.OnPath n l) : (t.conflict_node C n).isSome := by
  induction n with
  | nil =>
    rw [conflict_node, if_pos]
    · rfl
    · exact any_eq_true.mpr ⟨l, hl, decide_eq_true (onPath_nil.mp hpath).symm⟩
  | cons turn p ih =>
    rw [conflict_node]
    split
    next => rfl
    next hnone =>
      refine ih ((onPath_cons.mp hpath).resolve_left fun heq => hnone ?_)
      exact any_eq_true.mpr ⟨l, hl, decide_eq_true heq.symm⟩

/-- The nearest node on the way up whose literal is in the core is closed, or the root if the core is empty. -/
theorem backtrack_spec (h : TreeInv I T A t) (hup : ∀ q, UpAt t q) (hcore : I.Core T C)
    (hpath : ∀ l ∈ C, l ∈ A ∨ t.OnPath n l) {t' : tree E} (hback : t.backtrack n C = some t') : Solved I T A t' := by
  revert hback
  fun_cases backtrack with
  | case1 =>
    rintro ⟨⟩
    exact ⟨h, hup⟩
  | case2 _ hnil =>
    rintro ⟨⟩
    rw [List.isEmpty_iff] at hnil
    subst hnil
    exact close_with_core_spec h hup hcore [] (by simp) fun _ => rfl
  | case3 _ hne =>
    intro hback
    rw [List.isEmpty_iff] at hne
    obtain ⟨m, hm, rfl⟩ := Option.map_eq_some_iff.mp hback
    obtain ⟨-, hkeep, -⟩ := conflict_node_spec hm
    exact close_with_core_spec h hup hcore m (fun l hl => (hpath l hl).imp_right (hkeep l hl)) fun heq => absurd heq hne

/-- The walk up to the conflict ends when the conflict is empty or has a literal of the path. -/
theorem backtrack_isSome (h : C = [] ∨ ∃ l ∈ C, t.OnPath n l) : (t.backtrack n C).isSome := by
  fun_cases backtrack with
  | case1 | case2 => rfl
  | case3 _ hne =>
    rw [Option.isSome_map]
    rcases h with heq | ⟨l, hl, hpath⟩
    · exact absurd (List.isEmpty_iff.mpr heq) hne
    · exact conflict_node_isSome hl hpath

end search_tree
