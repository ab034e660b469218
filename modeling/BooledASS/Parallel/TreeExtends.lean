import BooledASS.Parallel.Lookup

open Option

namespace search_tree

variable {E : Type}

namespace tree

/-- There is a node. -/
abbrev Valid (t : tree E) (p : node_ptr) : Prop := (t.get p).isSome

abbrev Closed (t : tree E) (p : node_ptr) : Prop := t.has_status .closed p

/-- The literal stands between the node and the root. -/
def OnPath (t : tree E) (p : node_ptr) (l : E) : Prop := ∃ q, q <:+ p ∧ t.literal q = some l

variable {t : tree E} {p q : node_ptr} {C : List E} {l : E}

theorem closed_iff : t.Closed p ↔ ∃ d, t.get p = some d ∧ d.m_status = .closed := by
  simp [Closed, has_status, any_eq_true]

theorem Closed.valid (h : t.Closed p) : t.Valid p := by
  obtain ⟨d, hd, -⟩ := closed_iff.mp h
  exact isSome_of_eq_some hd

theorem Valid.parent {turn : Bool} (h : t.Valid (turn :: p)) : t.Valid p := by
  obtain ⟨d, hd⟩ := isSome_iff_exists.mp h
  rw [get, node.get, node.at_ptr] at hd
  cases hn : t.m_root.at_ptr p with
  | null => rw [hn] at hd; cases hd
  | mk d' _ _ => simp [Valid, get, node.get, hn, node.data]

theorem down_iff : t.m_root.Down ↔ ∀ p turn, t.Closed p → t.Valid (turn :: p) → t.Closed (turn :: p) := by
  constructor
  · intro h p turn hp hv
    obtain ⟨d, hd, hclosed⟩ := closed_iff.mp hp
    obtain ⟨d', hd'⟩ := isSome_iff_exists.mp hv
    exact closed_iff.mpr ⟨d', hd', h p d hd hclosed turn d' hd'⟩
  · intro h p d hd hclosed turn d' hd'
    obtain ⟨d2, hd2, hclosed2⟩ := closed_iff.mp (h p turn (closed_iff.mpr ⟨d, hd, hclosed⟩) (isSome_of_eq_some hd'))
    rwa [← some.inj (hd2.symm.trans hd')]

theorem OnPath.mono (h : t.OnPath p l) (hpq : p <:+ q) : t.OnPath q l := by
  obtain ⟨r, hr, hl⟩ := h
  exact ⟨r, hr.trans hpq, hl⟩

theorem onPath_nil : t.OnPath [] l ↔ t.literal [] = some l := by simp [OnPath]

theorem onPath_cons {turn : Bool} : t.OnPath (turn :: p) l ↔ t.literal (turn :: p) = some l ∨ t.OnPath p l := by
  simp [OnPath, List.suffix_cons_iff]

section Close

variable (hdown : t.m_root.Down)
include hdown

theorem valid_close : (t.close p C).Valid q ↔ t.Valid q := by
  rw [Valid, get_close t hdown]
  split <;> simp

theorem literal_close : (t.close p C).literal q = t.literal q := by
  rw [literal, literal, get_close t hdown]
  split
  next =>
    cases t.get q with
    | none => rfl
    | some d =>
      simp only [map_some, node_data.close]
      split <;> rfl
  next => rfl

theorem onPath_close : (t.close p C).OnPath q l ↔ t.OnPath q l := by simp only [OnPath, literal_close hdown]

theorem closed_close : (t.close p C).Closed q ↔ t.Closed q ∨ (p <:+ q ∧ t.Valid q) := by
  rw [closed_iff, closed_iff, get_close t hdown, Valid]
  split
  next hbelow =>
    cases hd : t.get q with
    | none => simp
    | some d =>
      by_cases hclosed : d.m_status = .closed <;> simp [node_data.close, node_data.closed_with, hclosed, hbelow]
  next hbelow => simp [hbelow]

theorem core_close_of_closed (hq : t.Closed q) : (t.close p C).core q = t.core q := by
  obtain ⟨d, hd, hclosed⟩ := closed_iff.mp hq
  rw [core, core, get_close t hdown, hd]
  split
  next => simp [node_data.close, hclosed]
  next => rfl

theorem core_close_of_not_closed (hq : ¬ t.Closed q) (hv : t.Valid q) (hbelow : p <:+ q) :
    (t.close p C).core q = C := by
  obtain ⟨d, hd⟩ := isSome_iff_exists.mp hv
  have hopen : d.m_status ≠ .closed := fun h => hq (closed_iff.mpr ⟨d, hd, h⟩)
  rw [core, get_close t hdown, if_pos hbelow, hd]
  simp [node_data.close, hopen, node_data.closed_with]

theorem down_close : (t.close p C).m_root.Down := by
  refine down_iff.mpr fun q turn hq hv => ?_
  rw [valid_close hdown] at hv
  rw [closed_close hdown] at hq ⊢
  rcases hq with hq | ⟨hbelow, -⟩
  · exact .inl (down_iff.mp hdown q turn hq hv)
  · exact .inr ⟨hbelow.trans (List.suffix_cons _ _), hv⟩

end Close

end tree

open tree

variable {t t' : tree E} {p q n : node_ptr} {C : List E} {l : E}

/-- Closed nodes stay closed, and no node, literal or epoch of a node that is not closed is changed. -/
structure Extends (t t' : tree E) : Prop where
  valid : ∀ p, t.Valid p → t'.Valid p
  literal : ∀ p, t.Valid p → t'.literal p = t.literal p
  closed : ∀ p, t.Closed p → t'.Closed p
  epoch : ∀ p d d', t.get p = some d → t'.get p = some d' → d'.m_status ≠ .closed → d'.m_cancel_epoch = d.m_cancel_epoch

theorem Extends.refl (t : tree E) : Extends t t where
  valid _ h := h
  literal _ _ := rfl
  closed _ h := h
  epoch _ d d' h h' _ := by rw [some.inj (h.symm.trans h')]

theorem Extends.trans {t' t'' : tree E} (h : Extends t t') (h' : Extends t' t'') : Extends t t'' where
  valid p hp := h'.valid p (h.valid p hp)
  literal p hp := (h'.literal p (h.valid p hp)).trans (h.literal p hp)
  closed p hp := h'.closed p (h.closed p hp)
  epoch p d d'' hd hd'' hopen := by
    obtain ⟨d', hd'⟩ := isSome_iff_exists.mp (h.valid p (isSome_of_eq_some hd))
    have hopen' : d'.m_status ≠ .closed := by
      intro hclosed
      obtain ⟨d3, hd3, hclosed3⟩ := closed_iff.mp (h'.closed p (closed_iff.mpr ⟨d', hd', hclosed⟩))
      exact hopen (some.inj (hd''.symm.trans hd3) ▸ hclosed3)
    exact (h'.epoch p d' d'' hd' hd'' hopen).trans (h.epoch p d d' hd hd' hopen')

theorem Extends.onPath {t' : tree E} (h : Extends t t') (hl : t.OnPath p l) : t'.OnPath p l := by
  obtain ⟨q, hq, hl⟩ := hl
  obtain ⟨d, hd, -⟩ := bind_eq_some_iff.mp hl
  exact ⟨q, hq, (h.literal q (isSome_of_eq_some hd)).trans hl⟩

theorem extends_close (hdown : t.m_root.Down) : Extends t (t.close p C) where
  valid _ := (valid_close hdown).mpr
  literal _ _ := literal_close hdown
  closed _ hq := (closed_close hdown).mpr (.inl hq)
  epoch q d d' hd hd' hopen := by
    rw [get_close t hdown, hd] at hd'
    split at hd'
    next =>
      rw [map_some, some_inj, node_data.close] at hd'
      split at hd'
      next => rw [hd']
      next => exact absurd (hd' ▸ rfl) hopen
    next => rw [some.inj hd']

/-- No node is closed; nodes may be added. -/
structure Grows (t t' : tree E) : Prop extends Extends t t' where
  open_ : ∀ p, t'.Closed p → t.Closed p
  core : ∀ p, t.Closed p → t'.core p = t.core p
  down : t.m_root.Down → t'.m_root.Down

theorem Grows.refl (t : tree E) : Grows t t where
  toExtends := .refl t
  open_ _ h := h
  core _ _ := rfl
  down h := h

theorem Grows.trans {t'' : tree E} (h : Grows t t') (h' : Grows t' t'') : Grows t t'' where
  toExtends := h.toExtends.trans h'.toExtends
  open_ p hp := h.open_ p (h'.open_ p hp)
  core p hp := (h'.core p (h.closed p hp)).trans (h.core p hp)
  down hdown := h'.down (h.down hdown)

/-- An update of one node that leaves its literal, its core, its epoch and whether it is closed. -/
structure Tame (f : node_data E → node_data E) (d : node_data E) : Prop where
  literal : (f d).m_literal = d.m_literal
  closed : (f d).m_status = .closed ↔ d.m_status = .closed
  core : (f d).m_core = d.m_core
  epoch : (f d).m_cancel_epoch = d.m_cancel_epoch

section Update

variable {f : node_data E → node_data E} (hf : ∀ d, t.get n = some d → Tame f d)
include hf

theorem get_update_node_tame (p : node_ptr) : t.get p = none ∧ (t.update_node n f).get p = none ∨
    ∃ d d', t.get p = some d ∧ (t.update_node n f).get p = some d' ∧ d'.m_literal = d.m_literal ∧
    (d'.m_status = .closed ↔ d.m_status = .closed) ∧ d'.m_core = d.m_core ∧ d'.m_cancel_epoch = d.m_cancel_epoch := by
  rw [get_update_node]
  cases hd : t.get p with
  | none => exact .inl ⟨rfl, by simp⟩
  | some d =>
    refine .inr ?_
    by_cases hp : p = n
    · subst hp
      have htame := hf d hd
      exact ⟨d, f d, rfl, by simp, htame.literal, htame.closed, htame.core, htame.epoch⟩
    · exact ⟨d, d, rfl, by simp [hp], rfl, Iff.rfl, rfl, rfl⟩

theorem valid_update_node : (t.update_node n f).Valid p ↔ t.Valid p := by
  rcases get_update_node_tame hf p with ⟨h, h'⟩ | ⟨d, d', h, h', -⟩ <;> simp [h, h']

theorem literal_update_node : (t.update_node n f).literal p = t.literal p := by
  rcases get_update_node_tame hf p with ⟨h, h'⟩ | ⟨d, d', h, h', hlit, -⟩
  · rw [literal, literal, h, h']
  · rw [literal, literal, h, h']
    exact hlit

theorem closed_update_node : (t.update_node n f).Closed p ↔ t.Closed p := by
  rw [closed_iff, closed_iff]
  rcases get_update_node_tame hf p with ⟨h, h'⟩ | ⟨d, d', h, h', -, hclosed, -⟩
  · simp [h, h']
  · simp [h, h', hclosed]

/-- An update that keeps the literal and the core of a node and whether it is closed only makes the tree grow. -/
theorem grows_update_node : Grows t (t.update_node n f) where
  valid _ := (valid_update_node hf).mpr
  literal _ _ := literal_update_node hf
  closed _ := (closed_update_node hf).mpr
  epoch p d1 d2 h1 h2 _ := by
    rcases get_update_node_tame hf p with ⟨h, -⟩ | ⟨d, d', h, h', -, -, -, hepoch⟩
    · rw [h] at h1
      cases h1
    · rwa [← some.inj (h.symm.trans h1), ← some.inj (h'.symm.trans h2)]
  open_ _ := (closed_update_node hf).mp
  core p _ := by
    rw [core, core]
    rcases get_update_node_tame hf p with ⟨h, h'⟩ | ⟨d, d', h, h', -, -, hcore, -⟩
    · rw [h, h']
    · rw [h, h']
      exact hcore
  down hdown := by
    simp only [down_iff, closed_update_node hf, valid_update_node hf] at hdown ⊢
    exact hdown

end Update

theorem tame_mark_new_activation {d : node_data E} (h : d.m_status ≠ .closed) :
    Tame (fun d => d.mark_new_activation) d where
  literal := rfl
  closed := iff_of_false (fun hactive => nomatch hactive) h
  core := rfl
  epoch := rfl

theorem tame_dec_active_workers (d : node_data E) : Tame (fun d => d.dec_active_workers) d := by
  constructor <;> simp only [node_data.dec_active_workers] <;> split <;> split <;> simp_all

theorem tame_update_round_max_effort (effort : UInt32) (d : node_data E) :
    Tame (fun d => d.update_round_max_effort effort) d := by
  constructor <;> simp only [node_data.update_round_max_effort] <;> split <;> rfl

theorem not_closed_of_active (h : t.has_status .active n) : ¬ t.Closed n := by
  intro hclosed
  obtain ⟨d, hd, hclosed⟩ := closed_iff.mp hclosed
  rw [has_status, hd, any_some, hclosed] at h
  cases h

section Split

variable {a b : E} (hactive : t.has_status .active n) (hleaf : (t.m_root.at_ptr n).is_leaf)
include hactive hleaf

omit hactive in
theorem get_leaf (turn : Bool) : t.get (turn :: n) = none := by
  rw [tree.get, node.get, node.at_ptr]
  cases hn : t.m_root.at_ptr n with
  | null => rfl
  | mk d left right =>
    rw [hn] at hleaf
    cases left <;> cases right <;> cases turn <;> first | rfl | cases hleaf

theorem get_split_of_some {d : node_data E} (hd : t.get p = some d) :
    (t.m_root.modify n (node.split a b)).get p = some d := by
  have hne turn : p ≠ turn :: n := by
    rintro rfl
    rw [get_leaf hleaf] at hd
    cases hd
  rw [get_split t hactive hleaf, if_neg (hne false), if_neg (hne true), hd]

/-- The new nodes are open. -/
theorem closed_of_split (hp : tree.Closed { t with m_root := t.m_root.modify n (node.split a b) } p) :
    t.Closed p := by
  obtain ⟨d, hd, hclosed⟩ := closed_iff.mp hp
  rw [tree.get, get_split t hactive hleaf] at hd
  split_ifs at hd
  · rw [← some.inj hd] at hclosed; cases hclosed
  · rw [← some.inj hd] at hclosed; cases hclosed
  · exact closed_iff.mpr ⟨d, hd, hclosed⟩

/-- A split adds two open children to a leaf. -/
theorem grows_split : Grows t { t with m_root := t.m_root.modify n (node.split a b) } where
  valid p hp := by
    obtain ⟨d, hd⟩ := isSome_iff_exists.mp hp
    exact isSome_of_eq_some (get_split_of_some hactive hleaf hd)
  literal p hp := by
    obtain ⟨d, hd⟩ := isSome_iff_exists.mp hp
    rw [literal, literal, hd, tree.get, get_split_of_some hactive hleaf hd]
  closed p hp := by
    obtain ⟨d, hd, hclosed⟩ := closed_iff.mp hp
    exact closed_iff.mpr ⟨d, get_split_of_some hactive hleaf hd, hclosed⟩
  epoch p d d' hd hd' _ := by rw [← some.inj ((get_split_of_some hactive hleaf hd).symm.trans hd')]
  open_ _ := closed_of_split hactive hleaf
  core p hp := by
    obtain ⟨d, hd, -⟩ := closed_iff.mp hp
    rw [core, core, hd, tree.get, get_split_of_some hactive hleaf hd]
  down hdown := by
    refine down_iff.mpr fun q turn hq hv => ?_
    have hq' := closed_of_split hactive hleaf hq
    have hqn : q ≠ n := by
      rintro rfl
      exact not_closed_of_active hactive hq'
    have hget : tree.get { t with m_root := t.m_root.modify n (node.split a b) } (turn :: q) = t.get (turn :: q) := by
      rw [tree.get, get_split t hactive hleaf, if_neg (by simp [hqn]), if_neg (by simp [hqn])]
    rw [Valid, hget] at hv
    rw [Closed, has_status, hget]
    exact down_iff.mp hdown q turn hq' hv

end Split

theorem active_leaf_of_should_split {rand : UInt32} (h : t.should_split rand n) :
    t.has_status .active n ∧ (t.m_root.at_ptr n).is_leaf := by
  rw [should_split] at h
  split at h
  next => cases h
  next hguard => simpa using hguard

theorem grows_try_split (t : tree E) (n : node_ptr) (epoch effort rand : UInt32) (a b : E) :
    Grows t (t.try_split n epoch a b effort rand).2 := by
  have hgrow := grows_update_node (t := t) (n := n) fun d _ => tame_update_round_max_effort effort d
  fun_cases try_split with
  | case1 => exact .refl t
  | case2 _ _ hsplit =>
    obtain ⟨hactive, hleaf⟩ := active_leaf_of_should_split hsplit
    exact hgrow.trans (grows_split hactive hleaf)
  | case3 => exact hgrow

section Select

variable (t) (s : status)

/-- A chosen node is the one chosen before, or a node below with the status that is not closed. -/
theorem select_next_node_some (cur : node_ptr) (best : candidate) (n : node E) (hn : t.m_root.at_ptr cur = n)
    {m : node_ptr} (hm : (t.select_next_node s cur best n).n = some m) :
    best.n = some m ∨ ∃ d, t.get m = some d ∧ d.m_status ≠ .closed := by
  fun_induction select_next_node with
  | case1 | case2 => exact .inl hm
  | case3 cur best d left right hopen best' ihl ihr =>
    have hleft : t.m_root.at_ptr (false :: cur) = left := by rw [node.at_ptr, hn]; rfl
    have hright : t.m_root.at_ptr (true :: cur) = right := by rw [node.at_ptr, hn]; rfl
    rcases ihr hright hm with hm | hfound
    · rcases ihl hleft hm with hm | hfound
      · dsimp only [best'] at hm
        split_ifs at hm
        · cases hm
          exact .inr ⟨d, by rw [tree.get, node.get, hn]; rfl, hopen⟩
        · exact .inl hm
        · exact .inl hm
      · exact .inr hfound
    · exact .inr hfound

theorem select_next_node_isSome_of_best (cur : node_ptr) {best : candidate} (n : node E) (hbest : best.n.isSome) :
    (t.select_next_node s cur best n).n.isSome := by
  fun_induction select_next_node with
  | case1 | case2 => exact hbest
  | case3 _ _ _ _ _ _ best' ihl ihr =>
    refine ihr (ihl ?_)
    dsimp only [best']
    split_ifs
    · rfl
    · exact hbest
    · exact hbest

theorem select_next_node_isSome {d : node_data E} (left right : node E) (hopen : d.m_status ≠ .closed)
    (hstatus : d.m_status = s) : (t.select_next_node s [] {} (.mk d left right)).n.isSome := by
  rw [select_next_node, if_neg hopen]
  refine select_next_node_isSome_of_best t s _ right (select_next_node_isSome_of_best t s _ left ?_)
  rw [if_pos hstatus]
  rfl

theorem best_node_some {m : node_ptr} (hm : t.best_node = some m) : ∃ d, t.get m = some d ∧ d.m_status ≠ .closed := by
  rw [best_node] at hm
  split at hm
  next n hn =>
    cases hm
    exact (select_next_node_some t _ [] {} t.m_root rfl hn).resolve_left (by simp)
  next => exact (select_next_node_some t _ [] {} t.m_root rfl hm).resolve_left (by simp)

/-- A root that is not closed can itself be chosen. -/
theorem best_node_none {d : node_data E} (hd : t.get [] = some d) (hnone : t.best_node = none) :
    d.m_status = .closed := by
  cases hroot : t.m_root with
  | null => rw [tree.get, hroot] at hd; cases hd
  | mk d' left right =>
    obtain rfl : d' = d := by
      rw [tree.get, hroot] at hd
      exact some.inj hd
    by_contra hopen
    rw [best_node, hroot] at hnone
    split at hnone
    next => cases hnone
    next hopen_none =>
      cases hstatus : d'.m_status with
      | closed => exact hopen hstatus
      | open_ =>
        have hsome := select_next_node_isSome t .open_ left right hopen hstatus
        rw [hopen_none] at hsome
        cases hsome
      | active =>
        have hsome := select_next_node_isSome t .active left right hopen hstatus
        rw [hnone] at hsome
        cases hsome

theorem grows_activate_root : Grows t t.activate_root.2 := by
  rw [activate_root]
  split
  next => exact .refl t
  next hopen =>
    exact grows_update_node fun d hd =>
      tame_mark_new_activation fun hclosed => hopen (closed_iff.mpr ⟨d, hd, hclosed⟩)

theorem grows_activate_best_node : Grows t t.activate_best_node.2 := by
  rw [activate_best_node]
  split
  next => exact .refl t
  next n hn =>
    obtain ⟨d, hd, hopen⟩ := best_node_some t hn
    exact grows_update_node fun d' hd' =>
      tame_mark_new_activation (some.inj (hd.symm.trans hd') ▸ hopen)

end Select

/-- Nodes are closed. -/
structure Shuts (t t' : tree E) : Prop where
  down : t'.m_root.Down
  ext : Extends t t'

theorem Shuts.refl (h : t.m_root.Down) : Shuts t t := ⟨h, .refl t⟩
theorem Shuts.trans {t'' : tree E} (h : Shuts t t') (h' : Shuts t' t'') : Shuts t t'' := ⟨h'.down, h.ext.trans h'.ext⟩

theorem shuts_close (h : t.m_root.Down) (p : node_ptr) (C : List E) : Shuts t (t.close p C) :=
  ⟨down_close h, extends_close h⟩

variable [DecidableEq E]

theorem shuts_propagate_closure_upward (h : t.m_root.Down) (cur : node_ptr) :
    Shuts t (t.propagate_closure_upward cur) := by
  fun_induction propagate_closure_upward with
  | case1 | case2 => exact .refl h
  | case3 => exact shuts_close h _ _
  | case4 _ _ _ _ _ _ ih => exact (shuts_close h _ _).trans (ih (down_close h))

theorem shuts_resolve_upward (h : t.m_root.Down) (p : node_ptr) : Shuts t (t.resolve_upward p) := by
  fun_cases resolve_upward with
  | case1 => exact .refl h
  | case2 => exact shuts_close h _ _
  | case3 => exact (shuts_close h _ _).trans (shuts_propagate_closure_upward (down_close h) _)

theorem shuts_close_with_core (h : t.m_root.Down) (C : List E) (n : node_ptr) : Shuts t (t.close_with_core C n) := by
  fun_induction close_with_core with
  | case1 | case3 => exact .refl h
  | case2 => exact shuts_close h _ _
  | case4 _ _ _ _ ih => exact ih
  | case5 _ p => exact (shuts_close h _ _).trans (shuts_resolve_upward (down_close h) p)

/-- Backtracking closes nodes, and opens none. -/
theorem shuts_backtrack (h : t.m_root.Down) (hback : t.backtrack n C = some t') : Shuts t t' := by
  revert hback
  fun_cases backtrack with
  | case1 =>
    rintro ⟨⟩
    exact .refl h
  | case2 =>
    rintro ⟨⟩
    exact shuts_close_with_core h _ _
  | case3 =>
    intro hback
    obtain ⟨m, -, rfl⟩ := map_eq_some_iff.mp hback
    exact shuts_close_with_core h _ _

end search_tree
