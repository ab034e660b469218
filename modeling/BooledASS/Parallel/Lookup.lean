import BooledASS.Parallel.SearchTree

open List

namespace search_tree

variable {L : Type}

namespace node

@[simp]
theorem data_set_child (turn : Bool) (c n : node L) : (n.set_child turn c).data = n.data := by
  cases n <;> cases turn <;> rfl

variable {f : node L → node L}

theorem child_set_child (hf : f .null = .null) (turn : Bool) (n : node L) :
    (n.set_child turn (f (n.child turn))).child turn = f (n.child turn) := by
  cases n with
  | null => exact hf.symm
  | mk d left right => cases turn <;> rfl

theorem child_set_child_of_ne {turn turn' : Bool} (h : turn' ≠ turn) (c n : node L) :
    (n.set_child turn c).child turn' = n.child turn' := by
  cases n with
  | null => rfl
  | mk d left right => cases turn <;> cases turn' <;> first | rfl | exact absurd rfl h

@[simp]
theorem at_ptr_null (p : node_ptr) : (node.null : node L).at_ptr p = .null := by
  induction p with
  | nil => rfl
  | cons turn p ih => rw [at_ptr, ih]; rfl

theorem at_ptr_append (n : node L) (q p : node_ptr) : n.at_ptr (q ++ p) = (n.at_ptr p).at_ptr q := by
  induction q with
  | nil => rfl
  | cons turn q ih => rw [cons_append, at_ptr, ih]; rfl

theorem get_append (n : node L) (q p : node_ptr) : n.get (q ++ p) = (n.at_ptr p).get q :=
  congrArg data (at_ptr_append n q p)

theorem get_concat (n : node L) (q : node_ptr) (turn : Bool) : n.get (q.concat turn) = (n.child turn).get q := by
  rw [concat_eq_append]
  exact get_append n q [turn]

@[simp]
theorem get_null (p : node_ptr) : (node.null : node L).get p = none := congrArg data (at_ptr_null p)

theorem at_ptr_modify (hf : f .null = .null) (p : node_ptr) (n : node L) :
    (modify p f n).at_ptr p = f (n.at_ptr p) := by
  induction p generalizing f with
  | nil => rfl
  | cons turn p ih =>
    have hparent := ih (f := fun m => m.set_child turn (f (m.child turn))) rfl
    rw [modify, at_ptr, hparent]
    exact child_set_child hf turn _

theorem get_modify_below (hf : f .null = .null) (q p : node_ptr) (n : node L) :
    (modify p f n).get (q ++ p) = (f (n.at_ptr p)).get q := by
  rw [get_append, at_ptr_modify hf]

/-- Only the node and what is below it are touched. -/
theorem get_modify_of_not_below (f : node L → node L) {p q : node_ptr} (h : ¬ p <:+ q) (n : node L) :
    (modify p f n).get q = n.get q := by
  induction p generalizing f with
  | nil => exact absurd nil_suffix h
  | cons turn p ih =>
    rw [modify]
    by_cases hp : p <:+ q
    · obtain ⟨r, rfl⟩ := hp
      rw [get_modify_below rfl, get_append]
      rcases eq_nil_or_concat r with rfl | ⟨r', turn', rfl⟩
      · exact data_set_child _ _ _
      · -- the other child of the same parent
        have hne : turn' ≠ turn := by
          rintro rfl
          exact h ⟨r', by simp⟩
        rw [get_concat, get_concat, child_set_child_of_ne hne]
    · exact ih _ hp

end node

/-- Everything below a closed node is closed. -/
def node.Down (n : node L) : Prop :=
  ∀ p d, n.get p = some d → d.m_status = .closed → ∀ turn d', n.get (turn :: p) = some d' → d'.m_status = .closed

/-- The update of one node in `close`. -/
def node_data.close (C : List L) (d : node_data L) : node_data L :=
  if d.m_status = .closed then d else d.closed_with C

variable {n : node L}

theorem node.Down.at_ptr (h : n.Down) (p : node_ptr) : (n.at_ptr p).Down := by
  intro q d hd hclosed turn d' hd'
  rw [← get_append] at hd hd'
  exact h _ d hd hclosed turn d' hd'

/-- Below a closed node all nodes are closed. -/
theorem node.Down.below (h : n.Down) {p : node_ptr} {d : node_data L} (hd : n.get p = some d)
    (hclosed : d.m_status = .closed) (q : node_ptr) {d' : node_data L} (hd' : n.get (q ++ p) = some d') :
    d'.m_status = .closed := by
  induction q generalizing d' with
  | nil => rwa [← Option.some.inj (hd.symm.trans hd')]
  | cons turn q ih =>
    -- a node that is there has a parent
    cases hparent : n.get (q ++ p) with
    | none =>
      have hnull : n.at_ptr (q ++ p) = .null := by
        cases hn : n.at_ptr (q ++ p) with
        | null => rfl
        | mk d _ _ => rw [node.get, hn] at hparent; cases hparent
      rw [cons_append, get, node.at_ptr, hnull] at hd'
      cases hd'
    | some d1 => exact h _ d1 hparent (ih hparent) turn d' hd'

/-- Closing a node closes all that is below it; closed nodes are left as they are. -/
theorem node.get_close (C : List L) (h : n.Down) (q : node_ptr) :
    (n.close C).get q = (n.get q).map (node_data.close C) := by
  induction n generalizing q with
  | null => rw [close, get_null]; rfl
  | mk d left right ihl ihr =>
    rw [close]
    split
    next hclosed =>
      cases hd : (node.mk d left right).get q with
      | none => rfl
      | some d' =>
        have hclosed' := h.below rfl hclosed q (by rwa [append_nil])
        rw [Option.map_some, node_data.close, if_pos hclosed']
    next hopen =>
      rcases eq_nil_or_concat q with rfl | ⟨q', turn, rfl⟩
      · show some (d.closed_with C) = some (.close C d)
        rw [node_data.close, if_neg hopen]
      · rw [node.get_concat, get_concat]
        cases turn with
        | false => exact ihl (h.at_ptr [false]) q'
        | true => exact ihr (h.at_ptr [true]) q'

namespace tree

variable (t : tree L)

/-- An update of one node is seen at that node only. -/
theorem get_update_node (p : node_ptr) (f : node_data L → node_data L) (q : node_ptr) :
    (t.update_node p f).get q = if q = p then (t.get q).map f else t.get q := by
  by_cases hbelow : p <:+ q
  · obtain ⟨r, rfl⟩ := hbelow
    show (t.m_root.modify p (node.update_data f)).get (r ++ p) = _
    rw [node.get_modify_below rfl, get, node.get_append]
    rcases eq_nil_or_concat r with rfl | ⟨r', turn, rfl⟩
    · rw [if_pos (nil_append p)]
      cases t.m_root.at_ptr p <;> rfl
    · have hne : r'.concat turn ++ p ≠ p := fun h => by
        have hlength := congrArg List.length h
        simp only [length_append, length_concat] at hlength
        omega
      rw [if_neg hne, node.get_concat, node.get_concat]
      cases t.m_root.at_ptr p <;> rfl
  · rw [if_neg (by rintro rfl; exact hbelow suffix_rfl)]
    exact node.get_modify_of_not_below _ hbelow _

theorem get_close (h : t.m_root.Down) (p : node_ptr) (C : List L) (q : node_ptr) :
    (t.close p C).get q = if p <:+ q then (t.get q).map (node_data.close C) else t.get q := by
  split
  next hbelow =>
    obtain ⟨r, rfl⟩ := hbelow
    show (t.m_root.modify p (.close C)).get (r ++ p) = _
    rw [node.get_modify_below rfl, node.get_close C (h.at_ptr p), ← node.get_append]
    rfl
  next hbelow => exact node.get_modify_of_not_below _ hbelow _

/-- A split adds two nodes below an active leaf. -/
theorem get_split {p : node_ptr} (hactive : t.has_status .active p) (hleaf : (t.m_root.at_ptr p).is_leaf)
    (a b : L) (q : node_ptr) :
    (t.m_root.modify p (node.split a b)).get q = if q = false :: p then some { m_literal := some a }
      else if q = true :: p then some { m_literal := some b }
      else t.get q := by
  by_cases hbelow : p <:+ q
  · obtain ⟨r, rfl⟩ := hbelow
    rw [node.get_modify_below rfl, get, node.get_append]
    cases hn : t.m_root.at_ptr p with
    | null => rw [has_status, get, node.get, hn] at hactive; cases hactive
    | mk d left right =>
      have hstatus : d.m_status = .active := by simpa [has_status, get, node.get, hn, node.data] using hactive
      obtain ⟨hl, hr⟩ : left = .null ∧ right = .null := by
        rw [hn] at hleaf
        cases left <;> cases right <;> first | exact ⟨rfl, rfl⟩ | cases hleaf
      subst hl hr
      rw [node.split, if_neg (by simp [hstatus])]
      rcases eq_nil_or_concat r with rfl | ⟨r', turn, rfl⟩
      · rw [if_neg (by simp), if_neg (by simp)]
        rfl
      · rw [node.get_concat, node.get_concat]
        rcases eq_nil_or_concat r' with rfl | ⟨r'', turn', rfl⟩
        · cases turn <;> simp [node.child, node.get, node.data, node.at_ptr]
        · have hne e : (r''.concat turn').concat turn ++ p ≠ e :: p := fun h => by
            have hlength := congrArg List.length h
            simp only [length_append, length_concat, length_cons] at hlength
            omega
          rw [if_neg (hne false), if_neg (hne true), node.get_concat]
          cases turn <;> cases turn' <;> simp [node.child]
  · rw [if_neg (by rintro rfl; exact hbelow (suffix_cons _ _)), if_neg (by rintro rfl; exact hbelow (suffix_cons _ _))]
    exact node.get_modify_of_not_below _ hbelow _

end tree

end search_tree
