import Mathlib.Data.List.Basic

namespace search_tree

inductive status where
  | open_
  | closed
  | active
deriving DecidableEq, Repr

/-- The fields of a node apart from its pointers. The literal of the root is null. -/
structure node_data (L : Type) where
  m_literal : Option L
  m_status : status := .open_
  m_core : List L := []
  m_num_activations : UInt32 := 0
  m_effort_spent : UInt32 := 0
  m_round_max_effort : UInt32 := 0
  m_active_workers : UInt32 := 0
  m_cancel_epoch : UInt32 := 0
deriving Repr

/-- A node with the nodes below it. -/
inductive node (L : Type) where
  | null
  | mk (data : node_data L) (left right : node L)
deriving Repr

/-- A pointer to a node: the turns on the way from the node up to the root, `false` for the left child. -/
abbrev node_ptr := List Bool

namespace node_data

variable {L : Type} (d : node_data L)

def mark_new_activation : node_data L :=
  { d with
    m_status := .active
    m_num_activations := d.m_num_activations + 1
    m_active_workers := d.m_active_workers + 1 }

def dec_active_workers : node_data L :=
  let d := if d.m_active_workers > 0 then { d with m_active_workers := d.m_active_workers - 1 } else d
  if d.m_active_workers = 0 ∧ d.m_status = .active then { d with m_round_max_effort := 0, m_status := .open_ }
  else d

def update_round_max_effort (effort : UInt32) : node_data L :=
  if effort ≤ d.m_round_max_effort then d
  else { d with m_effort_spent := d.m_effort_spent - d.m_round_max_effort + effort, m_round_max_effort := effort }

/-- The update that `close` makes to a node that is not closed. -/
def closed_with (C : List L) : node_data L :=
  { d with m_cancel_epoch := d.m_cancel_epoch + 1, m_status := .closed, m_core := C }

end node_data

namespace node

variable {L : Type}

def child (turn : Bool) : node L → node L
  | .null => .null
  | .mk _ left right => if turn then right else left

def set_child (turn : Bool) : node L → node L → node L
  | .null, _ => .null
  | .mk d left right, c => if turn then .mk d left c else .mk d c right

/-- The node that a pointer points to. -/
def at_ptr (root : node L) : node_ptr → node L
  | [] => root
  | turn :: p => (at_ptr root p).child turn

def data : node L → Option (node_data L)
  | .null => none
  | .mk d _ _ => some d

/-- The fields of the node that a pointer points to. -/
def get (root : node L) (p : node_ptr) : Option (node_data L) := (root.at_ptr p).data

def modify : node_ptr → (node L → node L) → node L → node L
  | [], f, root => f root
  | turn :: p, f, root => modify p (fun n => n.set_child turn (f (n.child turn))) root

def update_data (f : node_data L → node_data L) : node L → node L
  | .null => .null
  | .mk d left right => .mk (f d) left right

def is_leaf : node L → Bool
  | .null => true
  | .mk _ left right => left.data.isNone && right.data.isNone

def split (a b : L) : node L → node L
  | .null => .null
  | .mk d left right =>
    if d.m_status ≠ .active then .mk d left right
    else .mk d (.mk { m_literal := some a } .null .null) (.mk { m_literal := some b } .null .null)

/-- Closed nodes are left as they are, with all that is below them. -/
def close (C : List L) : node L → node L
  | .null => .null
  | .mk d left right =>
    if d.m_status = .closed then .mk d left right
    else .mk (d.closed_with C) (close C left) (close C right)

def has_unvisited_open_node : node L → Bool
  | .null => false
  | .mk d left right =>
    if d.m_status = .closed then false
    else if d.m_status = .open_ ∧ d.m_num_activations = 0 then true
    else has_unvisited_open_node left || has_unvisited_open_node right

def count_unsolved_nodes : node L → UInt32
  | .null => 0
  | .mk d left right =>
    if d.m_status = .closed then 0 else 1 + count_unsolved_nodes left + count_unsolved_nodes right

def count_active_nodes : node L → UInt32
  | .null => 0
  | .mk d left right =>
    if d.m_status = .closed then 0
    else (if d.m_status = .active then 1 else 0) + count_active_nodes left + count_active_nodes right

/-- `depth` is that of the node. -/
def find_shallowest_timed_out_leaf_depth (depth best_depth : Nat) : node L → Nat
  | .null => best_depth
  | .mk d left right =>
    if d.m_status = .closed then best_depth
    else
      let best_depth := if is_leaf (.mk d left right) ∧ d.m_effort_spent > 0 then min best_depth depth else best_depth
      find_shallowest_timed_out_leaf_depth (depth + 1)
        (find_shallowest_timed_out_leaf_depth (depth + 1) best_depth left) right

end node

structure candidate where
  n : Option node_ptr := none
  scaled_effort : UInt32 := 4294967295
  depth : Nat := 0

/-- Lower effort bands come first, then deeper nodes. -/
def better (a b : candidate) : Bool :=
  if a.n.isNone then false
  else if b.n.isNone then true
  else if a.scaled_effort ≠ b.scaled_effort then a.scaled_effort < b.scaled_effort
  else if a.depth ≠ b.depth then a.depth > b.depth
  else false

structure tree (L : Type) where
  m_root : node L := .mk { m_literal := none } .null .null
  m_expand_factor : UInt32 := 2
  m_effort_unit : UInt32 := 1000
  m_min_tree_size : UInt32 := 0

namespace tree

variable {L : Type} (t : tree L)

def get (p : node_ptr) : Option (node_data L) := t.m_root.get p
def literal (p : node_ptr) : Option L := (t.get p).bind (·.m_literal)
def has_status (s : status) (p : node_ptr) : Bool := (t.get p).any (·.m_status = s)
def core (p : node_ptr) : List L := ((t.get p).map (·.m_core)).getD []

def update_node (p : node_ptr) (f : node_data L → node_data L) : tree L :=
  { t with m_root := t.m_root.modify p (node.update_data f) }

def close (p : node_ptr) (C : List L) : tree L := { t with m_root := t.m_root.modify p (node.close C) }
def scaled_effort (d : node_data L) : UInt32 := d.m_effort_spent / (if t.m_effort_unit < 1 then 1 else t.m_effort_unit)

def select_next_node (target_status : status) : node_ptr → candidate → node L → candidate
  | _, best, .null => best
  | cur, best, .mk d left right =>
    if d.m_status = .closed then best
    else
      let best :=
        if d.m_status = target_status then
          let cand : candidate := { n := some cur, scaled_effort := t.scaled_effort d, depth := cur.length }
          if better cand best then cand else best
        else best
      select_next_node target_status (true :: cur) (select_next_node target_status (false :: cur) best left) right

/-- `rand` is what the random generator gives for `m_rand(2)`. -/
def should_split (rand : UInt32) (n : node_ptr) : Bool :=
  if ¬ t.has_status .active n ∨ ¬ (t.m_root.at_ptr n).is_leaf then false
  else
    let num_active_nodes := t.m_root.count_active_nodes
    let unsolved_tree_size := t.m_root.count_unsolved_nodes
    if unsolved_tree_size ≥ num_active_nodes * t.m_expand_factor then false
    else if unsolved_tree_size ≥ t.m_min_tree_size ∧ (t.m_root.has_unvisited_open_node ∨ rand ≠ 0) then false
    else n.length == t.m_root.find_shallowest_timed_out_leaf_depth 0 4294967295

variable [DecidableEq L]

/-- Whether the literal stands on the way from the node to the root. -/
def path_contains (lit : L) : node_ptr → Bool
  | [] => t.literal [] == some lit
  | turn :: p => t.literal (turn :: p) == some lit || path_contains lit p

/-- The loop of `find_highest_attach`, with the node found so far. -/
def find_highest_attach_loop (resolvent : List L) (attach_here : node_ptr) : node_ptr → node_ptr
  | [] => if resolvent.all fun r => t.path_contains r [] then [] else attach_here
  | turn :: p =>
    find_highest_attach_loop resolvent
      (if resolvent.all fun r => t.path_contains r (turn :: p) then turn :: p else attach_here) p

def find_highest_attach (p : node_ptr) (resolvent : List L) : node_ptr := t.find_highest_attach_loop resolvent p p

/-- The resolvent of the cores of the two children of `parent`, which are not empty. -/
def compute_sibling_resolvent (parent : node_ptr) : List L :=
  let push (lit_x : Option L) (res : List L) (lit : L) :=
    if some lit ≠ lit_x ∧ lit ∉ res then res ++ [lit] else res
  (t.core (true :: parent)).foldl (push (t.literal (true :: parent)))
    ((t.core (false :: parent)).foldl (push (t.literal (false :: parent))) [])

/-- Both children are there, closed, and have a core that is not empty. -/
def resolvable (parent : node_ptr) : Bool :=
  t.has_status .closed (false :: parent) && t.has_status .closed (true :: parent) &&
    !(t.core (false :: parent)).isEmpty && !(t.core (true :: parent)).isEmpty

def propagate_closure_upward (t : tree L) : node_ptr → tree L
  | [] => t
  | _ :: parent =>
    if !t.resolvable parent then t
    else
      let res := t.compute_sibling_resolvent parent
      if res.isEmpty then t.close [] res else propagate_closure_upward (t.close parent res) parent

/-- The part of `close_with_core` after the subtree of a child of `p` has been closed. -/
def resolve_upward (p : node_ptr) : tree L :=
  if !t.resolvable p then t
  else
    let resolvent := t.compute_sibling_resolvent p
    if resolvent.isEmpty then t.close [] resolvent
    else
      let attach := t.find_highest_attach p resolvent
      (t.close attach resolvent).propagate_closure_upward attach

def close_with_core (C : List L) : node_ptr → tree L
  | [] => if t.has_status .closed [] ∧ (t.core []).all (· ∈ C) then t else t.close [] C
  | turn :: p =>
    if t.has_status .closed (turn :: p) ∧ (t.core (turn :: p)).all (· ∈ C) then t
    else if C.all fun l => some l ≠ t.literal (turn :: p) then close_with_core C p
    else (t.close (turn :: p) C).resolve_upward p

/-- The nearest node on the way up whose literal is in the conflict. -/
def conflict_node (conflict : List L) : node_ptr → Option node_ptr
  | [] => if conflict.any fun a => some a = t.literal [] then some [] else none
  | turn :: p =>
    if conflict.any fun a => some a = t.literal (turn :: p) then some (turn :: p) else conflict_node conflict p

/-- `none` where the code is marked as unreachable. -/
def backtrack (n : node_ptr) (conflict : List L) : Option (tree L) :=
  if (t.get n).isNone then some t
  else if conflict.isEmpty then some (t.close_with_core conflict [])
  else (t.conflict_node conflict n).map (t.close_with_core conflict)

end tree

namespace tree

variable {L : Type} (t : tree L)

def set_effort_unit (effort_unit : UInt32) : tree L :=
  { t with m_effort_unit := if effort_unit < 1 then 1 else effort_unit }

def is_lease_canceled (n : node_ptr) (cancel_epoch : UInt32) : Bool :=
  match t.get n with
  | none => true
  | some d => d.m_status = .closed || d.m_cancel_epoch ≠ cancel_epoch

def try_split (n : node_ptr) (cancel_epoch : UInt32) (a b : L) (effort rand : UInt32) : Bool × tree L :=
  if t.is_lease_canceled n cancel_epoch then (false, t)
  else
    let t := t.update_node n (·.update_round_max_effort effort)
    if t.should_split rand n then (true, { t with m_root := t.m_root.modify n (node.split a b) })
    else (false, t)

/-- An open node is chosen, or else an active one, which then has several workers. -/
def best_node : Option node_ptr :=
  match (t.select_next_node .open_ [] {} t.m_root).n with
  | some n => some n
  | none => (t.select_next_node .active [] {} t.m_root).n

def activate_best_node : Option node_ptr × tree L :=
  match t.best_node with
  | none => (none, t)
  | some n => (some n, t.update_node n (·.mark_new_activation))

def activate_root : Option node_ptr × tree L :=
  if t.has_status .closed [] then (none, t)
  else (some [], t.update_node [] (·.mark_new_activation))

def dec_active_workers (n : node_ptr) : tree L := t.update_node n (·.dec_active_workers)
def get_core_from_root : List L := t.core []
def is_closed : Bool := t.has_status .closed []

/-- The nodes below `n` that have the literal and are not closed. -/
def find_nonclosed_nodes_with_literal_rec [DecidableEq L] (lit : L) : node_ptr → node L → List node_ptr
  | _, .null => []
  | n, .mk d left right =>
    (if d.m_literal = some lit ∧ d.m_status ≠ .closed then [n] else []) ++
      find_nonclosed_nodes_with_literal_rec lit (false :: n) left ++
      find_nonclosed_nodes_with_literal_rec lit (true :: n) right

def find_nonclosed_nodes_with_literal [DecidableEq L] (lit : L) : List node_ptr :=
  find_nonclosed_nodes_with_literal_rec lit [] t.m_root

end tree

/-- The calls that the parallel solvers make to the tree. -/
inductive call (L : Type) where
  | activate_root
  | activate_best_node
  | try_split (n : node_ptr) (cancel_epoch : UInt32) (a b : L) (effort rand : UInt32)
  | dec_active_workers (n : node_ptr)
  | backtrack (n : node_ptr) (conflict : List L)

def exec {L : Type} [DecidableEq L] (t : tree L) : call L → Option (tree L)
  | .activate_root => some t.activate_root.2
  | .activate_best_node => some t.activate_best_node.2
  | .try_split n cancel_epoch a b effort rand => some (t.try_split n cancel_epoch a b effort rand).2
  | .dec_active_workers n => some (t.dec_active_workers n)
  | .backtrack n conflict => t.backtrack n conflict

end search_tree
