import BooledASS.Logic.Bfs
import BooledASS.Sat.Types

open Function

namespace sat

structure TileCoord where
  m_tile : Nat
  k_tile : Nat
deriving DecidableEq, Repr, Inhabited

/-- The order in which `std::sort` puts the tiles: by rows, then by columns. -/
def TileCoord.le (a b : TileCoord) : Bool :=
  if a.m_tile ≠ b.m_tile then a.m_tile < b.m_tile else a.k_tile ≤ b.k_tile

/-- The layout. An array is a function of the index, 0 where nothing was written; the tile `t` has its cell
of row `r` and column `k` at `256 * t + 16 * r + k`. -/
structure CompressedTileLayout where
  A : Nat → Int
  A_abs : Nat → Int
  num_lits : Nat → Nat
  active_tiles : List TileCoord
  num_active_tiles : Nat
  m_tile_start : Nat → Nat
  var_perm : Nat → Nat
  var_inv : Nat → Nat
  M_pad : Nat
  K_pad : Nat
  M_real : Nat
  K_real : Nat

/-- `std::sort` by a key. It does not say how it orders elements with one key. -/
structure key_sort (α : Type) where
  sort : (α → Nat) → List α → List α
  perm : ∀ key xs, (sort key xs).Perm xs
  sorted : ∀ key xs, (sort key xs).Pairwise fun x y => key x ≤ key y

namespace tile

/-- `((n + TILE - 1) / TILE) * TILE` for a `uint32_t`. -/
def pad (n : Nat) : Nat := (n + 15) % 4294967296 / 16 * 16

/-- The clauses that get a row, in the order of the rows. -/
def clause_rows (bins : List (literal × literal)) (m_clauses m_learned : List clause) : List (List literal) :=
  bins.map (fun bin => [bin.1, bin.2]) ++ (m_clauses.filter fun c => !c.m_removed).map clause.m_lits ++
    (m_learned.filter fun c => !c.m_removed).map clause.m_lits

section Order

variable {n : Nat}

def clause_vars (n : Nat) (lits : List literal) : List (Fin n) :=
  lits.filterMap fun l => if h : l.var < n then some ⟨l.var, h⟩ else none

def push_edge (adj : Fin n → List (Fin n)) (v w : Fin n) : Fin n → List (Fin n) :=
  let adj := update adj v (adj v ++ [w])
  update adj w (adj w ++ [v])

/-- The two nested loops over the pairs of variables. -/
def push_pairs (adj : Fin n → List (Fin n)) : List (Fin n) → Fin n → List (Fin n)
  | [] => adj
  | v :: vars => push_pairs (vars.foldl (fun adj w => push_edge adj v w) adj) vars

def add_clause_edges (adj : Fin n → List (Fin n)) (vars : List (Fin n)) : Fin n → List (Fin n) :=
  if vars.length ≤ 128 then push_pairs adj vars else adj

def adjacency (n : Nat) (rows : List (List literal)) : Fin n → List (Fin n) :=
  let adj := rows.foldl (fun adj lits => add_clause_edges adj (clause_vars n lits)) fun _ => []
  fun v => Lists.unique ((adj v).mergeSort fun a b => a ≤ b)

/-- The neighbours in the order in which the search visits them. -/
def sorted_nbrs (by_degree : key_sort (Fin n)) (adj : Fin n → List (Fin n)) (u : Fin n) : List (Fin n) :=
  if (adj u).length ≤ 256 then by_degree.sort (fun v => (adj v).length) (adj u) else adj u

/-- `last_search_idx` moves past the visited variables. -/
def skip_visited (visited : Fin n → Bool) (last_search_idx : Nat) : Nat :=
  if h : last_search_idx < n then
    if visited ⟨last_search_idx, h⟩ then skip_visited visited (last_search_idx + 1) else last_search_idx
  else last_search_idx
termination_by n - last_search_idx

/-- The search of the component of `seed`. -/
def search_from (nbrs : Fin n → List (Fin n)) (s : Bfs.State (Fin n)) (seed : Fin n) : Bfs.State (Fin n) :=
  Bfs.search nbrs { s with visited := update s.visited seed true, queue := [seed] }

theorem order_length_search_from (nbrs : Fin n → List (Fin n)) (s : Bfs.State (Fin n)) (seed : Fin n) :
    s.order.length < (search_from nbrs s seed).order.length :=
  Bfs.order_length_search (s := { s with visited := update s.visited seed true, queue := [seed] })

/-- The loop over the components. -/
def rcm_loop (nbrs : Fin n → List (Fin n)) (s : Bfs.State (Fin n)) (last_search_idx : Nat) :
    Bfs.State (Fin n) :=
  if s.order.length < n then
    let seed := skip_visited s.visited last_search_idx
    if h : seed < n then
      let s' := search_from nbrs s ⟨seed, h⟩
      rcm_loop nbrs s' (skip_visited s'.visited seed)
    else s
  else s
termination_by n - s.order.length
decreasing_by
  have hgrow := order_length_search_from nbrs s ⟨skip_visited s.visited last_search_idx, h⟩
  omega

def rcm_perm (by_degree : key_sort (Fin n)) (rows : List (List literal)) : List Nat :=
  ((rcm_loop (sorted_nbrs by_degree (adjacency n rows)) {} 0).order.map Fin.val).reverse

/-- `var_perm` and `var_inv`; the padding is its own image. -/
def store_perm (n : Nat) (perm : List Nat) : (Nat → Nat) × (Nat → Nat) :=
  let p := (List.range n).foldl (fun (p : (Nat → Nat) × (Nat → Nat)) i =>
      (update p.1 i (perm.getD i 0), update p.2 (perm.getD i 0) i))
    (fun _ => 0, fun _ => 0)
  (List.range' n (pad n - n)).foldl (fun (p : (Nat → Nat) × (Nat → Nat)) i => (update p.1 i i, update p.2 i i)) p

end Order

section Tiles

/-- The literals of a row with the entries that stand for them. -/
def clause_lits (num_vars : Nat) (lits : List literal) : List (Nat × Int) :=
  lits.filterMap fun l => if l.var < num_vars then some (l.var, if l.sign then -1 else 1) else none

/-- The arrays `num_lits` and `temp_coords`. The count is narrowed to a `uint16_t`. -/
def process_clause_lits (var_inv : Nat → Nat) (st : (Nat → Nat) × List TileCoord) (c_idx : Nat)
    (cl_lits : List (Nat × Int)) : (Nat → Nat) × List TileCoord :=
  (update st.1 c_idx (cl_lits.length % 65536), st.2 ++ cl_lits.map fun lit => ⟨c_idx / 16, var_inv lit.1 / 16⟩)

/-- The rows with `clause_idx`, a `uint32_t`. -/
def indexed_rows (num_vars : Nat) (rows : List (List literal)) : List (Nat × List (Nat × Int)) :=
  rows.zipIdx.map fun e => (e.2 % 4294967296, clause_lits num_vars e.1)

def process_rows (var_inv : Nat → Nat) (rows : List (Nat × List (Nat × Int))) :
    (Nat → Nat) × List TileCoord :=
  rows.foldl (fun st row => process_clause_lits var_inv st row.1 row.2) (fun _ => 0, [])

def unique_tiles (temp_coords : List TileCoord) : List TileCoord := Lists.unique (temp_coords.mergeSort TileCoord.le)

/-- `curr_tile_idx` moves past the tiles of the stripe `mt`. -/
def skip_stripe (tiles : List TileCoord) (num_active_tiles mt curr_tile_idx : Nat) : Nat :=
  if curr_tile_idx < num_active_tiles ∧ (tiles.getD curr_tile_idx default).m_tile = mt then
    skip_stripe tiles num_active_tiles mt (curr_tile_idx + 1)
  else curr_tile_idx
termination_by num_active_tiles - curr_tile_idx

/-- The iteration of the loop over the stripes for `mt`. -/
def start_stripe (tiles : List TileCoord) (num_active_tiles : Nat) (p : Nat × (Nat → Nat)) (mt : Nat) :
    Nat × (Nat → Nat) :=
  (skip_stripe tiles num_active_tiles mt p.1, update p.2 mt p.1)

def stripe_starts (tiles : List TileCoord) (num_active_tiles num_m_tiles : Nat) : Nat → Nat :=
  let p := (List.range num_m_tiles).foldl (start_stripe tiles num_active_tiles) (0, fun _ => 0)
  update p.2 num_m_tiles num_active_tiles

/-- The binary search for the column `kt` between `low` and `high`. -/
def find_tile (tiles : List TileCoord) (kt low high : Nat) : Option Nat :=
  if low ≤ high then
    let mid := low + (high - low) / 2
    let k_tile := (tiles.getD mid default).k_tile
    if k_tile = kt then some mid
    else if k_tile < kt then find_tile tiles kt (mid + 1) high
    else if mid = 0 then none
    else find_tile tiles kt low (mid - 1)
  else none
termination_by high + 1 - low

/-- The cell of the row `c_idx` in the column `v_perm`. The tile's index is stored in an `int32_t`, which is
negative from `2 ^ 31` on; nothing is written then. -/
def cell_offset (tiles : List TileCoord) (m_tile_start : Nat → Nat) (c_idx v_perm : Nat) : Option Nat :=
  let start_idx := m_tile_start (c_idx / 16)
  let end_idx := m_tile_start (c_idx / 16 + 1)
  if start_idx = end_idx then none
  else (find_tile tiles (v_perm / 16) start_idx (end_idx - 1)).bind fun t_idx =>
    if t_idx < 2147483648 then some (t_idx * 256 + c_idx % 16 * 16 + v_perm % 16) else none

/-- The arrays `A` and `A_abs`. -/
def fill_clause_data (tiles : List TileCoord) (m_tile_start var_inv : Nat → Nat)
    (cells : (Nat → Int) × (Nat → Int)) (c_idx : Nat) (cl_lits : List (Nat × Int)) :
    (Nat → Int) × (Nat → Int) :=
  cl_lits.foldl (fun cells lit =>
      match cell_offset tiles m_tile_start c_idx (var_inv lit.1) with
      | none => cells
      | some offset => (update cells.1 offset lit.2, update cells.2 offset 1))
    cells

end Tiles

end tile

open tile

/-- The layout for the rows. -/
def layout_of_rows (num_vars : UInt32) (rows : List (List literal)) (by_degree : key_sort (Fin num_vars.toNat)) :
    CompressedTileLayout :=
  let M_real := rows.length % 4294967296
  let order := store_perm num_vars.toNat (rcm_perm by_degree rows)
  let indexed := indexed_rows num_vars.toNat rows
  let counted := process_rows order.2 indexed
  let tiles := unique_tiles counted.2
  let num_active_tiles := tiles.length % 4294967296
  let m_tile_start := stripe_starts tiles num_active_tiles (pad M_real / 16)
  let cells := indexed.foldl (fun cells row => fill_clause_data tiles m_tile_start order.2 cells row.1 row.2)
    (fun _ => 0, fun _ => 0)
  { A := cells.1
    A_abs := cells.2
    num_lits := counted.1
    active_tiles := tiles
    num_active_tiles := num_active_tiles
    m_tile_start := m_tile_start
    var_perm := order.1
    var_inv := order.2
    M_pad := pad M_real
    K_pad := pad num_vars.toNat
    M_real := M_real
    K_real := num_vars.toNat }

def build_compressed_tile_layout_direct (num_vars : UInt32) (bins : List (literal × literal))
    (m_clauses m_learned : List clause) (by_degree : key_sort (Fin num_vars.toNat)) :
    CompressedTileLayout :=
  layout_of_rows num_vars (clause_rows bins m_clauses m_learned) by_degree

end sat
