import Mathlib.Algebra.GroupWithZero.Nat
import Mathlib.Algebra.Order.BigOperators.Group.List
import Mathlib.Algebra.Order.Group.Nat
import BooledASS.Sat.Tile.Index
import BooledASS.Sat.Tile.Rcm

open List Writes

namespace sat

/-- The cells of a row that are not zero, over all active tiles: index of the tile and column in it. -/
def CompressedTileLayout.row_cells (ctl : CompressedTileLayout) (c : Nat) : List (Nat × Nat) :=
  (((range ctl.num_active_tiles).filter fun t => (tile.at_idx ctl.active_tiles t).m_tile == c / 16).product
    (range 16)).filter fun e => ctl.A (e.1 * 256 + c % 16 * 16 + e.2) != 0

/-- The number of tiles whose cells can be written: tiles are counted by a `uint32_t`, and the index of a tile is
kept in an `int32_t`. -/
def CompressedTileLayout.stored (ctl : CompressedTileLayout) : Nat := min ctl.num_active_tiles 2147483648

/-- The cell of the variable `v` in the row `c`. -/
def CompressedTileLayout.cell (ctl : CompressedTileLayout) (c v : Nat) : Nat × Nat :=
  (ctl.active_tiles.idxOf ⟨c / 16, ctl.var_inv v / 16⟩, ctl.var_inv v % 16)

namespace tile

variable {num_vars c : Nat} {rows : List (List literal)} {row : List literal} {lit : Nat × Int}

theorem mem_clause_lits : lit ∈ clause_lits num_vars row ↔
    ∃ l ∈ row, l.var < num_vars ∧ lit = (l.var, if l.sign then -1 else 1) := by
  simp only [clause_lits, mem_filterMap, Option.ite_none_right_eq_some, Option.some.injEq]
  exact exists_congr fun l => and_congr_right fun _ => and_congr_right fun _ => eq_comm

theorem clause_lits_ne_zero (h : lit ∈ clause_lits num_vars row) : lit.2 ≠ 0 := by
  obtain ⟨l, -, -, rfl⟩ := mem_clause_lits.mp h
  split <;> simp

theorem clause_lits_vars (num_vars : Nat) (row : List literal) : (clause_lits num_vars row).map Prod.fst =
    (row.filter fun l => l.var < num_vars).map Cnf.Lit.var := by
  induction row with
  | nil => rfl
  | cons l row ih =>
    by_cases hl : l.var < num_vars
    · simpa [clause_lits, hl] using ih
    · simpa [clause_lits, hl] using ih

/-- With fewer rows than a `uint32_t` can count, every row has its own index. -/
theorem mem_indexed_rows (hrows : rows.length ≤ 4294967296) {e : Nat × List (Nat × Int)} :
    e ∈ indexed_rows num_vars rows ↔ ∃ row, rows[e.1]? = some row ∧ e.2 = clause_lits num_vars row := by
  simp only [indexed_rows, mem_map, Prod.exists]
  constructor
  · rintro ⟨row, c, hmem, rfl⟩
    have hget := mk_mem_zipIdx_iff_getElem?.mp hmem
    have hc := (List.getElem?_eq_some_iff.mp hget).1
    rw [Nat.mod_eq_of_lt (hc.trans_le hrows)]
    exact ⟨row, hget, rfl⟩
  · rintro ⟨row, hget, he⟩
    have hc := (List.getElem?_eq_some_iff.mp hget).1
    refine ⟨row, e.1, mk_mem_zipIdx_iff_getElem?.mpr hget, ?_⟩
    rw [Nat.mod_eq_of_lt (hc.trans_le hrows), ← he]

/-- The loop over the rows in closed form: the lengths of the rows, in 16 bits, and the tile of every literal. -/
theorem process_rows_eq (var_inv : Nat → Nat) (indexed : List (Nat × List (Nat × Int))) :
    process_rows var_inv indexed = (store Prod.fst (fun row => row.2.length % 65536) (fun _ => 0) indexed,
        indexed.flatMap fun row => row.2.map fun lit => ⟨row.1 / 16, var_inv lit.1 / 16⟩) := by
  suffices hloop : ∀ f coords, indexed.foldl (fun st row => process_clause_lits var_inv st row.1 row.2) (f, coords) =
        (store Prod.fst (fun row => row.2.length % 65536) f indexed,
          coords ++ indexed.flatMap fun row => row.2.map fun lit => ⟨row.1 / 16, var_inv lit.1 / 16⟩) from by
    simpa [process_rows] using hloop (fun _ => 0) []
  intro f coords
  induction indexed generalizing f coords with
  | nil => simp [store]
  | cons row indexed ih =>
    rw [foldl_cons, process_clause_lits, ih, append_assoc]
    rfl

section Fill

variable (tiles : List TileCoord) (m_tile_start var_inv : Nat → Nat)

/-- The writes of a row, with the offsets of the cells. -/
def row_writes (row : Nat × List (Nat × Int)) : List (Nat × Int) :=
  row.2.filterMap fun lit =>
    (cell_offset tiles m_tile_start row.1 (var_inv lit.1)).map fun offset => (offset, lit.2)

theorem fill_clause_data_eq (cells : (Nat → Int) × (Nat → Int)) (row : Nat × List (Nat × Int)) :
    fill_clause_data tiles m_tile_start var_inv cells row.1 row.2 =
      (store Prod.fst Prod.snd cells.1 (row_writes tiles m_tile_start var_inv row),
        store Prod.fst (fun _ => 1) cells.2 (row_writes tiles m_tile_start var_inv row)) := by
  obtain ⟨c, lits⟩ := row
  simp only [fill_clause_data, row_writes]
  induction lits generalizing cells with
  | nil => rfl
  | cons lit lits ih =>
    rw [foldl_cons, ih, filterMap_cons]
    cases cell_offset tiles m_tile_start c (var_inv lit.1) <;> rfl

theorem fill_rows_eq (cells : (Nat → Int) × (Nat → Int)) (indexed : List (Nat × List (Nat × Int))) :
    indexed.foldl (fun cells row => fill_clause_data tiles m_tile_start var_inv cells row.1 row.2) cells =
      (store Prod.fst Prod.snd cells.1 (indexed.flatMap (row_writes tiles m_tile_start var_inv)),
        store Prod.fst (fun _ => 1) cells.2 (indexed.flatMap (row_writes tiles m_tile_start var_inv))) := by
  induction indexed generalizing cells with
  | nil => rfl
  | cons row indexed ih =>
    rw [foldl_cons, ih, fill_clause_data_eq, flatMap_cons]
    simp only [store, foldl_append]

end Fill

end tile

open tile

/-- The blocks of 16 clauses and 16 variables, counted in the order of the columns, in which a literal occurs. -/
def occupied {n : Nat} (by_degree : key_sort (Fin n)) (rows : List (List literal)) : Finset TileCoord :=
  (rows.zipIdx.flatMap fun e => e.1.map fun l => ⟨e.2 / 16, (rcm_perm by_degree rows).idxOf l.var / 16⟩).toFinset

/-- The arrays with an entry for each row and for each variable are large enough; their sizes are rounded up to a
multiple of 16 by 32-bit arithmetic. -/
structure CompressedTileLayout.Allocated (ctl : CompressedTileLayout) (num_vars num_rows : Nat) : Prop where
  rows : num_rows ≤ ctl.M_pad
  vars : num_vars ≤ ctl.K_pad

/-- All writes to the cells, with their offsets. -/
def layout_writes (num_vars : UInt32) (rows : List (List literal)) (by_degree : key_sort (Fin num_vars.toNat)) :
    List (Nat × Int) :=
  let ctl := layout_of_rows num_vars rows by_degree
  (indexed_rows num_vars.toNat rows).flatMap (row_writes ctl.active_tiles ctl.m_tile_start ctl.var_inv)

section Layout

variable {num_vars : UInt32} {rows : List (List literal)} {by_degree : key_sort (Fin num_vars.toNat)}
  {c k t v : Nat} {ctl : CompressedTileLayout} (hctl : ctl = layout_of_rows num_vars rows by_degree)
include hctl

theorem active_tiles_before : ctl.active_tiles.Pairwise TileCoord.Before := hctl ▸ unique_tiles_before _

theorem var_inv_inj {w : Nat} (hv : v < num_vars.toNat) (hw : w < num_vars.toNat)
    (h : ctl.var_inv v = ctl.var_inv w) : v = w := by
  subst hctl
  rw [← (order_inv_lt by_degree rows hv).2, ← (order_inv_lt by_degree rows hw).2]
  exact congrArg _ h

/-- A tile is active when a literal of a clause is in it. -/
theorem mem_active_tiles (hrows : rows.length ≤ 4294967280) {x : TileCoord} : x ∈ ctl.active_tiles ↔
    ∃ c row, rows[c]? = some row ∧ ∃ lit ∈ clause_lits num_vars.toNat row, x = ⟨c / 16, ctl.var_inv lit.1 / 16⟩ := by
  have hmem : x ∈ ctl.active_tiles ↔ x ∈ (process_rows ctl.var_inv (indexed_rows num_vars.toNat rows)).2 := by
    subst hctl
    exact mem_unique_tiles
  rw [hmem, process_rows_eq]
  simp only [mem_flatMap, mem_map, Prod.exists, mem_indexed_rows (hrows.trans (by decide))]
  constructor
  · rintro ⟨c, lits, ⟨row, hget, rfl⟩, v, b, hlit, rfl⟩
    exact ⟨c, row, hget, v, b, hlit, rfl⟩
  · rintro ⟨c, row, hget, v, b, hlit, rfl⟩
    exact ⟨c, _, ⟨row, hget, rfl⟩, v, b, hlit, rfl⟩

theorem A_eq : ctl.A = store Prod.fst Prod.snd (fun _ => 0) (layout_writes num_vars rows by_degree) :=
  hctl ▸ congrArg Prod.fst (fill_rows_eq _ _ _ _ _)

theorem A_abs_eq : ctl.A_abs = store Prod.fst (fun _ => 1) (fun _ => 0) (layout_writes num_vars rows by_degree) :=
  hctl ▸ congrArg Prod.snd (fill_rows_eq _ _ _ _ _)

theorem num_active_tiles_le : ctl.num_active_tiles ≤ ctl.active_tiles.length := by
  subst hctl
  exact Nat.mod_le _ _

theorem m_tile_start_eq : ctl.m_tile_start =
    stripe_starts ctl.active_tiles ctl.num_active_tiles (pad (rows.length % 4294967296) / 16) := by
  rw [hctl]
  rfl

theorem active_tiles_nodup : ctl.active_tiles.Nodup :=
  (active_tiles_before hctl).imp fun {a b} hab heq => by
    subst heq
    simp only [TileCoord.Before] at hab
    omega

/-- The counts are rounded up to a multiple of 16 in 32 bits, which wraps around for the fifteen largest ones. -/
theorem allocated_iff : ctl.Allocated num_vars.toNat rows.length ↔
    num_vars.toNat ≤ 4294967280 ∧ rows.length ≤ 4294967280 := by
  have hvars := num_vars.toNat_lt
  have hM : ctl.M_pad = pad (rows.length % 4294967296) := hctl ▸ rfl
  have hK : ctl.K_pad = pad num_vars.toNat := hctl ▸ rfl
  constructor
  · rintro ⟨hr, hv⟩
    rw [hM, pad] at hr
    rw [hK, pad] at hv
    omega
  · rintro ⟨hv, hr⟩
    refine ⟨?_, ?_⟩
    · rw [hM, pad]
      omega
    · rw [hK, pad]
      omega

variable (hrows : rows.length ≤ 4294967280)
include hrows

/-- The tiles of the layout are the blocks in which a literal occurs. -/
theorem active_tiles_length (hvars : ∀ row ∈ rows, ∀ l ∈ row, l.var < num_vars.toNat) :
    ctl.active_tiles.length = (occupied by_degree rows).card := by
  have hcolumn {v : Nat} (hv : v < num_vars.toNat) : ctl.var_inv v = (rcm_perm by_degree rows).idxOf v := by
    subst hctl
    exact order_inv_eq_idxOf by_degree rows hv
  rw [← toFinset_card_of_nodup (active_tiles_nodup hctl)]
  congr 1
  ext x
  have hoccupied : x ∈ occupied by_degree rows ↔ ∃ row c, rows[c]? = some row ∧
      ∃ l ∈ row, ⟨c / 16, (rcm_perm by_degree rows).idxOf l.var / 16⟩ = x := by
    simp only [occupied, mem_toFinset, mem_flatMap, mem_map, Prod.exists, mk_mem_zipIdx_iff_getElem?]
  rw [mem_toFinset, mem_active_tiles hctl hrows, hoccupied]
  constructor
  · rintro ⟨c, row, hget, lit, hlit, rfl⟩
    obtain ⟨l, hl, hv, rfl⟩ := mem_clause_lits.mp hlit
    exact ⟨row, c, hget, l, hl, by rw [hcolumn hv]⟩
  · rintro ⟨row, c, hget, l, hl, rfl⟩
    have hv := hvars row (mem_of_getElem? hget) l hl
    exact ⟨c, row, hget, _, mem_clause_lits.mpr ⟨l, hl, hv, rfl⟩, by rw [hcolumn hv]⟩

theorem m_tile_lt : ∀ x ∈ ctl.active_tiles, x.m_tile < pad (rows.length % 4294967296) / 16 := by
  intro x hx
  obtain ⟨c, row, hget, lit, -, rfl⟩ := (mem_active_tiles hctl hrows).mp hx
  have hc := (List.getElem?_eq_some_iff.mp hget).1
  simp only [pad]
  omega

/-- The writes to the cell of the row `c` and the column `k` are for the literals of that clause with the
variable of that column. -/
theorem mem_writes_iff {b : Int} (ht : ctl.active_tiles[t]? = some ⟨c / 16, k / 16⟩) :
    (t * 256 + c % 16 * 16 + k % 16, b) ∈ layout_writes num_vars rows by_degree ↔ t < ctl.stored ∧
      ∃ row, rows[c]? = some row ∧ ∃ lit ∈ clause_lits num_vars.toNat row, ctl.var_inv lit.1 = k ∧ lit.2 = b := by
  rw [layout_writes, ← hctl, m_tile_start_eq hctl]
  simp only [mem_flatMap, row_writes, mem_filterMap, Option.map_eq_some_iff, Prod.mk.injEq]
  have hoffset : ∀ {c' v' o : Nat}, c' < rows.length → (cell_offset ctl.active_tiles
      (stripe_starts ctl.active_tiles ctl.num_active_tiles (pad (rows.length % 4294967296) / 16))
      c' v' = some o ↔ _) := fun {c' v' o} hc' =>
    cell_offset_eq_some (active_tiles_before hctl) (num_active_tiles_le hctl) (m_tile_lt hctl hrows)
      (by simp only [pad]; omega)
  constructor
  · rintro ⟨⟨c', lits⟩, hmem, lit, hlit, o, ho, rfl, rfl⟩
    obtain ⟨row, hget, rfl⟩ := (mem_indexed_rows (hrows.trans (by decide))).mp hmem
    have hc' := (List.getElem?_eq_some_iff.mp hget).1
    obtain ⟨t', hlt, ht', heq⟩ := (hoffset hc').mp ho
    obtain rfl : t = t' := by omega
    -- the tile gives the upper parts of the coordinates, the offset the lower ones
    rw [ht, Option.some.injEq, TileCoord.mk.injEq] at ht'
    obtain rfl : c = c' := by omega
    exact ⟨hlt, row, hget, lit, hlit, by omega, rfl⟩
  · rintro ⟨hlt, row, hget, lit, hlit, rfl, rfl⟩
    have hc := (List.getElem?_eq_some_iff.mp hget).1
    exact ⟨(c, clause_lits num_vars.toNat row), (mem_indexed_rows (hrows.trans (by decide))).mpr ⟨row, hget, rfl⟩,
      lit, hlit, _, (hoffset hc).mpr ⟨t, hlt, ht, rfl⟩, rfl, rfl⟩

/-- A cell is not zero when it can be written and the clause of its row has a literal with the variable of its
column. -/
theorem A_ne_zero_iff (ht : ctl.active_tiles[t]? = some ⟨c / 16, k / 16⟩) :
    ctl.A (t * 256 + c % 16 * 16 + k % 16) ≠ 0 ↔ t < ctl.stored ∧
      ∃ row, rows[c]? = some row ∧ ∃ lit ∈ clause_lits num_vars.toNat row, ctl.var_inv lit.1 = k := by
  rw [A_eq hctl]
  constructor
  · intro hne
    by_contra hnone
    refine hne (store_of_forall_ne fun w hw hkey => hnone ?_)
    obtain ⟨o, b⟩ := w
    obtain rfl : o = _ := hkey
    obtain ⟨hlt, row, hget, lit, hlit, hk, -⟩ := (mem_writes_iff hctl hrows ht).mp hw
    exact ⟨hlt, row, hget, lit, hlit, hk⟩
  · rintro ⟨hlt, row, hget, lit, hlit, hk⟩
    refine store_forall (P := (· ≠ 0)) (fun w hw hkey => ?_)
      ⟨(_, lit.2), (mem_writes_iff hctl hrows ht).mpr ⟨hlt, row, hget, lit, hlit, hk, rfl⟩, rfl⟩
    obtain ⟨o, b⟩ := w
    obtain rfl : o = _ := hkey
    obtain ⟨-, row', -, lit', hlit', -, rfl⟩ := (mem_writes_iff hctl hrows ht).mp hw
    have hne : lit'.2 ≠ 0 := clause_lits_ne_zero hlit'
    exact hne

/-- All cells of the literals can be written if and only if at most `2 ^ 31` blocks are occupied. -/
theorem cells_stored_iff (hvars : ∀ row ∈ rows, ∀ l ∈ row, l.var < num_vars.toNat) :
    (∀ c row, rows[c]? = some row → ∀ l ∈ row, (ctl.cell c l.var).1 < ctl.stored) ↔
      (occupied by_degree rows).card ≤ 2147483648 := by
  have hactive : ctl.num_active_tiles = ctl.active_tiles.length % 4294967296 := hctl ▸ rfl
  rw [← active_tiles_length hctl hrows hvars, CompressedTileLayout.stored, hactive]
  constructor
  · -- the first tile that is not written has a literal
    intro h
    by_contra! hlt
    obtain ⟨c, row, hget, lit, hlit, htile⟩ := (mem_active_tiles hctl hrows).mp (getElem_mem hlt)
    obtain ⟨l, hl, -, rfl⟩ := mem_clause_lits.mp hlit
    have hidx := h c row hget l hl
    rw [CompressedTileLayout.cell, ← htile, (active_tiles_nodup hctl).idxOf_getElem] at hidx
    omega
  · intro hle c row hget l hl
    have hlit := mem_clause_lits.mpr ⟨l, hl, hvars row (mem_of_getElem? hget) l hl, rfl⟩
    have hidx := idxOf_lt_length_iff.mpr ((mem_active_tiles hctl hrows).mpr ⟨c, row, hget, _, hlit, rfl⟩)
    rw [CompressedTileLayout.cell]
    simp only at hidx ⊢
    omega

section Row

variable {row : List literal} (hget : rows[c]? = some row)
include hget

theorem mem_active_tiles_of_lit {lit : Nat × Int} (hlit : lit ∈ clause_lits num_vars.toNat row) :
    (⟨c / 16, ctl.var_inv lit.1 / 16⟩ : TileCoord) ∈ ctl.active_tiles :=
  (mem_active_tiles hctl hrows).mpr ⟨c, row, hget, lit, hlit, rfl⟩

/-- The cells of a row that are not zero are those of the variables of its clause that can be written. -/
theorem mem_row_cells_iff {e : Nat × Nat} : e ∈ ctl.row_cells c ↔
    ∃ lit ∈ clause_lits num_vars.toNat row, (ctl.cell c lit.1).1 < ctl.stored ∧ ctl.cell c lit.1 = e := by
  have hle := num_active_tiles_le hctl
  obtain ⟨t, j⟩ := e
  have hrange : (t, j) ∈ ctl.row_cells c ↔
      (t < ctl.num_active_tiles ∧ (at_idx ctl.active_tiles t).m_tile = c / 16) ∧ j < 16 ∧
      ctl.A (t * 256 + c % 16 * 16 + j) ≠ 0 := by
    simp [CompressedTileLayout.row_cells, and_assoc]
  rw [hrange]
  constructor
  · rintro ⟨⟨ht, hm⟩, hj, hA⟩
    -- the column in the whole matrix
    obtain ⟨k, hk, rfl⟩ : ∃ k, k / 16 = (at_idx ctl.active_tiles t).k_tile ∧ k % 16 = j :=
      ⟨(at_idx ctl.active_tiles t).k_tile * 16 + j, by omega, by omega⟩
    have htile : ctl.active_tiles[t]? = some ⟨c / 16, k / 16⟩ :=
      getElem?_eq_some_iff_at_idx.mpr ⟨ht.trans_le hle, by rw [← hm, hk]⟩
    obtain ⟨hlt, row', hget', lit, hlit, hinv⟩ := (A_ne_zero_iff hctl hrows htile).mp hA
    rw [hget, Option.some.injEq] at hget'
    subst hget'
    have hcell : ctl.cell c lit.1 = (t, k % 16) := by
      obtain ⟨ht, htile⟩ := List.getElem?_eq_some_iff.mp htile
      rw [CompressedTileLayout.cell, hinv, ← htile, (active_tiles_nodup hctl).idxOf_getElem]
    exact ⟨lit, hlit, by rwa [hcell], hcell⟩
  · rintro ⟨lit, hlit, hlt, hcell⟩
    rw [hcell] at hlt
    obtain ⟨rfl, rfl⟩ := Prod.mk.injEq .. ▸ hcell
    have hidx := idxOf_lt_length_iff.mpr (mem_active_tiles_of_lit hctl hrows hget hlit)
    have htile := List.getElem?_eq_some_iff.mpr ⟨hidx, getElem_idxOf hidx⟩
    refine ⟨⟨(lt_min_iff.mp hlt).1, ?_⟩, Nat.mod_lt _ (by decide),
      (A_ne_zero_iff hctl hrows htile).mpr ⟨hlt, row, hget, lit, hlit, rfl⟩⟩
    rw [(getElem?_eq_some_iff_at_idx.mp htile).2]

theorem cell_inj {lit lit' : Nat × Int} (hlit : lit ∈ clause_lits num_vars.toNat row)
    (hlit' : lit' ∈ clause_lits num_vars.toNat row) (h : ctl.cell c lit.1 = ctl.cell c lit'.1) : lit.1 = lit'.1 := by
  obtain ⟨hidx, hmod⟩ := Prod.mk.injEq .. ▸ h
  have hdiv := (idxOf_inj (mem_active_tiles_of_lit hctl hrows hget hlit)).mp hidx
  rw [TileCoord.mk.injEq] at hdiv
  have hlt : ∀ {lit}, lit ∈ clause_lits num_vars.toNat row → lit.1 < num_vars.toNat := fun h => by
    obtain ⟨l, -, hl, rfl⟩ := mem_clause_lits.mp h
    exact hl
  refine var_inv_inj hctl (hlt hlit) (hlt hlit') ?_
  omega

/-- A row has one cell that is not zero for each variable of its clause whose cell can be written. -/
theorem row_cells_length : (ctl.row_cells c).length = (((clause_lits num_vars.toNat row).map Prod.fst).dedup.filter
    fun v => (ctl.cell c v).1 < ctl.stored).length := by
  have hperm : (ctl.row_cells c).Perm ((((clause_lits num_vars.toNat row).map Prod.fst).dedup.filter
      fun v => (ctl.cell c v).1 < ctl.stored).map (ctl.cell c)) := by
    refine (perm_ext_iff_of_nodup ?_ ?_).mpr fun e => ?_
    · exact ((nodup_range.filter _).product nodup_range).filter _
    · refine ((nodup_dedup _).filter _).map_on fun v hv w hw h => ?_
      obtain ⟨lit, hlit, rfl⟩ := mem_map.mp (mem_dedup.mp (mem_of_mem_filter hv))
      obtain ⟨lit', hlit', rfl⟩ := mem_map.mp (mem_dedup.mp (mem_of_mem_filter hw))
      exact cell_inj hctl hrows hget hlit hlit' h
    · rw [mem_row_cells_iff hctl hrows hget]
      simp [and_assoc]
  rw [hperm.length_eq, length_map]

/-- There is a cell that is not zero for each literal of the clause if and only if no variable is out of range or
occurs twice, and every cell can be written. -/
theorem row_cells_length_eq_iff : (ctl.row_cells c).length = row.length ↔ (∀ l ∈ row, l.var < num_vars.toNat) ∧
    (row.map Cnf.Lit.var).Nodup ∧ ∀ l ∈ row, (ctl.cell c l.var).1 < ctl.stored := by
  have hvars := clause_lits_vars num_vars.toNat row
  have hfilter := length_filter_le (fun v => decide ((ctl.cell c v).1 < ctl.stored))
    ((clause_lits num_vars.toNat row).map Prod.fst).dedup
  have hdedup := ((clause_lits num_vars.toNat row).map Prod.fst).dedup_sublist.length_le
  rw [row_cells_length hctl hrows hget]
  constructor
  · intro h
    have hlen : (row.filter fun l => l.var < num_vars.toNat).length = row.length := by
      refine le_antisymm (length_filter_le _ _) ?_
      rw [hvars] at hdedup hfilter h
      rw [length_map] at hdedup
      omega
    have hlt : ∀ l ∈ row, l.var < num_vars.toNat := fun l hl =>
      of_decide_eq_true (length_filter_eq_length_iff.mp hlen l hl)
    have hself : row.filter (fun l => l.var < num_vars.toNat) = row := filter_eq_self.mpr fun l hl =>
      decide_eq_true (hlt l hl)
    rw [hvars, hself] at h hdedup hfilter
    rw [length_map] at hdedup
    have hnodup : (row.map Cnf.Lit.var).Nodup := by
      refine dedup_eq_self.mp ((dedup_sublist _).eq_of_length ?_)
      rw [length_map]
      omega
    refine ⟨hlt, hnodup, fun l hl => ?_⟩
    have hlen : row.length = (row.map Cnf.Lit.var).length := (length_map _).symm
    rw [hnodup.dedup, hlen] at h
    exact of_decide_eq_true (length_filter_eq_length_iff.mp h _ (mem_map_of_mem hl))
  · rintro ⟨hlt, hnodup, hcells⟩
    rw [hvars, filter_eq_self.mpr fun l hl => decide_eq_true (hlt l hl), hnodup.dedup, filter_eq_self.mpr, length_map]
    simpa using hcells

omit hrows in
/-- The count that is stored for a row. -/
theorem num_lits_eq (hrows : rows.length ≤ 4294967296) :
    ctl.num_lits c = (clause_lits num_vars.toNat row).length % 65536 := by
  subst hctl
  have heq : (layout_of_rows num_vars rows by_degree).num_lits = _ := congrArg Prod.fst (process_rows_eq _ _)
  rw [heq]
  refine store_of_exists (fun e he hc => ?_)
    ⟨(c, clause_lits num_vars.toNat row), (mem_indexed_rows hrows).mpr ⟨row, hget, rfl⟩, rfl⟩
  obtain ⟨row', hget', he⟩ := (mem_indexed_rows hrows).mp he
  rw [hc, hget, Option.some.injEq] at hget'
  rw [he, hget']

end Row

end Layout

/-- `std::sort` as a merge sort. -/
def merge_sort_by_key (α : Type) : key_sort α where
  sort key xs := xs.mergeSort fun x y => key x ≤ key y
  perm key xs := mergeSort_perm xs _
  sorted key xs := by
    have htrans : ∀ x y z, decide (key x ≤ key y) → decide (key y ≤ key z) →
        decide (key x ≤ key z) := fun x y z hxy hyz => by
      simp only [decide_eq_true_eq] at hxy hyz ⊢
      omega
    have htotal : ∀ x y, (decide (key x ≤ key y) || decide (key y ≤ key x)) := fun x y => by
      simp only [Bool.or_eq_true, decide_eq_true_eq]
      omega
    exact (pairwise_mergeSort htrans htotal xs).imp of_decide_eq_true

/-- The count of every row is the number of its cells that are not zero, and of the literals of its clause, if and
only if the arrays can be allocated, every clause is shorter than a `uint16_t` can count, no variable is out of range or
occurs twice in a clause, and at most `2 ^ 31` blocks of the matrix are occupied. -/
theorem num_lits_eq_row_cells (num_vars : UInt32) (bins : List (literal × literal))
    (m_clauses m_learned : List clause) (by_degree : key_sort (Fin num_vars.toNat)) :
    let rows := clause_rows bins m_clauses m_learned
    let ctl := build_compressed_tile_layout_direct num_vars bins m_clauses m_learned by_degree
    (ctl.Allocated num_vars.toNat rows.length ∧ ∀ c row, rows[c]? = some row →
        ctl.num_lits c = (ctl.row_cells c).length ∧ (ctl.row_cells c).length = row.length) ↔
      (num_vars.toNat ≤ 4294967280 ∧ rows.length ≤ 4294967280) ∧
        (∀ row ∈ rows, row.length < 65536 ∧ (∀ l ∈ row, l.var < num_vars.toNat) ∧ (row.map Cnf.Lit.var).Nodup) ∧
        (occupied by_degree rows).card ≤ 2147483648 := by
  intro rows ctl
  have hctl : ctl = layout_of_rows num_vars rows by_degree := rfl
  rw [allocated_iff hctl]
  refine and_congr_right fun ⟨_, hrows⟩ => ?_
  have hcount {c : Nat} {row : List literal} (hget : rows[c]? = some row) (hlt : ∀ l ∈ row, l.var < num_vars.toNat) :
      ctl.num_lits c = row.length % 65536 := by
    have hfst := congrArg length (clause_lits_vars num_vars.toNat row)
    rw [length_map, length_map, filter_eq_self.mpr fun l hl => decide_eq_true (hlt l hl)] at hfst
    rw [num_lits_eq hctl hget (hrows.trans (by decide)), hfst]
  constructor
  · intro h
    have hrow {c row} (hget : rows[c]? = some row) := (row_cells_length_eq_iff hctl hrows hget).mp (h c row hget).2
    have hlt : ∀ row ∈ rows, ∀ l ∈ row, l.var < num_vars.toNat := fun row hmem => by
      obtain ⟨c, hget⟩ := getElem?_of_mem hmem
      exact (hrow hget).1
    refine ⟨fun row hmem => ?_, (cells_stored_iff hctl hrows hlt).mp fun c row hget => (hrow hget).2.2⟩
    obtain ⟨c, hget⟩ := getElem?_of_mem hmem
    have hnum := (h c row hget).1
    rw [(h c row hget).2, hcount hget (hlt row hmem)] at hnum
    exact ⟨by omega, hlt row hmem, (hrow hget).2.1⟩
  · rintro ⟨hclauses, hcard⟩ c row hget
    obtain ⟨hlen, hlt, hnodup⟩ := hclauses row (mem_of_getElem? hget)
    have hcells := (row_cells_length_eq_iff hctl hrows hget).mpr
      ⟨hlt, hnodup, (cells_stored_iff hctl hrows fun row hmem => (hclauses row hmem).2.1).mpr hcard c row hget⟩
    rw [hcells, hcount hget hlt, Nat.mod_eq_of_lt hlen]
    exact ⟨rfl, rfl⟩

/-- The clause of the first `n` variables. -/
def first_vars (n : Nat) : clause := { m_lits := (range n).map fun v => ⟨v, false⟩ }

theorem first_vars_lt {n : Nat} : ∀ l ∈ (first_vars n).m_lits, l.var < n := by
  intro l hl
  obtain ⟨v, hv, rfl⟩ := mem_map.mp hl
  exact mem_range.mp hv

/-- The count and the cells of the only row. -/
theorem first_vars_count (num_vars : UInt32) (n : Nat) (hn : num_vars.toNat = n) (h : n ≤ 2147483648)
    (by_degree : key_sort (Fin num_vars.toNat)) :
    let ctl := build_compressed_tile_layout_direct num_vars [] [first_vars n] [] by_degree
    ctl.num_lits 0 = n % 65536 ∧ (ctl.row_cells 0).length = n := by
  subst hn
  have hget : (clause_rows [] [first_vars num_vars.toNat] [])[0]? = some (first_vars num_vars.toNat).m_lits := by rfl
  have hrows : clause_rows [] [first_vars num_vars.toNat] [] = [(first_vars num_vars.toNat).m_lits] := by rfl
  have hlen : (first_vars num_vars.toNat).m_lits.length = num_vars.toNat := by simp [first_vars]
  have hone : (clause_rows [] [first_vars num_vars.toNat] []).length ≤ 4294967280 := by simp [hrows]
  have hvars : ∀ row ∈ clause_rows [] [first_vars num_vars.toNat] [], ∀ l ∈ row, l.var < num_vars.toNat := by
    rw [hrows, forall_mem_singleton]
    exact first_vars_lt
  have hcard : (occupied by_degree (clause_rows [] [first_vars num_vars.toNat] [])).card ≤ 2147483648 := by
    refine (toFinset_card_le _).trans ?_
    simpa [hrows, hlen] using h
  refine ⟨?_, ?_⟩
  · refine (num_lits_eq rfl hget (hone.trans (by decide))).trans ?_
    have hfst := congrArg length (clause_lits_vars num_vars.toNat (first_vars num_vars.toNat).m_lits)
    rw [length_map, length_map, filter_eq_self.mpr fun l hl => decide_eq_true (first_vars_lt l hl), hlen] at hfst
    rw [hfst]
  · refine ((row_cells_length_eq_iff rfl hone hget).mpr ⟨first_vars_lt, ?_,
      (cells_stored_iff rfl hone hvars).mpr hcard 0 _ hget⟩).trans hlen
    rw [first_vars, map_map]
    exact (map_id (range _)).symm ▸ nodup_range

/-- The count of a clause with 65536 literals is 0, as the `uint16_t` has wrapped around. -/
theorem num_lits_wraps :
    let ctl := build_compressed_tile_layout_direct 65536 [] [first_vars 65536] [] (merge_sort_by_key _)
    ctl.num_lits 0 = 0 ∧ (ctl.row_cells 0).length = 65536 := by
  obtain ⟨hcount, hcells⟩ := first_vars_count 65536 65536 rfl (by decide) (merge_sort_by_key _)
  exact ⟨hcount.trans (by decide), hcells⟩

end sat
