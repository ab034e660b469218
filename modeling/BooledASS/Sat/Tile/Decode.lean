import BooledASS.Sat.Tile.Cells

open List

namespace sat

open tile

namespace CompressedTileLayout

variable (ctl : CompressedTileLayout)

/-- The index of the tile of the row `c` and the variable `v`, looked up among the tiles of the stripe. -/
def lookup (c v : Nat) : Option Nat :=
  (range' (ctl.m_tile_start (c / 16)) (ctl.m_tile_start (c / 16 + 1) - ctl.m_tile_start (c / 16))).find?
    fun t => at_idx ctl.active_tiles t == ⟨c / 16, ctl.var_inv v / 16⟩

/-- The entry of the matrix, 0 where the tile is absent. -/
def entry (c v : Nat) : Int :=
  match ctl.lookup c v with
  | none => 0
  | some t => ctl.A (t * 256 + c % 16 * 16 + ctl.var_inv v % 16)

/-- A row past the clauses and a column past the variables have no cell that is not zero. -/
structure PaddingZero (num_vars num_rows : Nat) : Prop where
  row : ∀ c, num_rows ≤ c → ∀ t < ctl.num_active_tiles, (at_idx ctl.active_tiles t).m_tile = c / 16 →
    ∀ j < 16, ctl.A (t * 256 + c % 16 * 16 + j) = 0
  column : ∀ k, num_vars ≤ k → ∀ t < ctl.num_active_tiles, (at_idx ctl.active_tiles t).k_tile = k / 16 →
    ∀ r < 16, ctl.A (t * 256 + r * 16 + k % 16) = 0

end CompressedTileLayout

/-- How the variable occurs in the clause. -/
def occurrence (row : List literal) (v : Nat) : Int :=
  if ⟨v, false⟩ ∈ row then 1 else if ⟨v, true⟩ ∈ row then -1 else 0

/-- The layout gives the clauses back: the arrays hold all rows and variables, the entries of the matrix are the
occurrences of the variables in the clauses, `A_abs` has the absolute values, and the padding is zero. -/
structure CompressedTileLayout.Lossless (ctl : CompressedTileLayout) (num_vars : Nat) (rows : List (List literal)) :
    Prop where
  allocated : ctl.Allocated num_vars rows.length
  entries : ∀ c row, rows[c]? = some row → ∀ v < num_vars, ctl.entry c v = occurrence row v
  abs : ∀ offset, ctl.A_abs offset = (ctl.A offset).natAbs
  padding : ctl.PaddingZero num_vars rows.length

section Layout

variable {num_vars : UInt32} {rows : List (List literal)} {by_degree : key_sort (Fin num_vars.toNat)}
  {c k t v : Nat} {ctl : CompressedTileLayout} (hctl : ctl = layout_of_rows num_vars rows by_degree)
include hctl

/-- `A_abs` is written where `A` is, with 1 for 1 and -1. -/
theorem A_abs_eq_natAbs (offset : Nat) : ctl.A_abs offset = (ctl.A offset).natAbs := by
  rw [A_abs_eq hctl, A_eq hctl]
  by_cases hw : ∃ w ∈ layout_writes num_vars rows by_degree, w.1 = offset
  · have hone : ∀ w ∈ layout_writes num_vars rows by_degree, (w.2.natAbs : Int) = 1 := by
      intro w hw
      simp only [layout_writes, mem_flatMap, row_writes, mem_filterMap, Option.map_eq_some_iff,
        indexed_rows, mem_map] at hw
      obtain ⟨_, ⟨e, -, rfl⟩, lit, hlit, offset, -, rfl⟩ := hw
      obtain ⟨l, -, -, rfl⟩ := mem_clause_lits.mp hlit
      cases l.sign <;> rfl
    rw [Writes.store_of_exists (fun _ _ _ => rfl) hw]
    exact (Writes.store_forall (P := fun b => (Int.natAbs b : Int) = 1) (fun w hw _ => hone w hw) hw).symm
  · have hne : ∀ w ∈ layout_writes num_vars rows by_degree, w.1 ≠ offset := fun w hmem hkey => hw ⟨w, hmem, hkey⟩
    rw [Writes.store_of_forall_ne hne, Writes.store_of_forall_ne hne]
    rfl

variable (hrows : rows.length ≤ 4294967280)
include hrows

/-- A cell is zero when the clause of its row has no literal with the variable of its column. -/
theorem A_eq_zero (ht : t < ctl.num_active_tiles) (hm : (at_idx ctl.active_tiles t).m_tile = c / 16)
    (hk : (at_idx ctl.active_tiles t).k_tile = k / 16)
    (hnone : ∀ row, rows[c]? = some row → ∀ lit ∈ clause_lits num_vars.toNat row, ctl.var_inv lit.1 ≠ k) :
    ctl.A (t * 256 + c % 16 * 16 + k % 16) = 0 := by
  have htile := getElem?_eq_some_iff_at_idx.mpr
    ⟨ht.trans_le (num_active_tiles_le hctl), (TileCoord.mk.injEq .. ▸ ⟨hm, hk⟩ : _ = ⟨c / 16, k / 16⟩)⟩
  refine not_not.mp ((A_ne_zero_iff hctl hrows htile).not.mpr ?_)
  rintro ⟨-, row, hget, lit, hlit, hinv⟩
  exact hnone row hget lit hlit hinv

/-- No cell beyond the rows and variables is written. -/
theorem padding_zero : ctl.PaddingZero num_vars.toNat rows.length := by
  refine ⟨fun c hc t ht hm j hj => ?_, fun k hk t ht hkt r hr => ?_⟩
  · have hmod : ((at_idx ctl.active_tiles t).k_tile * 16 + j) % 16 = j := by omega
    rw [← hmod]
    refine A_eq_zero hctl hrows ht hm (by omega) fun row hget => ?_
    exact absurd (List.getElem?_eq_some_iff.mp hget).1 (not_lt.mpr hc)
  · have hmod : ((at_idx ctl.active_tiles t).m_tile * 16 + r) % 16 = r := by omega
    rw [← hmod]
    refine A_eq_zero hctl hrows ht (by omega) hkt fun row _ lit hlit hinv => ?_
    obtain ⟨l, -, hl, rfl⟩ := mem_clause_lits.mp hlit
    have hlt := (order_inv_lt by_degree rows hl).1
    subst hctl hinv
    exact absurd hlt (not_lt.mpr hk)

/-- The lookup finds the tile if it is active and counted. -/
theorem lookup_eq_some_iff (hc : c < rows.length) : ctl.lookup c v = some t ↔
    t < ctl.num_active_tiles ∧ ctl.active_tiles[t]? = some ⟨c / 16, ctl.var_inv v / 16⟩ := by
  have hn := num_active_tiles_le hctl
  have hlt : c / 16 < pad (rows.length % 4294967296) / 16 := by simp only [pad]; omega
  have hstart := starts_stripe_starts (active_tiles_before hctl) hn (m_tile_lt hctl hrows) hlt.le
  have hend := starts_stripe_starts (active_tiles_before hctl) hn (m_tile_lt hctl hrows) (Nat.succ_le_of_lt hlt)
  rw [← m_tile_start_eq hctl] at hstart hend
  have hle := hend.le
  have hmem : ∀ {t}, t ∈ range' (ctl.m_tile_start (c / 16)) (ctl.m_tile_start (c / 16 + 1) -
          ctl.m_tile_start (c / 16)) →
      t < ctl.num_active_tiles := fun ht => by
    rw [mem_range'_1] at ht
    change ctl.m_tile_start (c / 16 + 1) ≤ _ at hle
    omega
  have hfound : ∀ {t}, ctl.lookup c v = some t →
      t < ctl.num_active_tiles ∧ ctl.active_tiles[t]? = some ⟨c / 16, ctl.var_inv v / 16⟩ := fun h =>
    have hlt := hmem (mem_of_find?_eq_some h)
    ⟨hlt, getElem?_eq_some_iff_at_idx.mpr ⟨hlt.trans_le hn, by simpa using find?_some h⟩⟩
  refine ⟨hfound, ?_⟩
  rintro ⟨hlt, ht⟩
  obtain ⟨htl, hat⟩ := getElem?_eq_some_iff_at_idx.mp ht
  have h1 := hstart.lt_iff t hlt
  have h2 := hend.lt_iff t hlt
  rw [hat] at h1 h2
  have hin : t ∈ range' (ctl.m_tile_start (c / 16)) (ctl.m_tile_start (c / 16 + 1) - ctl.m_tile_start (c / 16)) := by
    rw [mem_range'_1]
    change _ ↔ t < ctl.m_tile_start (c / 16 + 1) at h2
    simp only at h1 h2
    omega
  have hsome : (ctl.lookup c v).isSome := find?_isSome.mpr ⟨t, hin, by simpa using hat⟩
  obtain ⟨t', ht'⟩ := Option.isSome_iff_exists.mp hsome
  -- no tile is listed twice
  obtain ⟨htl', hat'⟩ := List.getElem?_eq_some_iff.mp (hfound ht').2
  obtain ⟨htl, hat⟩ := List.getElem?_eq_some_iff.mp ht
  rw [ht', (active_tiles_nodup hctl |>.getElem_inj_iff).mp (hat'.trans hat.symm)]

variable {row : List literal} (hget : rows[c]? = some row)
include hget

/-- The entry of a variable that occurs in the clause is written for its literal. -/
theorem A_eq_of_lit {lit : Nat × Int} (hnodup : ((clause_lits num_vars.toNat row).map Prod.fst).Nodup)
    (hlit : lit ∈ clause_lits num_vars.toNat row) (hlt : t < ctl.stored)
    (ht : ctl.active_tiles[t]? = some ⟨c / 16, ctl.var_inv lit.1 / 16⟩) :
    ctl.A (t * 256 + c % 16 * 16 + ctl.var_inv lit.1 % 16) = lit.2 := by
  rw [A_eq hctl]
  refine Writes.store_of_exists (fun w hw hkey => ?_)
    ⟨(_, lit.2), (mem_writes_iff hctl hrows ht).mpr ⟨hlt, row, hget, lit, hlit, rfl, rfl⟩, rfl⟩
  obtain ⟨o, b⟩ := w
  obtain rfl : o = _ := hkey
  obtain ⟨-, row', hget', lit', hlit', hinv, rfl⟩ := (mem_writes_iff hctl hrows ht).mp hw
  rw [hget, Option.some.injEq] at hget'
  subst hget'
  have hlt : ∀ {lit}, lit ∈ clause_lits num_vars.toNat row → lit.1 < num_vars.toNat := fun h => by
    obtain ⟨l, -, hl, rfl⟩ := mem_clause_lits.mp h
    exact hl
  have hvar := var_inv_inj hctl (hlt hlit') (hlt hlit) hinv
  rw [inj_on_of_nodup_map hnodup hlit' hlit hvar]

/-- The entry of a variable that does not occur in the clause. -/
theorem entry_of_not_mem (hv : v < num_vars.toNat) (hocc : ∀ l ∈ row, l.var ≠ v) :
    ctl.entry c v = occurrence row v := by
  have hc := (List.getElem?_eq_some_iff.mp hget).1
  have hnone : occurrence row v = 0 := by
    have hne : ∀ b, ⟨v, b⟩ ∉ row := fun b hmem => hocc _ hmem rfl
    simp [occurrence, hne]
  rw [hnone, CompressedTileLayout.entry]
  cases hlookup : ctl.lookup c v with
  | none => rfl
  | some t =>
    have ht := ((lookup_eq_some_iff hctl hrows hc).mp hlookup).2
    refine not_not.mp ((A_ne_zero_iff hctl hrows ht).not.mpr ?_)
    rintro ⟨-, row', hget', lit, hlit, hinv⟩
    rw [hget, Option.some.injEq] at hget'
    subst hget'
    obtain ⟨l, hl, hlt, rfl⟩ := mem_clause_lits.mp hlit
    exact hocc l hl (var_inv_inj hctl hlt hv hinv)

/-- The entry of a variable that occurs in the clause is its occurrence if and only if its cell can be written;
otherwise it is 0. -/
theorem entry_of_mem {l : literal} (hnodup : (row.map Cnf.Lit.var).Nodup) (hl : l ∈ row)
    (hv : l.var < num_vars.toNat) : ctl.entry c l.var = occurrence row l.var ↔ (ctl.cell c l.var).1 < ctl.stored := by
  have hc := (List.getElem?_eq_some_iff.mp hget).1
  have hfst : ((clause_lits num_vars.toNat row).map Prod.fst).Nodup := by
    rw [clause_lits_vars]
    exact (filter_sublist.map _).nodup hnodup
  have hlit : (l.var, if l.sign then -1 else 1) ∈ clause_lits num_vars.toNat row :=
    mem_clause_lits.mpr ⟨l, hl, hv, rfl⟩
  -- the other literal of the variable is not in the clause
  have hocc : occurrence row l.var = if l.sign then -1 else 1 := by
    have honly : ∀ m ∈ row, m.var = l.var → m = l := fun m hm h => inj_on_of_nodup_map hnodup hm hl h
    obtain ⟨v, b⟩ := l
    cases b with
    | false => simp [occurrence, hl]
    | true =>
      have hpos : ⟨v, false⟩ ∉ row := fun hmem => by simpa using honly _ hmem rfl
      simp [occurrence, hl, hpos]
  have hmem := mem_active_tiles_of_lit hctl hrows hget hlit
  have hidx : (ctl.cell c l.var).1 < ctl.active_tiles.length := idxOf_lt_length_iff.mpr hmem
  have htile : ctl.active_tiles[(ctl.cell c l.var).1]? = some ⟨c / 16, ctl.var_inv l.var / 16⟩ :=
    List.getElem?_eq_some_iff.mpr ⟨hidx, getElem_idxOf hidx⟩
  constructor
  · intro h
    by_contra hlt
    have hzero : ctl.entry c l.var = 0 := by
      rw [CompressedTileLayout.entry]
      cases hlookup : ctl.lookup c l.var with
      | none => rfl
      | some t =>
        have ht := ((lookup_eq_some_iff hctl hrows hc).mp hlookup).2
        obtain ⟨htl, hat⟩ := List.getElem?_eq_some_iff.mp ht
        have hcell : (ctl.cell c l.var).1 = t := by
          rw [CompressedTileLayout.cell, ← hat, (active_tiles_nodup hctl).idxOf_getElem]
        exact not_not.mp ((A_ne_zero_iff hctl hrows ht).not.mpr fun hA => hlt (hcell ▸ hA.1))
    rw [hzero, hocc] at h
    split at h <;> cases h
  · intro hlt
    have hlookup := (lookup_eq_some_iff hctl hrows hc).mpr ⟨(lt_min_iff.mp hlt).1, htile⟩
    rw [CompressedTileLayout.entry, hlookup, hocc]
    exact A_eq_of_lit hctl hrows hget hfst hlit hlt htile

end Layout

/-- The encoding is lossless if and only if at most `2 ^ 31` blocks of 16 clauses and 16 variables have a literal, and
the arrays for the rows and the variables can be allocated: from `2 ^ 32 - 15` on their size is rounded up to 0.  The
index of a tile is kept in an `int32_t`, and the literals of a tile from the index `2 ^ 31` on are not written. -/
theorem build_compressed_tile_layout_direct_lossless (num_vars : UInt32) (bins : List (literal × literal))
    (m_clauses m_learned : List clause) (by_degree : key_sort (Fin num_vars.toNat))
    (hvars : ∀ row ∈ clause_rows bins m_clauses m_learned, ∀ l ∈ row, l.var < num_vars.toNat)
    (hnodup : ∀ row ∈ clause_rows bins m_clauses m_learned, (row.map Cnf.Lit.var).Nodup) :
    let rows := clause_rows bins m_clauses m_learned
    (build_compressed_tile_layout_direct num_vars bins m_clauses m_learned by_degree).Lossless num_vars.toNat rows ↔
      (num_vars.toNat ≤ 4294967280 ∧ rows.length ≤ 4294967280) ∧ (occupied by_degree rows).card ≤ 2147483648 := by
  intro rows
  set ctl := build_compressed_tile_layout_direct num_vars bins m_clauses m_learned by_degree
  have hctl : ctl = layout_of_rows num_vars rows by_degree := rfl
  rw [← allocated_iff hctl]
  constructor
  · intro h
    have hrows := ((allocated_iff hctl).mp h.allocated).2
    refine ⟨h.allocated, (cells_stored_iff hctl hrows hvars).mp fun c row hget l hl => ?_⟩
    have hmem := mem_of_getElem? hget
    have hv := hvars row hmem l hl
    exact (entry_of_mem hctl hrows hget (hnodup row hmem) hl hv).mp (h.entries c row hget _ hv)
  · rintro ⟨halloc, hcard⟩
    have hrows := ((allocated_iff hctl).mp halloc).2
    refine ⟨halloc, fun c row hget v hv => ?_, A_abs_eq_natAbs hctl, padding_zero hctl hrows⟩
    by_cases hocc : ∃ l ∈ row, l.var = v
    · obtain ⟨l, hl, rfl⟩ := hocc
      exact (entry_of_mem hctl hrows hget (hnodup row (mem_of_getElem? hget)) hl hv).mpr
        ((cells_stored_iff hctl hrows hvars).mpr hcard c row hget l hl)
    · exact entry_of_not_mem hctl hrows hget hv fun l hl h => hocc ⟨l, hl, h⟩

/-- Three variables, a binary clause and one of three literals. -/
theorem build_compressed_tile_layout_direct_lossless_sample :
    (build_compressed_tile_layout_direct 3 [(⟨0, false⟩, ⟨1, true⟩)]
      [{ m_lits := [⟨2, false⟩, ⟨0, true⟩, ⟨1, false⟩] }] [] (merge_sort_by_key _)).Lossless 3
        [[⟨0, false⟩, ⟨1, true⟩], [⟨2, false⟩, ⟨0, true⟩, ⟨1, false⟩]] :=
  (build_compressed_tile_layout_direct_lossless 3 [(⟨0, false⟩, ⟨1, true⟩)]
    [{ m_lits := [⟨2, false⟩, ⟨0, true⟩, ⟨1, false⟩] }] [] (merge_sort_by_key _) (by decide) (by decide)).mpr
    ⟨by decide, (toFinset_card_le _).trans (by simp [clause_rows])⟩

section Lost

variable {num_vars : UInt32} {rows : List (List literal)} {by_degree : key_sort (Fin num_vars.toNat)}
  {c m n t v : Nat} {tiles : List TileCoord} {ctl : CompressedTileLayout}

/-- No cell of a tile from the index `2 ^ 31` on is written. -/
theorem A_eq_zero_of_le (hctl : ctl = layout_of_rows num_vars rows by_degree) {offset : Nat}
    (h : 2147483648 * 256 ≤ offset) : ctl.A offset = 0 := by
  rw [A_eq hctl]
  refine Writes.store_of_forall_ne fun w hw hkey => ?_
  simp only [layout_writes, mem_flatMap, row_writes, mem_filterMap, Option.map_eq_some_iff] at hw
  obtain ⟨row, -, lit, -, o, ho, rfl⟩ := hw
  rw [cell_offset] at ho
  split at ho
  · cases ho
  · obtain ⟨t, -, ht⟩ := Option.bind_eq_some_iff.mp ho
    obtain ⟨hlt, heq⟩ := Option.ite_none_right_eq_some.mp ht
    simp only [Option.some.injEq] at heq hkey
    omega

/-- The tiles of the stripes before `m` come before a tile of the stripe `m`. -/
theorem le_index_of_stripes (hsorted : tiles.Pairwise TileCoord.Before)
    (hactive : ∀ s < m, ∀ k < n, (⟨s, k⟩ : TileCoord) ∈ tiles) (ht : t < tiles.length)
    (hm : (at_idx tiles t).m_tile = m) : m * n ≤ t := by
  let before := ((range m).product (range n)).map fun e => (⟨e.1, e.2⟩ : TileCoord)
  have hnodup : before.Nodup := (nodup_range.product nodup_range).map fun a b h => by
    rw [TileCoord.mk.injEq] at h
    exact Prod.ext h.1 h.2
  have hsub : ∀ x ∈ before, x ∈ tiles.take t := fun x hx => by
    obtain ⟨⟨s, k⟩, he, rfl⟩ := mem_map.mp hx
    rw [pair_mem_product, mem_range, mem_range] at he
    obtain ⟨i, hi, hat⟩ := getElem_of_mem (hactive s he.1 k he.2)
    have hget : at_idx tiles i = ⟨s, k⟩ := by simp [at_idx, hi, hat]
    have hit : i < t := by
      rcases Nat.lt_trichotomy i t with h | rfl | h
      · exact h
      · rw [hget] at hm
        exact absurd hm he.1.ne
      · have hbefore := before_of_lt hsorted h hi
        rw [TileCoord.Before, hget] at hbefore
        simp only at hbefore
        omega
    exact mem_iff_getElem.mpr ⟨i, by simp [hit, hi], by simp [hat]⟩
  calc m * n = before.length := by
        rw [length_map, product]
        simp
    _ ≤ (tiles.take t).length := (hnodup.subperm hsub).length_le
    _ ≤ t := length_take_le _ _

/-- The row of a clause is lost when the stripes before it have `2 ^ 31` tiles. -/
theorem entry_eq_zero (hctl : ctl = layout_of_rows num_vars rows by_degree) (hm : 0 < c / 16)
    (hmany : 2147483648 ≤ c / 16 * n) (hactive : ∀ s < c / 16, ∀ k < n, (⟨s, k⟩ : TileCoord) ∈ ctl.active_tiles) :
    ctl.entry c v = 0 := by
  rw [CompressedTileLayout.entry]
  cases hlookup : ctl.lookup c v with
  | none => rfl
  | some t =>
    have hat : at_idx ctl.active_tiles t = ⟨c / 16, ctl.var_inv v / 16⟩ := by simpa using find?_some hlookup
    have ht : t < ctl.active_tiles.length := by
      by_contra hge
      have hdefault : at_idx ctl.active_tiles t = default := by simp [at_idx, getElem?_eq_none (not_lt.mp hge)]
      rw [hdefault] at hat
      exact absurd (congrArg TileCoord.m_tile hat) hm.ne
    have hle := le_index_of_stripes (active_tiles_before hctl) hactive ht (by rw [hat])
    refine A_eq_zero_of_le hctl ?_
    omega

/-- Clauses with a literal in every column make all tiles of their stripes active. -/
theorem active_of_replicate {num nv : Nat} (hnv : num_vars.toNat = nv) (hnum : num ≤ 4294967280)
    (hvars : n * 16 ≤ nv) {s k : Nat} (hs : s * 16 < num) (hk : k < n) : (⟨s, k⟩ : TileCoord) ∈
      (layout_of_rows num_vars (replicate num (first_vars nv).m_lits) by_degree).active_tiles := by
  subst hnv
  obtain ⟨hv, hinv⟩ := order_perm_lt by_degree (replicate num (first_vars num_vars.toNat).m_lits)
    (show k * 16 < num_vars.toNat by omega)
  rw [mem_active_tiles rfl (by simpa using hnum)]
  refine ⟨s * 16, _, getElem?_replicate_of_lt hs, (_, 1),
    mem_clause_lits.mpr ⟨⟨_, false⟩, mem_map.mpr ⟨_, mem_range.mpr hv, rfl⟩, hv, rfl⟩, ?_⟩
  rw [TileCoord.mk.injEq]
  refine ⟨by omega, ?_⟩
  change k = (store_perm _ _).2 _ / 16
  rw [hinv]
  omega

theorem clause_rows_replicate (num n : Nat) : clause_rows [] (replicate num (first_vars n)) [] =
    replicate num (first_vars n).m_lits := by
  simp [clause_rows, first_vars]

/-- The last of `num + 1` clauses is lost when the stripes before it have `2 ^ 31` tiles. -/
theorem entry_of_last_row_lost (num_vars : UInt32) (nv : Nat) (hnv : num_vars.toNat = nv) (num n : Nat)
    (hnum : num < 4294967280) (hnv' : 0 < nv) (hvars : n * 16 ≤ nv) (hmany : 2147483648 ≤ num / 16 * n)
    (by_degree : key_sort (Fin num_vars.toNat)) :
    let clauses := replicate (num + 1) (first_vars nv)
    let ctl := build_compressed_tile_layout_direct num_vars [] clauses [] by_degree
    (clause_rows [] clauses [])[num]? = some (first_vars nv).m_lits ∧ ctl.entry num 0 = 0 ∧
      occurrence (first_vars nv).m_lits 0 = 1 := by
  intro clauses ctl
  refine ⟨?_, ?_, ?_⟩
  · rw [clause_rows_replicate]
    exact getElem?_replicate_of_lt (Nat.lt_succ_self num)
  · have hpos : 0 < num / 16 := Nat.pos_of_ne_zero fun h => by simp [h] at hmany
    simp only [ctl, clauses, build_compressed_tile_layout_direct, clause_rows_replicate]
    exact entry_eq_zero rfl hpos hmany fun s hs k hk => active_of_replicate hnv (by omega) hvars (by omega) hk
  · have hmem : ⟨0, false⟩ ∈ (first_vars nv).m_lits := mem_map.mpr ⟨0, mem_range.mpr hnv', rfl⟩
    rw [occurrence, if_pos hmem]

end Lost

/-- `2 ^ 19 + 1` clauses with the first `2 ^ 20` variables: the last one is lost, since its tiles come after
`2 ^ 31` others and the index of a tile is kept in an `int32_t`. -/
theorem last_row_lost :
    let ctl := build_compressed_tile_layout_direct 1048576 [] (replicate 524289 (first_vars 1048576)) []
      (merge_sort_by_key _)
    (clause_rows [] (replicate 524289 (first_vars 1048576)) [])[524288]? = some (first_vars 1048576).m_lits ∧
      ctl.entry 524288 0 = 0 ∧ occurrence (first_vars 1048576).m_lits 0 = 1 := by
  exact entry_of_last_row_lost 1048576 1048576 rfl 524288 65536 (by decide) (by decide) (by decide) (by decide)
    (merge_sort_by_key _)

end sat
