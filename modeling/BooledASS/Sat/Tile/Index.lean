import Mathlib.Order.Interval.Set.Monotone
import BooledASS.Logic.Writes
import BooledASS.Sat.Tile.Layout

open List Function

namespace sat

namespace TileCoord

/-- The order of the tiles without equality. -/
def Before (a b : TileCoord) : Prop := a.m_tile < b.m_tile ∨ (a.m_tile = b.m_tile ∧ a.k_tile < b.k_tile)

theorem le_iff {a b : TileCoord} : a.le b ↔ a.Before b ∨ a = b := by
  obtain ⟨m, k⟩ := a
  obtain ⟨m', k'⟩ := b
  by_cases hm : m = m'
  · subst hm
    simp [TileCoord.le, Before]
    omega
  · simp [le, Before, hm]

theorem le_total (a b : TileCoord) : (a.le b || b.le a) := by
  rw [Bool.or_eq_true, le_iff, le_iff]
  obtain ⟨m, k⟩ := a
  obtain ⟨m', k'⟩ := b
  simp only [Before, TileCoord.mk.injEq]
  omega

theorem le_trans (a b c : TileCoord) (hab : a.le b) (hbc : b.le c) : a.le c := by
  rw [le_iff] at hab hbc ⊢
  obtain ⟨m, k⟩ := a
  obtain ⟨m', k'⟩ := b
  obtain ⟨m'', k''⟩ := c
  simp only [Before, TileCoord.mk.injEq] at hab hbc ⊢
  omega

theorem le_antisymm (a b : TileCoord) (hab : a.le b) (hba : b.le a) : a = b := by
  rw [le_iff] at hab hba
  obtain ⟨m, k⟩ := a
  obtain ⟨m', k'⟩ := b
  simp only [Before, mk.injEq] at hab hba ⊢
  omega

end TileCoord

namespace tile

@[simp] theorem mem_unique_tiles {coords : List TileCoord} {t : TileCoord} : t ∈ unique_tiles coords ↔ t ∈ coords := by
  simp [unique_tiles, mem_mergeSort]

theorem unique_tiles_before (coords : List TileCoord) : (unique_tiles coords).Pairwise TileCoord.Before := by
  have hsorted := pairwise_mergeSort TileCoord.le_trans TileCoord.le_total coords
  refine (Lists.unique_pairwise TileCoord.le_antisymm hsorted).imp fun h => ?_
  exact (TileCoord.le_iff.mp h.1).resolve_right h.2

variable {tiles : List TileCoord} {n mt start : Nat}

/-- The tile at an index. -/
def at_idx (tiles : List TileCoord) (i : Nat) : TileCoord := tiles.getD i default

theorem before_of_lt (hsorted : tiles.Pairwise TileCoord.Before) {i j : Nat} (hij : i < j) (hj : j < tiles.length) :
    (at_idx tiles i).Before (at_idx tiles j) := by
  have hi := hij.trans hj
  simp only [at_idx, getD_eq_getElem?_getD, getElem?_eq_getElem hi, getElem?_eq_getElem hj]
  exact pairwise_iff_getElem.mp hsorted i j hi hj hij

/-- Among the first `n` tiles, those before the stripe `mt` are those before `start`. -/
structure Starts (tiles : List TileCoord) (n mt start : Nat) : Prop where
  le : start ≤ n
  lt_iff : ∀ i < n, (at_idx tiles i).m_tile < mt ↔ i < start

section

variable (hsorted : tiles.Pairwise TileCoord.Before) (hn : n ≤ tiles.length)
include hsorted hn

/-- The tiles are sorted by stripe, so that the tiles of the next one start where those of this one end. -/
theorem Starts.skip_stripe (h : Starts tiles n mt start) :
    Starts tiles n (mt + 1) (skip_stripe tiles n mt start) := by
  suffices hskip : ∀ curr ≤ n, (∀ i < curr, (at_idx tiles i).m_tile < mt + 1) →
      (∀ i < n, curr ≤ i → mt ≤ (at_idx tiles i).m_tile) →
      Starts tiles n (mt + 1) (tile.skip_stripe tiles n mt curr) from by
    refine hskip start h.le (fun i hi => ?_) fun i hi hle => ?_
    · have := (h.lt_iff i (hi.trans_le h.le)).mpr hi
      omega
    · have := (h.lt_iff i hi).not.mpr (not_lt.mpr hle)
      omega
  intro curr hcurr hbefore hafter
  fun_induction tile.skip_stripe tiles n mt curr with
  | case1 curr hcond ih =>
    refine ih hcond.1 (fun i hi => ?_) fun i hi hle => hafter i hi (by omega)
    rcases Nat.lt_succ_iff_lt_or_eq.mp hi with hi | rfl
    · exact hbefore i hi
    · exact Nat.lt_succ_of_le hcond.2.le
  | case2 curr hcond =>
    refine ⟨hcurr, fun i hi => ⟨fun hm => ?_, hbefore i⟩⟩
    -- the tile where the loop stops is behind the stripe, and so are those after it
    by_contra hle
    have hlt : curr < n := lt_of_le_of_lt (not_lt.mp hle) hi
    have hstop : mt < (at_idx tiles curr).m_tile :=
      lt_of_le_of_ne (hafter curr hlt le_rfl) fun heq => hcond ⟨hlt, heq.symm⟩
    rcases (not_lt.mp hle).lt_or_eq with hci | rfl
    · have := before_of_lt hsorted hci (hi.trans_le hn)
      simp only [TileCoord.Before] at this
      omega
    · omega

/-- After the loop, the entry of each stripe is the index of its first tile. -/
theorem starts_stripe_loop (k : Nat) :
    Starts tiles n k ((range k).foldl (start_stripe tiles n) (0, fun _ => 0)).1 ∧ ∀ mt < k, Starts tiles n mt
        (((range k).foldl (start_stripe tiles n) (0, fun _ => 0)).2 mt) := by
  induction k with
  | zero => exact ⟨⟨Nat.zero_le _, fun i _ => by simp⟩, fun mt h => absurd h (Nat.not_lt_zero _)⟩
  | succ k ih =>
    obtain ⟨hcurr, hstarts⟩ := ih
    simp only [range_succ, foldl_append, foldl_cons, foldl_nil]
    refine ⟨hcurr.skip_stripe hsorted hn, fun mt hmt => ?_⟩
    rcases Nat.lt_succ_iff_lt_or_eq.mp hmt with hmt | rfl
    · simpa only [start_stripe, update_of_ne hmt.ne] using hstarts mt hmt
    · simpa only [start_stripe, update_self] using hcurr

/-- What the loop over the stripes leaves in `m_tile_start`. -/
theorem starts_stripe_starts {num_m_tiles : Nat} (hlt : ∀ t ∈ tiles, t.m_tile < num_m_tiles) (hmt : mt ≤ num_m_tiles) :
    Starts tiles n mt (stripe_starts tiles n num_m_tiles mt) := by
  rcases hmt.lt_or_eq with hmt | rfl
  · rw [stripe_starts, update_of_ne hmt.ne]
    exact (starts_stripe_loop hsorted hn num_m_tiles).2 mt hmt
  · rw [stripe_starts, update_self]
    refine ⟨le_rfl, fun i hi => iff_of_true ?_ hi⟩
    have hi := hi.trans_le hn
    have hget : at_idx tiles i = tiles[i] := by simp [at_idx, hi]
    rw [hget]
    exact hlt _ (getElem_mem hi)

end

/-- The binary search finds the tile of a column among tiles with increasing columns. -/
theorem find_tile_eq_some {kt low high t : Nat}
    (hsorted : StrictMonoOn (fun i => (at_idx tiles i).k_tile) (Set.Icc low high)) :
    find_tile tiles kt low high = some t ↔ low ≤ t ∧ t ≤ high ∧ (at_idx tiles t).k_tile = kt := by
  fun_induction find_tile tiles kt low high with
  | case1 low high hle mid k_tile hk =>
    have hmid : mid ∈ Set.Icc low high := by simp only [Set.mem_Icc]; omega
    constructor
    · intro h
      rw [← Option.some.inj h]
      exact ⟨hmid.1, hmid.2, hk⟩
    · rintro ⟨hlow, hhigh, ht⟩
      rw [hsorted.injOn hmid ⟨hlow, hhigh⟩ (hk.trans ht.symm)]
  | case2 low high hle mid k_tile hk hlt ih =>
    have hmid : mid ∈ Set.Icc low high := by simp only [Set.mem_Icc]; omega
    rw [ih (hsorted.mono (Set.Icc_subset_Icc_left (Nat.le_succ_of_le hmid.1)))]
    refine ⟨fun h => ⟨by have := hmid.1; omega, h.2⟩, fun ⟨hlow, hhigh, ht⟩ => ⟨?_, hhigh, ht⟩⟩
    exact (hsorted.lt_iff_lt hmid ⟨hlow, hhigh⟩).mp (ht.symm ▸ hlt)
  | case3 low high hle mid k_tile hk hlt hzero =>
    have hmid : mid ∈ Set.Icc low high := by simp only [Set.mem_Icc]; omega
    refine ⟨nofun, fun ⟨hlow, hhigh, ht⟩ => ?_⟩
    have htm := (hsorted.lt_iff_lt ⟨hlow, hhigh⟩ hmid).mp (ht.symm ▸ lt_of_le_of_ne (not_lt.mp hlt) (Ne.symm hk))
    omega
  | case4 low high hle mid k_tile hk hlt hzero ih =>
    have hmid : mid ∈ Set.Icc low high := by simp only [Set.mem_Icc]; omega
    rw [ih (hsorted.mono (Set.Icc_subset_Icc_right ((Nat.sub_le _ _).trans hmid.2)))]
    refine ⟨fun h => ⟨h.1, by have := hmid.2; omega, h.2.2⟩, fun ⟨hlow, hhigh, ht⟩ => ⟨hlow, ?_, ht⟩⟩
    have htm := (hsorted.lt_iff_lt ⟨hlow, hhigh⟩ hmid).mp (ht.symm ▸ lt_of_le_of_ne (not_lt.mp hlt) (Ne.symm hk))
    omega
  | case5 low high hle => exact ⟨nofun, fun h => absurd (h.1.trans h.2.1) hle⟩

theorem getElem?_eq_some_iff_at_idx {t : Nat} {x : TileCoord} :
    tiles[t]? = some x ↔ t < tiles.length ∧ at_idx tiles t = x := by
  rw [getElem?_eq_some_iff]
  constructor
  · rintro ⟨ht, rfl⟩
    exact ⟨ht, by simp [at_idx, ht]⟩
  · rintro ⟨ht, rfl⟩
    exact ⟨ht, by simp [at_idx, ht]⟩

/-- A cell has an offset when its tile is one of the `n` that are counted and the index of the tile fits into an
`int32_t`. -/
theorem cell_offset_eq_some (hsorted : tiles.Pairwise TileCoord.Before) (hn : n ≤ tiles.length)
    {num_m_tiles c_idx v_perm offset : Nat} (hlt : ∀ t ∈ tiles, t.m_tile < num_m_tiles)
    (hc : c_idx / 16 < num_m_tiles) :
    cell_offset tiles (stripe_starts tiles n num_m_tiles) c_idx v_perm = some offset ↔
      ∃ t < min n 2147483648, tiles[t]? = some ⟨c_idx / 16, v_perm / 16⟩ ∧
        offset = t * 256 + c_idx % 16 * 16 + v_perm % 16 := by
  have hstart := starts_stripe_starts hsorted hn hlt hc.le
  have hend := starts_stripe_starts hsorted hn hlt (Nat.succ_le_of_lt hc)
  rw [cell_offset]
  generalize stripe_starts tiles n num_m_tiles (c_idx / 16) = start_idx at hstart
  generalize stripe_starts tiles n num_m_tiles (c_idx / 16 + 1) = end_idx at hend
  have hstripe : ∀ t < n, (start_idx ≤ t ∧ t < end_idx) ↔ (at_idx tiles t).m_tile = c_idx / 16 := by
    intro t ht
    have h1 := hstart.lt_iff t ht
    have h2 := hend.lt_iff t ht
    omega
  have hle := hend.le
  split
  · refine ⟨fun h => (by cases h), ?_⟩
    rintro ⟨t, htn, ht, -⟩
    have hat := (getElem?_eq_some_iff_at_idx.mp ht).2
    have := (hstripe t (lt_min_iff.mp htn).1).mpr (by rw [hat])
    omega
  · have hcols : StrictMonoOn (fun i => (at_idx tiles i).k_tile) (Set.Icc start_idx (end_idx - 1)) := by
      rintro i ⟨hi, -⟩ j ⟨-, hj⟩ hij
      have hbefore := before_of_lt hsorted hij (by omega)
      have hmi := (hstripe i (by omega)).mp ⟨hi, by omega⟩
      have hmj := (hstripe j (by omega)).mp ⟨by omega, by omega⟩
      simp only [TileCoord.Before] at hbefore ⊢
      omega
    simp only [Option.bind_eq_some_iff, find_tile_eq_some hcols, Option.ite_none_right_eq_some,
      Option.some.injEq, getElem?_eq_some_iff_at_idx]
    refine exists_congr fun t => ⟨?_, ?_⟩
    · rintro ⟨⟨h1, h2, hk⟩, ht, rfl⟩
      have htn : t < n := by omega
      have hm := (hstripe t htn).mp ⟨h1, by omega⟩
      refine ⟨lt_min htn ht, ⟨htn.trans_le hn, ?_⟩, rfl⟩
      rw [← hm, ← hk]
    · rintro ⟨htn, ⟨-, hat⟩, rfl⟩
      obtain ⟨htn, ht⟩ := lt_min_iff.mp htn
      have hrange := (hstripe t htn).mpr (by rw [hat])
      exact ⟨⟨hrange.1, by omega, by rw [hat]⟩, ht, rfl⟩

end tile

end sat
