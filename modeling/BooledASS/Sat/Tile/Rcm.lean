import Mathlib.Data.List.GetD
import BooledASS.Logic.Writes
import BooledASS.Sat.Tile.Layout

open List Writes

namespace sat

namespace tile

variable {n : Nat} {visited : Fin n → Bool} {s : Bfs.State (Fin n)} {nbrs : Fin n → List (Fin n)} {idx : Nat}

/-- All variables before the index are visited. -/
def VisitedBelow (visited : Fin n → Bool) (idx : Nat) : Prop := ∀ v : Fin n, v.val < idx → visited v

theorem VisitedBelow.skip (h : VisitedBelow visited idx) : VisitedBelow visited (skip_visited visited idx) := by
  fun_induction skip_visited visited idx with
  | case1 idx hlt hvisited ih =>
    refine ih fun v hv => ?_
    rcases Nat.lt_succ_iff_lt_or_eq.mp hv with hv | hv
    · exact h v hv
    · rwa [show v = ⟨idx, hlt⟩ from Fin.ext hv]
  | case2 => exact h
  | case3 => exact h

theorem skip_visited_unvisited (h : skip_visited visited idx < n) : visited ⟨skip_visited visited idx, h⟩ = false := by
  fun_induction skip_visited visited idx with
  | case1 idx hlt hvisited ih => exact ih h
  | case2 idx hlt hvisited => simpa using hvisited
  | case3 idx hge => exact absurd h hge

/-- Between the components the queue is empty. -/
structure Rests (s : Bfs.State (Fin n)) : Prop where
  inv : s.Inv
  queue : s.queue = []

/-- The breadth-first search from a seed visits vertices once and comes to its end with an empty queue. -/
theorem Rests.search_from (h : Rests s) {seed : Fin n} (hseed : s.visited seed = false) :
    Rests (search_from nbrs s seed) := by
  refine ⟨Bfs.search_inv ⟨?_, fun v => ?_⟩, Bfs.search_queue⟩
  · have hnew : seed ∉ s.order := fun hmem => by
      have := (h.inv.visited_iff seed).mpr (mem_append_left _ hmem)
      rw [hseed] at this
      cases this
    have hnodup : s.order.Nodup := by simpa [h.queue] using h.inv.nodup
    exact nodup_append.mpr ⟨hnodup, by simp, fun a ha b hb => by
      rw [mem_singleton.mp hb]
      exact fun hab => hnew (hab ▸ ha)⟩
  · have hiff : s.visited v ↔ v ∈ s.order := by simpa [h.queue] using h.inv.visited_iff v
    by_cases hv : v = seed
    · simp [hv]
    · simp [hv, hiff]

theorem VisitedBelow.search_from (h : VisitedBelow s.visited idx) (seed : Fin n) :
    VisitedBelow (search_from nbrs s seed).visited idx := by
  intro v hv
  refine Bfs.visited_search ?_
  by_cases hvs : v = seed
  · simp [hvs]
  · simpa [hvs] using h v hv

/-- A list of `n` variables without repetition has every variable. -/
theorem mem_of_nodup_of_le_length {xs : List (Fin n)} (hnodup : xs.Nodup) (hlen : n ≤ xs.length) (v : Fin n) :
    v ∈ xs := by
  have hcard : xs.toFinset = Finset.univ := by
    refine Finset.eq_univ_of_card _ (le_antisymm (Finset.card_le_univ _) ?_)
    rw [Fintype.card_fin, toFinset_card_of_nodup hnodup]
    exact hlen
  rw [← mem_toFinset, hcard]
  exact Finset.mem_univ v

/-- The loop ends with every variable listed once: it stops when the list is long enough or when the index
has moved past all variables. -/
theorem rcm_loop_lists (hs : Rests s) (hbelow : VisitedBelow s.visited idx) :
    (rcm_loop nbrs s idx).order.Nodup ∧ ∀ v, v ∈ (rcm_loop nbrs s idx).order := by
  have hnodup : ∀ {s : Bfs.State (Fin n)}, Rests s → s.order.Nodup := fun h => by simpa [h.queue] using h.inv.nodup
  fun_induction rcm_loop nbrs s idx with
  | case1 s idx hlen seed hseed s' ih =>
    exact ih (hs.search_from (skip_visited_unvisited hseed)) (hbelow.skip.search_from _).skip
  | case2 s idx hlen seed hseed =>
    refine ⟨hnodup hs, fun v => ?_⟩
    have hv : s.visited v := hbelow.skip v (lt_of_lt_of_le v.isLt (not_lt.mp hseed))
    simpa [hs.queue] using (hs.inv.visited_iff v).mp hv
  | case3 s idx hlen => exact ⟨hnodup hs, mem_of_nodup_of_le_length (hnodup hs) (not_lt.mp hlen)⟩

variable {by_degree : key_sort (Fin n)} {rows : List (List literal)}

theorem rcm_order_lists : (rcm_loop nbrs {} 0).order.Nodup ∧ ∀ v, v ∈ (rcm_loop nbrs {} 0).order :=
  rcm_loop_lists ⟨⟨nodup_nil, fun v => by simp⟩, rfl⟩ fun _ h => absurd h (Nat.not_lt_zero _)

theorem rcm_perm_nodup : (rcm_perm by_degree rows).Nodup := nodup_reverse.mpr (rcm_order_lists.1.map Fin.val_injective)

theorem mem_rcm_perm {v : Nat} : v ∈ rcm_perm by_degree rows ↔ v < n := by
  rw [rcm_perm, mem_reverse, mem_map]
  constructor
  · rintro ⟨w, -, rfl⟩
    exact w.isLt
  · exact fun h => ⟨⟨v, h⟩, rcm_order_lists.2 _, rfl⟩

theorem rcm_perm_length : (rcm_perm by_degree rows).length = n := by
  have hperm : (rcm_perm by_degree rows).Perm (range n) :=
    (perm_ext_iff_of_nodup rcm_perm_nodup nodup_range).mpr fun v => by rw [mem_rcm_perm, mem_range]
  simpa using hperm.length_eq

theorem pad_eq_zero_or_le (h : n < 4294967296) : pad n = 0 ∨ n ≤ pad n := by
  unfold pad
  omega

section Store

variable {perm : List Nat} {i : Nat}

theorem store_perm_eq (n : Nat) (perm : List Nat) : store_perm n perm =
    (store id id (store id (perm.getD · 0) (fun _ => 0) (range n)) (range' n (pad n - n)),
      store id id (store (perm.getD · 0) id (fun _ => 0) (range n)) (range' n (pad n - n))) := by
  have hvars := foldl_pair id (perm.getD · 0) (perm.getD · 0) id (fun _ => 0) (fun _ => 0) (range n)
  have hpadding := foldl_pair id id id id (store id (perm.getD · 0) (fun _ => 0) (range n))
    (store (perm.getD · 0) id (fun _ => 0) (range n)) (range' n (pad n - n))
  exact (congrArg (foldl _ · _) hvars).trans hpadding

theorem not_mem_padding (h : i < n) : ∀ j ∈ range' n (pad n - n), id j ≠ i := by
  intro j hj hji
  obtain ⟨hle, -⟩ := mem_range'_1.mp hj
  exact absurd (hji ▸ hle) (not_le.mpr h)

theorem mem_padding (hn : n ≤ i) (hi : i < pad n) : ∃ j ∈ range' n (pad n - n), id j = i :=
  ⟨i, mem_range'_1.mpr ⟨hn, by omega⟩, rfl⟩

theorem store_perm_fst_lt (h : i < n) : (store_perm n perm).1 i = perm.getD i 0 := by
  rw [store_perm_eq]
  refine (store_of_forall_ne (not_mem_padding h)).trans ?_
  refine store_of_exists (fun j _ hj => ?_) ⟨i, mem_range.mpr h, rfl⟩
  exact congrArg (perm.getD · 0) hj

/-- The entries that are written in the first loop are read back: no variable occurs twice. -/
theorem store_perm_snd_getD (hnodup : perm.Nodup) (hlen : perm.length = n) (hlt : ∀ v ∈ perm, v < n) (h : i < n) :
    (store_perm n perm).2 (perm.getD i 0) = i := by
  have hget : ∀ {j}, j < n → ∃ hj : j < perm.length, perm.getD j 0 = perm[j] := fun {j} hj =>
    ⟨hlen ▸ hj, getD_eq_getElem _ _ (hlen ▸ hj)⟩
  obtain ⟨hi, hgi⟩ := hget h
  rw [store_perm_eq]
  refine (store_of_forall_ne (not_mem_padding (hgi ▸ hlt _ (getElem_mem hi)))).trans ?_
  refine store_of_exists (fun j hj hkey => ?_) ⟨i, mem_range.mpr h, rfl⟩
  obtain ⟨hj', hgj⟩ := hget (mem_range.mp hj)
  rw [hgi, hgj] at hkey
  exact hnodup.getElem_inj_iff.mp hkey

theorem store_perm_padding (perm : List Nat) (hn : n ≤ i) (hi : i < pad n) :
    (store_perm n perm).1 i = i ∧ (store_perm n perm).2 i = i := by
  rw [store_perm_eq]
  exact ⟨store_of_exists (fun _ _ h => h) (mem_padding hn hi), store_of_exists (fun _ _ h => h) (mem_padding hn hi)⟩

end Store

section Order

variable (by_degree : key_sort (Fin n)) (rows : List (List literal)) {i v : Nat}

theorem order_perm_lt (h : i < n) : (store_perm n (rcm_perm by_degree rows)).1 i < n ∧
    (store_perm n (rcm_perm by_degree rows)).2 ((store_perm n (rcm_perm by_degree rows)).1 i) = i := by
  rw [store_perm_fst_lt h]
  refine ⟨?_, store_perm_snd_getD rcm_perm_nodup rcm_perm_length (fun v => mem_rcm_perm.mp) h⟩
  have hi : i < (rcm_perm by_degree rows).length := by rwa [rcm_perm_length]
  rw [getD_eq_getElem _ _ hi]
  exact mem_rcm_perm.mp (getElem_mem hi)

/-- A variable is at the position that `var_inv` has for it. -/
theorem order_inv_lt (h : v < n) : (store_perm n (rcm_perm by_degree rows)).2 v < n ∧
    (store_perm n (rcm_perm by_degree rows)).1 ((store_perm n (rcm_perm by_degree rows)).2 v) = v := by
  obtain ⟨i, hi, rfl⟩ := getElem_of_mem ((mem_rcm_perm : _ ∈ rcm_perm by_degree rows ↔ _).mpr h)
  have hin : i < n := by rwa [rcm_perm_length] at hi
  have hget : (store_perm n (rcm_perm by_degree rows)).1 i = (rcm_perm by_degree rows)[i] := by
    rw [store_perm_fst_lt hin, getD_eq_getElem _ _ hi]
  have hinv := (order_perm_lt by_degree rows hin).2
  rw [hget] at hinv
  rw [hinv]
  exact ⟨hin, hget⟩

/-- The column of a variable is its position in the order. -/
theorem order_inv_eq_idxOf (h : v < n) :
    (store_perm n (rcm_perm by_degree rows)).2 v = (rcm_perm by_degree rows).idxOf v := by
  obtain ⟨i, hi, rfl⟩ := getElem_of_mem ((mem_rcm_perm : _ ∈ rcm_perm by_degree rows ↔ _).mpr h)
  have hin : i < n := by rwa [rcm_perm_length] at hi
  rw [rcm_perm_nodup.idxOf_getElem, ← getD_eq_getElem _ 0 hi]
  exact store_perm_snd_getD rcm_perm_nodup rcm_perm_length (fun v => mem_rcm_perm.mp) hin

theorem order_bijective (hn : n < 4294967296) (hi : i < pad n) :
    let order := store_perm n (rcm_perm by_degree rows)
    (order.1 i < pad n ∧ order.2 (order.1 i) = i) ∧ order.2 i < pad n ∧ order.1 (order.2 i) = i := by
  have hle : n ≤ pad n := (pad_eq_zero_or_le hn).resolve_left (by omega)
  by_cases h : i < n
  · obtain ⟨hp, hpi⟩ := order_perm_lt by_degree rows h
    obtain ⟨hv, hvi⟩ := order_inv_lt by_degree rows h
    exact ⟨⟨hp.trans_le hle, hpi⟩, hv.trans_le hle, hvi⟩
  · obtain ⟨h1, h2⟩ := store_perm_padding (rcm_perm by_degree rows) (not_lt.mp h) hi
    simp only [h1, h2]
    exact ⟨⟨hi, trivial⟩, hi, trivial⟩

end Order

end tile

open tile

/-- The renumbering is a bijection, for every graph of the clauses: the loop over the components ends with
every variable listed once, and the two arrays are inverse to each other over the padded variables. -/
theorem build_compressed_tile_layout_direct_bijective (num_vars : UInt32) (bins : List (literal × literal))
    (m_clauses m_learned : List clause) (by_degree : key_sort (Fin num_vars.toNat)) :
    let perm := rcm_perm by_degree (clause_rows bins m_clauses m_learned)
    let ctl := build_compressed_tile_layout_direct num_vars bins m_clauses m_learned by_degree
    (∀ v, perm.count v = if v < num_vars.toNat then 1 else 0) ∧
      (∀ i < ctl.K_pad, ctl.var_perm i < ctl.K_pad ∧ ctl.var_inv (ctl.var_perm i) = i) ∧
      ∀ v < ctl.K_pad, ctl.var_inv v < ctl.K_pad ∧ ctl.var_perm (ctl.var_inv v) = v := by
  refine ⟨fun v => ?_, fun i hi => (order_bijective by_degree _ num_vars.toNat_lt hi).1,
    fun v hv => (order_bijective by_degree _ num_vars.toNat_lt hv).2⟩
  rw [rcm_perm_nodup.count]
  simp only [mem_rcm_perm]

end sat
