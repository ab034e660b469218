import Mathlib.Data.List.Count
import Mathlib.Logic.Function.Basic

open List Function

/-- A hash table with open addressing, from which nothing is erased. A used slot holds the hash code that its element
had when it was put there. -/
structure core_hashtable (α : Type) where
  m_table : Nat → Option (Nat × α) := fun _ => none
  m_capacity : Nat := 8
  m_size : Nat := 0

namespace core_hashtable

variable {α : Type}

/-- The two loops over the slots: from that of the hash code to the end, then those before it. -/
def order (capacity hash : Nat) : List Nat :=
  let idx := hash &&& (capacity - 1)
  range' idx (capacity - idx) ++ range idx

/-- The first slot of the loops that is free or has an element which `equal` accepts. -/
def probe (table : Nat → Option (Nat × α)) (capacity hash : Nat) (equal : Nat × α → Bool) : Option Nat :=
  (order capacity hash).find? fun i => (table i).all equal

/-- `none` where the loops end without a free slot. -/
def move_table (source : List (Nat × α)) (target : Nat → Option (Nat × α)) (capacity : Nat) :
    Option (Nat → Option (Nat × α)) :=
  source.foldlM (fun table s => (probe table capacity s.1 fun _ => false).map fun i => update table i (some s)) target

section Operations

variable (t : core_hashtable α)

/-- The used slots, in the order of the iterator. -/
def used : List (Nat × α) := (range t.m_capacity).filterMap t.m_table

def expand_table : Option (core_hashtable α) :=
  (move_table t.used (fun _ => none) (2 * t.m_capacity)).map fun table =>
    { t with m_table := table, m_capacity := 2 * t.m_capacity }

def reset : core_hashtable α :=
  if t.m_size = 0 then t
  else
    let overhead := (range t.m_capacity).countP fun i => (t.m_table i).isNone
    { m_capacity := if 16 < t.m_capacity ∧ 3 * t.m_capacity < 4 * overhead then t.m_capacity / 2 else t.m_capacity }

/-- The test for the load before an insertion. -/
def grow : Option (core_hashtable α) := if 3 * t.m_capacity < 4 * t.m_size then t.expand_table else some t

variable (hash : α → Nat) (equals : α → α → Bool) (e : α)

/-- The slot for `e` that the loops of the insertions find. -/
def slot : Option Nat := probe t.m_table t.m_capacity (hash e) fun s => s.1 == hash e && equals s.2 e

def fill (i : Nat) (s : Nat × α) : core_hashtable α :=
  { t with m_table := update t.m_table i (some s), m_size := t.m_size + 1 }

def insert : Option (core_hashtable α) := do
  let t ← t.grow
  let i ← t.slot hash equals e
  match t.m_table i with
  | some (h, _) => some { t with m_table := update t.m_table i (some (h, e)) }
  | none => some (t.fill i (hash e, e))

/-- The element of the table that `e` stands for, with the table. -/
def insert_if_not_there : Option (α × core_hashtable α) := do
  let t ← t.grow
  let i ← t.slot hash equals e
  match t.m_table i with
  | some (_, e') => some (e', t)
  | none => some (e, t.fill i (hash e, e))

end Operations

/-- The loops reach slot `i` over used slots. -/
def Chained (table : Nat → Option (Nat × α)) (l : List Nat) (i : Nat) : Prop :=
  ∃ pre post, l = pre ++ i :: post ∧ ∀ k ∈ pre, (table k).isSome

def Has (table : Nat → Option (Nat × α)) (s : Nat × α) : Prop := ∃ i, table i = some s

structure Inv (table : Nat → Option (Nat × α)) (capacity size : Nat) : Prop where
  pos : 0 < capacity
  chain : ∀ i s, table i = some s → Chained table (order capacity s.1) i
  count : (range capacity).countP (fun i => (table i).isSome) = size

variable {table : Nat → Option (Nat × α)} {capacity size hash i : Nat} {l : List Nat} {s : Nat × α}

theorem mem_order (hpos : 0 < capacity) : i ∈ order capacity hash ↔ i < capacity := by
  have hidx : hash &&& (capacity - 1) ≤ capacity - 1 := Nat.and_le_right
  simp only [order, mem_append, mem_range'_1, mem_range]
  omega

theorem Chained.mem (h : Chained table l i) : i ∈ l := by
  obtain ⟨pre, post, rfl, -⟩ := h
  simp

theorem Chained.mono {table' : Nat → Option (Nat × α)} (h : Chained table l i)
    (hsome : ∀ k, (table k).isSome → (table' k).isSome) : Chained table' l i := by
  obtain ⟨pre, post, hl, hpre⟩ := h
  exact ⟨pre, post, hl, fun k hk => hsome k (hpre k hk)⟩

theorem isSome_update (hk : (table i).isSome) (j : Nat) : (update table j (some s) i).isSome := by
  by_cases h : i = j
  · simp [h]
  · rwa [update_of_ne h]

/-- An element that is reached over used slots is found, or one before it that `equal` accepts as well. -/
theorem probe_of_chained (equal : Nat × α → Bool) (hi : table i = some s) (hc : Chained table (order capacity hash) i)
    (hs : equal s) : ∃ j s', probe table capacity hash equal = some j ∧ table j = some s' ∧ equal s' := by
  obtain ⟨pre, post, hl, hpre⟩ := hc
  unfold probe
  rw [hl, find?_append]
  cases hfind : pre.find? fun j => (table j).all equal with
  | none => exact ⟨i, s, by simp [hi, hs], hi, hs⟩
  | some j =>
    obtain ⟨s', hs'⟩ := Option.isSome_iff_exists.mp (hpre j (mem_of_find?_eq_some hfind))
    have hj := find?_some hfind
    exact ⟨j, s', rfl, hs', by simpa [hs'] using hj⟩

namespace Inv

variable (h : Inv table capacity size)
include h

theorem lt (hi : table i = some s) : i < capacity := (mem_order h.pos).mp (h.chain i s hi).mem

/-- While a slot is free the loops end at one that is free or has an accepted element. -/
theorem probe (hfree : size < capacity) (hash : Nat) (equal : Nat × α → Bool) :
    ∃ i, probe table capacity hash equal = some i ∧ i < capacity ∧
      (table i = none ∧ Chained table (order capacity hash) i ∨ ∃ s, table i = some s ∧ equal s) := by
  have hsome : ((order capacity hash).find? fun i => (table i).all equal).isSome := by
    by_contra hno
    have hused : ∀ j ∈ range capacity, (table j).isSome := by
      intro j hj
      by_contra hnone
      refine hno (find?_isSome.mpr ⟨j, (mem_order h.pos).mpr (mem_range.mp hj), ?_⟩)
      simp [Option.not_isSome_iff_eq_none.mp hnone]
    have hcount := countP_eq_length.mpr hused
    rw [h.count, length_range] at hcount
    omega
  obtain ⟨i, hi⟩ := Option.isSome_iff_exists.mp hsome
  obtain ⟨hp, pre, post, hl, hpre⟩ := find?_eq_some_iff_append.mp hi
  refine ⟨i, hi, (mem_order h.pos).mp (mem_of_find?_eq_some hi), ?_⟩
  cases htable : table i with
  | some s => exact .inr ⟨s, rfl, by simpa [htable] using hp⟩
  | none =>
    refine .inl ⟨rfl, pre, post, hl, fun k hk => ?_⟩
    have hk := hpre k hk
    cases hslot : table k <;> simp_all

/-- A slot that its loops reach over used ones may be set to an element. -/
theorem chain_update (hc : Chained table (order capacity s.1) i) (j : Nat) (s' : Nat × α)
    (hj : update table i (some s) j = some s') : Chained (update table i (some s)) (order capacity s'.1) j := by
  refine Chained.mono (?_) fun k hk => isSome_update hk i
  by_cases hji : j = i
  · subst hji
    rw [update_self] at hj
    cases hj
    exact hc
  · rw [update_of_ne hji] at hj
    exact h.chain j s' hj

theorem fill (hi : i < capacity) (hfree : table i = none) (hc : Chained table (order capacity s.1) i) :
    Inv (update table i (some s)) capacity (size + 1) where
  pos := h.pos
  chain := h.chain_update hc
  count := by
    have hperm := perm_cons_erase (mem_range.mpr hi)
    have hrest : ((range capacity).erase i).countP (fun j => (update table i (some s) j).isSome) =
        ((range capacity).erase i).countP fun j => (table j).isSome := by
      refine countP_congr fun j hj => ?_
      rw [update_of_ne (nodup_range.mem_erase_iff.mp hj).1]
    rw [← h.count, hperm.countP_eq, hperm.countP_eq fun j => (table j).isSome]
    simp [hfree, hrest]

/-- The slot of an element is given to one with the same hash code. -/
theorem replace {e : α} (hi : table i = some s) : Inv (update table i (some (s.1, e))) capacity size where
  pos := h.pos
  chain := h.chain_update (h.chain i s hi)
  count := by
    rw [← h.count]
    refine countP_congr fun j _ => ?_
    by_cases hji : j = i
    · simp [hji, hi]
    · rw [update_of_ne hji]

end Inv

theorem has_of_update {s' : Nat × α} (h : Has (update table i (some s)) s') : Has table s' ∨ s' = s := by
  obtain ⟨j, hj⟩ := h
  by_cases hji : j = i
  · rw [hji, update_self] at hj
    exact .inr (Option.some.inj hj).symm
  · rw [update_of_ne hji] at hj
    exact .inl ⟨j, hj⟩

theorem has_fill (hfree : table i = none) (s' : Nat × α) :
    Has (update table i (some s)) s' ↔ Has table s' ∨ s' = s := by
  refine ⟨has_of_update, ?_⟩
  rintro (⟨j, hj⟩ | rfl)
  · refine ⟨j, ?_⟩
    rwa [update_of_ne]
    rintro rfl
    simp [hfree] at hj
  · exact ⟨i, update_self ..⟩

theorem Inv.empty (hpos : 0 < capacity) : Inv (fun _ => none : Nat → Option (Nat × α)) capacity 0 :=
  ⟨hpos, by simp, by simp⟩

/-- All elements are moved to a table with a slot for each of them and one more. -/
theorem move_table_spec (source : List (Nat × α)) (h : Inv table capacity size)
    (hfree : size + source.length < capacity) : ∃ table', move_table source table capacity = some table' ∧
    Inv table' capacity (size + source.length) ∧ ∀ s, Has table' s ↔ Has table s ∨ s ∈ source := by
  induction source generalizing table size with
  | nil => exact ⟨table, rfl, h, by simp⟩
  | cons s source ih =>
    rw [length_cons] at hfree
    obtain ⟨i, hprobe, hi, ⟨hnone, hc⟩ | ⟨_, -, hfalse⟩⟩ := h.probe (by omega) s.1 fun _ => false
    · obtain ⟨table', hmove, hinv, hhas⟩ := ih (h.fill hi hnone hc) (by omega)
      refine ⟨table', ?_, by rwa [length_cons, Nat.add_comm source.length, ← Nat.add_assoc], fun s' => ?_⟩
      · rw [← hmove]
        simp [move_table, hprobe]
      · rw [hhas, has_fill hnone, mem_cons, or_assoc]
    · cases hfalse

/-- The table as a whole. -/
def WellFormed (t : core_hashtable α) : Prop := Inv t.m_table t.m_capacity t.m_size

variable {t : core_hashtable α}

theorem WellFormed.mem_used (h : t.WellFormed) : s ∈ t.used ↔ Has t.m_table s := by
  simp only [used, mem_filterMap, mem_range]
  exact ⟨fun ⟨i, _, hi⟩ => ⟨i, hi⟩, fun ⟨i, hi⟩ => ⟨i, h.lt hi, hi⟩⟩

/-- The test for the load leaves a free slot, and the same elements. -/
theorem WellFormed.grow (h : t.WellFormed) :
    ∃ t', t.grow = some t' ∧ t'.WellFormed ∧ t'.m_size < t'.m_capacity ∧ ∀ s, Has t'.m_table s ↔ Has t.m_table s := by
  have hpos : 0 < t.m_capacity := h.pos
  have hle : t.m_size ≤ t.m_capacity := by
    rw [← h.count]
    exact le_of_le_of_eq countP_le_length length_range
  have hlen : t.used.length = t.m_size := by rw [used, length_filterMap_eq_countP, h.count]
  unfold core_hashtable.grow expand_table
  split
  next hload =>
    obtain ⟨table, hmove, hinv, hhas⟩ := move_table_spec t.used (Inv.empty (by omega : 0 < 2 * t.m_capacity)) (by omega)
    rw [hmove]
    refine ⟨_, rfl, by simpa [WellFormed, hlen] using hinv, by simp only; omega, fun s => ?_⟩
    rw [hhas s, h.mem_used]
    simp [Has]
  next hload => exact ⟨t, rfl, h, by omega, fun s => .rfl⟩

theorem WellFormed.reset (h : t.WellFormed) : t.reset.WellFormed ∧ ∀ s, ¬ Has t.reset.m_table s := by
  unfold core_hashtable.reset
  split
  next hsize =>
    refine ⟨h, fun s ⟨i, hi⟩ => ?_⟩
    have hcount := h.count.trans hsize
    rw [countP_eq_zero] at hcount
    exact hcount i (mem_range.mpr (h.lt hi)) (by simp [hi])
  next =>
    have hpos : 0 < t.m_capacity := h.pos
    refine ⟨.empty ?_, by simp [Has]⟩
    dsimp only
    split <;> omega

variable (hash : α → Nat) (equals : α → α → Bool) (e : α)

/-- Where `e` goes: to a free slot if no stored element of its hash code is equal to it. -/
theorem WellFormed.slot (h : t.WellFormed) (hfree : t.m_size < t.m_capacity) :
    ∃ i, t.slot hash equals e = some i ∧ ((∃ s, t.m_table i = some s ∧ s.1 = hash e ∧ equals s.2 e) ∨
        t.m_table i = none ∧ (t.fill i (hash e, e)).WellFormed ∧
          ∀ s, Has t.m_table s → s.1 = hash e → ¬ equals s.2 e) := by
  obtain ⟨i, hprobe, hi, ⟨hnone, hc⟩ | ⟨s, hs, heq⟩⟩ := h.probe hfree (hash e) fun s => s.1 == hash e && equals s.2 e
  · refine ⟨i, hprobe, .inr ⟨hnone, h.fill hi hnone hc, fun s ⟨k, hk⟩ hhash heq => ?_⟩⟩
    obtain ⟨j, s', hj, hs', -⟩ := probe_of_chained (fun s => s.1 == hash e && equals s.2 e) hk
      (hhash ▸ h.chain k s hk) (by simp [hhash, heq])
    rw [hprobe] at hj
    cases hj
    simp [hnone] at hs'
  · simp only [Bool.and_eq_true, beq_iff_eq] at heq
    exact ⟨i, hprobe, .inl ⟨s, hs, heq⟩⟩

/-- An insertion keeps the table well formed and adds nothing but `e`. -/
theorem WellFormed.insert (h : t.WellFormed) : ∃ t', t.insert hash equals e = some t' ∧
    t'.WellFormed ∧ ∀ s, Has t'.m_table s → Has t.m_table s ∨ s = (hash e, e) := by
  obtain ⟨t', hgrow, hinv, hfree, hhas⟩ := h.grow
  obtain ⟨i, hslot, ⟨s, hs, hhash, -⟩ | ⟨hnone, hfill, -⟩⟩ := hinv.slot hash equals e hfree
  · refine ⟨{ t' with m_table := update t'.m_table i (some (s.1, e)) },
      by simp [core_hashtable.insert, hgrow, hslot, hs], hinv.replace hs, fun s' hs' => ?_⟩
    rw [← hhas, ← hhash]
    exact has_of_update hs'
  · refine ⟨_, by simp [core_hashtable.insert, hgrow, hslot, hnone], hfill, fun s' hs' => ?_⟩
    rw [← hhas]
    exact has_of_update hs'

/-- The insertion returns an equal entry that is there, or the new one, which is then there with the others. The table
is enlarged before it is full. -/
theorem WellFormed.insert_if_not_there (h : t.WellFormed) :
    ∃ e' t', t.insert_if_not_there hash equals e = some (e', t') ∧ t'.WellFormed ∧
      ((Has t.m_table (hash e, e') ∧ equals e' e ∧ ∀ s, Has t'.m_table s ↔ Has t.m_table s) ∨
        e' = e ∧ (∀ s, Has t.m_table s → s.1 = hash e → ¬ equals s.2 e) ∧
          ∀ s, Has t'.m_table s ↔ Has t.m_table s ∨ s = (hash e, e)) := by
  obtain ⟨t', hgrow, hinv, hfree, hhas⟩ := h.grow
  obtain ⟨i, hslot, ⟨⟨h', e'⟩, hs, hhash, heq⟩ | ⟨hnone, hfill, hno⟩⟩ := hinv.slot hash equals e hfree
  · refine ⟨e', t', by simp [core_hashtable.insert_if_not_there, hgrow, hslot, hs], hinv, .inl ⟨?_, heq, hhas⟩⟩
    exact (hhas _).mp ⟨i, hhash ▸ hs⟩
  · refine ⟨e, _, by simp [core_hashtable.insert_if_not_there, hgrow, hslot, hnone], hfill, .inr ⟨rfl, ?_, ?_⟩⟩
    · intro s hs
      exact hno s ((hhas s).mpr hs)
    · intro s
      rw [← hhas]
      exact has_fill hnone s

end core_hashtable
