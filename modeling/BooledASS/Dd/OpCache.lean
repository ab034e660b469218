import BooledASS.Logic.Machine
import BooledASS.Util.Hashtable

/-! The cache of the operations of the BDD manager. It holds addresses of entries; an entry that a lookup did not need
is kept as a spare one for the next lookup. -/

open List Function

namespace dd

def null_bdd : Nat := 4294967295

structure op_entry where
  m_bdd1 : Nat
  m_bdd2 : Nat
  m_op : Nat
  m_result : Nat := 0
deriving DecidableEq

/-- The operands and the operation of an entry. -/
def op_entry.key (e : op_entry) : Nat × Nat × Nat := (e.m_bdd1, e.m_bdd2, e.m_op)

def eq_entry (a b : op_entry) : Bool := a.m_bdd1 == b.m_bdd2 && a.m_bdd2 == b.m_bdd2 && a.m_op == b.m_op

/-- The first operand of the entry that is looked for is not compared. -/
theorem eq_entry_iff (a : op_entry) (l r op result : Nat) : eq_entry a ⟨l, r, op, result⟩ ↔ a.key = (r, r, op) := by
  simp [eq_entry, op_entry.key, and_assoc]

/-- The part of the manager that the cache is in. `pending` are the calls that hold an entry and have not returned,
the innermost first, each with its own operands and operation; `abandoned` are those that an exception ended since
the table was emptied by a reordering; `computed` are the results of those that returned. -/
structure op_cache where
  entries : Nat → op_entry := fun _ => ⟨0, 0, 0, 0⟩
  next : Nat := 0
  m_spare_entry : Option Nat := none
  m_op_cache : core_hashtable Nat := {}
  pending : List (Nat × Nat × Nat × Nat) := []
  abandoned : List (Nat × Nat × Nat × Nat) := []
  computed : List ((Nat × Nat × Nat) × Nat) := []

namespace op_cache

variable (c : op_cache)

def pop_entry (l r op : Nat) : Nat × op_cache :=
  match c.m_spare_entry with
  | some e => (e, { c with entries := update c.entries e ⟨l, r, op, null_bdd⟩, m_spare_entry := none })
  | none => (c.next, { c with entries := update c.entries c.next ⟨l, r, op, null_bdd⟩, next := c.next + 1 })

variable (hash : Nat × Nat × Nat → Nat)

def get_hash (e : Nat) : Nat := hash (c.entries e).key
def equals (e1 e2 : Nat) : Bool := eq_entry (c.entries e1) (c.entries e2)

/-- The start of an operation that looks for its result: `some` with the address of the entry whose result is
returned, or `none` with an entry of its own, which it holds. -/
def lookup (l r op : Nat) : Option (Option Nat × op_cache) :=
  let (e1, c) := c.pop_entry l r op
  (c.m_op_cache.insert_if_not_there (c.get_hash hash) c.equals e1).map fun (e2, table) =>
    let c := { c with m_op_cache := table }
    if e1 ≠ e2 then (some e2, { c with m_spare_entry := some e1 })
    else (none, { c with pending := (e1, l, r, op) :: c.pending })

def gc : Option op_cache :=
  let to_keep := (c.m_op_cache.used.map Prod.snd).filter fun e => (c.entries e).m_result = null_bdd
  (to_keep.foldlM (fun table => core_hashtable.insert table (c.get_hash hash) c.equals) c.m_op_cache.reset).map
    fun table => { c with m_op_cache := table }

inductive event
  | lookup (l r op : Nat)
  /-- The innermost call stores its result in its entry and returns it. -/
  | finish (result : Nat)
  /-- An exception ends the innermost `n` calls. -/
  | mem_out (n : Nat)
  | gc
  | try_reorder

/-- `none` where a call that has not returned holds an entry that is freed. -/
def exec : event → Option op_cache
  | .lookup l r op => (c.lookup hash l r op).map Prod.snd
  | .finish result =>
    match c.pending with
    | [] => none
    | (e, key) :: pending => some { c with
        entries := update c.entries e { c.entries e with m_result := result }
        pending
        computed := (key, result) :: c.computed }
  | .mem_out n => some { c with pending := c.pending.drop n, abandoned := c.pending.take n ++ c.abandoned }
  | .gc => c.gc hash
  | .try_reorder =>
    if c.pending = [] then (c.gc hash).map fun c => { c with m_op_cache := c.m_op_cache.reset, abandoned := [] }
    else none

/-- The addresses in the table. -/
def Stored (e : Nat) : Prop := ∃ h, core_hashtable.Has c.m_op_cache.m_table (h, e)

variable {hash c}

/-- An entry that is in use: its fields stay as they are. -/
def Live (c : op_cache) (e : Nat) : Prop := e < c.next ∧ c.m_spare_entry ≠ some e

/-- The calls that hold an entry without a result. -/
def held (c : op_cache) : List (Nat × Nat × Nat × Nat) := c.pending ++ c.abandoned

/-- A slot whose entry has the hash code of the slot and a result computed for its operands, unless a call holds it. -/
def Exact (hash : Nat × Nat × Nat → Nat) (c : op_cache) (s : Nat × Nat) : Prop :=
  s.1 = c.get_hash hash s.2 ∧ c.Live s.2 ∧
    (s.2 ∈ c.held.map Prod.fst ∨ ((c.entries s.2).key, (c.entries s.2).m_result) ∈ c.computed)

structure Good (hash : Nat × Nat × Nat → Nat) (c : op_cache) : Prop where
  table : c.m_op_cache.WellFormed
  exact : ∀ s, core_hashtable.Has c.m_op_cache.m_table s → Exact hash c s
  spare : ∀ e, c.m_spare_entry = some e → e < c.next
  held : ∀ e key, (e, key) ∈ c.held → (c.entries e).key = key ∧ c.Live e ∧ (c.entries e).m_result = null_bdd
  nodup : (c.held.map Prod.fst).Nodup
  computed : ∀ p ∈ c.computed, p.2 ≠ null_bdd
  -- for equal operands the comparison of entries is exact, and no entry is stored twice
  unique : ∀ e e' x op, c.Stored e → c.Stored e' → (c.entries e).key = (x, x, op) → (c.entries e').key = (x, x, op) →
    e = e'

theorem good_init : Good hash {} where
  table := .empty (by decide)
  exact := by simp [core_hashtable.Has]
  spare := by simp
  held := by simp [op_cache.held]
  nodup := by simp [op_cache.held]
  computed := by simp
  unique := by simp [Stored, core_hashtable.Has]

/-- `c'` is `c` with an entry `e` taken for a lookup, which was not in use. -/
structure Popped (c : op_cache) (e : Nat) (entry : op_entry) (c' : op_cache) : Prop where
  dead : ¬ c.Live e
  lt : e < c'.next
  entry : c'.entries e = entry
  live : ∀ e', c.Live e' → c'.entries e' = c.entries e' ∧ e' < c'.next
  spare : c'.m_spare_entry = none
  rest : c'.m_op_cache = c.m_op_cache ∧ c'.pending = c.pending ∧ c'.abandoned = c.abandoned ∧ c'.computed = c.computed

/-- The spare entry is taken if there is one, and otherwise the next one is allocated. In both cases it has the given
triple and no result. -/
theorem pop_entry_spec (hspare : ∀ e, c.m_spare_entry = some e → e < c.next) (l r op : Nat) :
    ∃ e c', c.pop_entry l r op = (e, c') ∧ Popped c e ⟨l, r, op, null_bdd⟩ c' := by
  unfold pop_entry
  cases hs : c.m_spare_entry with
  | some e =>
    refine ⟨e, _, rfl, fun h => h.2 hs, hspare e hs, update_self .., fun e' h => ⟨?_, h.1⟩, rfl, rfl, rfl, rfl, rfl⟩
    refine update_of_ne ?_ ..
    rintro rfl
    exact h.2 hs
  | none =>
    refine ⟨c.next, _, rfl, fun h => absurd h.1 (by omega), Nat.lt_succ_self _, update_self ..,
      fun e' h => ⟨?_, Nat.lt_succ_of_lt h.1⟩, rfl, rfl, rfl, rfl, rfl⟩
    exact update_of_ne (Nat.ne_of_lt h.1) ..

section Popped

variable {e : Nat} {c' : op_cache} {l r op : Nat} (h : Good hash c) (hp : Popped c e ⟨l, r, op, null_bdd⟩ c')
include h hp

theorem Good.not_held : e ∉ c.held.map Prod.fst := by
  intro hmem
  obtain ⟨⟨e', key⟩, hheld, rfl⟩ := mem_map.mp hmem
  exact hp.dead (h.held e' key hheld).2.1

/-- An entry of the same triple was found: the table is as before, and the entry that was taken is the spare one. -/
theorem Good.found {table : core_hashtable Nat} (hwf : table.WellFormed)
    (htable : ∀ s, core_hashtable.Has table.m_table s ↔ core_hashtable.Has c.m_op_cache.m_table s) :
    Good hash { c' with m_op_cache := table, m_spare_entry := some e } := by
  obtain ⟨-, hpending, habandoned, hcomputed⟩ := hp.rest
  have hheld : op_cache.held { c' with m_op_cache := table, m_spare_entry := some e } = c.held := by
    rw [op_cache.held, op_cache.held, hpending, habandoned]
  have hlive : ∀ e', c.Live e' → e' < c'.next ∧ some e ≠ some e' := fun e' he' =>
    ⟨(hp.live e' he').2, fun heq => hp.dead (Option.some.inj heq ▸ he')⟩
  have hstored : ∀ e', op_cache.Stored { c' with m_op_cache := table, m_spare_entry := some e } e' →
      c.Stored e' ∧ c'.entries e' = c.entries e' := by
    rintro e' ⟨k, hk⟩
    have hold := (htable _).mp hk
    exact ⟨⟨k, hold⟩, (hp.live e' (h.exact _ hold).2.1).1⟩
  refine ⟨hwf, fun s hs => ?_, ?_, fun e' key hmem => ?_, hheld ▸ h.nodup, hcomputed ▸ h.computed, ?_⟩
  · obtain ⟨hhash, hs, hresult⟩ := h.exact s ((htable s).mp hs)
    refine ⟨?_, hlive _ hs, ?_⟩
    · rw [hhash, get_hash, get_hash, (hp.live _ hs).1]
    · rw [hheld, (hp.live _ hs).1, hcomputed]
      exact hresult
  · rintro e' ⟨⟩
    exact hp.lt
  · obtain ⟨hkey, he', hnull⟩ := h.held e' key (hheld ▸ hmem)
    dsimp only
    rw [(hp.live e' he').1]
    exact ⟨hkey, hlive e' he', hnull⟩
  · intro e1 e2 x op h1 h2 hkey1 hkey2
    obtain ⟨hs1, he1⟩ := hstored e1 h1
    obtain ⟨hs2, he2⟩ := hstored e2 h2
    exact h.unique e1 e2 x op hs1 hs2 (he1 ▸ hkey1) (he2 ▸ hkey2)

/-- No entry was found: the one that was taken is stored, and held by the call. -/
theorem Good.stored {table : core_hashtable Nat} (hwf : table.WellFormed)
    (htable : ∀ s, core_hashtable.Has table.m_table s ↔
      core_hashtable.Has c.m_op_cache.m_table s ∨ s = (hash (l, r, op), e))
    (hno : ∀ e', c.Stored e' → (c.entries e').key = (l, r, op) → l ≠ r) :
    Good hash { c' with m_op_cache := table, pending := (e, l, r, op) :: c.pending } := by
  obtain ⟨-, -, habandoned, hcomputed⟩ := hp.rest
  have hheld : op_cache.held { c' with m_op_cache := table, pending := (e, l, r, op) :: c.pending } =
      (e, l, r, op) :: c.held := by simp [op_cache.held, habandoned]
  have hlive : ∀ e', c.Live e' →
      op_cache.Live { c' with m_op_cache := table, pending := (e, l, r, op) :: c.pending } e' :=
    fun e' he' => ⟨(hp.live e' he').2, by simp [hp.spare]⟩
  have hlive_e : op_cache.Live { c' with m_op_cache := table, pending := (e, l, r, op) :: c.pending } e :=
    ⟨hp.lt, by simp [hp.spare]⟩
  have hstored : ∀ e', op_cache.Stored { c' with m_op_cache := table, pending := (e, l, r, op) :: c.pending } e' →
      c.Stored e' ∧ c'.entries e' = c.entries e' ∨ e' = e := by
    rintro e' ⟨k, hk⟩
    rcases (htable _).mp hk with hold | heq
    · exact .inl ⟨⟨k, hold⟩, (hp.live e' (h.exact _ hold).2.1).1⟩
    · exact .inr (Prod.mk.inj heq).2
  refine ⟨hwf, fun s hs => ?_, by simp [hp.spare], fun e' key hmem => ?_, ?_, hcomputed ▸ h.computed, ?_⟩
  · rcases (htable s).mp hs with hold | rfl
    · obtain ⟨hhash, hs, hresult⟩ := h.exact s hold
      refine ⟨?_, hlive _ hs, ?_⟩
      · rw [hhash, get_hash, get_hash, (hp.live _ hs).1]
      · rw [hheld, (hp.live _ hs).1, hcomputed]
        exact hresult.imp_left (mem_cons_of_mem _)
    · exact ⟨by rw [get_hash, hp.entry]; rfl, hlive_e, .inl (by simp [hheld])⟩
  · rcases mem_cons.mp (hheld ▸ hmem) with heq | hmem
    · obtain ⟨rfl, rfl⟩ := Prod.mk.inj heq
      dsimp only
      rw [hp.entry]
      exact ⟨rfl, hlive_e, rfl⟩
    · obtain ⟨hkey, he', hnull⟩ := h.held e' key hmem
      dsimp only
      rw [(hp.live e' he').1]
      exact ⟨hkey, hlive e' he', hnull⟩
  · rw [hheld, map_cons, nodup_cons]
    exact ⟨h.not_held hp, h.nodup⟩
  · -- a new entry for equal operands is stored only if there was none
    have hnew : ∀ e' x op', c.Stored e' → c'.entries e' = c.entries e' → (c'.entries e').key = (x, x, op') →
        (c'.entries e).key ≠ (x, x, op') := by
      intro e' x op' hs he' hkey heq
      rw [hp.entry] at heq
      have hlr : l = x ∧ r = x ∧ op = op' := by simpa [op_entry.key] using heq
      exact hno e' hs (by rw [← he', hkey, hlr.1, hlr.2.1, hlr.2.2]) (hlr.1.trans hlr.2.1.symm)
    intro e1 e2 x op' h1 h2 hkey1 hkey2
    rcases hstored e1 h1 with ⟨hs1, he1⟩ | rfl
    · rcases hstored e2 h2 with ⟨hs2, he2⟩ | rfl
      · exact h.unique e1 e2 x op' hs1 hs2 (he1 ▸ hkey1) (he2 ▸ hkey2)
      · exact absurd hkey2 (hnew e1 x op' hs1 he1 hkey1)
    · rcases hstored e2 h2 with ⟨hs2, he2⟩ | rfl
      · exact absurd hkey1 (hnew e2 x op' hs2 he2 hkey2)
      · rfl

end Popped

/-- What a lookup finds is stored, with its hash code, and equal in the sense of `eq_entry`; it finds nothing if no
such entry is stored. -/
theorem Good.lookup (h : Good hash c) (l r op : Nat) :
    ∃ found c', c.lookup hash l r op = some (found, c') ∧ Good hash c' ∧ c'.computed = c.computed ∧
      ((∃ e, found = some e ∧ c.Stored e ∧ c'.entries e = c.entries e ∧ hash (c.entries e).key = hash (l, r, op) ∧
          eq_entry (c.entries e) ⟨l, r, op, null_bdd⟩) ∨
        found = none ∧ ∀ e, c.Stored e → hash (c.entries e).key = hash (l, r, op) →
          ¬ eq_entry (c.entries e) ⟨l, r, op, null_bdd⟩) := by
  obtain ⟨e1, c1, hpop, hp⟩ := pop_entry_spec h.spare l r op
  obtain ⟨htable, hpending, -, hcomputed⟩ := hp.rest
  simp only [op_cache.lookup, hpop]
  obtain ⟨e2, table, hinsert, hwf, hcases⟩ := (htable ▸ h.table).insert_if_not_there (c1.get_hash hash) c1.equals e1
  have hhash : c1.get_hash hash e1 = hash (l, r, op) := by
    rw [get_hash, hp.entry]
    rfl
  rw [hinsert]
  rw [htable, equals, hp.entry, hhash] at hcases
  obtain ⟨hhas, heq, hsame⟩ | ⟨rfl, hno, hadd⟩ := hcases
  · obtain ⟨hslot, hlive, -⟩ := h.exact _ hhas
    have hne : e1 ≠ e2 := by
      rintro rfl
      exact hp.dead hlive
    rw [(hp.live e2 hlive).1] at heq
    exact ⟨some e2, { c1 with m_op_cache := table, m_spare_entry := some e1 }, by simp [hne], h.found hp hwf hsame,
      hcomputed, .inl ⟨e2, rfl, ⟨_, hhas⟩, (hp.live e2 hlive).1, hslot.symm, heq⟩⟩
  · have hnone : ∀ e, c.Stored e → hash (c.entries e).key = hash (l, r, op) →
        ¬ eq_entry (c.entries e) ⟨l, r, op, null_bdd⟩ := by
      rintro e ⟨k, hk⟩ hkey
      obtain ⟨hslot, hlive, -⟩ := h.exact _ hk
      have hne := hno _ hk (hslot.trans hkey)
      rwa [equals, hp.entry, (hp.live e hlive).1] at hne
    refine ⟨none, { c1 with m_op_cache := table, pending := (e2, l, r, op) :: c.pending }, by simp [hpending], ?_,
      hcomputed, .inr ⟨rfl, hnone⟩⟩
    refine h.stored hp hwf hadd fun e he hkey => ?_
    rintro rfl
    exact hnone e he (by rw [hkey]) ((eq_entry_iff ..).mpr hkey)

/-- The entries without a result are put back after the table is emptied. -/
theorem Good.gc (h : Good hash c) : ∃ c', c.gc hash = some c' ∧ Good hash c' := by
  have hrun : ∀ (l : List Nat) table, (∀ e ∈ l, c.Stored e) → table.WellFormed →
      (∀ s, core_hashtable.Has table.m_table s → Exact hash c s ∧ c.Stored s.2) →
      ∃ table', l.foldlM (fun table => core_hashtable.insert table (c.get_hash hash) c.equals) table = some table' ∧
        table'.WellFormed ∧ ∀ s, core_hashtable.Has table'.m_table s → Exact hash c s ∧ c.Stored s.2 := by
    intro l
    induction l with
    | nil => exact fun table _ hwf hex => ⟨table, rfl, hwf, hex⟩
    | cons e l ih =>
      intro table hl hwf hex
      obtain ⟨t', hinsert, hwf', hhas⟩ := hwf.insert (c.get_hash hash) c.equals e
      rw [foldlM_cons, hinsert]
      refine ih t' (fun e' he' => hl e' (mem_cons_of_mem e he')) hwf' fun s hs => ?_
      obtain hs | rfl := hhas s hs
      · exact hex s hs
      · obtain ⟨k, hk⟩ := hl e (.head _)
        exact ⟨⟨rfl, (h.exact _ hk).2⟩, hl e (.head _)⟩
  obtain ⟨hwf, hempty⟩ := h.table.reset
  obtain ⟨table, htable, hwf', hex⟩ := hrun
    ((c.m_op_cache.used.map Prod.snd).filter fun e => (c.entries e).m_result = null_bdd) c.m_op_cache.reset
    (fun e he => by
      obtain ⟨s, hs, rfl⟩ := mem_map.mp (mem_filter.mp he).1
      exact ⟨s.1, h.table.mem_used.mp hs⟩)
    hwf fun s hs => absurd hs (hempty s)
  refine ⟨{ c with m_op_cache := table }, by simp only [op_cache.gc, htable, Option.map_some], hwf',
    fun s hs => (hex s hs).1, h.spare, h.held, h.nodup, h.computed, ?_⟩
  rintro e e' x op ⟨k, hk⟩ ⟨k', hk'⟩
  exact h.unique e e' x op (hex _ hk).2 (hex _ hk').2

/-- A call that ends writes its result to the entry that it holds. The entry then has a result that was computed for
its triple, and no other call holds it. -/
theorem Good.finish {e result : Nat} {key : Nat × Nat × Nat} {pending : List (Nat × Nat × Nat × Nat)}
    (h : Good hash c) (hp : c.pending = (e, key) :: pending) (hresult : result ≠ null_bdd) : Good hash { c with
      entries := update c.entries e { c.entries e with m_result := result }
      pending
      computed := (key, result) :: c.computed } := by
  have hheld : c.held = (e, key) :: (pending ++ c.abandoned) := by rw [op_cache.held, hp, cons_append]
  have hnodup := h.nodup
  rw [hheld, map_cons, nodup_cons] at hnodup
  have hkey : ∀ e', (update c.entries e { c.entries e with m_result := result } e').key = (c.entries e').key := by
    intro e'
    by_cases he : e' = e
    · rw [he, update_self]
      rfl
    · rw [update_of_ne he]
  refine ⟨h.table, fun s hs => ⟨?_, (h.exact s hs).2.1, ?_⟩, h.spare, fun e' key' hmem => ?_, hnodup.2,
    forall_mem_cons.mpr ⟨hresult, h.computed⟩, ?_⟩
  · rw [(h.exact s hs).1, get_hash, get_hash, hkey]
  · rw [hkey]
    dsimp only
    by_cases he : s.2 = e
    · rw [he, update_self, (h.held e key (by simp [hheld])).1]
      exact .inr (.head _)
    · rw [update_of_ne he]
      refine (h.exact s hs).2.2.imp (fun hmem => ?_) (mem_cons_of_mem _)
      rw [hheld, map_cons] at hmem
      exact (mem_cons.mp hmem).resolve_left he
  · obtain ⟨hkey', hlive, hnull⟩ := h.held e' key' (by rw [hheld]; exact .tail _ hmem)
    have hne : e' ≠ e := by
      rintro rfl
      exact hnodup.1 (mem_map.mpr ⟨_, hmem, rfl⟩)
    dsimp only
    rw [update_of_ne hne]
    exact ⟨hkey', hlive, hnull⟩
  · intro e1 e2 x op h1 h2 hkey1 hkey2
    dsimp only at hkey1 hkey2
    rw [hkey] at hkey1 hkey2
    exact h.unique e1 e2 x op h1 h2 hkey1 hkey2

/-- An exception changes who holds the entries, not which are held. -/
theorem Good.mem_out (h : Good hash c) (n : Nat) :
    Good hash { c with pending := c.pending.drop n, abandoned := c.pending.take n ++ c.abandoned } := by
  have hperm : (op_cache.held { c with pending := c.pending.drop n, abandoned := c.pending.take n ++ c.abandoned }).Perm
      c.held := by
    rw [op_cache.held, op_cache.held, ← append_assoc]
    refine .append_right _ ?_
    calc c.pending.drop n ++ c.pending.take n
      _ ~ c.pending.take n ++ c.pending.drop n := perm_append_comm
      _ = c.pending := take_append_drop n c.pending
  refine ⟨h.table, fun s hs => ?_, h.spare, fun e key hmem => h.held e key (hperm.mem_iff.mp hmem),
    (hperm.map Prod.fst).nodup_iff.mpr h.nodup, h.computed, h.unique⟩
  obtain ⟨hhash, hlive, hresult⟩ := h.exact s hs
  exact ⟨hhash, hlive, hresult.imp_left (hperm.map Prod.fst).mem_iff.mpr⟩

/-- Lookups, results, garbage collections, exceptions and reorderings keep the table consistent, as long as no call
stores `null_bdd`. -/
theorem Good.step {c' : op_cache} {ev : event} (h : Good hash c) (hev : ev ≠ .finish null_bdd)
    (hexec : c.exec hash ev = some c') : Good hash c' := by
  revert hexec
  fun_cases exec c hash ev <;> intro hexec
  case case1 l r op =>
    obtain ⟨found, c1, hlookup, hgood, -⟩ := h.lookup l r op
    rw [hlookup] at hexec
    cases hexec
    exact hgood
  case case2 => cases hexec
  case case3 result e key pending hp =>
    cases hexec
    exact h.finish hp fun heq => hev (by rw [heq])
  case case4 n =>
    cases hexec
    exact h.mem_out n
  case case5 =>
    obtain ⟨c1, hgc, hgood⟩ := h.gc
    rw [hgc] at hexec
    cases hexec
    exact hgood
  case case6 hpending =>
    obtain ⟨c1, hgc, hgood⟩ := h.gc
    have hpending1 : c1.pending = [] := by
      obtain ⟨table, -, rfl⟩ := Option.map_eq_some_iff.mp hgc
      exact hpending
    rw [hgc] at hexec
    cases hexec
    obtain ⟨hwf, hempty⟩ := hgood.table.reset
    exact ⟨hwf, fun s hs => absurd hs (hempty s), hgood.spare, by simp [op_cache.held, hpending1],
      by simp [op_cache.held, hpending1], hgood.computed, fun e _ _ _ ⟨k, hk⟩ => absurd hk (hempty _)⟩
  case case7 => cases hexec

/-- A lookup is transparent, from any state and with any hash function, exactly if one of two conditions holds. For
equal operands, no call for the same triple that holds its entry is under way or was ended by an exception since the
last reordering. For others, no entry of this triple is stored, and none of the second operand twice that has its hash
code. The lookup returns in every case. -/
theorem lookup_transparent (hash : Nat × Nat × Nat → Nat) {c : op_cache}
    (hreach : Machine.Reaches (fun c ev => exec c hash ev) (fun _ ev => ev ≠ .finish null_bdd) {} c) (l r op : Nat) :
    ∃ found c', c.lookup hash l r op = some (found, c') ∧
      ((∀ e, found = some e → (c'.entries e).key = (l, r, op) ∧ ((l, r, op), (c'.entries e).m_result) ∈ c'.computed) ∧
        ((∃ e, c.Stored e ∧ (c.entries e).key = (l, r, op)) → ∃ e, found = some e) ↔
      l = r ∧ (∀ e, c.Stored e → (c.entries e).key = (l, r, op) → e ∉ c.held.map Prod.fst) ∨
      l ≠ r ∧ (∀ e, c.Stored e → (c.entries e).key ≠ (l, r, op)) ∧
        ∀ e, c.Stored e → (c.entries e).key = (r, r, op) → hash (r, r, op) ≠ hash (l, r, op)) := by
  have hgood : Good hash c := hreach.invariant good_init fun _ _ _ h hev hexec => h.step hev hexec
  obtain ⟨found, c', hlookup, -, hcomputed, hcases⟩ := hgood.lookup l r op
  refine ⟨found, c', hlookup, ?_, ?_⟩
  · rintro ⟨hfound, hstored⟩
    by_cases hlr : l = r
    · subst hlr
      refine .inl ⟨rfl, fun e he hkey hheld => ?_⟩
      obtain ⟨e', rfl⟩ := hstored ⟨e, he, hkey⟩
      obtain ⟨_, ⟨⟩, he', hentry, -, heq⟩ | ⟨hnone, -⟩ := hcases
      · obtain rfl := hgood.unique e e' l op he he' hkey ((eq_entry_iff ..).mp heq)
        obtain ⟨⟨_, key⟩, hmem, rfl⟩ := mem_map.mp hheld
        have hresult := (hfound _ rfl).2
        rw [hentry, hcomputed] at hresult
        exact hgood.computed _ hresult (hgood.held _ key hmem).2.2
      · cases hnone
    · refine .inr ⟨hlr, ?_⟩
      obtain ⟨e, rfl, -, hentry, -, heq⟩ | ⟨rfl, hno⟩ := hcases
      · have hkey := (hfound e rfl).1
        rw [hentry, (eq_entry_iff ..).mp heq] at hkey
        exact absurd (Prod.mk.inj hkey).1.symm hlr
      · refine ⟨fun e he hkey => ?_, fun e he hkey hhash => ?_⟩
        · obtain ⟨_, hnone⟩ := hstored ⟨e, he, hkey⟩
          cases hnone
        · exact hno e he (by rw [hkey, hhash]) ((eq_entry_iff ..).mpr hkey)
  · rintro (⟨rfl, hfree⟩ | ⟨hlr, hno_same, hno_twice⟩)
    · obtain ⟨e, rfl, ⟨k, hk⟩, hentry, -, heq⟩ | ⟨rfl, hno⟩ := hcases
      · have hkey := (eq_entry_iff ..).mp heq
        refine ⟨fun e' he' => ?_, fun _ => ⟨e, rfl⟩⟩
        cases he'
        have hresult := (hgood.exact _ hk).2.2.resolve_left (hfree e ⟨k, hk⟩ hkey)
        rw [hentry, hcomputed]
        exact ⟨hkey, hkey ▸ hresult⟩
      · refine ⟨by simp, fun ⟨e, he, hkey⟩ => ?_⟩
        exact absurd ((eq_entry_iff ..).mpr hkey) (hno e he (by rw [hkey]))
    · obtain ⟨e, rfl, he, -, hhash, heq⟩ | ⟨rfl, -⟩ := hcases
      · have hkey := (eq_entry_iff ..).mp heq
        exact absurd (hkey ▸ hhash) (hno_twice e he hkey)
      · exact ⟨by simp, fun ⟨e, he, hkey⟩ => absurd hkey (hno_same e he)⟩

/-- The negation of node 2 is computed once and found afterwards. -/
theorem lookup_transparent_not :
    ∃ c, Machine.run (fun c ev => exec c Prod.fst ev) {} [.lookup 2 2 5, .finish 3] = some c ∧
      ∃ e c', c.lookup Prod.fst 2 2 5 = some (some e, c') ∧ ((2, 2, 5), (c'.entries e).m_result) ∈ c'.computed := by
  have hrun : Machine.run (fun c ev => exec c Prod.fst ev) {} [.lookup 2 2 5, .finish 3] = some _ := rfl
  have hreach : Machine.Reaches (fun c ev => exec c Prod.fst ev) (fun _ ev => ev ≠ .finish null_bdd) {} _ :=
    .step (a := .finish 3) (.step (a := .lookup 2 2 5) .refl (by simp) rfl) (by simp [null_bdd]) rfl
  obtain ⟨found, c', hlookup, htransparent⟩ := lookup_transparent Prod.fst hreach 2 2 5
  obtain ⟨hfound, hstored⟩ := htransparent.mpr (.inl ⟨rfl, fun _ _ _ => by simp [held]⟩)
  obtain ⟨e, rfl⟩ := hstored ⟨0, ⟨2, 2, rfl⟩, rfl⟩
  exact ⟨_, hrun, e, c', hlookup, (hfound e rfl).2⟩

/-- A conjunction that is stored is not found again; where the hash codes collide, the result that is stored for the
operands (2, 2) is found for the operands (3, 2); and after an exception the entry of a negation is found without a
result. -/
theorem lookup_not_transparent :
    let after (l r op : Nat) (ev : event) := Machine.run (fun c ev => exec c (fun _ => 0) ev) {} [.lookup l r op, ev]
    let stored c := c.m_op_cache.used.map fun s => c.entries s.2
    let found c (l r op) := (c.lookup (fun _ => 0) l r op).map fun p => p.1.map p.2.entries
    (after 2 3 2 (.finish 4)).map (fun c => (stored c, found c 2 3 2)) = some ([⟨2, 3, 2, 4⟩], some none) ∧
      (after 2 2 7 (.finish 4)).map (fun c => (stored c, found c 3 2 7)) =
        some ([⟨2, 2, 7, 4⟩], some (some ⟨2, 2, 7, 4⟩)) ∧
      (after 2 2 5 (.mem_out 1)).map (fun c => (c.computed, found c 2 2 5)) =
        some ([], some (some ⟨2, 2, 5, null_bdd⟩)) := by
  decide

end op_cache

end dd
