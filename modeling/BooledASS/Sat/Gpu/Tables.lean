import BooledASS.Sat.Gpu.Flight
import BooledASS.Sat.Invariant.Vars
import BooledASS.Sat.Tile.Cells

open List Function Option

namespace sat

namespace solver

variable (s : solver)

/-- The entries of a variable are as for a new one. -/
def reset_var (v : bool_var) : solver :=
  { s with
    m_watches := fun l => if l.var = v then [] else s.m_watches l
    m_assignment := update s.m_assignment v .l_undef
    m_justification := update s.m_justification v (.none 4294967295)
    m_var_scope := update s.m_var_scope v s.scope_lvl
    m_mark := update s.m_mark v false
    m_lit_mark := fun l => if l.var = v then false else s.m_lit_mark l }

/-- `free` is the variable at the end of `m_free_vars`, if there is one. -/
def mk_var (free : Option bool_var) : solver :=
  match free with
  | some v => s.reset_var v
  | none => { s.reset_var s.m_num_vars with m_num_vars := s.m_num_vars + 1 }

end solver

/-- The tables of a layout. -/
def CompressedTileLayout.tables (ctl : CompressedTileLayout) : var_tables := ⟨ctl.K_pad, ctl.var_perm, ctl.var_inv⟩

namespace gpu_solver

variable (s : gpu_solver)

/-- The columns at which the first loop of `gpu_retrieve_and_inject` reads `m_gpu_var_perm`; it ends at a
unit that is false. The second loop, if it is reached, reads the same ones. -/
def scan_columns : List (Int × Int) → List Nat
  | [] => []
  | u :: units =>
    if u.1 < 0 ∨ u.1.toNat ≥ s.m_gpu_K_pad then scan_columns units
    else
      match s.decode_unit u with
      | none => u.1.toNat :: scan_columns units
      | some lit => if s.core.value lit = .l_false then [u.1.toNat] else u.1.toNat :: scan_columns units

/-- The next launch is made. -/
def launches (a : answers) : Bool :=
  match s.m_gpu_state with
  | none => false
  | some g => !g.async_in_flight && !s.core.m_inconsistent && s.core.m_qhead == s.core.m_trail.length &&
      s.m_gpu_decisions_since_call ≥ s.m_gpu_throttle_interval && a.buffer

/-- The variables at which an iteration reads `m_gpu_var_inv`. -/
def var_inv_reads (a : answers) : List Nat :=
  if s.is_sat = .l_undef ∧ !s.core.m_inconsistent ∧ ¬ s.core.m_qhead < s.core.m_trail.length then
    match s.poll a with
    | some (s, false) => if s.launches a then range s.core.m_num_vars else []
    | _ => []
  else []

/-- The columns at which an iteration reads `m_gpu_var_perm`. -/
def var_perm_reads (a : answers) : List Nat := if s.retrieves a then s.scan_columns a.units else []

end gpu_solver

/-- The solver with the number of entries that `m_gpu_var_perm` and `m_gpu_var_inv` are allocated with, 0
where they are null. -/
structure table_solver where
  gpu : gpu_solver
  table_size : Nat := 0

/-- The operations that use the tables and those that create variables. Simplification leaves `core`, which
may have more variables if there is an extension. -/
inductive table_op where
  | mk_var (free : Option bool_var)
  | mk_clause (lits : List literal)
  | gpu_init_persistent_from_layout (ctl : CompressedTileLayout) (ok : Bool)
  | do_simplify (core : solver) (ctl : CompressedTileLayout) (ok : Bool)
  | basic_search (a : answers)

namespace table_solver

variable (t : table_solver)

/-- The tables are allocated, with an entry for each variable, where a device is set up. -/
def allocate (s : gpu_solver) : table_solver :=
  { gpu := s
    table_size := if t.gpu.m_gpu_state.isNone ∧ s.m_gpu_state.isSome then s.core.m_num_vars else t.table_size }

def gpu_cleanup : table_solver := { t with gpu := { t.gpu with m_gpu_state := none }, table_size := 0 }

/-- The start of `do_simplify`. -/
def release_device : table_solver := if t.gpu.m_gpu_state.isSome then t.gpu_cleanup else t

/-- `do_simplify` when it is due. -/
def do_simplify (core : solver) (ctl : CompressedTileLayout) (ok : Bool) : table_solver :=
  let t := t.release_device
  let t := { t with gpu := { t.gpu with core := core } }
  if core.m_inconsistent then t
  else if t.gpu.m_gpu_tried_init then
    t.allocate ({ t.gpu with m_gpu_tried_init := false }.gpu_init_persistent ctl.tables ok)
  else t

def exec : table_op → Option table_solver
  | .mk_var free =>
    if free.all (· < t.gpu.core.m_num_vars) then
      some { t with gpu := { t.gpu with core := t.gpu.core.mk_var free } }
    else none
  | .mk_clause lits =>
    if t.gpu.core.scope_lvl = 0 ∧ !t.gpu.core.m_inconsistent ∧ lits.all (fun l => l.var < t.gpu.core.m_num_vars) then
      some { t with gpu := { t.gpu with core := t.gpu.core.mk_clause lits } }
    else none
  | .gpu_init_persistent_from_layout ctl ok =>
    if t.gpu.m_gpu_state.isNone then some (t.allocate (t.gpu.gpu_init_persistent_from_layout ctl.tables ok)) else none
  | .do_simplify core ctl ok => some (t.do_simplify core ctl ok)
  | .basic_search a => (t.gpu.exec (.basic_search (n := 0) a)).map fun s => { t with gpu := s }

/-- Every index that the operation uses is below the number of entries of the tables. -/
def InRange : table_op → Prop
  | .basic_search a => (∀ v ∈ t.gpu.var_inv_reads a, v < t.table_size) ∧ ∀ k ∈ t.gpu.var_perm_reads a, k < t.table_size
  | _ => True

/-- While there is a device, only freed variables are created, and it returns columns of variables only. -/
def Ok : table_op → Prop
  | .mk_var free => t.gpu.m_gpu_state.isSome → free.isSome
  | .basic_search a => t.gpu.m_gpu_state.isSome → ∀ u ∈ a.units, 0 ≤ u.1 → u.1.toNat < t.gpu.m_gpu_K_pad →
      u.1.toNat < t.table_size
  | _ => True

end table_solver

namespace gpu_solver

variable {s s' : gpu_solver} {a : answers}

theorem isSome_of_clauses (h : s'.m_gpu_state.map (·.clauses) = s.m_gpu_state.map (·.clauses))
    (hsome : s'.m_gpu_state.isSome) : s.m_gpu_state.isSome := by
  have hmap := congrArg isSome h
  rw [isSome_map, isSome_map] at hmap
  exact hmap ▸ hsome

/-- The columns that are read back are those of the units that the device reports, within the padded width. -/
theorem mem_scan_columns {units : List (Int × Int)} {k : Nat} (h : k ∈ s.scan_columns units) :
    k < s.m_gpu_K_pad ∧ ∃ u ∈ units, 0 ≤ u.1 ∧ u.1.toNat = k := by
  have hrest {u : Int × Int} {us : List (Int × Int)} (hk : k < s.m_gpu_K_pad ∧ ∃ u ∈ us, 0 ≤ u.1 ∧ u.1.toNat = k) :
      k < s.m_gpu_K_pad ∧ ∃ u' ∈ u :: us, 0 ≤ u'.1 ∧ u'.1.toNat = k := by
    obtain ⟨hlt, u', hu', hk'⟩ := hk
    exact ⟨hlt, u', .tail _ hu', hk'⟩
  have hhead {u : Int × Int} {us : List (Int × Int)} (hcol : ¬(u.1 < 0 ∨ u.1.toNat ≥ s.m_gpu_K_pad))
      (hk : k = u.1.toNat) :
      k < s.m_gpu_K_pad ∧ ∃ u' ∈ u :: us, 0 ≤ u'.1 ∧ u'.1.toNat = k := by
    rw [not_or, not_lt, not_le] at hcol
    exact ⟨hk ▸ hcol.2, u, by simp, hcol.1, hk.symm⟩
  fun_induction scan_columns s units with
  | case1 => cases h
  | case2 _ _ _ ih => exact hrest (ih h)
  | case3 _ _ hcol _ ih | case5 _ _ hcol _ _ _ ih => exact (mem_cons.mp h).elim (hhead hcol) (hrest ∘ ih)
  | case4 _ _ hcol => exact hhead hcol (mem_singleton.mp h)

/-- The first column is read if the device has it. -/
theorem mem_scan_columns_head {u : Int × Int} {units : List (Int × Int)} (hpos : 0 ≤ u.1)
    (hlt : u.1.toNat < s.m_gpu_K_pad) : u.1.toNat ∈ s.scan_columns (u :: units) := by
  have hcol : ¬ (u.1 < 0 ∨ u.1.toNat ≥ s.m_gpu_K_pad) := by omega
  rw [scan_columns, if_neg hcol]
  split
  · simp
  · split <;> simp

end gpu_solver

namespace table_solver

variable {t t' : table_solver} {o : table_op}

/-- The tables have an entry for every variable while there is a device. -/
def Covers (t : table_solver) : Prop := t.gpu.m_gpu_state.isSome → t.gpu.core.m_num_vars ≤ t.table_size

theorem covers_allocate {s : gpu_solver} (h : t.gpu.m_gpu_state = none) : (t.allocate s).Covers := by
  intro hsome
  have hsome : s.m_gpu_state.isSome := hsome
  simp [allocate, h, hsome]

theorem release_device_state : t.release_device.gpu.m_gpu_state = none := by
  unfold release_device
  split
  · rfl
  · rename_i hnone
    simpa using hnone

theorem covers_of_none (h : t.gpu.m_gpu_state = none) : t.Covers := fun hsome => by
  rw [h] at hsome
  cases hsome

theorem covers_do_simplify (core : solver) (ctl : CompressedTileLayout) (ok : Bool) :
    (t.do_simplify core ctl ok).Covers := by
  have hnone := release_device_state (t := t)
  unfold do_simplify
  dsimp only
  split
  · exact covers_of_none hnone
  · split
    · exact covers_allocate hnone
    · exact covers_of_none hnone

/-- The tables are made with the device, for the variables there are then. While it is there only freed variables are
made again, and simplification releases it first. -/
theorem Covers.exec (h : t.Covers) (hok : t.Ok o) (hexec : t.exec o = some t') : t'.Covers := by
  revert hexec
  fun_cases table_solver.exec t o <;> intro hexec <;> try cases hexec
  -- `mk_var`
  case case1 free _ =>
    intro hsome
    cases free with
    | none => exact absurd (hok hsome) (by simp)
    | some v => exact h hsome
  -- `mk_clause`
  case case3 lits _ =>
    have hvars : (t.gpu.core.mk_clause lits).m_num_vars = t.gpu.core.m_num_vars :=
      (solver.mk_clause_core_grown _ _).frame.num_vars
    exact fun hsome => hvars.trans_le (h hsome)
  -- `gpu_init_persistent_from_layout` and `do_simplify`
  case case5 ctl ok hnone => exact covers_allocate (isNone_iff_eq_none.mp hnone)
  case case7 core ctl ok => exact covers_do_simplify core ctl ok
  -- `basic_search`
  case case8 a =>
    obtain ⟨_, hs, rfl⟩ := map_eq_some_iff.mp hexec
    obtain ⟨s, hstep, rfl⟩ := map_eq_some_iff.mp hs
    obtain ⟨hvars, hstate⟩ := gpu_solver.basic_search_step_num_vars hstep
    exact fun hsome => hvars.trans_le (h (gpu_solver.isSome_of_clauses hstate hsome))

/-- Every access of a step is to the entry of a variable, or to that of a column that the device returns, which the
assumption on its answers bounds. -/
theorem Covers.inRange (h : t.Covers) (hok : t.Ok o) : t.InRange o := by
  cases o with
  | basic_search a =>
    refine ⟨fun v => ?_, fun k hk => ?_⟩
    · fun_cases gpu_solver.var_inv_reads t.gpu a with
      | case1 _ s hpoll hlaunch =>
        intro hv
        obtain ⟨h1, h2, -⟩ := gpu_solver.poll_num_vars hpoll
        have hsome : s.m_gpu_state.isSome := by
          unfold gpu_solver.launches at hlaunch
          split at hlaunch
          next => cases hlaunch
          next g hg => simp [hg]
        rw [mem_range, h1] at hv
        exact hv.trans_le (h (gpu_solver.isSome_of_clauses h2 hsome))
      | case2 | case3 | case4 => exact nofun
    · unfold gpu_solver.var_perm_reads at hk
      split at hk
      next hret =>
        have hsome : t.gpu.m_gpu_state.isSome := by
          unfold gpu_solver.retrieves at hret
          split at hret
          next => cases hret
          next g hg => simp [hg]
        obtain ⟨hlt, u, hu, hpos, rfl⟩ := gpu_solver.mem_scan_columns hk
        exact hok hsome u hu hpos hlt
      next => cases hk
  | _ => trivial

/-- The start: variables and no device. -/
def init (cfg : config) (n gpu_threshold : Nat) : table_solver := { gpu := gpu_solver.init cfg n gpu_threshold }

/-- The tables are indexed in range in every run in which only freed variables are created while there is a
device and the device returns columns of variables. -/
theorem tables_in_range (cfg : config) (n gpu_threshold : Nat) (t : table_solver) (o : table_op)
    (hreach : Machine.Reaches exec Ok (init cfg n gpu_threshold) t) (hok : t.Ok o) : t.InRange o := by
  have hcovers : t.Covers := hreach.invariant (fun h => by cases h) fun _ _ _ h hok hexec => h.exec hok hexec
  exact hcovers.inRange hok

/-- No variables are created and the device returns nothing. -/
def quiet : table_op → Bool
  | .mk_var _ => false
  | .basic_search a => a.units.isEmpty
  | _ => true

theorem ok_of_quiet (h : quiet o) : t.Ok o := by
  cases o with
  | mk_var free => cases h
  | basic_search a => exact fun _ u hu => by simp [List.isEmpty_iff.mp h] at hu
  | _ => trivial

/-- Iterations of the search in which the device returns nothing do not touch the tables. -/
theorem reaches_of_search {n : Nat} {s : gpu_solver} (h : Machine.Reaches (gpu_solver.exec (n := n))
    (fun _ o => ∃ a, o = .basic_search a ∧ a.units = []) t.gpu s) : Machine.Reaches exec Ok t { t with gpu := s } := by
  induction h with
  | refl => exact .refl
  | step _ hok hexec ih =>
    obtain ⟨a, rfl, hunits⟩ := hok
    exact .step (a := .basic_search a) ih (fun _ u hu => by simp [hunits] at hu) (congrArg (Option.map _) hexec)

/-- The layout of the clause `v0 ∨ v1` over `n` variables. -/
def pair_layout (n : UInt32) : CompressedTileLayout :=
  build_compressed_tile_layout_direct n [(⟨0, false⟩, ⟨1, false⟩)] [] [] (merge_sort_by_key _)

/-- An iteration that decides the variable `v`. -/
def decide_var (v : Nat) : table_op := .basic_search { next := .decide ⟨v, false⟩ }

/-- 2100 variables, of which 16 are decided: the launch that follows reads the entries of all of them. 2048
decisions later the device returns the column 0, and its entry is read. -/
theorem tables_in_range_flight : ∃ t1 t2 : table_solver,
    (2099 ∈ t1.gpu.var_inv_reads { next := .decide ⟨26, false⟩ } ∧ t1.InRange (decide_var 26)) ∧
    0 ∈ t2.gpu.var_perm_reads (gpu_solver.returned [(0, 1)]) ∧
    t2.InRange (.basic_search (gpu_solver.returned [(0, 1)])) := by
  have hrun : (Machine.run (fun t o => if quiet o then t.exec o else none) (init {} 2100 0)
      [.mk_clause [⟨0, false⟩, ⟨1, false⟩], .gpu_init_persistent_from_layout (pair_layout 2100) true]).any fun t =>
      t.gpu.core.fillable 10 16 && t.gpu.ready 16 &&
      (t.gpu.filled 10 16 0).var_inv_reads { next := .decide ⟨26, false⟩ } == range 2100 &&
      (Machine.run (fun t o => if quiet o then t.exec o else none) { t with gpu := t.gpu.filled 10 16 0 }
        [decide_var 26, decide_var 26]).any fun t =>
          t.gpu.core.fillable 27 2047 && t.gpu.waiting 2047 && t.table_size == 2100 &&
          (t.gpu.filled 27 2047 2047).retrieves (gpu_solver.returned [(0, 1)]) && decide (0 < t.gpu.m_gpu_K_pad) := by
    decide +kernel
  simp only [Option.any_eq_true, Bool.and_eq_true, beq_iff_eq, decide_eq_true_eq, solver.fillable_iff] at hrun
  obtain ⟨t0, hrun0, ⟨⟨hfill0, hready⟩, hreads⟩, t, hrun1, ⟨⟨⟨hfill1, hwait⟩, hsize⟩, hret⟩, hpad⟩ := hrun
  have hidle : ∀ (s : gpu_solver) a, s.core.m_inconsistent = false → a.units = [] →
      ∃ a', gpu_solver.gpu_op.basic_search (n := 2100) a = .basic_search a' ∧ a'.units = [] :=
    fun _ a _ hunits => ⟨a, rfl, hunits⟩
  have hfill := (Machine.Reaches.of_guarded_run (fun _ _ => ok_of_quiet) hrun0).trans
    (reaches_of_search (gpu_solver.reaches_readied hidle hfill0 hready))
  have hwaited := (hfill.trans (.of_guarded_run (fun _ _ => ok_of_quiet) hrun1)).trans
    (reaches_of_search (gpu_solver.reaches_waited hidle hfill1 hwait))
  refine ⟨_, _, ⟨?_, tables_in_range {} 2100 0 _ _ hfill (ok_of_quiet rfl)⟩, ?_,
    tables_in_range {} 2100 0 _ _ hwaited fun _ u hu _ _ => ?_⟩
  · show 2099 ∈ (t0.gpu.filled 10 16 0).var_inv_reads _
    rw [hreads]
    exact mem_range.mpr (by decide)
  · show 0 ∈ (t.gpu.filled 27 2047 2047).var_perm_reads _
    rw [gpu_solver.var_perm_reads, if_pos hret]
    exact gpu_solver.mem_scan_columns_head le_rfl hpad
  · obtain rfl := mem_singleton.mp hu
    exact hsize ▸ by decide

/-- The device is initialised and a variable is created; 16 variables are decided and propagated. -/
def new_var_run : List table_op :=
  [.mk_clause [⟨0, false⟩, ⟨1, false⟩], .gpu_init_persistent_from_layout (pair_layout 17) true, .mk_var none] ++
    (range 16).flatMap fun v => [decide_var v, decide_var v]

/-- The launch that follows reads the entry 17 of a table with 17 entries. -/
theorem new_var_out_of_range : ∃ t, Machine.run exec (init {} 17 0) new_var_run = some t ∧ t.table_size = 17 ∧
    17 ∈ t.gpu.var_inv_reads { next := .decide ⟨16, false⟩ } := by
  have hrun : ((Machine.run exec (init {} 17 0) new_var_run).any fun t =>
      t.table_size = 17 ∧ 17 ∈ t.gpu.var_inv_reads { next := .decide ⟨16, false⟩ }) := by
    decide +kernel
  obtain ⟨t, ht, hfacts⟩ := (any_eq_true _ _).mp hrun
  exact ⟨t, ht, of_decide_eq_true hfacts⟩

end table_solver

end sat
