import BooledASS.Logic.Dfs
import BooledASS.Sat.Invariant.Frames

open Cnf List Function Option

namespace sat

/-- The literals of the first `num_vars` variables in the order of their indices. -/
def all_literals (num_vars : Nat) : List literal := (List.range (2 * num_vars)).map to_literal

/-- The clauses `~u \/ v` of the binary watches. -/
def bin_clauses (watches : literal → List watched) : Set (List literal) :=
  {c | ∃ u v learned, .BINARY v learned ∈ watches u ∧ c = [~~~u, v]}

/-- The binary implication graph with its depth-first numbers. -/
structure big where
  m_dag : literal → List literal
  m_left : literal → Nat
  m_right : literal → Nat
  m_parent : literal → literal
  m_learned : Bool

/-- A state with the binary clauses `bins`. -/
def solver.of_bins (num_vars : Nat) (bins : List (literal × literal)) : solver :=
  { m_num_vars := num_vars
    m_watches := fun u => bins.flatMap fun c =>
      (if ~~~c.1 = u then [.BINARY c.2 false] else []) ++ if ~~~c.2 = u then [.BINARY c.1 false] else [] }

variable {bins : List (literal × literal)} {num_vars : Nat}

theorem solver.mem_of_bins {u v : literal} {learned : Bool} :
    .BINARY v learned ∈ (solver.of_bins num_vars bins).m_watches u ↔
      learned = false ∧ ((~~~u, v) ∈ bins ∨ (v, ~~~u) ∈ bins) := by
  simp only [of_bins, mem_flatMap, mem_append, mem_ite_nil_right, mem_singleton, watched.BINARY.injEq]
  constructor
  · rintro ⟨c, hc, ⟨hu, rfl, rfl⟩ | ⟨hu, rfl, rfl⟩⟩
    · exact ⟨rfl, .inl (by rw [← hu, Lit.compl_compl]; exact hc)⟩
    · exact ⟨rfl, .inr (by rw [← hu, Lit.compl_compl]; exact hc)⟩
  · rintro ⟨rfl, hc | hc⟩
    · exact ⟨_, hc, .inl ⟨Lit.compl_compl u, rfl, rfl⟩⟩
    · exact ⟨_, hc, .inr ⟨Lit.compl_compl u, rfl, rfl⟩⟩

theorem solver.of_bins_vars (hbins : ∀ c ∈ bins, c.1.var < num_vars ∧ c.2.var < num_vars)
    (u v : literal) (learned : Bool) (hw : .BINARY v learned ∈ (solver.of_bins num_vars bins).m_watches u) :
    v.var < (solver.of_bins num_vars bins).m_num_vars := by
  rcases (mem_of_bins.mp hw).2 with hc | hc
  · exact (hbins _ hc).2
  · exact (hbins _ hc).1

theorem solver.of_bins_sym (u v : literal) (learned : Bool)
    (hw : .BINARY v learned ∈ (solver.of_bins num_vars bins).m_watches u) :
    ∃ learned', .BINARY (~~~u) learned' ∈ (solver.of_bins num_vars bins).m_watches (~~~v) := by
  refine ⟨false, solver.mem_of_bins.mpr ⟨rfl, ?_⟩⟩
  rw [Lit.compl_compl]
  exact (solver.mem_of_bins.mp hw).2.symm

theorem mem_all_literals {l : literal} : l ∈ all_literals num_vars ↔ l.var < num_vars := by
  constructor
  · intro h
    obtain ⟨i, hi, rfl⟩ := mem_map.mp h
    have hlt := mem_range.mp hi
    exact Nat.div_lt_of_lt_mul hlt
  · intro h
    refine mem_map.mpr ⟨literal.index l, mem_range.mpr ?_, to_literal_index l⟩
    have hsign : l.sign.toNat ≤ 1 := Bool.toNat_le l.sign
    unfold literal.index
    omega

theorem nodup_all_literals (num_vars : Nat) : (all_literals num_vars).Nodup := by
  refine .map_on ?_ nodup_range
  intro i _ j _ h
  have hdiv : i / 2 = j / 2 := congrArg Lit.var h
  have hmod : (i % 2 == 1) = (j % 2 == 1) := congrArg Lit.sign h
  rw [Bool.eq_iff_iff, beq_iff_eq, beq_iff_eq] at hmod
  omega

namespace big

/-- The edges that `init` adds for `u`. -/
def edges (s : solver) (was_eliminated : bool_var → Bool) (learned : Bool) (u : literal) : List literal :=
  if was_eliminated u.var then []
  else (s.m_watches u).filterMap fun
    | .BINARY v is_learned => if learned || !is_learned then some v else none
    | .CLAUSE _ _ => none

/-- The edges of a literal are its binary clauses, without the learned ones unless they are asked for. A literal that
was eliminated has none. -/
theorem mem_edges {s : solver} {was_eliminated : bool_var → Bool} {learned : Bool} {u v : literal} :
    v ∈ edges s was_eliminated learned u ↔
      ∃ l, was_eliminated u.var = false ∧ (learned || !l) ∧ .BINARY v l ∈ s.m_watches u := by
  unfold edges
  split
  next h => simp [h]
  next h =>
    rw [mem_filterMap]
    constructor
    · rintro ⟨w, hw, heq⟩
      cases w with
      | BINARY v' l =>
        simp only [ite_none_right_eq_some, some.injEq] at heq
        obtain ⟨hl, rfl⟩ := heq
        exact ⟨l, by simpa using h, hl, hw⟩
      | CLAUSE _ _ => simp at heq
    · rintro ⟨l, -, hl, hw⟩
      exact ⟨_, hw, by simp [hl]⟩

/-- `init_dfs_num`, where `shuffle` has ordered the literals without a predecessor. The last entry of `todo` is its
top. -/
def init_dfs_num (num_vars : Nat) (dag : literal → List literal) (shuffle : List literal → List literal) :
    Dfs.State literal :=
  let lits := all_literals num_vars
  let m_roots := lits.filter fun v => !lits.any fun u => (dag u).contains v
  let start : Dfs.State literal := ⟨fun _ => 0, fun _ => 0, id, (shuffle m_roots).reverse.map fun u => (none, u), 0⟩
  Dfs.finish (Dfs.run dag (start.todo.length + Dfs.weight dag start lits) start) lits

/-- `init` without cardinality constraints. The random generator gives a permutation of the edges of each literal
and one of the roots. -/
def init (s : solver) (was_eliminated : bool_var → Bool) (learned : Bool)
    (shuffle_edges : literal → List literal → List literal) (shuffle_todo : List literal → List literal) : big :=
  let dag u := shuffle_edges u (edges s was_eliminated learned u)
  let dfs := init_dfs_num s.m_num_vars dag shuffle_todo
  { m_dag := dag, m_left := dfs.left, m_right := dfs.right, m_parent := dfs.parent, m_learned := learned }

def reaches (b : big) (u v : literal) : Bool := decide (b.m_left u < b.m_left v) && decide (b.m_right v < b.m_right u)

def connected (b : big) (u v : literal) : Bool := b.reaches u v || b.reaches (~~~v) (~~~u)

/-- One iteration of the loop of `next`, with `left` and `result`. -/
def next_step (b : big) (u v : literal) (acc : Nat × Option literal) (w : literal) : Nat × Option literal :=
  if b.reaches u w && (w == v || b.reaches w v) && decide (b.m_left w < acc.1) then (b.m_left w, some w) else acc

/-- The result is `none` for the null literal. -/
def next (b : big) (u v : literal) : Option literal := ((b.m_dag u).foldl (b.next_step u v) (b.m_right u, none)).2

/-- The deleted clauses: the literal with the larger index is stored with the one with the smaller index. -/
abbrev del_bin := literal → List literal

def in_del (m_del_bin : del_bin) (u v : literal) : Bool :=
  if literal.index u > literal.index v then (m_del_bin v).contains u else (m_del_bin u).contains v

def add_del (m_del_bin : del_bin) (u v : literal) : del_bin :=
  if literal.index u > literal.index v then update m_del_bin v (m_del_bin v ++ [u])
  else update m_del_bin u (m_del_bin u ++ [v])

/-- The loop of `safe_reach`; `none` is out of fuel, or a step to the null literal. -/
def safe_reach_loop (b : big) (m_del_bin : del_bin) : Nat → literal → literal → Option Bool
  | 0, _, _ => none
  | fuel + 1, u, v =>
    if u = v then some true
    else
      match b.next u v with
      | none => none
      | some w =>
        if in_del m_del_bin (~~~u) w then some false
        else if w = ~~~v then some false
        else safe_reach_loop b m_del_bin fuel w v

/-- Every step goes to a literal with a larger number, up to that of `v`. -/
def safe_reach (b : big) (m_del_bin : del_bin) (u v : literal) : Option Bool :=
  if b.reaches u v then b.safe_reach_loop m_del_bin (b.m_left v - b.m_left u + 1) u v else some false

/-- What `reduce_tr` changes. -/
structure tr_state where
  s : solver
  m_del_bin : del_bin := fun _ => []
  elim : Nat := 0

/-- The deletion of the clause `~u \/ v`, where `mem` is what the watch list of `u` holds in memory. -/
def del_clause (u v : literal) (is_learned : Bool) (mem : List watched) (st : tr_state) : tr_state :=
  let s := if mem.any (fun
      | .BINARY l _ => l == ~~~v
      | .CLAUSE _ _ => false) then st.s.assign_unit (~~~u) else st.s
  { s := { s with m_watches := update s.m_watches (~~~v) ((s.m_watches (~~~v)).erase (.BINARY (~~~u) is_learned)) }
    m_del_bin := add_del st.m_del_bin (~~~u) v
    elim := st.elim + 1 }

/-- The loop over the watch list `wlist` of `u`; `kept` has been written back, the slots behind it are as before. -/
def reduce_wlist (b : big) (u : literal) (wlist : List watched) :
    List watched → tr_state → List watched → Option (tr_state × List watched)
  | kept, st, [] => some (st, kept)
  | kept, st, w :: todo =>
    match w with
    | .BINARY v is_learned =>
      if (is_learned || !b.m_learned) && u != b.m_parent v && (~~~u) != b.m_parent v then
        match b.safe_reach st.m_del_bin u v with
        | none => none
        | some true =>
          reduce_wlist b u wlist kept (del_clause u v is_learned (kept ++ wlist.drop kept.length) st) todo
        | some false => reduce_wlist b u wlist (kept ++ [w]) st todo
      else reduce_wlist b u wlist (kept ++ [w]) st todo
    | .CLAUSE _ _ => reduce_wlist b u wlist (kept ++ [w]) st todo

/-- The loop over all watch lists. -/
def reduce_lits (b : big) : tr_state → List literal → Option tr_state
  | st, [] => some st
  | st, u :: lits =>
    if st.s.inconsistent then some st
    else
      match b.reduce_wlist u (st.s.m_watches u) [] st (st.s.m_watches u) with
      | none => none
      | some (st, kept) =>
        reduce_lits b { st with s := { st.s with m_watches := update st.s.m_watches u kept } } lits

def reduce_tr (b : big) (s : solver) : Option (solver × Nat) :=
  match b.reduce_lits { s := s } (all_literals s.m_num_vars) with
  | none => none
  | some st => st.s.propagate.map fun r => (r.1, st.elim)

/-! ### The numbering -/

/-- An interval inside another one is that of a child, or inside that of a child. -/
def Numbered (b : big) : Prop :=
  ∀ u v, b.reaches u v → ∃ w ∈ b.m_dag u, b.reaches u w ∧ b.m_left w < b.m_right u ∧ b.m_parent w = u ∧
    (w = v ∨ b.reaches w v)

theorem reaches_iff {b : big} {u v : literal} :
    b.reaches u v ↔ b.m_left u < b.m_left v ∧ b.m_right v < b.m_right u := by
  simp [reaches]

/-- The depth-first search numbers the literals so that intervals are nested along its tree, in whatever order it
takes the roots and the edges. -/
theorem init_numbered {s : solver} (hvars : ∀ u v learned, .BINARY v learned ∈ s.m_watches u → v.var < s.m_num_vars)
    (was_eliminated : bool_var → Bool) (learned : Bool) {shuffle_edges : literal → List literal → List literal}
    {shuffle_todo : List literal → List literal} (hedges : ∀ u lits, (shuffle_edges u lits).Perm lits)
    (htodo : ∀ lits, (shuffle_todo lits).Perm lits) :
    (init s was_eliminated learned shuffle_edges shuffle_todo).Numbered := by
  set b := init s was_eliminated learned shuffle_edges shuffle_todo with hb
  have hdag : ∀ u v, v ∈ b.m_dag u → v ∈ all_literals s.m_num_vars := by
    intro u v hv
    obtain ⟨l, hl⟩ := mem_edges.mp ((hedges u _).mem_iff.mp hv)
    exact mem_all_literals.mpr (hvars u v l hl.2.2)
  set lits := all_literals s.m_num_vars with hlits
  set start : Dfs.State literal := ⟨fun _ => 0, fun _ => 0, id,
    (shuffle_todo (lits.filter fun v => !lits.any fun u => (b.m_dag u).contains v)).reverse.map fun u => (none, u), 0⟩
    with hstart
  have hstack : ∀ e ∈ start.todo, e.2 ∈ lits := by
    intro e he
    obtain ⟨u, hu, rfl⟩ := mem_map.mp he
    exact (mem_filter.mp ((htodo _).mem_iff.mp (mem_reverse.mp hu))).1
  have hinv0 : Dfs.Inv b.m_dag start [] := .start
  obtain ⟨opens, hinv⟩ := hinv0.run (start.todo.length + Dfs.weight b.m_dag start lits)
  have hnil := Dfs.todo_run (s := start) (nodup_all_literals _) hdag hstack le_rfl
  have hopens : opens = [] := by
    have hs := hinv.stack
    rw [hnil] at hs
    cases hs
    rfl
  subst hopens
  have hfinal := hinv.finish hnil lits
  intro u v huv
  obtain ⟨w, hw, huw, hp, hwv⟩ := hfinal.exists_child (reaches_iff.mp huv)
  have hclosed : b.m_right w ≠ 0 := fun h0 =>
    absurd ((hfinal.opens_iff w).mpr ⟨Nat.zero_lt_of_lt huw.1, h0⟩) not_mem_nil
  exact ⟨w, hw, reaches_iff.mpr huw, (hfinal.left_lt_right w hclosed).2.trans huw.2, hp, hwv.imp_right reaches_iff.mpr⟩

theorem Numbered.entails {b : big} {F : Set (List literal)} (hb : b.Numbered)
    (hF : ∀ x, ∀ y ∈ b.m_dag x, Entails F [~~~x, y]) (u v : literal) (h : b.reaches u v) : Entails F [~~~u, v] := by
  -- the numbers increase along the path
  induction hn : b.m_left v - b.m_left u using Nat.strong_induction_on generalizing u with
  | _ n ih =>
    obtain ⟨w, hw, huw, -, -, rfl | hwv⟩ := hb u v h
    · exact hF u w hw
    · have hlt := (reaches_iff.mp huw).1
      have hlt' := (reaches_iff.mp hwv).1
      exact (hF u w hw).resolve (ih _ (by omega) w hwv rfl) (l := w) (by simp) (by simp)

/-- If `connected` answers true, the binary clauses imply the second literal from the first, directly or by
contraposition, in whatever order the edges and the roots have been shuffled. -/
theorem connected_entails {s : solver} (hvars : ∀ u v learned, .BINARY v learned ∈ s.m_watches u → v.var < s.m_num_vars)
    (was_eliminated : bool_var → Bool) (learned : Bool) {shuffle_edges : literal → List literal → List literal}
    {shuffle_todo : List literal → List literal} (hedges : ∀ u lits, (shuffle_edges u lits).Perm lits)
    (htodo : ∀ lits, (shuffle_todo lits).Perm lits) {u v : literal}
    (h : (init s was_eliminated learned shuffle_edges shuffle_todo).connected u v) :
    Entails (bin_clauses s.m_watches) [~~~u, v] := by
  have hreach := (init_numbered hvars was_eliminated learned hedges htodo).entails (F := bin_clauses s.m_watches)
    fun x y hy => (mem_edges.mp ((hedges x _).mem_iff.mp hy)).elim fun l hl => .of_mem ⟨x, y, l, hl.2.2, rfl⟩
  rcases (Bool.or_eq_true _ _).mp h with h | h
  · exact hreach u v h
  · exact (hreach _ _ h).weaken (by simp)

/-- A chain of two binary clauses. -/
theorem connected_entails_chain : Entails (bin_clauses (solver.of_bins 3 [(⟨0, true⟩, ⟨1, false⟩),
    (⟨1, true⟩, ⟨2, false⟩)]).m_watches) [⟨0, true⟩, ⟨2, false⟩] :=
  connected_entails (u := ⟨0, false⟩) (solver.of_bins_vars (by decide)) (fun _ => false) true
    (fun _ _ => .refl _) (fun _ => .refl _) (by decide)

/-! ### The path that `safe_reach` follows -/

section Path

variable {b : big} {u v w : literal}

/-- The successors among which `next` chooses. -/
def Candidate (b : big) (u v w : literal) : Prop := b.reaches u w ∧ (w = v ∨ b.reaches w v)

/-- The loop of `next` has found the candidate with the smallest number so far. -/
structure Smallest (b : big) (u v : literal) (ws : List literal) (acc : Nat × Option literal) : Prop where
  le : ∀ w ∈ ws, b.Candidate u v w → acc.1 ≤ b.m_left w
  none : acc.2 = none → acc.1 = b.m_right u
  some : ∀ w, acc.2 = some w → w ∈ ws ∧ b.Candidate u v w ∧ acc.1 = b.m_left w

/-- One more successor: it replaces the one found so far if it is a candidate with a smaller number. -/
theorem Smallest.step {ws : List literal} {acc : Nat × Option literal} (h : b.Smallest u v ws acc) :
    b.Smallest u v (ws ++ [w]) (b.next_step u v acc w) := by
  unfold next_step
  split
  next hif =>
    simp only [Bool.and_eq_true, Bool.or_eq_true, beq_iff_eq, decide_eq_true_eq] at hif
    obtain ⟨hcand, hlt⟩ := hif
    refine ⟨Lists.forall_mem_concat (fun x hx hxc => hlt.le.trans (h.le x hx hxc)) fun _ => le_rfl,
      fun hn => by simp at hn, fun x hx => ?_⟩
    · obtain rfl : w = x := by simpa using hx
      exact ⟨by simp, hcand, rfl⟩
  next hif =>
    refine ⟨Lists.forall_mem_concat h.le fun hwc => ?_, h.none, fun x hx => ?_⟩
    · by_contra hgt
      exact hif (by simpa using ⟨hwc, not_le.mp hgt⟩)
    · obtain ⟨hmem, hrest⟩ := h.some x hx
      exact ⟨mem_append_left _ hmem, hrest⟩

theorem Smallest.foldl {ws : List literal} (todo : List literal) {acc : Nat × Option literal}
    (h : b.Smallest u v ws acc) : b.Smallest u v (ws ++ todo) (todo.foldl (b.next_step u v) acc) := by
  induction todo generalizing ws acc with
  | nil => simpa using h
  | cons w todo ih => simpa using ih h.step

theorem next_smallest (b : big) (u v : literal) :
    b.Smallest u v (b.m_dag u) ((b.m_dag u).foldl (b.next_step u v) (b.m_right u, none)) := by
  have hstart : b.Smallest u v [] (b.m_right u, none) := ⟨by simp, fun _ => rfl, by simp⟩
  simpa using hstart.foldl (b.m_dag u)

/-- `next` finds an edge, and unless `v` is a child of `u` it does not go to `v`. -/
theorem exists_next (hb : b.Numbered) (huv : b.reaches u v) :
    ∃ w, b.next u v = some w ∧ w ∈ b.m_dag u ∧ b.Candidate u v w ∧ (b.m_parent v ≠ u → w ≠ v) := by
  have hsmall := next_smallest b u v
  obtain ⟨c, hc, huc, hlt, hp, hcv⟩ := hb u v huv
  have hle := hsmall.le c hc ⟨huc, hcv⟩
  cases hnext : ((b.m_dag u).foldl (b.next_step u v) (b.m_right u, none)).2 with
  | none =>
    rw [hsmall.none hnext] at hle
    omega
  | some w =>
    obtain ⟨hmem, hcand, hleft⟩ := hsmall.some w hnext
    refine ⟨w, hnext, hmem, hcand, ?_⟩
    rintro hne rfl
    rcases hcv with rfl | hcv
    · exact hne hp
    · have hlt := (reaches_iff.mp hcv).1
      omega

/-- The loop of `safe_reach` ends. -/
theorem exists_safe_reach_loop (hb : b.Numbered) (m_del_bin : del_bin) (fuel : Nat) (huv : u = v ∨ b.reaches u v)
    (hfuel : b.m_left v - b.m_left u < fuel) : ∃ r, b.safe_reach_loop m_del_bin fuel u v = some r := by
  fun_induction safe_reach_loop with
  | case1 => omega
  | case2 | case4 | case5 => exact ⟨_, rfl⟩
  | case3 _ _ _ hne hnone =>
    obtain ⟨w, hnext, -⟩ := exists_next hb (huv.resolve_left hne)
    cases hnone.symm.trans hnext
  | case6 _ _ _ hne w hw _ _ ih =>
    have huv := huv.resolve_left hne
    obtain ⟨w', hnext, -, ⟨huw, hwv⟩, -⟩ := exists_next hb huv
    cases hw.symm.trans hnext
    refine ih hwv ?_
    have hlt := (reaches_iff.mp huw).1
    have hlt' := (reaches_iff.mp huv).1
    omega

theorem exists_safe_reach (hb : b.Numbered) (m_del_bin : del_bin)
    (u v : literal) : ∃ r, b.safe_reach m_del_bin u v = some r := by
  unfold safe_reach
  split
  next huv => exact exists_safe_reach_loop hb m_del_bin _ (.inr huv) (by omega)
  next => exact ⟨false, rfl⟩

end Path

/-! ### Deleting -/

section Delete

variable {b : big} {u v : literal} {a : Nat → Bool}

/-- A clause is found again with its literals in either order, since both functions store it under the smaller index.
-/
theorem in_del_add_del {m_del_bin : del_bin} {x y : literal} :
    in_del (add_del m_del_bin u v) x y ↔ in_del m_del_bin x y ∨ x = u ∧ y = v ∨ x = v ∧ y = u := by
  -- both pairs are stored under the literal with the smaller index
  have hupdate (p q r t) : (update m_del_bin p (m_del_bin p ++ [q]) r).contains t ↔
      (m_del_bin r).contains t ∨ r = p ∧ t = q := by
    by_cases hr : r = p
    · subst hr
      simp
    · simp [hr]
  unfold in_del add_del
  split <;> split <;> rw [hupdate] <;> refine or_congr_right ⟨?_, ?_⟩
  · rintro ⟨rfl, rfl⟩
    exact .inl ⟨rfl, rfl⟩
  · rintro (⟨rfl, rfl⟩ | ⟨rfl, rfl⟩)
    · exact ⟨rfl, rfl⟩
    · omega
  · rintro ⟨rfl, rfl⟩
    exact .inr ⟨rfl, rfl⟩
  · rintro (⟨rfl, rfl⟩ | ⟨rfl, rfl⟩)
    · omega
    · exact ⟨rfl, rfl⟩
  · rintro ⟨rfl, rfl⟩
    exact .inr ⟨rfl, rfl⟩
  · rintro (⟨rfl, rfl⟩ | ⟨rfl, rfl⟩)
    · omega
    · exact ⟨rfl, rfl⟩
  · rintro ⟨rfl, rfl⟩
    exact .inl ⟨rfl, rfl⟩
  · rintro (⟨rfl, rfl⟩ | ⟨rfl, rfl⟩)
    · exact ⟨rfl, rfl⟩
    · have heq : y = x := literal.index_inj.mp (by omega)
      exact ⟨heq.symm, heq⟩

/-- The binary clauses of the watch lists that are not deleted. -/
def live_clauses (watches : literal → List watched) (m_del_bin : del_bin) : Set (List literal) :=
  {c | ∃ u v learned, .BINARY v learned ∈ watches u ∧ in_del m_del_bin (~~~u) v = false ∧ c = [~~~u, v]}

/-- The path leads from `u` to `v`, and does not use the clause `~u \/ v`. -/
theorem holds_of_safe_reach_loop (hb : b.Numbered) {watches : literal → List watched}
    (hdag : ∀ x y, y ∈ b.m_dag x → ∃ learned, .BINARY y learned ∈ watches x) {m_del_bin : del_bin}
    (ha : Models a (live_clauses watches (add_del m_del_bin (~~~u) v))) (hparent : b.m_parent v ≠ u)
    (fuel : Nat) {x : literal} (hxv : x = v ∨ b.reaches x v) (hx : x = u ∨ b.m_left u < b.m_left x ∧ x ≠ ~~~v)
    (hloop : b.safe_reach_loop m_del_bin fuel x v = some true) (hhold : x.Holds a) : v.Holds a := by
  fun_induction safe_reach_loop with
  | case2 => exact hhold
  | case1 | case3 | case4 | case5 => cases hloop
  | case6 _ x v hne w hw hlive hwne ih =>
    obtain ⟨w', hnext, hdagw, ⟨hxw, hwv⟩, hnot⟩ := exists_next hb (hxv.resolve_left hne)
    cases hw.symm.trans hnext
    have hleft := (reaches_iff.mp hxw).1
    obtain ⟨learned, hwatch⟩ := hdag x w hdagw
    have hfresh : in_del (add_del m_del_bin (~~~u) v) (~~~x) w = false := by
      rw [Bool.eq_false_iff, Ne, in_del_add_del]
      rintro (hold | ⟨hxu, rfl⟩ | ⟨hxv, rfl⟩)
      · exact hlive hold
      · obtain rfl := Lit.compl_inj.mp hxu
        exact hnot hparent rfl
      · have hxv : x = ~~~v := by rw [← hxv, Lit.compl_compl]
        rcases hx with rfl | hx
        · exact hnot hparent (by rw [hxv, Lit.compl_compl])
        · exact hx.2 hxv
    have hclause := ha _ ⟨x, w, learned, hwatch, hfresh, rfl⟩
    have hw : w.Holds a := by
      obtain ⟨l, hl, hlh⟩ := hclause
      rcases mem_cons.mp hl with rfl | hl
      · exact absurd hhold (Lit.holds_compl.mp hlh)
      · rwa [mem_singleton.mp hl] at hlh
    refine ih ha hparent hwv (.inr ⟨?_, hwne⟩) hloop hw
    rcases hx with rfl | hx
    · exact hleft
    · exact hx.1.trans hleft

/-- Between two deletions, with `watches` the current watch lists: what is not deleted is still there, and entails
the clauses from the start. -/
structure Reduced (start : literal → List watched) (m_del_bin : del_bin) (watches : literal → List watched) : Prop where
  entails : ∀ c ∈ bin_clauses start, Entails (live_clauses start m_del_bin) c
  live : ∀ u v learned, .BINARY v learned ∈ start u → in_del m_del_bin (~~~u) v = false → .BINARY v learned ∈ watches u
  sub : ∀ u v learned, .BINARY v learned ∈ watches u → .BINARY v learned ∈ start u

variable {start watches : literal → List watched} {m_del_bin : del_bin}

theorem Reduced.bin_clauses_subset (h : Reduced start m_del_bin watches) : bin_clauses watches ⊆ bin_clauses start := by
  rintro c ⟨u, v, learned, hw, rfl⟩
  exact ⟨u, v, learned, h.sub u v learned hw, rfl⟩

theorem Reduced.entails_bin_clauses (h : Reduced start m_del_bin watches) :
    ∀ c ∈ bin_clauses start, Entails (bin_clauses watches) c := by
  intro c hc
  refine (h.entails c hc).mono ?_
  rintro d ⟨u, v, learned, hw, hlive, rfl⟩
  exact ⟨u, v, learned, h.live u v learned hw hlive, rfl⟩

/-- The clause `~u \/ v` is deleted from both of its watch lists. -/
theorem Reduced.del (h : Reduced start m_del_bin watches) (hb : b.Numbered)
    (hdag : ∀ x y, y ∈ b.m_dag x → ∃ learned, .BINARY y learned ∈ start x) (hparent : b.m_parent v ≠ u)
    (hsafe : b.safe_reach m_del_bin u v = some true) {watches' : literal → List watched} (is_learned : Bool)
    (hsub : ∀ x w, w ∈ watches' x → w ∈ watches x)
    (hkeep : ∀ x w, w ∈ watches x → w ∈ watches' x ∨ x = u ∧ w = .BINARY v is_learned ∨
      x = ~~~v ∧ w = .BINARY (~~~u) is_learned) : Reduced start (add_del m_del_bin (~~~u) v) watches' where
  entails c hc a ha := by
    refine h.entails c hc a ?_
    have hreach : b.reaches u v := by
      by_contra hnot
      simp [safe_reach, hnot] at hsafe
    simp only [safe_reach, hreach, if_true] at hsafe
    have hclause : Satisfies a [~~~u, v] := by
      by_cases hu : u.Holds a
      · exact ⟨v, by simp, holds_of_safe_reach_loop hb hdag ha hparent _ (.inr hreach) (.inl rfl) hsafe hu⟩
      · exact ⟨~~~u, by simp, Lit.holds_compl.mpr hu⟩
    rintro d ⟨x, y, learned, hw, hlive, rfl⟩
    by_cases hnew : in_del (add_del m_del_bin (~~~u) v) (~~~x) y
    · rw [in_del_add_del, hlive] at hnew
      rcases hnew with hfalse | ⟨hx, rfl⟩ | ⟨hx, rfl⟩
      · simp at hfalse
      · rwa [hx]
      · rw [hx]
        exact hclause.mono (by simp [or_comm])
    · exact ha _ ⟨x, y, learned, hw, by simpa using hnew, rfl⟩
  live x y learned hw hlive := by
    rw [Bool.eq_false_iff, Ne, in_del_add_del] at hlive
    push Not at hlive
    rcases hkeep x _ (h.live x y learned hw (by simpa using hlive.1)) with hmem | ⟨rfl, heq⟩ | ⟨rfl, heq⟩
    · exact hmem
    · cases heq
      exact absurd rfl (hlive.2.1 rfl)
    · cases heq
      exact absurd rfl (hlive.2.2 (Lit.compl_compl _))
  sub x y learned hw := h.sub x y learned (hsub x _ hw)

theorem del_clause_watches (is_learned : Bool) (mem : List watched) (st : tr_state) :
    (del_clause u v is_learned mem st).s.m_watches =
      update st.s.m_watches (~~~v) ((st.s.m_watches (~~~v)).erase (.BINARY (~~~u) is_learned)) := by
  unfold del_clause solver.assign_unit
  dsimp only
  split
  · rw [solver.assign_watches]
  · rfl

/-- The two lists of the clause before and after its deletion. -/
theorem mem_del (watches : literal → List watched) (kept todo : List watched) (is_learned : Bool) (x : literal)
    (w : watched) :
    let old := update watches u (kept ++ .BINARY v is_learned :: todo)
    let new := update (update watches (~~~v) ((watches (~~~v)).erase (.BINARY (~~~u) is_learned))) u (kept ++ todo)
    (w ∈ new x → w ∈ old x) ∧
      (w ∈ old x → w ∈ new x ∨ x = u ∧ w = .BINARY v is_learned ∨ x = ~~~v ∧ w = .BINARY (~~~u) is_learned) := by
  dsimp only
  by_cases hx : x = u
  · subst hx
    rw [update_self, update_self]
    simp only [mem_append, mem_cons]
    tauto
  · rw [update_of_ne hx, update_of_ne hx]
    by_cases hv : x = ~~~v
    · subst hv
      rw [update_self]
      refine ⟨mem_of_mem_erase, fun hw => ?_⟩
      by_cases heq : w = .BINARY (~~~u) is_learned
      · exact .inr (.inr ⟨rfl, heq⟩)
      · exact .inl ((mem_erase_of_ne heq).mpr hw)
    · rw [update_of_ne hv]
      exact ⟨id, .inl⟩

/-- The loop over one watch list, which is `kept ++ todo` in between. -/
theorem Reduced.reduce_wlist (hb : b.Numbered)
    (hdag : ∀ x y, y ∈ b.m_dag x → ∃ learned, .BINARY y learned ∈ start x) (wlist todo kept : List watched)
    (st : tr_state) (h : Reduced start st.m_del_bin (update st.s.m_watches u (kept ++ todo))) :
    ∃ st' kept', b.reduce_wlist u wlist kept st todo = some (st', kept') ∧
      Reduced start st'.m_del_bin (update st'.s.m_watches u kept') := by
  induction todo generalizing kept st with
  | nil => exact ⟨st, kept, rfl, by simpa using h⟩
  | cons w todo ih =>
    have hkeep : ∃ st' kept', b.reduce_wlist u wlist (kept ++ [w]) st todo = some (st', kept') ∧
        Reduced start st'.m_del_bin (update st'.s.m_watches u kept') := ih _ _ (by simpa using h)
    unfold big.reduce_wlist
    split
    next v is_learned =>
      split
      next hif =>
        simp only [Bool.and_eq_true, bne_iff_ne] at hif
        obtain ⟨r, hr⟩ := exists_safe_reach hb st.m_del_bin u v
        rw [hr]
        cases r with
        | false => exact hkeep
        | true =>
          refine ih _ _ (h.del hb hdag (Ne.symm hif.1.2) hr is_learned (fun x w' hw' => ?_) fun x w' hw' => ?_)
          · rw [del_clause_watches] at hw'
            exact (mem_del ..).1 hw'
          · rw [del_clause_watches]
            exact (mem_del ..).2 hw'
      next => exact hkeep
    next => exact hkeep

/-- The transitive reduction returns for all literals. A clause that it deletes follows from those that are left. -/
theorem Reduced.reduce_lits (hb : b.Numbered) (hdag : ∀ x y, y ∈ b.m_dag x → ∃ learned, .BINARY y learned ∈ start x)
    (lits : List literal) (st : tr_state) (h : Reduced start st.m_del_bin st.s.m_watches) :
    ∃ st', b.reduce_lits st lits = some st' ∧ Reduced start st'.m_del_bin st'.s.m_watches := by
  induction lits generalizing st with
  | nil => exact ⟨st, rfl, h⟩
  | cons u lits ih =>
    unfold big.reduce_lits
    split
    · exact ⟨st, rfl, h⟩
    · obtain ⟨st', kept, hrun, h'⟩ := reduce_wlist (u := u) hb hdag (st.s.m_watches u) (st.s.m_watches u) [] st
        (by simpa using h)
      rw [hrun]
      exact ih _ h'

end Delete

/-- The loop of `safe_reach` ends, and the binary clauses that `reduce_tr` leaves entail those that it removes. The
graph is that of the state `s0`, of which no binary clause was removed since. -/
theorem reduce_tr_entails {s0 s : solver}
    (hvars : ∀ u v learned, .BINARY v learned ∈ s0.m_watches u → v.var < s0.m_num_vars)
    (hsub : ∀ u v learned, .BINARY v learned ∈ s0.m_watches u → ∃ learned', .BINARY v learned' ∈ s.m_watches u)
    (was_eliminated : bool_var → Bool) (learned : Bool) {shuffle_edges : literal → List literal → List literal}
    {shuffle_todo : List literal → List literal} (hedges : ∀ u lits, (shuffle_edges u lits).Perm lits)
    (htodo : ∀ lits, (shuffle_todo lits).Perm lits) :
    let b := init s0 was_eliminated learned shuffle_edges shuffle_todo
    (∀ m_del_bin u v, ∃ r, b.safe_reach m_del_bin u v = some r) ∧
    ∃ st, b.reduce_lits { s := s } (all_literals s.m_num_vars) = some st ∧
      bin_clauses st.s.m_watches ⊆ bin_clauses s.m_watches ∧
      (∀ c ∈ bin_clauses s.m_watches, Entails (bin_clauses st.s.m_watches) c) ∧
      ∀ r, b.reduce_tr s = some r → ∀ c ∈ bin_clauses s.m_watches, Entails (bin_clauses r.1.m_watches) c := by
  intro b
  have hb : b.Numbered := init_numbered hvars was_eliminated learned hedges htodo
  have hdag : ∀ x y, y ∈ b.m_dag x → ∃ learned, .BINARY y learned ∈ s.m_watches x := by
    intro x y hy
    obtain ⟨l, -, -, hw⟩ := mem_edges.mp ((hedges x _).mem_iff.mp hy)
    exact hsub x y l hw
  have hstart : Reduced s.m_watches ({ s := s } : tr_state).m_del_bin s.m_watches := by
    refine ⟨fun c hc => Entails.of_mem ?_, fun _ _ _ hw _ => hw, fun _ _ _ => id⟩
    obtain ⟨u, v, l, hw, rfl⟩ := hc
    exact ⟨u, v, l, hw, by simp [in_del], rfl⟩
  obtain ⟨st, hrun, hred⟩ := Reduced.reduce_lits hb hdag (all_literals s.m_num_vars) { s := s } hstart
  refine ⟨exists_safe_reach hb, st, hrun, hred.bin_clauses_subset, hred.entails_bin_clauses, ?_⟩
  intro r hr c hc
  simp only [reduce_tr, hrun, map_eq_some_iff] at hr
  obtain ⟨p, hprop, rfl⟩ := hr
  refine (hred.entails_bin_clauses c hc).mono ?_
  rintro d ⟨u, v, l, hw, rfl⟩
  exact ⟨u, v, l, solver.propagate_loop_binary _ _ hprop hw, rfl⟩

/-- The first of the clauses `~0 \/ 2`, `~0 \/ 1` and `~1 \/ 2` is removed. -/
theorem reduce_tr_entails_triangle :
    let s := solver.of_bins 3 [(⟨0, true⟩, ⟨2, false⟩), (⟨0, true⟩, ⟨1, false⟩), (⟨1, true⟩, ⟨2, false⟩)]
    ∃ st, (init s (fun _ => false) false (fun _ => id) id).reduce_lits { s := s } (all_literals 3) = some st ∧
      st.elim = 1 ∧ st.s.m_watches ⟨0, false⟩ = [.BINARY ⟨1, false⟩ false] ∧
      Entails (bin_clauses st.s.m_watches) [⟨0, true⟩, ⟨2, false⟩] := by
  intro s
  have hvars : ∀ u v learned, .BINARY v learned ∈ s.m_watches u → v.var < s.m_num_vars :=
    solver.of_bins_vars (by decide)
  obtain ⟨-, st, hrun, -, hent, -⟩ := reduce_tr_entails hvars (fun _ _ l hw => ⟨l, hw⟩) (fun _ => false) false
    (fun _ _ => .refl _) (fun _ => .refl _)
  have hrun : (init s (fun _ => false) false (fun _ => id) id).reduce_lits { s := s } (all_literals 3) = some st := hrun
  have heval : ((init s (fun _ => false) false (fun _ => id) id).reduce_lits { s := s } (all_literals 3)).map
      (fun st => (st.elim, st.s.m_watches ⟨0, false⟩)) = some (1, [.BINARY ⟨1, false⟩ false]) := by decide
  rw [hrun, map_some, some.injEq, Prod.mk.injEq] at heval
  refine ⟨st, hrun, heval.1, heval.2, hent _ ⟨⟨0, false⟩, ⟨2, false⟩, false, ?_, rfl⟩⟩
  decide

end big

end sat
