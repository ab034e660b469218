import BooledASS.Logic.Tarjan
import BooledASS.Sat.Inprocess.Big

open Cnf List Option

namespace sat

namespace scc

/-- The successors of a literal: the binary clauses of its watch list. -/
def successors (s : solver) (l : literal) : List literal :=
  (s.m_watches l).filterMap fun
    | .BINARY l2 _ => some l2
    | .CLAUSE _ _ => none

/-- The results of `extract_roots`; a root is `none` for the null literal. -/
structure extracted where
  roots : bool_var → Option literal := fun _ => none
  to_elim : List bool_var := []

/-- The loop that looks for an external variable and for a conflict, from the top of the stack down to `l`; `none` is a
conflict. -/
def choose_root (is_external : bool_var → Bool) (l : literal) : List literal → Option literal
  | [] => some l
  | l2 :: seg =>
    if l2 = ~~~l then none
    else if is_external l2.var then some l2
    else choose_root is_external l seg

/-- One iteration of the loop that assigns the root `r`. -/
def assign_root (r : literal) (out : extracted) (l2 : literal) : extracted :=
  if out.roots l2.var = none then
    { roots := Function.update out.roots l2.var (some (if l2.sign then ~~~r else r))
      to_elim := if l2.var ≠ r.var then out.to_elim ++ [l2.var] else out.to_elim }
  else out

/-- A component was found: `seg` is the stack down to `l`. -/
def found (is_external : bool_var → Bool) (out : extracted) (l : literal) (seg : List literal) : Option extracted :=
  if out.roots l.var ≠ none then some out
  else (choose_root is_external l seg).map fun r => seg.foldl (assign_root r) out

/-- The state before the first literal is visited. -/
def start : Tarjan.State literal extracted := ⟨fun _ => none, fun _ => 4294967295, 0, [], fun _ => false, [], {}⟩

/-- A variable without a root is its own. -/
def extracted.root (out : extracted) (v : bool_var) : literal := (out.roots v).getD ⟨v, false⟩

/-- The root of a literal. -/
def extracted.root_lit (out : extracted) (l : literal) : literal :=
  if l.sign then ~~~(out.root l.var) else out.root l.var

/-- The search stops when it finds a conflict, and `extract_roots` returns false. -/
def extract_roots (s : solver) (was_eliminated is_external : bool_var → Bool) : Tarjan.Outcome extracted :=
  let lits := all_literals s.m_num_vars
  match Tarjan.search (successors s) (found is_external) (fun l => was_eliminated l.var) (2 * lits.length) start
      lits with
  | .done st => .done st.out
  | .stopped => .stopped
  | .out_of_fuel => .out_of_fuel

/-! ### The implication graph -/

section Graph

variable {s : solver} {u v w : literal}

/-- The literals are in the same strongly connected component. -/
def Same (s : solver) (u v : literal) : Prop := Tarjan.Reach (successors s) u v ∧ Tarjan.Reach (successors s) v u

theorem mem_successors : v ∈ successors s u ↔ ∃ learned, .BINARY v learned ∈ s.m_watches u := by
  rw [successors, mem_filterMap]
  constructor
  · rintro ⟨x, hx, heq⟩
    cases x with
    | BINARY l b =>
      obtain rfl : l = v := by simpa using heq
      exact ⟨b, hx⟩
    | CLAUSE _ _ => simp at heq
  · rintro ⟨b, hb⟩
    exact ⟨_, hb, rfl⟩

theorem Same.symm (h : Same s u v) : Same s v u := ⟨h.2, h.1⟩
theorem Same.trans (h : Same s u v) (h' : Same s v w) : Same s u w := ⟨h.1.trans h'.1, h'.2.trans h.2⟩
theorem Same.refl (s : solver) (u : literal) : Same s u u := ⟨.refl, .refl⟩

theorem holds_of_reach {a : Nat → Bool} (ha : Models a (bin_clauses s.m_watches))
    (h : Tarjan.Reach (successors s) u v) (hu : u.Holds a) : v.Holds a := by
  induction h with
  | refl => exact hu
  | tail _ hedge ih =>
    obtain ⟨learned, hw⟩ := mem_successors.mp hedge
    obtain ⟨l, hl, hlh⟩ := ha _ ⟨_, _, learned, hw, rfl⟩
    rcases mem_cons.mp hl with rfl | hl
    · exact absurd ih (Lit.holds_compl.mp hlh)
    · rwa [mem_singleton.mp hl] at hlh

theorem unsat_of_same_compl (h : Same s u (~~~u)) : Unsat (bin_clauses s.m_watches) := by
  intro a ha
  by_cases hu : u.Holds a
  · exact Lit.holds_compl.mp (holds_of_reach ha h.1 hu) hu
  · exact hu (holds_of_reach ha h.2 (Lit.holds_compl.mpr hu))

variable (hsym : ∀ u v learned, .BINARY v learned ∈ s.m_watches u →
    ∃ learned', .BINARY (~~~u) learned' ∈ s.m_watches (~~~v))
include hsym

theorem reach_compl (h : Tarjan.Reach (successors s) u v) : Tarjan.Reach (successors s) (~~~v) (~~~u) := by
  induction h with
  | refl => exact .refl
  | tail _ hedge ih =>
    obtain ⟨learned, hw⟩ := mem_successors.mp hedge
    exact .head (mem_successors.mpr (hsym _ _ learned hw)) ih

theorem Same.compl (h : Same s u v) : Same s (~~~u) (~~~v) := ⟨reach_compl hsym h.2, reach_compl hsym h.1⟩

end Graph

/-! ### Choosing and assigning the root -/

section Assign

variable {is_external : bool_var → Bool} {l r x : literal} {seg : List literal} {out : extracted} {v : bool_var}

theorem compl_mem_of_choose_root (h : choose_root is_external l seg = none) : ~~~l ∈ seg := by
  fun_induction choose_root with
  | case1 | case3 => cases h
  | case2 => exact .head _
  | case4 _ _ _ _ ih => exact .tail _ (ih h)

theorem find_of_compl_not_mem (hx : x ∈ seg) (hnot : ~~~x ∉ seg) : seg.find? (fun y => y.var == x.var) = some x := by
  cases hfind : seg.find? (fun y => y.var == x.var) with
  | none => exact absurd (find?_eq_none.mp hfind x hx) (by simp)
  | some y =>
    have hy := find?_some hfind
    rcases Lit.eq_or_eq_compl_of_var_eq (by simpa using hy) with rfl | rfl
    · rfl
    · exact absurd (mem_of_find?_eq_some hfind) hnot

/-- The root is the first external literal, or `l` where no external literal and no conflict was met. -/
theorem choose_root_cases (h : choose_root is_external l seg = some r) :
    (is_external r.var ∧ seg.find? (fun x => x.var == r.var) = some r) ∨ r = l ∧ ~~~l ∉ seg := by
  fun_induction choose_root with
  | case1 => exact .inr ⟨(some.inj h).symm, not_mem_nil⟩
  | case2 => cases h
  | case3 l2 seg _ hext =>
    obtain rfl : l2 = r := some.inj h
    exact .inl ⟨hext, by simp⟩
  | case4 l2 seg hne hext ih =>
    rcases ih h with ⟨hr, hfind⟩ | ⟨rfl, hnot⟩
    · have hvar : l2.var ≠ r.var := fun heq => hext (heq ▸ hr)
      exact .inl ⟨hr, by simpa [hvar] using hfind⟩
    · refine .inr ⟨rfl, fun hmem => ?_⟩
      exact (mem_cons.mp hmem).elim (fun heq => hne heq.symm) hnot

/-- The root is the first literal of the component with its variable. -/
theorem find_choose_root (hl : l ∈ seg) (h : choose_root is_external l seg = some r) :
    seg.find? (fun x => x.var == r.var) = some r := by
  rcases choose_root_cases h with ⟨-, hfind⟩ | ⟨rfl, hnot⟩
  · exact hfind
  · exact find_of_compl_not_mem hl hnot

/-- The loop gives every variable that has no root that of its first literal. -/
theorem foldl_assign_root_roots (r : literal) (seg : List literal) (out : extracted) (v : bool_var) :
    (seg.foldl (assign_root r) out).roots v =
      (out.roots v).or ((seg.find? fun l => l.var == v).map fun l => if l.sign then ~~~r else r) := by
  induction seg generalizing out with
  | nil => simp
  | cons l2 seg ih =>
    rw [foldl_cons, ih]
    unfold assign_root
    by_cases hv : l2.var = v
    · subst hv
      split
      next hnone => simp [hnone]
      next hsome =>
        obtain ⟨x, hx⟩ := ne_none_iff_exists'.mp hsome
        simp [hx]
    · have hv' : ¬ v = l2.var := fun heq => hv heq.symm
      split <;> simp [hv, hv']

theorem foldl_assign_root_of_some (h : out.roots v = some x) : (seg.foldl (assign_root r) out).roots v = some x := by
  rw [foldl_assign_root_roots, h]
  rfl

theorem exists_of_foldl_assign_root (hnone : out.roots v = none)
    (h : (seg.foldl (assign_root r) out).roots v = some x) :
    ∃ u ∈ seg, u.var = v ∧ x = if u.sign then ~~~r else r := by
  rw [foldl_assign_root_roots, hnone, none_or, map_eq_some_iff] at h
  obtain ⟨u, hfind, rfl⟩ := h
  exact ⟨u, mem_of_find?_eq_some hfind, by simpa using find?_some hfind, rfl⟩

theorem foldl_assign_root_ne_none :
    (seg.foldl (assign_root r) out).roots x.var ≠ none ↔ out.roots x.var ≠ none ∨ x ∈ seg ∨ ~~~x ∈ seg := by
  have hfind : seg.find? (fun u => u.var == x.var) ≠ none ↔ x ∈ seg ∨ ~~~x ∈ seg := by
    rw [Ne, find?_eq_none]
    push Not
    constructor
    · rintro ⟨u, hu, hvar⟩
      rcases Lit.eq_or_eq_compl_of_var_eq (by simpa using hvar) with rfl | rfl
      · exact .inl hu
      · exact .inr hu
    · rintro (hx | hx)
      · exact ⟨x, hx, by simp⟩
      · exact ⟨~~~x, hx, by simp⟩
  rw [← hfind, foldl_assign_root_roots]
  cases out.roots x.var <;> simp

/-- The root is its own root. -/
theorem foldl_assign_root_self (hnone : out.roots r.var = none) (hr : seg.find? (fun x => x.var == r.var) = some r) :
    (seg.foldl (assign_root r) out).roots r.var = some ⟨r.var, false⟩ := by
  rw [foldl_assign_root_roots, hnone, hr]
  obtain ⟨v, b⟩ := r
  cases b <;> rfl

theorem root_lit_compl (out : extracted) (x : literal) : out.root_lit (~~~x) = ~~~(out.root_lit x) := by
  unfold extracted.root_lit
  cases hs : x.sign <;> simp [hs]

/-- A literal of the component has the root itself. -/
theorem root_lit_foldl_assign_root (hnone : out.roots x.var = none) (hx : x ∈ seg) (hnot : ~~~x ∉ seg) :
    (seg.foldl (assign_root r) out).root_lit x = r := by
  have hroot : (seg.foldl (assign_root r) out).roots x.var = some (if x.sign then ~~~r else r) := by
    rw [foldl_assign_root_roots, hnone, find_of_compl_not_mem hx hnot]
    rfl
  rw [extracted.root_lit, extracted.root, hroot]
  cases x.sign <;> simp

/-- The variables of a component that had no root are eliminated, except that of the new root. -/
theorem mem_foldl_assign_root_elim (r : literal) (seg : List literal) (out : extracted) (v : bool_var) :
    v ∈ (seg.foldl (assign_root r) out).to_elim ↔
      v ∈ out.to_elim ∨ out.roots v = none ∧ (∃ l ∈ seg, l.var = v) ∧ v ≠ r.var := by
  induction seg generalizing out with
  | nil => simp
  | cons l2 seg ih =>
    rw [foldl_cons, ih]
    unfold assign_root
    by_cases hv : l2.var = v
    · subst hv
      split
      next hnone => by_cases hr : l2.var = r.var <;> simp [hnone, hr]
      next hsome => simp [hsome]
    · have hv' : ¬ v = l2.var := fun heq => hv heq.symm
      split
      next hnone =>
        dsimp only
        split <;> simp [hv, hv']
      next hsome => simp [hv]

/-- A variable gets a root once, so that it is eliminated once, also if the component has both of its literals. -/
theorem nodup_foldl_assign_root_elim (r : literal) (seg : List literal) (out : extracted) (hnodup : out.to_elim.Nodup)
    (hroots : ∀ v ∈ out.to_elim, out.roots v ≠ none) : (seg.foldl (assign_root r) out).to_elim.Nodup := by
  induction seg generalizing out with
  | nil => exact hnodup
  | cons l2 seg ih =>
    rw [foldl_cons]
    unfold assign_root
    split
    next hnone =>
      have hnot : l2.var ∉ out.to_elim := fun hmem => hroots _ hmem hnone
      refine ih _ ?_ ?_
      · dsimp only
        split
        · exact nodup_append.mpr ⟨hnodup, nodup_singleton _, by
            simpa using fun v hv (heq : v = l2.var) => hnot (heq ▸ hv)⟩
        · exact hnodup
      · intro v hv
        by_cases hvl : v = l2.var
        · simp [hvl]
        · have hmem : v ∈ out.to_elim := by
            dsimp only at hv
            split at hv
            · simpa [hvl] using hv
            · exact hv
          simpa [hvl] using hroots v hmem
    next => exact ih out hnodup hroots

end Assign

/-! ### What was extracted -/

section Extracted

variable {s : solver} {is_external : bool_var → Bool} {out : extracted} {emitted : Set literal}

/-- The roots after the components in `emitted`. A root is in the component of its variable, and all literals of a
component have the same root unless it contains complementary literals. -/
structure Extracted (s : solver) (out : extracted) (emitted : Set literal) : Prop where
  assigned : ∀ l : literal, out.roots l.var ≠ none ↔ l ∈ emitted ∨ ~~~l ∈ emitted
  equiv : ∀ v r, out.roots v = some r → Same s ⟨v, false⟩ r
  idem : ∀ v r, out.roots v = some r → out.roots r.var = some ⟨r.var, false⟩
  same : ∀ l1 l2, Same s l1 l2 → ¬ Same s l1 (~~~l1) → out.roots l1.var ≠ none → out.root_lit l1 = out.root_lit l2
  elim_nodup : out.to_elim.Nodup
  elim : ∀ v, v ∈ out.to_elim ↔ ∃ r, out.roots v = some r ∧ r.var ≠ v

theorem start_extracted : Extracted s {} ∅ := by refine ⟨by simp, by simp, by simp, by simp, nodup_nil, by simp⟩

theorem reach_mem (hclosed : ∀ v ∈ emitted, ∀ w ∈ successors s v, w ∈ emitted) {u w : literal} (hu : u ∈ emitted)
    (h : Tarjan.Reach (successors s) u w) : w ∈ emitted := by
  induction h with
  | refl => exact hu
  | tail _ hedge ih => exact hclosed _ ih _ hedge

section Component

variable (hsym : ∀ u v learned, .BINARY v learned ∈ s.m_watches u →
    ∃ learned', .BINARY (~~~u) learned' ∈ s.m_watches (~~~v))
  (h : Extracted s out emitted) {l : literal} {seg : List literal}
  (hcomp : Tarjan.Component (successors s) emitted l seg)
include hsym h hcomp

/-- The literals of a component have roots before it is emitted if and only if one of them has. -/
theorem Extracted.roots_iff {u : literal} (hu : u ∈ seg) : out.roots u.var = none ↔ out.roots l.var = none := by
  have hl : l ∈ seg := (hcomp.mem_iff l).mpr ⟨.refl, .refl⟩
  have hul : Same s l u := (hcomp.mem_iff u).mp hu
  rw [← not_iff_not]
  change out.roots u.var ≠ none ↔ out.roots l.var ≠ none
  rw [h.assigned, h.assigned, or_iff_right (hcomp.not_mem u hu), or_iff_right (hcomp.not_mem l hl)]
  have hc := hul.compl hsym
  exact ⟨fun hmem => reach_mem hcomp.closed hmem hc.2, fun hmem => reach_mem hcomp.closed hmem hc.1⟩

/-- The dual component was emitted before. -/
theorem Extracted.consume (hroots : out.roots l.var ≠ none) : Extracted s out (emitted ∪ {u | u ∈ seg}) := by
  refine { h with assigned := fun x => ?_ }
  rw [h.assigned]
  constructor
  · exact Or.imp .inl .inl
  · have hseg : ∀ u ∈ seg, out.roots u.var ≠ none := fun u hu => by
      rw [Ne, h.roots_iff hsym hcomp hu]
      exact hroots
    rintro ((hx | hx) | (hx | hx))
    · exact .inl hx
    · exact (h.assigned x).mp (hseg x hx)
    · exact .inr hx
    · have hx' := hseg (~~~x) hx
      exact (h.assigned x).mp hx'

variable (hroots : out.roots l.var = none) {r : literal}
include hroots

/-- Two literals of one component get the same root, whether they are in the new component or their complements are.
-/
theorem Extracted.assign_same {l1 l2 : literal} (h12 : Same s l1 l2) (hself : ¬ Same s l1 (~~~l1))
    (hl1 : (seg.foldl (assign_root r) out).roots l1.var ≠ none) :
    (seg.foldl (assign_root r) out).root_lit l1 = (seg.foldl (assign_root r) out).root_lit l2 := by
  have hnone : ∀ u ∈ seg, out.roots u.var = none := fun u hu => (h.roots_iff hsym hcomp hu).mpr hroots
  have hmem : ∀ {u w}, Same s u w → u ∈ seg → w ∈ seg := fun huw hu =>
    (hcomp.mem_iff _).mpr (Same.trans ((hcomp.mem_iff _).mp hu) huw)
  have hseg : ∀ u w, Same s u w → ¬ Same s u (~~~u) → u ∈ seg →
      (seg.foldl (assign_root r) out).root_lit u = (seg.foldl (assign_root r) out).root_lit w := by
    intro u w huw hself hu
    have hcu : ~~~u ∉ seg := fun hc =>
      hself (Same.trans (Same.symm ((hcomp.mem_iff u).mp hu)) ((hcomp.mem_iff _).mp hc))
    have hcw : ~~~w ∉ seg := fun hc => hcu (hmem (huw.compl hsym).symm hc)
    rw [root_lit_foldl_assign_root (hnone u hu) hu hcu,
      root_lit_foldl_assign_root (hnone w (hmem huw hu)) (hmem huw hu) hcw]
  by_cases hv : out.roots l1.var = none
  · rcases (foldl_assign_root_ne_none.mp hl1).resolve_left (not_not.mpr hv) with hu | hu
    · exact hseg l1 l2 h12 hself hu
    · have hc : ¬ Same s (~~~l1) (~~~(~~~l1)) := fun hs => hself (by
        rw [Lit.compl_compl] at hs
        exact hs.symm)
      have heq := hseg (~~~l1) (~~~l2) (h12.compl hsym) hc hu
      rwa [root_lit_compl, root_lit_compl, Lit.compl_inj] at heq
  · have hv2 : out.roots l2.var ≠ none := by
      refine (h.assigned l2).mpr (((h.assigned l1).mp hv).imp (fun hm => ?_) fun hm => ?_)
      · exact reach_mem hcomp.closed hm h12.1
      · exact reach_mem hcomp.closed hm (h12.compl hsym).1
    have hkeep : ∀ u : literal, out.roots u.var ≠ none →
        (seg.foldl (assign_root r) out).root_lit u = out.root_lit u := by
      intro u hu
      obtain ⟨y, hy⟩ := ne_none_iff_exists'.mp hu
      simp only [extracted.root_lit, extracted.root, hy, foldl_assign_root_of_some hy]
    rw [hkeep l1 hv, hkeep l2 hv2]
    exact h.same l1 l2 h12 hself hv

/-- A new component gets its root. -/
theorem Extracted.assign (hr : seg.find? (fun x => x.var == r.var) = some r) :
    Extracted s (seg.foldl (assign_root r) out) (emitted ∪ {u | u ∈ seg}) := by
  have hrseg : r ∈ seg := mem_of_find?_eq_some hr
  have hvar : ∀ u : literal, (if u.sign then ~~~r else r).var = r.var := fun u => by split <;> rfl
  refine ⟨fun x => ?_, fun v x hx => ?_, fun v x hx => ?_, fun l1 l2 h12 hself hl1 => ?_, ?_, fun v => ?_⟩
  · rw [foldl_assign_root_ne_none, h.assigned]
    change _ ↔ (x ∈ emitted ∨ x ∈ seg) ∨ ~~~x ∈ emitted ∨ ~~~x ∈ seg
    tauto
  · cases hv : out.roots v with
    | some y =>
      rw [foldl_assign_root_of_some hv] at hx
      cases hx
      exact h.equiv v _ hv
    | none =>
      obtain ⟨u, hu, rfl, rfl⟩ := exists_of_foldl_assign_root hv hx
      have hur : Same s u r := .trans (Same.symm ((hcomp.mem_iff u).mp hu)) ((hcomp.mem_iff r).mp hrseg)
      obtain ⟨v, b⟩ := u
      cases b with
      | false => exact hur
      | true => exact hur.compl hsym
  · cases hv : out.roots v with
    | some y =>
      rw [foldl_assign_root_of_some hv] at hx
      cases hx
      exact foldl_assign_root_of_some (h.idem v _ hv)
    | none =>
      obtain ⟨u, -, -, rfl⟩ := exists_of_foldl_assign_root hv hx
      rw [hvar]
      exact foldl_assign_root_self ((h.roots_iff hsym hcomp hrseg).mpr hroots) hr
  · exact h.assign_same hsym hcomp hroots h12 hself hl1
  · refine nodup_foldl_assign_root_elim r seg out h.elim_nodup fun v hv => ?_
    obtain ⟨x, hx, -⟩ := (h.elim v).mp hv
    simp [hx]
  · rw [mem_foldl_assign_root_elim, h.elim]
    cases hv : out.roots v with
    | some y => simp [foldl_assign_root_of_some hv]
    | none =>
      constructor
      · rintro (⟨x, hx, -⟩ | ⟨-, ⟨u, hu, rfl⟩, hne⟩)
        · cases hx
        · obtain ⟨x, hx⟩ := ne_none_iff_exists'.mp (foldl_assign_root_ne_none.mpr (.inr (.inl hu)))
          obtain ⟨u', -, -, rfl⟩ := exists_of_foldl_assign_root hv hx
          exact ⟨_, hx, by rw [hvar]; exact fun heq => hne heq.symm⟩
      · rintro ⟨x, hx, hne⟩
        obtain ⟨u, hu, rfl, rfl⟩ := exists_of_foldl_assign_root hv hx
        rw [hvar] at hne
        exact .inr ⟨rfl, ⟨u, hu, rfl⟩, fun heq => hne heq.symm⟩

end Component

/-- A component that contains complementary literals is emitted only with an external variable. -/
def ConflictsExternal (s : solver) (is_external : bool_var → Bool) (emitted : Set literal) : Prop :=
  ∀ l ∈ emitted, Same s l (~~~l) → ∃ r, Same s l r ∧ is_external r.var

/-- What Tarjan's algorithm asks for when a component is found: the roots stay right, or a component with
complementary literals shows that the clauses are unsatisfiable. Such a component can be missed only if it has an
external variable. -/
theorem keeps_extracted
    (hsym : ∀ u v learned, .BINARY v learned ∈ s.m_watches u → ∃ learned', .BINARY (~~~u) learned' ∈ s.m_watches (~~~v))
    (is_external : bool_var → Bool) :
    Tarjan.Keeps (successors s) (found is_external)
      (fun out emitted => Extracted s out emitted ∧ ConflictsExternal s is_external emitted)
      (Unsat (bin_clauses s.m_watches)) := by
  rintro out emitted l seg ⟨h, hext⟩ hcomp
  have hl : l ∈ seg := (hcomp.mem_iff l).mpr ⟨.refl, .refl⟩
  -- a literal of the component that is complementary to another one makes `~l` one of them
  have hcompl : ∀ u ∈ seg, Same s u (~~~u) → ~~~l ∈ seg := by
    intro u hu hself
    have hlu : Same s l u := (hcomp.mem_iff u).mp hu
    exact (hcomp.mem_iff _).mpr ((hlu.trans hself).trans (hlu.compl hsym).symm)
  by_cases hroots : out.roots l.var = none
  · rw [found, if_neg (not_not.mpr hroots)]
    cases hr : choose_root is_external l seg with
    | none => exact unsat_of_same_compl ((hcomp.mem_iff _).mp (compl_mem_of_choose_root hr))
    | some r =>
      have hfind := find_choose_root hl hr
      refine ⟨h.assign hsym hcomp hroots hfind, ?_⟩
      rintro u (hu | hu) hself
      · exact hext u hu hself
      · obtain ⟨hrext, -⟩ := (choose_root_cases hr).resolve_right fun h => h.2 (hcompl u hu hself)
        have hur : Same s u r := .trans (Same.symm ((hcomp.mem_iff u).mp hu))
          ((hcomp.mem_iff r).mp (mem_of_find?_eq_some hfind))
        exact ⟨r, hur, hrext⟩
  · rw [found, if_pos hroots]
    refine ⟨h.consume hsym hcomp hroots, ?_⟩
    rintro u (hu | hu) hself
    · exact hext u hu hself
    · -- its dual, which is the component itself, would have been emitted before
      have hc := hcompl u hu hself
      rcases (h.assigned l).mp hroots with hmem | hmem
      · exact absurd hmem (hcomp.not_mem l hl)
      · exact absurd hmem (hcomp.not_mem _ hc)

end Extracted

section Result

variable {s : solver} {out : extracted} {emitted : Set literal} (h : Extracted s out emitted)
include h

section

variable (hsym : ∀ u v learned, .BINARY v learned ∈ s.m_watches u →
    ∃ learned', .BINARY (~~~u) learned' ∈ s.m_watches (~~~v))
include hsym

theorem Extracted.same_root_lit (l : literal) : Same s l (out.root_lit l) := by
  have hroot : ∀ v, Same s ⟨v, false⟩ (out.root v) := by
    intro v
    unfold extracted.root
    cases hv : out.roots v with
    | none => exact .refl s _
    | some r => exact h.equiv v r hv
  obtain ⟨v, b⟩ := l
  cases b with
  | false => exact hroot v
  | true => exact (hroot v).compl hsym

theorem Extracted.entails (l : literal) : Entails (bin_clauses s.m_watches) [~~~l, out.root_lit l] ∧
      Entails (bin_clauses s.m_watches) [l, ~~~(out.root_lit l)] := by
  have hsame := h.same_root_lit hsym l
  refine ⟨fun a ha => ?_, fun a ha => ?_⟩
  · by_cases hl : l.Holds a
    · exact ⟨_, by simp, holds_of_reach ha hsame.1 hl⟩
    · exact ⟨~~~l, by simp, Lit.holds_compl.mpr hl⟩
  · by_cases hr : (out.root_lit l).Holds a
    · exact ⟨l, by simp, holds_of_reach ha hsame.2 hr⟩
    · exact ⟨~~~(out.root_lit l), by simp, Lit.holds_compl.mpr hr⟩

end

/-- A root is its own root. -/
theorem Extracted.idem_lit (l : literal) : out.root_lit (out.root_lit l) = out.root_lit l := by
  have hroot : ∀ v, out.root_lit (out.root v) = out.root v := by
    intro v
    cases hv : out.roots v with
    | none => simp [extracted.root_lit, extracted.root, hv]
    | some r =>
      have hr := h.idem v r hv
      have hval : out.root v = r := by rw [extracted.root, hv, getD_some]
      rw [hval, extracted.root_lit, extracted.root, hr]
      obtain ⟨w, b⟩ := r
      cases b <;> rfl
  obtain ⟨v, b⟩ := l
  cases b with
  | false => exact hroot v
  | true =>
    show out.root_lit (~~~(out.root v)) = ~~~(out.root v)
    rw [root_lit_compl, hroot]

theorem Extracted.elim_iff (v : bool_var) : v ∈ out.to_elim ↔ (out.root v).var ≠ v := by
  rw [h.elim, extracted.root]
  cases out.roots v <;> simp

end Result

end scc

end sat
