import Mathlib.Data.List.Forall2
import BooledASS.Logic.Repair
import BooledASS.Sat.Types

open Cnf List Function

namespace sat.model_converter

abbrev model := bool_var → lbool

/-- Frames of a size and a literal: the literal may be flipped if the first literals of the clause are false. -/
abbrev elim_stackv := List (Nat × literal)

inductive kind where
  | ELIM_VAR
  | BCE
  | CCE
  | ACCE
  | ABCE
  | ATE
deriving DecidableEq, Repr

/-- The clauses are stored one after the other in the source, separated by the null literal, and with their stacks in a
second vector. A clause without a stack has the empty one; `m_var` is `none` for the null variable. -/
structure entry where
  m_var : Option bool_var
  m_kind : kind
  m_clauses : List (List literal × elim_stackv)
deriving DecidableEq, Repr

def value_at (l : literal) (m : model) : lbool := if l.sign then (m l.var).neg else m l.var

/-- `m[v] = sign ? l_false : l_true`. -/
def set_value (m : model) (v : bool_var) (sign : Bool) : model :=
  update m v (if sign then .l_false else .l_true)

def process_frame (c : List literal) (m : model) (frame : Nat × literal) : model :=
  if (c.take frame.1).any fun l => value_at l m == .l_true then m else set_value m frame.2.var frame.2.sign

def process_stack (m : model) (c : List literal) (stack : elim_stackv) : model :=
  stack.reverse.foldl (process_frame c) m

/-- The variables of the loop over the literals of a clause. -/
structure scan_vars where
  m : model
  is_sat : Bool
  var_sign : Bool

def scan_literal (v0 : Option bool_var) (st : scan_vars) (l : literal) : scan_vars :=
  if st.is_sat then st
  else
    let var_sign := if some l.var = v0 then l.sign else st.var_sign
    if value_at l st.m = .l_true then { m := st.m, is_sat := true, var_sign := var_sign }
    else if some l.var ≠ v0 ∧ st.m l.var = .l_undef then
      -- the clause can be satisfied by assigning the variable
      { m := set_value st.m l.var l.sign, is_sat := true, var_sign := var_sign }
    else { m := st.m, is_sat := false, var_sign := var_sign }

/-- The end of a clause. -/
def set_own (e : entry) (st : scan_vars) : model :=
  match e.m_var with
  | some v0 => if !st.is_sat && e.m_kind != .ATE then set_value st.m v0 st.var_sign else st.m
  | none => st.m

/-- One clause of an entry; `var_sign` is kept from one clause to the next. -/
def process_clause (e : entry) (acc : model × Bool) (c : List literal × elim_stackv) : model × Bool :=
  let st := c.1.foldl (scan_literal e.m_var) ⟨acc.1, false, acc.2⟩
  (process_stack (set_own e st) c.1 c.2, st.var_sign)

def process_entry (m : model) (e : entry) : model := (e.m_clauses.foldl (process_clause e) (m, false)).1

/-- `operator()` on the entries that were not exposed. -/
def apply (entries : List entry) (m : model) : model := entries.reverse.foldl process_entry m

def swap (v : bool_var) (sz : Nat) (clause : List literal) : List literal :=
  match (clause.take sz).findIdx? fun l => l.var == v with
  | some j => swapAt clause 0 j
  | none => clause

/-- One frame of `expand`, with the clause and the update stack; `none` is the null literal. -/
def expand_frame (acc : List literal × List (Option literal)) (frame : Nat × literal) :
    List literal × List (Option literal) :=
  let clause := swap frame.2.var frame.1 acc.1
  (clause, acc.2 ++ (clause.take frame.1).map some ++ [none])

def expand_clause (v0 : Option bool_var) (c : List literal × elim_stackv) : List (Option literal) :=
  let r := c.2.foldl expand_frame (c.1, [])
  match v0 with
  | none => r.2
  | some v => r.2 ++ (swap v r.1.length r.1).map some ++ [none]

/-- The index into the stacks is not incremented: all clauses of the entry are expanded with the stack of the first. -/
def expand_entry (e : entry) : List (Option literal) :=
  let stack := (e.m_clauses.head?.map (·.2)).getD []
  e.m_clauses.flatMap fun c => expand_clause e.m_var (c.1, stack)

def expand (entries : List entry) : List (Option literal) := entries.flatMap expand_entry

/-! ### `operator()` as a sequence of repairs -/

/-- Variables without a value are false. -/
def complete (m : model) : bool_var → Bool := fun v => m v == .l_true

section Apply

variable {m : model} {l lit : literal} {c : List literal} {v : bool_var}

theorem complete_set_value : complete (set_value m l.var l.sign) = l.assign (complete m) := by
  funext v
  by_cases hv : v = l.var
  · subst hv
    cases hs : l.sign <;> simp [complete, set_value, Lit.assign, hs]
  · simp [complete, set_value, Lit.assign, hv]

theorem holds_of_value_at (h : value_at l m = .l_true) : l.Holds (complete m) := by
  unfold value_at at h
  unfold Lit.Holds complete
  split at h
  next hs =>
    rw [lbool.neg_eq_true] at h
    simp [hs, h]
  next hs => simp [hs, h]

theorem value_at_eq_true (hdef : m l.var ≠ .l_undef) : value_at l m = .l_true ↔ l.Holds (complete m) := by
  refine ⟨holds_of_value_at, fun h => ?_⟩
  unfold Lit.Holds complete at h
  unfold value_at
  cases hs : l.sign <;> cases hm : m l.var <;> simp_all

variable {w : bool_var} {e : entry} {st : scan_vars}

theorem set_value_defined {sign : Bool} (h : m w ≠ .l_undef) : set_value m v sign w ≠ .l_undef := by
  by_cases hw : w = v
  · subst hw
    cases sign <;> simp [set_value]
  · simpa [set_value, hw] using h

theorem process_frame_defined {frame : Nat × literal} (h : m w ≠ .l_undef) : process_frame c m frame w ≠ .l_undef := by
  unfold process_frame
  split
  · exact h
  · exact set_value_defined h

theorem complete_process_frame (frame : Nat × literal) (hdef : ∀ l ∈ c, m l.var ≠ .l_undef) :
    complete (process_frame c m frame) = repair (complete m) (frame.2, c.take frame.1) := by
  have hsat : ((c.take frame.1).any fun l => value_at l m == .l_true) = true ↔
      Satisfies (complete m) (c.take frame.1) := by
    simp only [any_eq_true, beq_iff_eq]
    exact exists_congr fun l => and_congr_right fun hl => value_at_eq_true (hdef l (mem_of_mem_take hl))
  unfold process_frame
  split
  next h => rw [repair_of_satisfies (hsat.mp h)]
  next h => rw [repair_of_not_satisfies fun hs => h (hsat.mpr hs), complete_set_value]

theorem foldl_process_frame (frames : elim_stackv) (hdef : ∀ l ∈ c, m l.var ≠ .l_undef) :
    complete (frames.foldl (process_frame c) m) =
      (frames.map fun frame => (frame.2, c.take frame.1)).foldl repair (complete m) := by
  induction frames generalizing m with
  | nil => rfl
  | cons frame frames ih =>
    rw [foldl_cons, map_cons, foldl_cons, ← complete_process_frame frame hdef]
    exact ih fun l hl => process_frame_defined (hdef l hl)

theorem foldl_scan_sat (v0 : Option bool_var) (m : model) (var_sign : Bool) :
    c.foldl (scan_literal v0) ⟨m, true, var_sign⟩ = ⟨m, true, var_sign⟩ := by
  induction c with
  | nil => rfl
  | cons l c ih => exact ih

/-- The loop over the literals does not set a variable to true: before a true literal, those without a value occur
negatively. -/
def Harmless (v0 : Option bool_var) (m : model) : List literal → Prop
  | [] => True
  | l :: c => (some l.var ≠ v0 → m l.var = .l_undef → l.sign = true) ∧
      (some l.var ≠ v0 ∧ value_at l m = .l_true ∨ Harmless v0 m c)

theorem Harmless.mono {v0 : Option bool_var} {m' : model} (hkeep : ∀ w, some w ≠ v0 → m w ≠ .l_undef → m' w = m w)
    (h : Harmless v0 m c) : Harmless v0 m' c := by
  induction c with
  | nil => trivial
  | cons l c ih =>
    refine ⟨fun hne hundef => h.1 hne ?_, ?_⟩
    · by_contra hdef
      exact hdef (hkeep _ hne hdef ▸ hundef)
    · refine h.2.imp (fun ⟨hne, htrue⟩ => ⟨hne, ?_⟩) ih
      have hdef : m l.var ≠ .l_undef := fun hundef => by simp [value_at, hundef, lbool.neg] at htrue
      unfold value_at
      rw [hkeep _ hne hdef]
      exact htrue

theorem harmless_of_defined {v0 : Option bool_var} (h : ∀ l ∈ c, some l.var ≠ v0 → m l.var ≠ .l_undef) :
    Harmless v0 m c := by
  induction c with
  | nil => trivial
  | cons l c ih =>
    exact ⟨fun hne hundef => (h l (by simp) hne hundef).elim, .inr (ih fun x hx => h x (mem_cons_of_mem l hx))⟩

/-- What the loop over the literals leaves: a variable can only be set to false, which satisfies the clause. -/
structure Scanned (v0 : Option bool_var) (m : model) (c : List literal) (st : scan_vars) : Prop where
  complete_eq : complete st.m = complete m
  keep : ∀ w, m w ≠ .l_undef → st.m w = m w
  satisfied : st.is_sat = true → Satisfies (complete m) c
  needs : st.is_sat = false → ∀ l ∈ c, some l.var ≠ v0 → ¬ l.Holds (complete m)

/-- One literal: it is true; or its variable has no value and is set to false, which makes it true; or only the sign
of the variable of the entry is recorded. -/
theorem scan_literal_spec (v0 : Option bool_var) (var_sign : Bool)
    (hundef : some l.var ≠ v0 → m l.var = .l_undef → l.sign = true) :
    (scan_literal v0 ⟨m, false, var_sign⟩ l).var_sign = (if some l.var = v0 then l.sign else var_sign) ∧
      Scanned v0 m [l] (scan_literal v0 ⟨m, false, var_sign⟩ l) ∧
      ((scan_literal v0 ⟨m, false, var_sign⟩ l).is_sat = false →
        (scan_literal v0 ⟨m, false, var_sign⟩ l).m = m ∧ value_at l m ≠ .l_true) := by
  by_cases htrue : value_at l m = .l_true
  · have hstep : scan_literal v0 ⟨m, false, var_sign⟩ l = ⟨m, true, if some l.var = v0 then l.sign else var_sign⟩ := by
      simp [scan_literal, htrue]
    rw [hstep]
    exact ⟨rfl, ⟨rfl, fun _ _ => rfl, fun _ => ⟨l, by simp, holds_of_value_at htrue⟩, by simp⟩, by simp⟩
  by_cases hcare : some l.var ≠ v0 ∧ m l.var = .l_undef
  · have hold : l.Holds (complete m) := by
      simp [Lit.Holds, complete, hcare.2, hundef hcare.1 hcare.2]
    have hstep : scan_literal v0 ⟨m, false, var_sign⟩ l =
        ⟨set_value m l.var l.sign, true, if some l.var = v0 then l.sign else var_sign⟩ := by
      simp only [scan_literal, Bool.false_eq_true, if_false, htrue, if_pos hcare]
    rw [hstep]
    refine ⟨rfl, ⟨?_, fun w hw => ?_, fun _ => ⟨l, by simp, hold⟩, by simp⟩, by simp⟩
    · rw [complete_set_value, Lit.assign, ← hold, update_eq_self]
    · exact update_of_ne (fun heq : w = l.var => hw (heq ▸ hcare.2)) _ _
  · have hstep : scan_literal v0 ⟨m, false, var_sign⟩ l = ⟨m, false, if some l.var = v0 then l.sign else var_sign⟩ := by
      simp only [scan_literal, Bool.false_eq_true, if_false, htrue, hcare]
    rw [hstep]
    refine ⟨rfl, ⟨rfl, fun _ _ => rfl, by simp, fun _ x hx hne hold => ?_⟩, fun _ => ⟨rfl, htrue⟩⟩
    obtain rfl := mem_singleton.mp hx
    exact htrue ((value_at_eq_true fun hu => hcare ⟨hne, hu⟩).mpr hold)

/-- The loop over a clause, with the sign under which the variable of the entry occurs in it, if all its occurrences
have the same. -/
theorem foldl_scan (v0 : Option bool_var) (var_sign : Bool) (h : Harmless v0 m c) :
    Scanned v0 m c (c.foldl (scan_literal v0) ⟨m, false, var_sign⟩) ∧
      ((c.foldl (scan_literal v0) ⟨m, false, var_sign⟩).is_sat = false →
        ∀ lit, (lit ∈ c ∨ var_sign = lit.sign) → some lit.var = v0 → (∀ l ∈ c, some l.var = v0 → l = lit) →
          (c.foldl (scan_literal v0) ⟨m, false, var_sign⟩).var_sign = lit.sign) := by
  induction c generalizing var_sign with
  | nil =>
    exact ⟨⟨rfl, fun _ _ => rfl, by simp, by simp⟩, fun _ lit hmem _ _ => hmem.resolve_left not_mem_nil⟩
  | cons l c ih =>
    obtain ⟨hsign, hone, hnext⟩ := scan_literal_spec v0 var_sign h.1
    rw [foldl_cons]
    generalize scan_literal v0 ⟨m, false, var_sign⟩ l = st at hsign hone hnext
    obtain ⟨m1, sat, sign⟩ := st
    cases sat with
    | true =>
      rw [foldl_scan_sat]
      obtain ⟨x, hx, hold⟩ := hone.satisfied rfl
      exact ⟨⟨hone.complete_eq, hone.keep, fun _ => ⟨x, by simp [mem_singleton.mp hx], hold⟩, by simp⟩, by simp⟩
    | false =>
      obtain ⟨rfl, hfalse⟩ := hnext rfl
      have hneeds := hone.needs rfl l (by simp)
      obtain ⟨hscan, hown⟩ := ih sign (h.2.resolve_left fun htrue => hfalse htrue.2)
      refine ⟨⟨hscan.complete_eq, hscan.keep, fun hs => ?_, fun hs => ?_⟩, fun hs lit hmem hvar huniq => ?_⟩
      · exact satisfies_cons.mpr (.inr (hscan.satisfied hs))
      · exact forall_mem_cons.mpr ⟨hneeds, hscan.needs hs⟩
      · refine hown hs lit ?_ hvar fun x hx => huniq x (mem_cons_of_mem l hx)
        obtain rfl : sign = _ := hsign
        split
        next hl => exact .inr (by rw [huniq l (by simp) hl])
        next hl =>
          refine hmem.imp_left fun hm => (mem_cons.mp hm).resolve_left fun heq => hl ?_
          rw [← heq, hvar]

/-- The literal of the variable in the clause. -/
def own_literal (v : bool_var) (c : List literal) : literal := (c.find? fun l => l.var == v).getD ⟨v, false⟩

/-- What `operator()` repairs for a clause: first its own literal, then the frames of the stack from the top. -/
def repairs (v0 : Option bool_var) (c : List literal × elim_stackv) : List (literal × List literal) :=
  (match v0 with
    | some v => [(own_literal v c.1, c.1)]
    | none => []) ++ (c.2.map fun frame => (frame.2, c.1.take frame.1)).reverse

/-- The variable occurs once in the clause. -/
def OccursOnce (v : bool_var) (c : List literal) : Prop := ∃ lit ∈ c, lit.var = v ∧ ∀ l ∈ c, l.var = v → l = lit

theorem OccursOnce.own_literal (h : OccursOnce v c) :
    own_literal v c ∈ c ∧ (own_literal v c).var = v ∧ ∀ l ∈ c, l.var = v → l = own_literal v c := by
  obtain ⟨lit, hlit, hvar, huniq⟩ := h
  have heq : model_converter.own_literal v c = lit := by
    unfold model_converter.own_literal
    cases hfind : c.find? fun l => l.var == v with
    | none => exact absurd (find?_eq_none.mp hfind lit hlit) (by simp [hvar])
    | some x => exact huniq x (mem_of_find?_eq_some hfind) (by simpa using find?_some hfind)
  rw [heq]
  exact ⟨hlit, hvar, huniq⟩

/-- The clause can be processed: where it has a stack, all variables have a value. -/
structure ClauseOk (v0 : Option bool_var) (m : model) (c : List literal × elim_stackv) : Prop where
  once : ∀ v, v0 = some v → OccursOnce v c.1
  harmless : Harmless v0 m c.1
  defined : c.2 ≠ [] → ∀ l ∈ c.1, m l.var ≠ .l_undef

theorem set_own_defined (hw : st.m w ≠ .l_undef) : set_own e st w ≠ .l_undef := by
  unfold set_own
  cases e.m_var with
  | none => exact hw
  | some v =>
    split
    · exact set_value_defined hw
    · exact hw

theorem set_own_of_ne (hw : some w ≠ e.m_var) : set_own e st w = st.m w := by
  unfold set_own
  cases hv : e.m_var with
  | none => rfl
  | some v =>
    split
    · exact update_of_ne (fun heq => hw (by rw [hv, heq])) _ _
    · rfl

/-- A clause without a stack changes no other variable that has a value. -/
theorem process_clause_keep {acc : model × Bool} {c : List literal × elim_stackv}
    (h : ClauseOk e.m_var acc.1 c) (hnil : c.2 = []) (w : bool_var) (hne : some w ≠ e.m_var) (hw : acc.1 w ≠ .l_undef) :
    (process_clause e acc c).1 w = acc.1 w := by
  unfold process_clause process_stack
  rw [hnil]
  exact (set_own_of_ne hne).trans ((foldl_scan e.m_var acc.2 h.harmless).1.keep w hw)

/-- If the loop does not satisfy the clause, the literals of the other variables are false and the variable of the entry
is needed. -/
theorem complete_set_own (hkind : e.m_kind = .ATE → e.m_var = none) {c : List literal}
    (honce : ∀ v, e.m_var = some v → OccursOnce v c) (hscan : Scanned e.m_var m c st)
    (hsign : st.is_sat = false → ∀ lit ∈ c, some lit.var = e.m_var → (∀ l ∈ c, some l.var = e.m_var → l = lit) →
      st.var_sign = lit.sign) :
    complete (set_own e st) =
      (match e.m_var with
        | some v => [(own_literal v c, c)]
        | none => []).foldl repair (complete m) := by
  unfold set_own
  cases hv : e.m_var with
  | none => exact hscan.complete_eq
  | some v =>
    have hne : e.m_kind ≠ .ATE := fun hk => by simp [hkind hk] at hv
    obtain ⟨hmem, hvar, huniq⟩ := (honce v hv).own_literal
    cases hsat : st.is_sat with
    | true =>
      rw [foldl_cons, foldl_nil, repair_of_satisfies (hscan.satisfied hsat)]
      simpa using hscan.complete_eq
    | false =>
      have hs : st.var_sign = (own_literal v c).sign := by
        refine hsign hsat _ hmem (by rw [hvar, hv]) fun l hl heq => huniq l hl ?_
        rw [hv] at heq
        exact Option.some.inj heq
      have hneeds : Needs (complete m) (own_literal v c).var c := by
        intro x hx hxv
        refine hscan.needs hsat x hx fun heq => hxv ?_
        rw [hv] at heq
        exact (Option.some.inj heq).trans hvar.symm
      have hrepair := repair_eq_assign hmem (fun x hx heq => huniq x hx (heq.trans hvar)) hneeds
      have hassign : complete (set_value st.m v st.var_sign) = (own_literal v c).assign (complete st.m) := by
        rw [← complete_set_value, hs, hvar]
      rw [foldl_cons, foldl_nil, hrepair, ← hscan.complete_eq, ← hassign]
      simp [hne]

/-- One clause of an entry repairs the completed model: first the variable of the entry, then the frames on the stack
of the clause, from the top. -/
theorem complete_process_clause (hkind : e.m_kind = .ATE → e.m_var = none) {acc : model × Bool}
    {c : List literal × elim_stackv} (h : ClauseOk e.m_var acc.1 c) :
    complete (process_clause e acc c).1 = (repairs e.m_var c).foldl repair (complete acc.1) := by
  obtain ⟨hscan, hsign⟩ := foldl_scan e.m_var acc.2 h.harmless
  have hown := complete_set_own hkind h.once hscan fun hfalse lit hlit => hsign hfalse lit (.inl hlit)
  unfold process_clause process_stack repairs
  rw [foldl_append, ← hown, ← map_reverse]
  cases hstack : c.2 with
  | nil => rfl
  | cons frame frames =>
    refine foldl_process_frame _ fun l hl => set_own_defined ?_
    have hdef := h.defined (by simp [hstack]) l hl
    rw [hscan.keep _ hdef]
    exact hdef

/-- The entry can be processed in the model `m`. Only an entry with one clause has a stack. For an entry with several
clauses the resolvents on its variable are satisfied, as they are in a model of the clauses that remain. -/
structure EntryOk (e : entry) (m : model) : Prop where
  kind : e.m_kind = .ATE → e.m_var = none
  clauses : ∀ c ∈ e.m_clauses, ClauseOk e.m_var m c
  stack : (∀ c ∈ e.m_clauses, c.2 = []) ∨ ∃ c, e.m_clauses = [c]
  resolvents : ∀ v, e.m_var = some v → ∀ c ∈ e.m_clauses, ∀ d ∈ e.m_clauses, ⟨v, false⟩ ∈ c.1 → ⟨v, true⟩ ∈ d.1 →
    (∃ l ∈ c.1, l.var ≠ v ∧ l.Holds (complete m)) ∨ ∃ l ∈ d.1, l.var ≠ v ∧ l.Holds (complete m)

/-- All clauses of an entry, of which none has a stack. -/
theorem complete_foldl_process_clause (hkind : e.m_kind = .ATE → e.m_var = none)
    (cs : List (List literal × elim_stackv)) (acc : model × Bool) (h : ∀ c ∈ cs, ClauseOk e.m_var acc.1 c)
    (hnil : ∀ c ∈ cs, c.2 = []) :
    complete (cs.foldl (process_clause e) acc).1 = (cs.flatMap (repairs e.m_var)).foldl repair (complete acc.1) := by
  induction cs generalizing acc with
  | nil => rfl
  | cons c cs ih =>
    obtain ⟨hc, hcs⟩ := forall_mem_cons.mp h
    obtain ⟨hcnil, hcsnil⟩ := forall_mem_cons.mp hnil
    rw [foldl_cons, flatMap_cons, foldl_append, ← complete_process_clause hkind hc]
    refine ih _ (fun d hd => ?_) hcsnil
    obtain ⟨honce, hharm, -⟩ := hcs d hd
    exact ⟨honce, hharm.mono (process_clause_keep hc hcnil), fun hne => (hne (hcsnil d hd)).elim⟩

theorem EntryOk.repairsOf (h : EntryOk e m) (hv : e.m_var = some v) :
    RepairsOf v (e.m_clauses.map fun c => (own_literal v c.1, c.1)) := by
  have hown : ∀ r ∈ e.m_clauses.map fun c => (own_literal v c.1, c.1),
      r.1.var = v ∧ r.1 ∈ r.2 ∧ ∀ x ∈ r.2, x.var = v → x = r.1 := by
    intro r hr
    obtain ⟨c, hc, rfl⟩ := mem_map.mp hr
    obtain ⟨hmem, hvar, huniq⟩ := ((h.clauses c hc).once v hv).own_literal
    exact ⟨hvar, hmem, huniq⟩
  exact ⟨fun r hr => (hown r hr).1, fun r hr => (hown r hr).2.1, fun r hr => (hown r hr).2.2⟩

/-- The clauses that need the variable agree on its value: a resolvent of two that do not would be false. -/
theorem EntryOk.agree (h : EntryOk e m) (hv : e.m_var = some v) :
    ∀ r ∈ e.m_clauses.map (fun c => (own_literal v c.1, c.1)),
      ∀ t ∈ e.m_clauses.map (fun c => (own_literal v c.1, c.1)),
      Needs (complete m) v r.2 → Needs (complete m) v t.2 → r.1 = t.1 := by
  have hclash : ∀ c ∈ e.m_clauses, ∀ d ∈ e.m_clauses, ⟨v, false⟩ ∈ c.1 → ⟨v, true⟩ ∈ d.1 →
      Needs (complete m) v c.1 → Needs (complete m) v d.1 → False := by
    intro c hc d hd hcm hdm hnc hnd
    rcases h.resolvents v hv c hc d hd hcm hdm with ⟨l, hl, hne, hold⟩ | ⟨l, hl, hne, hold⟩
    · exact hnc l hl hne hold
    · exact hnd l hl hne hold
  intro r hr t ht hnr hnt
  obtain ⟨c, hc, rfl⟩ := mem_map.mp hr
  obtain ⟨d, hd, rfl⟩ := mem_map.mp ht
  obtain ⟨hmem, hvar, -⟩ := ((h.clauses c hc).once v hv).own_literal
  obtain ⟨hmem', hvar', -⟩ := ((h.clauses d hd).once v hv).own_literal
  generalize own_literal v c.1 = x at *
  generalize own_literal v d.1 = y at *
  obtain ⟨w, b⟩ := x
  obtain ⟨w', b'⟩ := y
  obtain rfl : w = v := hvar
  obtain rfl : w' = w := hvar'
  cases b <;> cases b'
  · rfl
  · exact (hclash c hc d hd hmem hmem' hnr hnt).elim
  · exact (hclash d hd c hc hmem' hmem hnt hnr).elim
  · rfl

/-- The clauses of an entry may as well be repaired from the last to the first. -/
theorem EntryOk.complete_process_entry (h : EntryOk e m) :
    complete (process_entry m e) = (e.m_clauses.reverse.flatMap (repairs e.m_var)).foldl repair (complete m) := by
  unfold process_entry
  rcases h.stack with hnil | ⟨c, hc⟩
  · rw [complete_foldl_process_clause h.kind _ _ h.clauses hnil]
    cases hv : e.m_var with
    | none =>
      have hempty : ∀ cs : List (List literal × elim_stackv), (∀ c ∈ cs, c.2 = []) → cs.flatMap (repairs none) = [] :=
        fun cs hcs => flatMap_eq_nil_iff.mpr fun c hc => by simp [repairs, hcs c hc]
      rw [hempty _ hnil, hempty _ (by simpa using hnil)]
    | some v =>
      have hmap : ∀ cs : List (List literal × elim_stackv), (∀ c ∈ cs, c.2 = []) →
          cs.flatMap (repairs (some v)) = cs.map fun c => (own_literal v c.1, c.1) := by
        intro cs hcs
        rw [map_eq_flatMap]
        exact flatMap_congr fun c hc => by simp [repairs, hcs c hc]
      rw [hmap _ hnil, hmap _ (by simpa using hnil), map_reverse]
      exact (foldl_repair_reverse (h.repairsOf hv) (h.agree hv)).symm
  · have hok : ClauseOk e.m_var (m, false).1 c := h.clauses c (by simp [hc])
    simpa [hc] using complete_process_clause h.kind hok

/-- Every entry can be processed when its turn comes, the last one first. -/
def Ready : List entry → model → Prop
  | [], _ => True
  | e :: es, m => EntryOk e m ∧ Ready es (process_entry m e)

theorem Ready.complete_foldl {es : List entry} {m : model} (h : Ready es m) :
    complete (es.foldl process_entry m) =
      (es.flatMap fun e => e.m_clauses.reverse.flatMap (repairs e.m_var)).foldl repair (complete m) := by
  induction es generalizing m with
  | nil => rfl
  | cons e es ih =>
    rw [foldl_cons, flatMap_cons, foldl_append, ← h.1.complete_process_entry]
    exact ih h.2

end Apply

/-! ### `expand` -/

section Expand

variable {v : bool_var} {c clause : List literal}

/-- The update stack of the clauses `cs`. -/
def flatten (cs : List (List literal)) : List (Option literal) := cs.flatMap fun c => c.map some ++ [none]

theorem flatten_append (cs ds : List (List literal)) : flatten (cs ++ ds) = flatten cs ++ flatten ds := by
  simp [flatten]

/-- The clause of the update stack repairs like `r`. -/
def Updates (u : List literal) (r : literal × List literal) : Prop := u.head? = some r.1 ∧ u.Perm r.2

/-- A clause and its stack: no literal is repeated, the sizes of the frames do not decrease, and the literal of each
frame is the only one of its variable among the first literals of the clause. -/
structure StackOk (c : List literal × elim_stackv) : Prop where
  nodup : c.1.Nodup
  sizes : c.2.Pairwise fun f g => f.1 ≤ g.1
  frames : ∀ f ∈ c.2, f.2 ∈ c.1.take f.1 ∧ ∀ l ∈ c.1.take f.1, l.var = f.2.var → l = f.2

theorem swap_perm (v : bool_var) (sz : Nat) (clause : List literal) : (swap v sz clause).Perm clause := by
  unfold swap
  split
  · exact swapAt_perm _ _ _
  · exact .refl _

/-- The swap moves a literal of the variable to the front, and does not change which literals come first. -/
theorem swap_spec (v : bool_var) (sz : Nat) (clause : List literal) (h : ∃ l ∈ clause.take sz, l.var = v) :
    (∃ l ∈ clause.take sz, l.var = v ∧ (swap v sz clause).head? = some l) ∧
      ∀ k, sz ≤ k → ((swap v sz clause).take k).Perm (clause.take k) := by
  obtain ⟨j, hj⟩ : ∃ j, (clause.take sz).findIdx? (fun l => l.var == v) = some j := by
    rw [← Option.isSome_iff_exists, findIdx?_isSome, any_eq_true]
    obtain ⟨l, hl, hvar⟩ := h
    exact ⟨l, hl, by simp [hvar]⟩
  obtain ⟨hlt, hvar, -⟩ := findIdx?_eq_some_iff_getElem.mp hj
  have hjsz : j < sz := lt_of_lt_of_le hlt (length_take_le _ _)
  have hjlen : j < clause.length := lt_of_lt_of_le hlt (length_take_le' _ _)
  have hswap : swap v sz clause = swapAt clause 0 j := by rw [swap, hj]
  rw [hswap]
  refine ⟨⟨(clause.take sz)[j], getElem_mem hlt, by simpa using hvar, ?_⟩, fun k hk => ?_⟩
  · obtain ⟨x, xs, rfl⟩ := exists_cons_of_ne_nil (ne_nil_of_length_pos (Nat.zero_lt_of_lt hjlen))
    rw [getElem_take]
    cases j with
    | zero => simp [swapAt]
    | succ j =>
      have hj' : j < xs.length := by simpa using hjlen
      have hget : xs[j]? = some xs[j] := getElem?_eq_getElem hj'
      simp [swapAt, hget]
  · rw [take_swapAt clause (Nat.zero_lt_of_lt (lt_of_lt_of_le hjsz hk)) (lt_of_lt_of_le hjsz hk)]
    exact swapAt_perm _ _ _

/-- The frames of a stack in the order of `expand`: earlier swaps stay within the first literals. -/
theorem foldl_expand_frame (clause : List literal) (frames : elim_stackv) (us : List (Option literal)) (lo : Nat)
    (hlo : ∀ f ∈ frames, lo ≤ f.1)
    (hsizes : frames.Pairwise fun f g => f.1 ≤ g.1)
    (hframes : ∀ f ∈ frames, f.2 ∈ c.take f.1 ∧ ∀ l ∈ c.take f.1, l.var = f.2.var → l = f.2)
    (hperm : ∀ k, lo ≤ k → (clause.take k).Perm (c.take k)) :
    ∃ clause' cs, frames.foldl expand_frame (clause, us) = (clause', us ++ flatten cs) ∧ clause'.Perm c ∧
      List.Forall₂ Updates cs (frames.map fun f => (f.2, c.take f.1)) := by
  induction frames generalizing clause us lo with
  | nil =>
    refine ⟨clause, [], by simp [flatten], ?_, .nil⟩
    have hall := hperm (max lo (max clause.length c.length)) (le_max_left _ _)
    rwa [take_of_length_le ((le_max_left _ _).trans (le_max_right _ _)),
      take_of_length_le ((le_max_right _ _).trans (le_max_right _ _))] at hall
  | cons f frames ih =>
    obtain ⟨hfirst, hrest⟩ := pairwise_cons.mp hsizes
    obtain ⟨hmem, huniq⟩ := hframes f (by simp)
    have hf := hperm f.1 (hlo f (by simp))
    obtain ⟨⟨l, hl, hvar, hhead⟩, hswap⟩ := swap_spec f.2.var f.1 clause ⟨f.2, hf.mem_iff.mpr hmem, rfl⟩
    obtain rfl : l = f.2 := huniq l (hf.mem_iff.mp hl) hvar
    have hperm' : ∀ k, f.1 ≤ k → ((swap f.2.var f.1 clause).take k).Perm (c.take k) := fun k hk =>
      (hswap k hk).trans (hperm k ((hlo f (by simp)).trans hk))
    obtain ⟨clause', cs, hfold, hfinal, hupd⟩ := ih _ (us ++ (((swap f.2.var f.1 clause).take f.1).map some ++ [none]))
      f.1 hfirst hrest (fun g hg => hframes g (mem_cons_of_mem f hg)) hperm'
    refine ⟨clause', (swap f.2.var f.1 clause).take f.1 :: cs, ?_, hfinal, .cons ⟨?_, hperm' f.1 le_rfl⟩ hupd⟩
    · rw [foldl_cons, expand_frame]
      rw [append_assoc, hfold]
      simp [flatten]
    · have hpos : f.1 ≠ 0 := fun h0 => by simp [h0] at hmem
      rw [head?_take, if_neg hpos, hhead]

/-- `expand` lists the repairs of a clause in the reverse order of `operator()`. -/
theorem expand_clause_eq {v0 : Option bool_var} {c : List literal × elim_stackv} (hstack : StackOk c)
    (honce : ∀ v, v0 = some v → OccursOnce v c.1) :
    ∃ cs, expand_clause v0 c = flatten cs ∧ List.Forall₂ Updates cs (repairs v0 c).reverse := by
  obtain ⟨clause', cs, hfold, hperm, hupd⟩ := foldl_expand_frame c.1 c.2 [] 0 (fun _ _ => Nat.zero_le _)
    hstack.sizes hstack.frames fun _ _ => .refl _
  have hrev : (repairs v0 c).reverse = (c.2.map fun f => (f.2, c.1.take f.1)) ++
      (match v0 with
        | some v => [(own_literal v c.1, c.1)]
        | none => []) := by
    cases v0 <;> simp [repairs]
  unfold expand_clause
  rw [hfold, hrev]
  cases v0 with
  | none => exact ⟨cs, by simp, by simpa using hupd⟩
  | some v =>
    obtain ⟨hmem, hvar, huniq⟩ := (honce v rfl).own_literal
    have htake : clause'.take clause'.length = clause' := take_length
    obtain ⟨⟨l, hl, hlvar, hhead⟩, -⟩ := swap_spec v clause'.length clause'
      ⟨own_literal v c.1, by rw [htake]; exact hperm.mem_iff.mpr hmem, hvar⟩
    rw [htake] at hl
    obtain rfl : l = own_literal v c.1 := huniq l (hperm.mem_iff.mp hl) hlvar
    have hperm' : (swap v clause'.length clause').Perm c.1 := (swap_perm v _ clause').trans hperm
    refine ⟨cs ++ [swap v clause'.length clause'], ?_, ?_⟩
    · simp [flatten]
    · exact rel_append hupd (.cons ⟨hhead, hperm'⟩ .nil)

/-- Where only an entry with one clause has a stack, it does not matter that the others are not looked at. -/
theorem expand_entry_eq {e : entry} (h : (∀ c ∈ e.m_clauses, c.2 = []) ∨ ∃ c, e.m_clauses = [c]) :
    expand_entry e = e.m_clauses.flatMap (expand_clause e.m_var) := by
  unfold expand_entry
  rcases h with hnil | ⟨c, hc⟩
  · refine flatMap_congr fun c hc => ?_
    have hstack : (e.m_clauses.head?.map (·.2)).getD [] = [] := by
      cases hcs : e.m_clauses with
      | nil => rfl
      | cons d ds => simp [hnil d (by simp [hcs])]
    rw [hstack, ← hnil c hc]
  · simp [hc]

theorem Ready.entry {es : List entry} {m : model} (h : Ready es m) : ∀ e ∈ es, ∃ m', EntryOk e m' := by
  induction es generalizing m with
  | nil => simp
  | cons e es ih => exact forall_mem_cons.mpr ⟨⟨m, h.1⟩, ih h.2⟩

/-- What is repaired is well formed: the literal is in the clause, whose literals are all different, and no other one
has its variable. -/
structure RepairOk (r : literal × List literal) : Prop where
  mem : r.1 ∈ r.2
  nodup : r.2.Nodup
  uniq : ∀ l ∈ r.2, l.var = r.1.var → l = r.1

theorem repairs_ok {v0 : Option bool_var} {c : List literal × elim_stackv} (hstack : StackOk c)
    (honce : ∀ v, v0 = some v → OccursOnce v c.1) : ∀ r ∈ repairs v0 c, RepairOk r := by
  intro r hr
  rcases mem_append.mp hr with hr | hr
  · cases v0 with
    | none => simp at hr
    | some v =>
      obtain rfl := mem_singleton.mp hr
      obtain ⟨hmem, hvar, huniq⟩ := (honce v rfl).own_literal
      exact ⟨hmem, hstack.nodup, fun l hl heq => huniq l hl (heq.trans hvar)⟩
  · obtain ⟨f, hf, rfl⟩ := mem_map.mp (mem_reverse.mp hr)
    obtain ⟨hmem, huniq⟩ := hstack.frames f hf
    exact ⟨hmem, hstack.nodup.sublist (take_sublist _ _), huniq⟩

/-- A clause of the update stack starts with the literal that it updates, and has no other one of its variable. -/
theorem Updates.eq_cons {u : List literal} {r : literal × List literal} (h : Updates u r) (hr : RepairOk r) :
    ∃ l rest, u = l :: rest ∧ ∀ x ∈ rest, x.var ≠ l.var := by
  obtain ⟨hhead, hperm⟩ := h
  obtain ⟨rest, rfl⟩ := head?_eq_some_iff.mp hhead
  have hnodup := nodup_cons.mp (hperm.nodup_iff.mpr hr.nodup)
  refine ⟨r.1, rest, rfl, fun x hx heq => hnodup.1 ?_⟩
  rwa [← hr.uniq x (hperm.mem_iff.mp (.tail _ hx)) heq]

theorem Updates.repair_eq {u : List literal} {r : literal × List literal} (h : Updates u r) (a : bool_var → Bool) :
    repair a (u.headD ⟨0, false⟩, u) = repair a r := by
  obtain ⟨hhead, hperm⟩ := h
  obtain ⟨rest, rfl⟩ := head?_eq_some_iff.mp hhead
  exact repair_congr fun x => hperm.mem_iff

theorem exists_flatten_flatMap {α : Type} {f : α → List (Option literal)} {g : α → List (literal × List literal)}
    {xs : List α} (h : ∀ x ∈ xs, ∃ cs, f x = flatten cs ∧ List.Forall₂ Updates cs (g x)) :
    ∃ cs, xs.flatMap f = flatten cs ∧ List.Forall₂ Updates cs (xs.flatMap g) := by
  induction xs with
  | nil => exact ⟨[], rfl, .nil⟩
  | cons x xs ih =>
    obtain ⟨cs, hf, hg⟩ := h x (by simp)
    obtain ⟨ds, hf', hg'⟩ := ih fun y hy => h y (mem_cons_of_mem x hy)
    exact ⟨cs ++ ds, by rw [flatMap_cons, hf, hf', flatten_append], rel_append hg hg'⟩

/-- The update stack, read from its end, lists the repairs of `operator()` with the clauses of each entry reversed. -/
theorem expand_eq {entries : List entry} (hentry : ∀ e ∈ entries, ∃ m, EntryOk e m)
    (hstack : ∀ e ∈ entries, ∀ c ∈ e.m_clauses, StackOk c) :
    ∃ cs, expand entries = flatten cs ∧
      List.Forall₂ Updates cs
        (entries.reverse.flatMap fun e => e.m_clauses.reverse.flatMap (repairs e.m_var)).reverse := by
  have hrev : (entries.reverse.flatMap fun e => e.m_clauses.reverse.flatMap (repairs e.m_var)).reverse =
      entries.flatMap fun e => e.m_clauses.flatMap fun c => (repairs e.m_var c).reverse := by
    simp [reverse_flatMap, comp_def]
  rw [hrev]
  refine exists_flatten_flatMap fun e he => ?_
  obtain ⟨m, hok⟩ := hentry e he
  rw [expand_entry_eq hok.stack]
  exact exists_flatten_flatMap fun c hc => expand_clause_eq (hstack e he c hc) (hok.clauses c hc).once

end Expand

end sat.model_converter
