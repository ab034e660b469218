import Mathlib.Algebra.GroupWithZero.Nat
import Mathlib.Data.List.Nodup
import Mathlib.Logic.Relation

open List Function

namespace Dfs

variable {V : Type} [DecidableEq V]

/-- A depth-first search that numbers each vertex when it is opened and when it is closed; 0 stands for a number that
is not given yet. An entry of the stack is a vertex with the one that has pushed it. -/
structure State (V : Type) where
  left : V → Nat
  right : V → Nat
  parent : V → V
  todo : List (Option V × V)
  num : Nat

/-- The vertex is closed, and taken from the stack. -/
def State.close (s : State V) (u : V) (todo : List (Option V × V)) : State V :=
  { s with right := update s.right u (s.num + 1), todo, num := s.num + 1 }

/-- The vertex is opened for the one that has pushed it, and pushes its successors. -/
def State.enter (dag : V → List V) (s : State V) (p : Option V) (u : V) : State V :=
  let left := update s.left u (s.num + 1)
  { s with
    left
    parent := p.elim s.parent (update s.parent u)
    todo := (((dag u).filter fun v => left v = 0).map fun v => (some u, v)).reverse ++ s.todo
    num := s.num + 1 }

def step (dag : V → List V) (s : State V) : State V :=
  match s.todo with
  | [] => s
  | (p, u) :: todo =>
    if 0 < s.left u then if s.right u = 0 then s.close u todo else { s with todo }
    else s.enter dag p u

def run (dag : V → List V) : Nat → State V → State V
  | 0, s => s
  | fuel + 1, s => run dag fuel (step dag s)

/-- The vertices that were not reached get numbers of their own. -/
def finish : State V → List V → State V
  | s, [] => s
  | s, v :: vs =>
    if s.right v = 0 then
      finish { s with
        left := update s.left v (s.num + 1)
        right := update s.right v (s.num + 2)
        num := s.num + 2 } vs
    else finish s vs

/-- The vertices that were pushed and not opened before, and those that are open: the entries above an open vertex
were pushed by it. -/
inductive Stack : List (Option V × V) → List V → Prop
  | nil : Stack [] []
  | pending {p : Option V} {v : V} {todo : List (Option V × V)} {opens : List V} :
      p = opens.head? → v ∉ opens → Stack todo opens → Stack ((p, v) :: todo) opens
  | opened {p : Option V} {v : V} {todo : List (Option V × V)} {opens : List V} :
      Stack todo opens → Stack ((p, v) :: todo) (v :: opens)

def State.Child (s : State V) (p v : V) : Prop := 0 < s.left v ∧ s.parent v = p ∧ p ≠ v
def State.Reaches (s : State V) (u v : V) : Prop := s.left u < s.left v ∧ s.right v < s.right u

structure Inv (dag : V → List V) (s : State V) (opens : List V) : Prop where
  stack : Stack s.todo opens
  opens_iff : ∀ v, v ∈ opens ↔ 0 < s.left v ∧ s.right v = 0
  sorted : opens.Pairwise fun u v => s.left v < s.left u
  left_le : ∀ v, s.left v ≤ s.num
  right_le : ∀ v, s.right v ≤ s.num
  left_lt_right : ∀ v, s.right v ≠ 0 → 0 < s.left v ∧ s.left v < s.right v
  parent_self : ∀ v, s.left v = 0 → s.parent v = v
  edges : ∀ p v, (some p, v) ∈ s.todo → v ∈ dag p
  child : ∀ p v, s.Child p v → v ∈ dag p ∧ 0 < s.left p ∧ s.left p < s.left v ∧
    (s.right p ≠ 0 → s.right v ≠ 0 ∧ s.right v < s.right p)
  enclosed : ∀ u v, 0 < s.left u → s.left u < s.left v →
    s.right u = 0 ∨ (s.right v ≠ 0 ∧ s.right v < s.right u) → Relation.TransGen s.Child u v

variable {dag : V → List V} {s : State V} {opens : List V}

omit [DecidableEq V] in
theorem Stack.push {todo : List (Option V × V)} {u : V} (h : Stack todo (u :: opens)) {vs : List V}
    (hvs : ∀ v ∈ vs, v ∉ u :: opens) : Stack ((vs.map fun v => (some u, v)).reverse ++ todo) (u :: opens) := by
  induction vs generalizing todo with
  | nil => simpa using h
  | cons v vs ih =>
    have hnext := ih (pending rfl (hvs v (by simp)) h) fun w hw => hvs w (mem_cons_of_mem v hw)
    simpa using hnext

omit [DecidableEq V] in
theorem Inv.start {todo : List V} : Inv dag ⟨fun _ => 0, fun _ => 0, id, todo.map fun v => (none, v), 0⟩ [] where
  stack := by
    induction todo with
    | nil => exact .nil
    | cons v todo ih => exact .pending rfl not_mem_nil ih
  opens_iff := by simp
  sorted := .nil
  left_le := by simp
  right_le := by simp
  left_lt_right := by simp
  parent_self := by simp
  edges := by simp
  child := by simp [State.Child]
  enclosed := by simp

section Step

variable {p : Option V} {u : V} {todo : List (Option V × V)}

omit [DecidableEq V] in
/-- Entries are taken from the stack. -/
theorem Inv.pop (h : Inv dag s opens) (hstack : Stack todo opens) (hsub : todo ⊆ s.todo) :
    Inv dag { s with todo } opens :=
  { h with stack := hstack, edges := fun q v hv => h.edges q v (hsub hv) }

/-- The vertex that was opened last is closed. -/
theorem Inv.close (h : Inv dag s (u :: opens)) (hstack : Stack todo opens) (hsub : todo ⊆ s.todo) :
    Inv dag (s.close u todo) opens := by
  obtain ⟨hleft, hright⟩ := (h.opens_iff u).mp (by simp)
  obtain ⟨hlast, hsorted⟩ := pairwise_cons.mp h.sorted
  -- a vertex other than `u` keeps its number
  have hother {v : V} hv : (s.close u todo).right v = s.right v := update_of_ne hv _ _
  have hself : (s.close u todo).right u = s.num + 1 := update_self _ _ _
  have hlt v : s.right v < s.num + 1 := Nat.lt_succ_of_le (h.right_le v)
  refine ⟨hstack, fun v => ?_, hsorted, fun v => Nat.le_succ_of_le (h.left_le v), fun v => ?_, fun v hv => ?_,
    h.parent_self, fun q v hv => h.edges q v (hsub hv), fun q v hchild => ?_, fun x y hx hxy hcond => ?_⟩
  · by_cases hv : v = u
    · subst hv
      have hnot : v ∉ opens := fun hin => Nat.lt_irrefl _ (hlast v hin)
      simp [hself, hnot]
    · simpa [hv, State.close] using h.opens_iff v
  · by_cases hv : v = u
    · rw [hv, hself]
      exact Nat.le_refl _
    · rw [hother hv]
      exact Nat.le_of_lt (hlt v)
  · by_cases hvu : v = u
    · subst hvu
      rw [hself]
      exact ⟨hleft, Nat.lt_succ_of_le (h.left_le v)⟩
    · rw [hother hvu] at hv ⊢
      exact h.left_lt_right v hv
  · obtain ⟨hdag, hpos, hpv, hclosed⟩ := h.child q v hchild
    refine ⟨hdag, hpos, hpv, fun hq => ?_⟩
    have hvclosed : s.right v ≠ 0 := by
      intro hv0
      by_cases hqu : q = u
      · -- there is no open vertex after the last one
        subst hqu
        rcases mem_cons.mp ((h.opens_iff v).mpr ⟨hchild.1, hv0⟩) with rfl | hin
        · exact Nat.lt_irrefl _ hpv
        · exact Nat.lt_asymm hpv (hlast v hin)
      · rw [hother hqu] at hq
        exact (hclosed hq).1 hv0
    have hvu : v ≠ u := fun heq => hvclosed (heq ▸ hright)
    rw [hother hvu]
    refine ⟨hvclosed, ?_⟩
    by_cases hqu : q = u
    · rw [hqu, hself]
      exact hlt v
    · rw [hother hqu] at hq ⊢
      exact (hclosed hq).2
  · refine h.enclosed x y hx hxy ?_
    by_cases hxu : x = u
    · exact .inl (hxu ▸ hright)
    · rw [hother hxu] at hcond
      refine hcond.imp_right fun hy => ?_
      have hyu : y ≠ u := by
        rintro rfl
        rw [hself] at hy
        exact Nat.lt_asymm hy.2 (hlt x)
      rwa [hother hyu] at hy

/-- A vertex is opened. -/
theorem Inv.enter (h : Inv dag s opens) (htodo : s.todo = (p, u) :: todo) (hleft : s.left u = 0) :
    Inv dag (s.enter dag p u) (u :: opens) := by
  have hnot : u ∉ opens := fun hmem => Nat.ne_of_gt ((h.opens_iff u).mp hmem).1 hleft
  have hstack := h.stack
  rw [htodo] at hstack
  obtain ⟨hp, htail⟩ : p = opens.head? ∧ Stack todo opens := by
    cases hstack with
    | opened _ => exact absurd (mem_cons_self ..) hnot
    | pending hp _ htail => exact ⟨hp, htail⟩
  have hother {v : V} hv : (s.enter dag p u).left v = s.left v := update_of_ne hv _ _
  have hself : (s.enter dag p u).left u = s.num + 1 := update_self _ _ _
  have hright : s.right u = 0 := by
    by_contra hne
    exact Nat.ne_of_gt (h.left_lt_right u hne).1 hleft
  have hparent {v : V} (hv : v ≠ u) : (s.enter dag p u).parent v = s.parent v := by
    cases p with
    | none => rfl
    | some q => exact update_of_ne hv _ _
  have hopen {v : V} hv : v ≠ u ∧ 0 < s.left v ∧ s.right v = 0 := ⟨fun heq => hnot (heq ▸ hv), (h.opens_iff v).mp hv⟩
  have hchild {q v : V} (hc : s.Child q v) : (s.enter dag p u).Child q v := by
    have hv : v ≠ u := fun heq => Nat.ne_of_gt hc.1 (heq.symm ▸ hleft)
    refine ⟨?_, (hparent hv).trans hc.2.1, hc.2.2⟩
    rw [hother hv]
    exact hc.1
  refine ⟨?_, fun v => ?_, ?_, fun v => ?_, fun v => Nat.le_succ_of_le (h.right_le v), fun v hv => ?_, fun v hv => ?_,
    fun q v hv => ?_, fun q v hc => ?_, fun x y hx hxy hcond => ?_⟩
  · have hopened : Stack s.todo (u :: opens) := by
      rw [htodo]
      exact .opened htail
    refine hopened.push fun v hv hin => ?_
    have hv0 : (s.enter dag p u).left v = 0 := of_decide_eq_true (mem_filter.mp hv).2
    rcases mem_cons.mp hin with rfl | hin
    · rw [hself] at hv0
      cases hv0
    · rw [hother (hopen hin).1] at hv0
      exact Nat.ne_of_gt (hopen hin).2.1 hv0
  · by_cases hv : v = u
    · subst hv
      simp [hright, State.enter]
    · simpa [hv, State.enter] using h.opens_iff v
  · refine pairwise_cons.mpr ⟨fun v hv => ?_, h.sorted.imp_of_mem fun {x y} hx hy hxy => ?_⟩
    · rw [hself, hother (hopen hv).1]
      exact Nat.lt_succ_of_le (h.left_le v)
    · rw [hother (hopen hx).1, hother (hopen hy).1]
      exact hxy
  · by_cases hv : v = u
    · rw [hv, hself]
      exact Nat.le_refl _
    · rw [hother hv]
      exact Nat.le_succ_of_le (h.left_le v)
  · have hvu : v ≠ u := fun heq => hv (heq ▸ hright)
    rw [hother hvu]
    exact h.left_lt_right v hv
  · have hvu : v ≠ u := by
      rintro rfl
      rw [hself] at hv
      cases hv
    rw [hother hvu] at hv
    rw [hparent hvu]
    exact h.parent_self v hv
  · rcases mem_append.mp hv with hv | hv
    · obtain ⟨w, hw, heq⟩ := mem_map.mp (mem_reverse.mp hv)
      obtain ⟨rfl, rfl⟩ : u = q ∧ w = v := by simpa using heq
      exact (mem_filter.mp hw).1
    · exact h.edges q v hv
  · by_cases hv : v = u
    · subst hv
      -- the vertex that has pushed it is the one that was opened last
      obtain ⟨-, hq, hne⟩ := hc
      rcases Option.eq_none_or_eq_some p with hpq | ⟨q', hpq⟩
      · rw [hpq] at hq
        exact absurd ((h.parent_self v hleft).symm.trans hq).symm hne
      · obtain rfl : q' = q := by simpa [State.enter, hpq] using hq
        have hmem : q' ∈ opens := mem_of_head? (hp ▸ hpq)
        refine ⟨h.edges q' v (by rw [htodo, hpq]; simp), ?_, ?_, fun hclosed => absurd (hopen hmem).2.2 hclosed⟩
        · rw [hother hne]
          exact (hopen hmem).2.1
        · rw [hother hne, hself]
          exact Nat.lt_succ_of_le (h.left_le q')
    · have hc' : s.Child q v := ⟨hother hv ▸ hc.1, (hparent hv).symm.trans hc.2.1, hc.2.2⟩
      obtain ⟨hdag, hpos, hlt, hclosed⟩ := h.child q v hc'
      have hqu : q ≠ u := fun heq => Nat.ne_of_gt hpos (heq.symm ▸ hleft)
      rw [hother hqu, hother hv]
      exact ⟨hdag, hpos, hlt, hclosed⟩
  · by_cases hxu : x = u
    · subst hxu
      rw [hself] at hxy
      by_cases hyx : y = x
      · exact absurd (hyx ▸ hself) (Nat.ne_of_gt hxy)
      · rw [hother hyx] at hxy
        exact absurd (h.left_le y) (Nat.not_le.mpr (Nat.lt_of_succ_lt hxy))
    · rw [hother hxu] at hx hxy
      by_cases hyu : y = u
      · subst hyu
        -- `x` is open, and so is the parent of `y`, which was opened last
        have hxopen : x ∈ opens := by
          refine (h.opens_iff x).mpr ⟨hx, ?_⟩
          exact hcond.resolve_right fun hy => hy.1 hright
        cases hopens : opens with
        | nil =>
          rw [hopens] at hxopen
          cases hxopen
        | cons q rest =>
          have hpq : p = some q := by rw [hp, hopens]; rfl
          have hq : q ∈ opens := by simp [hopens]
          have hqy : (s.enter dag p y).Child q y := by
            refine ⟨hself ▸ Nat.succ_pos _, ?_, (hopen hq).1⟩
            simp [State.enter, hpq]
          rw [hopens] at hxopen
          rcases mem_cons.mp hxopen with rfl | hxrest
          · exact .single hqy
          · have hlt : s.left x < s.left q := by
              have hsorted := h.sorted
              rw [hopens] at hsorted
              exact (pairwise_cons.mp hsorted).1 x hxrest
            have hxq := h.enclosed x q hx hlt (.inl (hopen (hopens ▸ hxopen)).2.2)
            exact .tail (Relation.TransGen.mono (fun _ _ => hchild) _ _ hxq) hqy
      · rw [hother hyu] at hxy
        exact Relation.TransGen.mono (fun _ _ => hchild) _ _ (h.enclosed x y hx hxy hcond)

end Step

/-- One iteration of the search opens a vertex, closes one or drops an entry of the stack, and the invariant holds
with the vertices that are open then. -/
theorem Inv.step (h : Inv dag s opens) : ∃ opens', Inv dag (step dag s) opens' := by
  have hstack := h.stack
  fun_cases Dfs.step dag s with
  | case1 => exact ⟨opens, h⟩
  | case2 p u todo htodo hleft hright =>
    rw [htodo] at hstack
    cases hstack with
    | pending _ hnot _ => exact absurd ((h.opens_iff u).mpr ⟨hleft, hright⟩) hnot
    | opened hstack => exact ⟨_, h.close hstack (by simp [htodo])⟩
  | case3 p u todo htodo hleft hright =>
    rw [htodo] at hstack
    cases hstack with
    | pending _ _ hstack => exact ⟨_, h.pop hstack (by simp [htodo])⟩
    | opened _ => exact absurd ((h.opens_iff u).mp (by simp)).2 hright
  | case4 p u todo htodo hleft => exact ⟨_, h.enter htodo (Nat.eq_zero_of_not_pos hleft)⟩

theorem Inv.run (h : Inv dag s opens) (fuel : Nat) : ∃ opens', Inv dag (run dag fuel s) opens' := by
  induction fuel generalizing s opens with
  | zero => exact ⟨opens, h⟩
  | succ fuel ih =>
    obtain ⟨opens', h'⟩ := h.step
    exact ih h'

/-- When the stack is empty no vertex is open, and there is none when the rest gets its numbers. -/
theorem Inv.finish (h : Inv dag s []) (htodo : s.todo = []) (vs : List V) : Inv dag (finish s vs) [] := by
  induction vs generalizing s with
  | nil => exact h
  | cons v vs ih =>
    rw [Dfs.finish]
    split
    next hright =>
      have hleft : s.left v = 0 := by
        by_contra hne
        exact absurd ((h.opens_iff v).mpr ⟨Nat.pos_of_ne_zero hne, hright⟩) not_mem_nil
      -- it is opened and closed at once
      have hpush : Inv dag { s with todo := [(none, v)] } [] :=
        { h with stack := .pending rfl not_mem_nil .nil, edges := by simp }
      have hopen := (hpush.enter rfl hleft).pop (.opened (p := none) .nil) (subset_append_right _ _)
      exact ih (hopen.close h.stack (by simp [htodo])) htodo
    next => exact ih h htodo

/-! ### Intervals -/

omit [DecidableEq V] in
/-- An interval inside another one is that of a descendant. -/
theorem Inv.transGen_of_reaches (h : Inv dag s []) {u v : V} (huv : s.Reaches u v) : Relation.TransGen s.Child u v := by
  have hu : s.right u ≠ 0 := Nat.ne_of_gt (Nat.lt_of_le_of_lt (Nat.zero_le _) huv.2)
  have hv : s.right v ≠ 0 := fun h0 =>
    absurd ((h.opens_iff v).mpr ⟨Nat.lt_of_le_of_lt (Nat.zero_le _) huv.1, h0⟩) not_mem_nil
  exact h.enclosed u v (h.left_lt_right u hu).1 huv.1 (.inr ⟨hv, huv.2⟩)

omit [DecidableEq V] in
theorem Inv.reaches_of_child (h : Inv dag s []) {p v : V} (hc : s.Child p v) : v ∈ dag p ∧ s.Reaches p v := by
  obtain ⟨hdag, hpos, hlt, hclosed⟩ := h.child p v hc
  have hp : s.right p ≠ 0 := fun h0 => absurd ((h.opens_iff p).mpr ⟨hpos, h0⟩) not_mem_nil
  exact ⟨hdag, hlt, (hclosed hp).2⟩

omit [DecidableEq V] in
theorem State.Reaches.trans {u v w : V} (huv : s.Reaches u v) (hvw : s.Reaches v w) : s.Reaches u w :=
  ⟨Nat.lt_trans huv.1 hvw.1, Nat.lt_trans hvw.2 huv.2⟩

omit [DecidableEq V] in
theorem Inv.reaches_of_transGen (h : Inv dag s []) {u v : V} (huv : Relation.TransGen s.Child u v) : s.Reaches u v := by
  induction huv with
  | single hc => exact (h.reaches_of_child hc).2
  | tail _ hc ih => exact ih.trans (h.reaches_of_child hc).2

omit [DecidableEq V] in
/-- Every vertex that is reached is a child, or reached through one. -/
theorem Inv.exists_child (h : Inv dag s []) {u v : V} (huv : s.Reaches u v) :
    ∃ w ∈ dag u, s.Reaches u w ∧ s.parent w = u ∧ (w = v ∨ s.Reaches w v) := by
  obtain ⟨w, hc, hwv⟩ := Relation.TransGen.head'_iff.mp (h.transGen_of_reaches huv)
  obtain ⟨hdag, huw⟩ := h.reaches_of_child hc
  refine ⟨w, hdag, huw, hc.2.1, ?_⟩
  rcases Relation.reflTransGen_iff_eq_or_transGen.mp hwv with heq | hwv
  · exact .inl heq.symm
  · exact .inr (h.reaches_of_transGen hwv)

/-! ### The number of steps -/

/-- The steps that the vertices which are not open yet can lead to. -/
def weight (dag : V → List V) (s : State V) (vs : List V) : Nat :=
  ((vs.filter fun v => s.left v = 0).map fun v => (dag v).length + 1).sum

/-- Opening a vertex pushes its successors, which its weight pays for. -/
theorem weight_enter {vs : List V} (hvs : vs.Nodup) {u : V} (hu : u ∈ vs) (hleft : s.left u = 0) (p : Option V) :
    weight dag (s.enter dag p u) vs + (dag u).length + 1 ≤ weight dag s vs := by
  obtain ⟨pre, post, rfl⟩ := append_of_mem hu
  have hnot : u ∉ pre ++ post := (nodup_cons.mp (nodup_middle.mp hvs)).1
  have hsame (ws : List V) (hws : u ∉ ws) :
      (ws.filter fun v => (s.enter dag p u).left v = 0) = ws.filter fun v => s.left v = 0 := by
    refine filter_congr fun v hv => ?_
    have hne : v ≠ u := fun heq => hws (heq ▸ hv)
    simp [State.enter, update_of_ne hne]
  have hself : (s.enter dag p u).left u ≠ 0 := by simp [State.enter]
  simp only [weight, filter_append, filter_cons, hself, hleft, decide_true, decide_false, if_true,
    Bool.false_eq_true, if_false, hsame pre fun h => hnot (mem_append_left _ h),
    hsame post fun h => hnot (mem_append_right _ h), map_append, map_cons, sum_append, sum_cons]
  omega

/-- The search ends with fuel for every vertex and every edge: a round takes an entry off the stack or opens a vertex,
which pushes its successors once. -/
theorem todo_run {vs : List V} (hvs : vs.Nodup) (hdag : ∀ u v, v ∈ dag u → v ∈ vs) {fuel : Nat}
    (htodo : ∀ e ∈ s.todo, e.2 ∈ vs) (hfuel : s.todo.length + weight dag s vs ≤ fuel) : (run dag fuel s).todo = [] := by
  induction fuel generalizing s with
  | zero =>
    have hnil : s.todo.length = 0 := by omega
    exact length_eq_zero_iff.mp hnil
  | succ fuel ih =>
    rw [run]
    revert hfuel
    fun_cases step dag s with
    | case1 heq =>
      have hstep : step dag s = s := by rw [step, heq]
      have hstop n : (run dag n s).todo = [] := by
        induction n with
        | zero => exact heq
        | succ n ihn => rw [run, hstep, ihn]
      exact fun _ => hstop fuel
    | case2 p u todo heq | case3 p u todo heq =>
      rw [heq, length_cons]
      intro hfuel
      have hnext : todo.length + weight dag s vs ≤ fuel := by omega
      exact ih (fun e he => htodo e (heq ▸ .tail _ he)) hnext
    | case4 p u todo heq hleft =>
      rw [heq, length_cons]
      intro hfuel
      have hu : u ∈ vs := htodo (p, u) (by simp [heq])
      have hw : weight dag (s.enter dag p u) vs + (dag u).length + 1 ≤ weight dag s vs :=
        weight_enter hvs hu (Nat.eq_zero_of_not_pos hleft) p
      refine ih (fun e he => ?_) ?_
      · rcases mem_append.mp he with he | he
        · obtain ⟨w, hw, rfl⟩ := mem_map.mp (mem_reverse.mp he)
          exact hdag u w (mem_filter.mp hw).1
        · exact htodo e he
      · have hpushed : (s.enter dag p u).todo.length ≤ (dag u).length + (todo.length + 1) := by
          simp only [State.enter, length_append, length_reverse, length_map, heq]
          exact Nat.add_le_add_right (length_filter_le _ _) _
        omega

end Dfs
