import Mathlib.Data.List.Nodup
import Mathlib.Data.Set.Basic

/-!
# Strongly connected components with an explicit stack

The search hands every component to `emit`, which may stop it. The rule `search_spec` proves a property of what was
emitted from one step: the component is complete and new, and what was emitted before is closed under successors.
-/

open List Function

namespace Tarjan

variable {V σ : Type}

def Reach (succ : V → List V) : V → V → Prop := Relation.ReflTransGen fun u w => w ∈ succ u

/-- A vertex of the search path with the successors that are still to be visited. Unless `first` is set, the search has
gone to the first of them. -/
structure Frame (V : Type) where
  node : V
  first : Bool
  it : List V

structure State (V σ : Type) where
  index : V → Option Nat
  lowlink : V → Nat
  next_index : Nat
  s : List V
  in_s : V → Bool
  frames : List (Frame V)
  out : σ

namespace State

/-- The index of a visited vertex. -/
def rank (st : State V σ) (v : V) : Nat := (st.index v).getD 0

/-- The vertex was emitted with its component. -/
def Done (st : State V σ) (v : V) : Prop := st.index v ≠ none ∧ v ∉ st.s

end State

/-- The visited successors lower the link to the index of those on the stack; the rest starts with a vertex that was
not visited. -/
def scan (index : V → Option Nat) (in_s : V → Bool) (low : Nat) : List V → Nat × List V
  | [] => (low, [])
  | w :: it =>
    match index w with
    | none => (low, w :: it)
    | some i => scan index in_s (if in_s w && decide (i < low) then i else low) it

section Step

variable [DecidableEq V]

def new_node (succ : V → List V) (st : State V σ) (v : V) : State V σ :=
  { st with
    index := update st.index v (some st.next_index)
    lowlink := update st.lowlink v st.next_index
    next_index := st.next_index + 1
    s := v :: st.s
    in_s := update st.in_s v true
    frames := ⟨v, true, succ v⟩ :: st.frames }

/-- After the visit of a child. -/
def fold_child (st : State V σ) : State V σ :=
  match st.frames with
  | ⟨l, false, c :: it⟩ :: frames =>
    { st with
      lowlink := update st.lowlink l (if st.lowlink c < st.lowlink l then st.lowlink c else st.lowlink l)
      frames := ⟨l, false, it⟩ :: frames }
  | _ => st

def scan_top (st : State V σ) : State V σ :=
  match st.frames with
  | [] => st
  | fr :: frames =>
    let r := scan st.index st.in_s (st.lowlink fr.node) fr.it
    { st with
      lowlink := update st.lowlink fr.node r.1
      frames := ⟨fr.node, false, r.2⟩ :: frames }

/-- The stack down to `l`, and what is below. -/
def pop_until (l : V) : List V → List V × List V
  | [] => ([], [])
  | v :: s => if v = l then ([v], s) else (v :: (pop_until l s).1, (pop_until l s).2)

/-- All successors of `l` were visited; `none` if `emit` stops the search. -/
def finish (emit : σ → V → List V → Option σ) (st : State V σ) (l : V) (frames : List (Frame V)) :
    Option (State V σ) :=
  if st.index l = some (st.lowlink l) then
    let r := pop_until l st.s
    (emit st.out l r.1).map fun out =>
      { st with s := r.2, in_s := fun v => if v ∈ r.1 then false else st.in_s v, frames := frames, out := out }
  else some { st with frames := frames }

/-- One iteration of the loop over the search path. -/
def step (succ : V → List V) (emit : σ → V → List V → Option σ) (st : State V σ) : Option (State V σ) :=
  let st := scan_top (fold_child st)
  match st.frames with
  | [] => some st
  | ⟨_, _, w :: _⟩ :: _ => some (new_node succ st w)
  | ⟨l, _, []⟩ :: frames => finish emit st l frames

inductive Outcome (α : Type) where
  | done (a : α)
  | stopped
  | out_of_fuel

/-- The search ends: with a state that has the property `p`, or it is stopped and `Q` holds. -/
def Outcome.Ends {α : Type} (p : α → Prop) (Q : Prop) : Outcome α → Prop
  | .done a => p a
  | .stopped => Q
  | .out_of_fuel => False

theorem Outcome.Ends.imp {α : Type} {p p' : α → Prop} {Q : Prop} {r : Outcome α} (h : r.Ends p Q)
    (himp : ∀ a, p a → p' a) : r.Ends p' Q := by
  cases r with
  | done a => exact himp a h
  | stopped | out_of_fuel => exact h

def run (succ : V → List V) (emit : σ → V → List V → Option σ) : Nat → State V σ → Outcome (State V σ)
  | fuel, st =>
    if st.frames.isEmpty then .done st
    else
      match fuel with
      | 0 => .out_of_fuel
      | fuel + 1 =>
        match step succ emit st with
        | none => .stopped
        | some st => run succ emit fuel st

/-- The search from every vertex that was not visited before and is not skipped. -/
def search (succ : V → List V) (emit : σ → V → List V → Option σ) (skip : V → Bool) (fuel : Nat) :
    State V σ → List V → Outcome (State V σ)
  | st, [] => .done st
  | st, v :: vs =>
    if (st.index v).isSome || skip v then search succ emit skip fuel st vs
    else
      match run succ emit fuel (new_node succ st v) with
      | .done st => search succ emit skip fuel st vs
      | .stopped => .stopped
      | .out_of_fuel => .out_of_fuel

end Step

/-! ### The invariant -/

section Invariant

variable (succ : V → List V)

/-- A vertex on the search path. The vertices between it and the next one, whose index is below `hi`, were left
behind; its link is at most the index of any successor on the stack of these and of those that it has scanned itself. -/
structure FrameOk (st : State V σ) (hi : Nat) (fr : Frame V) : Prop where
  mem : fr.node ∈ st.s
  lt : st.rank fr.node < hi
  reach : ∀ u ∈ st.s, st.rank fr.node ≤ st.rank u → Reach succ fr.node u
  own : ∃ pre, succ fr.node = pre ++ fr.it ∧ ∀ w ∈ pre, st.index w ≠ none ∧ (w ∈ st.s → st.lowlink fr.node ≤ st.rank w)
  above : ∀ u ∈ st.s, st.rank fr.node < st.rank u → st.rank u < hi →
    ∀ w ∈ succ u, w ∈ st.s → st.lowlink fr.node ≤ st.rank w

/-- The search path below the vertex `child`. -/
def FramesOk (st : State V σ) : Nat → Option V → List (Frame V) → Prop
  | _, _, [] => True
  | hi, child, fr :: frames => FrameOk succ st hi fr ∧
      (∀ c, child = some c → fr.first = false ∧ ∃ it, fr.it = c :: it) ∧
      FramesOk st (st.rank fr.node) (some fr.node) frames

/-- The links of the vertices on the stack. A vertex that the search has left stays there because it reaches one with a
smaller index. -/
structure Links (st : State V σ) : Prop where
  index_lt : ∀ v i, st.index v = some i → i < st.next_index
  visited : ∀ v ∈ st.s, st.index v ≠ none
  sorted : st.s.Pairwise fun u w => st.rank w < st.rank u
  in_s : ∀ v, st.in_s v ↔ v ∈ st.s
  closed : ∀ v, st.Done v → ∀ w ∈ succ v, st.Done w
  low : ∀ v ∈ st.s, ∃ w ∈ st.s, st.rank w = st.lowlink v ∧ Reach succ v w ∧ st.rank w ≤ st.rank v
  black : ∀ v ∈ st.s, v ∉ st.frames.map Frame.node → st.lowlink v < st.rank v ∧ ∀ w ∈ succ v, st.index w ≠ none

/-- The state after `fold_child`. -/
structure Inv (st : State V σ) : Prop extends Links succ st where
  frames : FramesOk succ st st.next_index none st.frames

/-- The search has left `l`, whose link is not yet used by the vertex before it. -/
structure Returned (st : State V σ) (l : V) : Prop extends Links succ st where
  frames : FramesOk succ st (st.rank l) (some l) st.frames
  visited_child : st.index l ≠ none
  on_stack : l ∈ st.s → ∀ u ∈ st.s, st.rank l ≤ st.rank u → ∀ w ∈ succ u, w ∈ st.s → st.lowlink l ≤ st.rank w
  emitted : l ∉ st.s → st.rank l ≤ st.lowlink l ∧ ∀ u ∈ st.s, st.rank u < st.rank l

variable {succ} {st st' : State V σ} {hi : Nat} {v : V} {fr : Frame V} {vs : List V}

theorem FramesOk.imp {child : Option V} {frames : List (Frame V)} (h : FramesOk succ st hi child frames)
    (himp : ∀ k ≤ hi, ∀ fr, FrameOk succ st k fr → FrameOk succ st' k fr ∧ st'.rank fr.node = st.rank fr.node) :
    FramesOk succ st' hi child frames := by
  induction frames generalizing hi child with
  | nil => trivial
  | cons fr frames ih =>
    obtain ⟨hfr, hchild, hrest⟩ := h
    obtain ⟨hfr', hrank⟩ := himp hi le_rfl fr hfr
    refine ⟨hfr', hchild, ?_⟩
    rw [hrank]
    exact ih hrest fun k hk => himp k (hk.trans hfr.lt.le)

theorem FramesOk.rank_lt {child : Option V} {frames : List (Frame V)}
    (h : FramesOk succ st hi child frames) : ∀ fr ∈ frames, st.rank fr.node < hi := by
  induction frames generalizing hi child with
  | nil => simp
  | cons fr frames ih =>
    obtain ⟨hfr, -, hrest⟩ := h
    intro fr' hfr'
    rcases mem_cons.mp hfr' with rfl | hmem
    · exact hfr.lt
    · exact (ih hrest fr' hmem).trans hfr.lt

theorem Links.rank_lt (h : Links succ st) (hv : v ∈ st.s) : st.rank v < st.next_index := by
  obtain ⟨i, hi⟩ := Option.ne_none_iff_exists'.mp (h.visited v hv)
  rw [State.rank, hi]
  exact h.index_lt v i hi

theorem Links.rank_inj (h : Links succ st) {u : V} (hu : u ∈ st.s) (hv : v ∈ st.s) (heq : st.rank u = st.rank v) :
    u = v := by
  have hnodup : (st.s.map st.rank).Nodup := pairwise_map.mpr (h.sorted.imp fun hlt => hlt.ne')
  exact inj_on_of_nodup_map hnodup hu hv heq

theorem Links.lowlink_le (h : Links succ st) (hv : v ∈ st.s) : st.lowlink v ≤ st.rank v := by
  obtain ⟨w, -, hrank, -, hle⟩ := h.low v hv
  rwa [← hrank]

/-- When the search path is empty, so is the stack: the vertex with the smallest index would have a smaller link. -/
theorem Links.s_eq_nil (h : Links succ st) (hframes : st.frames = []) : st.s = [] := by
  have hnot : ∀ k, ∀ v ∈ st.s, st.rank v = k → False := by
    intro k
    induction k using Nat.strong_induction_on with
    | _ k ih =>
      intro v hv hk
      obtain ⟨w, hw, hrank, -, -⟩ := h.low v hv
      have hlt := (h.black v hv (by simp [hframes])).1
      exact ih (st.rank w) (by omega) w hw rfl
  exact eq_nil_iff_forall_not_mem.mpr fun v hv => hnot _ v hv rfl

/-- The last vertex of the search path. -/
theorem Inv.top {frames : List (Frame V)} (h : Inv succ st) (hframes : st.frames = fr :: frames) :
    FrameOk succ st st.next_index fr ∧ FramesOk succ st (st.rank fr.node) (some fr.node) frames := by
  have hall := h.frames
  rw [hframes] at hall
  exact ⟨hall.1, hall.2.2⟩

theorem FrameOk.congr (h : FrameOk succ st hi fr) (hindex : st'.index = st.index)
    (hs : st'.s = st.s) (hlow : st'.lowlink fr.node = st.lowlink fr.node) : FrameOk succ st' hi fr := by
  have hrank : st'.rank = st.rank := by
    unfold State.rank
    rw [hindex]
  exact ⟨hs ▸ h.mem, hrank ▸ h.lt, by simpa only [hs, hrank] using h.reach,
    by simpa only [hs, hrank, hindex, hlow] using h.own, by simpa only [hs, hrank, hlow] using h.above⟩

/-- The scan stops at the first successor without an index. The lowlink is then the least of its old value and the
indices of the successors before that one which are on the stack. -/
theorem scan_spec (index : V → Option Nat) (in_s : V → Bool) (low : Nat) (it : List V) :
    ∃ pre, it = pre ++ (scan index in_s low it).2 ∧ (scan index in_s low it).1 ≤ low ∧
      (∀ w ∈ pre, ∃ i, index w = some i ∧ (in_s w → (scan index in_s low it).1 ≤ i)) ∧
      ((scan index in_s low it).1 = low ∨ ∃ w ∈ pre, in_s w ∧ index w = some (scan index in_s low it).1) ∧
      ∀ w rest, (scan index in_s low it).2 = w :: rest → index w = none := by
  fun_induction scan with
  | case1 => exact ⟨[], by simp, le_rfl, by simp, .inl rfl, by simp⟩
  | case2 low w it hnone =>
    refine ⟨[], rfl, le_rfl, by simp, .inl rfl, ?_⟩
    rintro _ _ ⟨⟩
    exact hnone
  | case3 low w it i hi ih =>
    obtain ⟨pre, hit, hle, hpre, hlow, hnew⟩ := ih
    have hle' : (if in_s w && decide (i < low) then i else low) ≤ low := by
      split
      next hif => exact (by simpa using hif : in_s w ∧ i < low).2.le
      next => exact le_rfl
    refine ⟨w :: pre, by rw [cons_append, ← hit], hle.trans hle', ?_, ?_, hnew⟩
    · intro x hx
      rcases mem_cons.mp hx with rfl | hx
      · refine ⟨i, hi, fun hin => hle.trans ?_⟩
        split
        · exact le_rfl
        next hif => exact not_lt.mp fun hlt => hif (by simp [hin, hlt])
      · exact hpre x hx
    · rcases hlow with hlow | ⟨x, hx, hin, hidx⟩
      · rw [hlow]
        split
        next hif => exact .inr ⟨w, by simp, (by simpa using hif : in_s w ∧ i < low).1, hi⟩
        next => exact .inl rfl
      · exact .inr ⟨x, .tail _ hx, hin, hidx⟩

variable [DecidableEq V]

/-- The link of the last vertex of the search path is lowered to the index of one that it reaches, and a part of its
successors is scanned. -/
theorem Links.lower_top {frames : List (Frame V)} {low : Nat} {pre it : List V} (h : Links succ st)
    (hframes : st.frames = fr :: frames) (hfr : FrameOk succ st hi fr)
    (hrest : FramesOk succ st (st.rank fr.node) (some fr.node) frames) (hit : fr.it = pre ++ it)
    (hle : low ≤ st.lowlink fr.node) (hpre : ∀ w ∈ pre, st.index w ≠ none ∧ (w ∈ st.s → low ≤ st.rank w))
    (hlow : low = st.lowlink fr.node ∨ ∃ w ∈ st.s, st.rank w = low ∧ Reach succ fr.node w)
    (habove : ∀ u ∈ st.s, st.rank fr.node < st.rank u → ∀ w ∈ succ u, w ∈ st.s → low ≤ st.rank w) :
    Inv succ { st with
      lowlink := update st.lowlink fr.node low
      frames := ⟨fr.node, false, it⟩ :: frames } := by
  set st' : State V σ := { st with
    lowlink := update st.lowlink fr.node low
    frames := ⟨fr.node, false, it⟩ :: frames }
  have hself : st'.lowlink fr.node = low := update_self ..
  have hother : ∀ v, v ≠ fr.node → st'.lowlink v = st.lowlink v := fun v hv => update_of_ne hv ..
  obtain ⟨pre0, hsucc, hpre0⟩ := hfr.own
  refine ⟨⟨h.index_lt, h.visited, h.sorted, h.in_s, h.closed, fun v hv => ?_, fun v hv hnot => ?_⟩, ⟨?_, by simp, ?_⟩⟩
  · obtain ⟨w, hw, hrank, hreach⟩ := h.low v hv
    by_cases hvn : v = fr.node
    · subst hvn
      rw [hself]
      rcases hlow with rfl | ⟨x, hx, rfl, hreachx⟩
      · exact ⟨w, hw, hrank, hreach⟩
      · exact ⟨x, hx, rfl, hreachx, hle.trans (h.lowlink_le hv)⟩
    · rw [hother v hvn]
      exact ⟨w, hw, hrank, hreach⟩
  · have hvn : v ≠ fr.node := fun heq => hnot (by simp [heq, st'])
    rw [hother v hvn]
    exact h.black v hv (by simpa [hframes, st'] using hnot)
  · refine ⟨hfr.mem, h.rank_lt hfr.mem, hfr.reach,
      ⟨pre0 ++ pre, by rw [hsucc, hit, append_assoc], fun w hw => ?_⟩, fun u hu hlt _ => ?_⟩
    · rw [hself]
      rcases mem_append.mp hw with hw | hw
      · exact ⟨(hpre0 w hw).1, fun hs => hle.trans ((hpre0 w hw).2 hs)⟩
      · exact hpre w hw
    · rw [hself]
      exact habove u hu hlt
  · refine hrest.imp fun k hk fr' hfr' => ⟨hfr'.congr rfl rfl (hother _ fun heq => ?_), rfl⟩
    have hlt : st.rank fr'.node < st.rank fr.node := hfr'.lt.trans_le hk
    rw [heq] at hlt
    exact lt_irrefl _ hlt

/-- The frame on top goes on to its next successor that has no index. -/
theorem Inv.scan_top {frames : List (Frame V)} (h : Inv succ st) (hframes : st.frames = fr :: frames) :
    Inv succ (scan_top st) := by
  obtain ⟨pre, hit, hle, hpre, hlow, -⟩ := scan_spec st.index st.in_s (st.lowlink fr.node) fr.it
  obtain ⟨hfr, hrest⟩ := h.top hframes
  obtain ⟨pre0, hsucc, -⟩ := hfr.own
  have hst : Tarjan.scan_top st = { st with
      lowlink := update st.lowlink fr.node (scan st.index st.in_s (st.lowlink fr.node) fr.it).1
      frames := ⟨fr.node, false, (scan st.index st.in_s (st.lowlink fr.node) fr.it).2⟩ :: frames } := by
    rw [Tarjan.scan_top, hframes]
  rw [hst]
  refine h.lower_top hframes hfr hrest hit hle (fun w hw => ?_) ?_ fun u hu hlt w hw hws => ?_
  · obtain ⟨i, hi, hlei⟩ := hpre w hw
    refine ⟨by simp [hi], fun hs => ?_⟩
    rw [State.rank, hi]
    exact hlei ((h.in_s w).mpr hs)
  · refine hlow.imp_right fun ⟨w, hw, hin, hidx⟩ => ⟨w, (h.in_s w).mp hin, by rw [State.rank, hidx]; rfl, .single ?_⟩
    rw [hsucc, hit]
    simp [hw]
  · exact hle.trans (hfr.above u hu hlt (h.rank_lt hu) w hw hws)

theorem done_new_node (hv : st.index v = none) (hnot : v ∉ st.s) (w : V) : (new_node succ st v).Done w ↔ st.Done w := by
  by_cases hwv : w = v
  · subst hwv
    exact ⟨fun hd => absurd (.head _) hd.2, fun hd => absurd hv hd.1⟩
  · simp [State.Done, new_node, hwv]

/-- The search goes to a successor that was not visited, or starts at a vertex when the search path is empty. -/
theorem Inv.new_node (h : Inv succ st) (hv : st.index v = none)
    (hedge : ∀ fr frames, st.frames = fr :: frames → fr.first = false ∧ ∃ it, fr.it = v :: it) :
    Inv succ (new_node succ st v) := by
  set st' := Tarjan.new_node succ st v with hst'
  have hnot : v ∉ st.s := fun hmem => h.visited v hmem hv
  have hindex : ∀ w, w ≠ v → st'.index w = st.index w := fun w hw => update_of_ne hw ..
  have hindexv : st'.index v = some st.next_index := update_self ..
  have hrank : ∀ w, w ≠ v → st'.rank w = st.rank w := fun w hw => by rw [State.rank, hindex w hw]; rfl
  have hrankv : st'.rank v = st.next_index := by simp [State.rank, hst', Tarjan.new_node]
  have hlow : ∀ w, w ≠ v → st'.lowlink w = st.lowlink w := fun w hw => update_of_ne hw ..
  have hlowv : st'.lowlink v = st.next_index := update_self ..
  have hne : ∀ w ∈ st.s, w ≠ v := fun w hw heq => hnot (heq ▸ hw)
  have hvisited : ∀ w, st.index w ≠ none → st'.index w ≠ none := by
    intro w hw
    have hwv : w ≠ v := fun heq => hw (heq ▸ hv)
    rwa [hindex w hwv]
  have hs' : ∀ w, w ∈ st'.s ↔ w = v ∨ w ∈ st.s := fun w => mem_cons
  -- the frames below reach the new vertex through the last of them
  have hreach : ∀ fr frames, st.frames = fr :: frames → Reach succ fr.node v := by
    intro fr frames hframes
    obtain ⟨-, it, hit⟩ := hedge fr frames hframes
    obtain ⟨pre, hsucc, -⟩ := (h.top hframes).1.own
    exact .single (by rw [hsucc, hit]; simp)
  have hframe : ∀ k ≤ st.next_index, ∀ fr, Reach succ fr.node v → FrameOk succ st k fr →
      FrameOk succ st' k fr ∧ st'.rank fr.node = st.rank fr.node := by
    intro k hk fr hfrv hfr
    have hn := hne _ hfr.mem
    have hr := hrank _ hn
    obtain ⟨pre, hsucc, hpre⟩ := hfr.own
    refine ⟨⟨(hs' _).mpr (.inr hfr.mem), hr ▸ hfr.lt, fun u hu hle => ?_, ⟨pre, hsucc, fun w hw => ?_⟩,
      fun u hu hlt hhi w hw hws => ?_⟩, hr⟩
    · rcases (hs' u).mp hu with rfl | hu
      · exact hfrv
      · rw [hr, hrank u (hne u hu)] at hle
        exact hfr.reach u hu hle
    · obtain ⟨hvis, hle⟩ := hpre w hw
      refine ⟨hvisited w hvis, fun hws => ?_⟩
      have hwv : w ≠ v := fun heq => hvis (heq ▸ hv)
      rw [hlow _ hn, hrank w hwv]
      exact hle (((hs' w).mp hws).resolve_left hwv)
    · rcases (hs' u).mp hu with rfl | hu
      · omega
      · rw [hr, hrank u (hne u hu)] at hlt
        rw [hrank u (hne u hu)] at hhi
        rw [hlow _ hn]
        rcases (hs' w).mp hws with rfl | hws
        · have hle := h.lowlink_le hfr.mem
          have hlt' := h.rank_lt hfr.mem
          omega
        · rw [hrank w (hne w hws)]
          exact hfr.above u hu hlt hhi w hw hws
  have hdone : ∀ w, st'.Done w ↔ st.Done w := done_new_node hv hnot
  refine ⟨⟨fun w i hi => ?_, fun w hw => ?_, pairwise_cons.mpr ⟨fun w hw => ?_, ?_⟩, fun w => ?_, fun w hw x hx => ?_,
    fun w hw => ?_, fun w hw hgray => ?_⟩, ⟨⟨?_, ?_, fun u hu hle => ?_, ⟨[], rfl, by simp⟩, ?_⟩, by simp, ?_⟩⟩
  · show i < st.next_index + 1
    by_cases hwv : w = v
    · rw [hwv, hindexv] at hi
      cases hi
      exact Nat.lt_succ_self _
    · rw [hindex w hwv] at hi
      exact (h.index_lt w i hi).trans (Nat.lt_succ_self _)
  · rcases (hs' w).mp hw with rfl | hw
    · simp [hst', Tarjan.new_node]
    · exact hvisited w (h.visited w hw)
  · rw [hrankv, hrank w (hne w hw)]
    exact h.rank_lt hw
  · refine h.sorted.imp_of_mem fun hu hw hlt => ?_
    rwa [hrank _ (hne _ hu), hrank _ (hne _ hw)]
  · rw [hs']
    by_cases hwv : w = v
    · simp [hwv, hst', Tarjan.new_node]
    · rw [or_iff_right hwv, ← h.in_s]
      simp [hst', Tarjan.new_node, hwv]
  · exact (hdone x).mpr (h.closed w ((hdone w).mp hw) x hx)
  · rcases (hs' w).mp hw with rfl | hw
    · exact ⟨w, (hs' w).mpr (.inl rfl), by rw [hrankv, hlowv], .refl, le_rfl⟩
    · obtain ⟨x, hx, hrankx, hreachx, hle⟩ := h.low w hw
      refine ⟨x, (hs' x).mpr (.inr hx), ?_, hreachx, ?_⟩
      · rw [hrank x (hne x hx), hlow w (hne w hw), hrankx]
      · rwa [hrank x (hne x hx), hrank w (hne w hw)]
  · have hwv : w ≠ v := fun heq => hgray (by simp [heq, hst', Tarjan.new_node])
    have hgray' : w ∉ st.frames.map Frame.node := fun hmem => hgray (mem_cons_of_mem _ hmem)
    obtain ⟨hlt, hall⟩ := h.black w (((hs' w).mp hw).resolve_left hwv) hgray'
    rw [hlow w hwv, hrank w hwv]
    exact ⟨hlt, fun x hx => hvisited x (hall x hx)⟩
  · exact (hs' v).mpr (.inl rfl)
  · show st'.rank v < st.next_index + 1
    omega
  · rcases (hs' u).mp hu with rfl | hu
    · exact .refl
    · have hlt := h.rank_lt hu
      have hle : st'.rank v ≤ st'.rank u := hle
      rw [hrank u (hne u hu)] at hle
      omega
  · intro u hu hlt
    have hlt : st'.rank v < st'.rank u := hlt
    rcases (hs' u).mp hu with rfl | hu
    · omega
    · have hlt' := h.rank_lt hu
      rw [hrank u (hne u hu)] at hlt
      omega
  · show FramesOk succ st' (st'.rank v) (some v) st.frames
    rw [hrankv]
    cases hframes : st.frames with
    | nil => trivial
    | cons fr frames =>
      obtain ⟨hfr, hrest⟩ := h.top hframes
      have hfrv := hreach fr frames hframes
      obtain ⟨hfr', hr⟩ := hframe _ le_rfl fr hfrv hfr
      refine ⟨hfr', fun c hc => ?_, ?_⟩
      · cases hc
        exact hedge fr frames hframes
      · rw [hr]
        refine hrest.imp fun k hk fr' hfr'' => hframe k (hk.trans hfr.lt.le) fr' ?_ hfr''
        exact (hfr''.reach fr.node hfr.mem (hfr''.lt.trans_le hk).le).trans hfrv

/-- The link of a vertex that the search has left is used by the vertex before it. Where the vertex is still on the
stack, so is the one that its link stands for, and the vertex before it reaches both. -/
theorem Returned.fold_child {l : V} (h : Returned succ st l) : Inv succ (fold_child st) := by
  cases hframes : st.frames with
  | nil =>
    have hst : Tarjan.fold_child st = st := by rw [Tarjan.fold_child, hframes]
    rw [hst]
    exact ⟨h.toLinks, by rw [hframes]; trivial⟩
  | cons z rest =>
    obtain ⟨hz, hchild, hrest⟩ := (hframes ▸ h.frames : FramesOk succ st (st.rank l) (some l) (z :: rest))
    obtain ⟨hfirst, it, hit⟩ := hchild l rfl
    obtain ⟨pre, hsucc, -⟩ := hz.own
    set low := if st.lowlink l < st.lowlink z.node then st.lowlink l else st.lowlink z.node with hlowdef
    have hle : low ≤ st.lowlink z.node ∧ low ≤ st.lowlink l := by
      rw [hlowdef]
      split <;> omega
    have hst : Tarjan.fold_child st = { st with
        lowlink := update st.lowlink z.node low
        frames := ⟨z.node, false, it⟩ :: rest } := by
      obtain ⟨node, first, zit⟩ := z
      subst hfirst hit
      rw [Tarjan.fold_child, hframes]
    rw [hst]
    refine h.lower_top hframes hz hrest (show z.it = [l] ++ it from hit) hle.1 (fun w hw => ?_) ?_
      fun u hu hlt w hw hws => ?_
    · obtain rfl := mem_singleton.mp hw
      exact ⟨h.visited_child, fun hs => hle.2.trans (h.lowlink_le hs)⟩
    · rw [hlowdef]
      split
      next hlt =>
        by_cases hl : l ∈ st.s
        · obtain ⟨x, hx, hrankx, hreachx, -⟩ := h.low l hl
          have hzl : Reach succ z.node l := .single (by rw [hsucc, hit]; simp)
          exact .inr ⟨x, hx, hrankx, hzl.trans hreachx⟩
        · have hzlt := hz.lt
          have hlez := h.lowlink_le hz.mem
          have hge := (h.emitted hl).1
          omega
      next => exact .inl rfl
    · rcases lt_or_ge (st.rank u) (st.rank l) with hul | hul
      · exact hle.1.trans (hz.above u hu hlt hul w hw hws)
      · by_cases hl : l ∈ st.s
        · exact hle.2.trans (h.on_stack hl u hu hul w hw hws)
        · exact absurd ((h.emitted hl).2 u hu) (not_lt.mpr hul)

theorem pop_until_spec {l : V} {s : List V} (hl : l ∈ s) :
    ∃ pre, (pop_until l s).1 = pre ++ [l] ∧ s = (pop_until l s).1 ++ (pop_until l s).2 := by
  induction s with
  | nil => simp at hl
  | cons v s ih =>
    unfold pop_until
    split
    next heq => exact ⟨[], by simp [heq], by simp⟩
    next hne =>
      obtain ⟨pre, hpre, hs⟩ := ih ((mem_cons.mp hl).resolve_left fun heq => hne heq.symm)
      exact ⟨v :: pre, by simp [hpre], by rw [cons_append, ← hs]⟩

section Finish

variable {l : V} {b : Bool} {frames : List (Frame V)} (h : Inv succ st) (hframes : st.frames = ⟨l, b, []⟩ :: frames)
include h hframes

variable {u : V}

omit [DecidableEq V] in
/-- The vertices behind the last one of the search path are not on it. -/
theorem Inv.not_gray (hlt : st.rank l < st.rank u) : u ∉ st.frames.map Frame.node := by
  obtain ⟨-, hrest⟩ := h.top hframes
  intro hmem
  obtain ⟨fr, hfr, rfl⟩ := mem_map.mp hmem
  rw [hframes] at hfr
  rcases mem_cons.mp hfr with rfl | hfr
  · exact lt_irrefl _ hlt
  · exact lt_asymm hlt (hrest.rank_lt fr hfr)

omit [DecidableEq V] in
/-- The successors of `l` and of the vertices behind it were visited, and the link of `l` is at most the index of those
on the stack. -/
theorem Inv.succ_of_finished {w : V} (hu : u ∈ st.s) (hle : st.rank l ≤ st.rank u) (hw : w ∈ succ u) :
    st.index w ≠ none ∧ (w ∈ st.s → st.lowlink l ≤ st.rank w) := by
  obtain ⟨hfr, -⟩ := h.top hframes
  rcases hle.lt_or_eq with hlt | heq
  · exact ⟨(h.black u hu (h.not_gray hframes hlt)).2 w hw, hfr.above u hu hlt (h.rank_lt hu) w hw⟩
  · obtain rfl := h.rank_inj hfr.mem hu heq
    obtain ⟨pre, hsucc, hpre⟩ := hfr.own
    exact hpre w (by simpa [hsucc] using hw)

omit [DecidableEq V] in
/-- A vertex whose link is below its own index stays on the stack, and the search goes on with the vertex before it.
-/
theorem Inv.returned (hne : st.index l ≠ some (st.lowlink l)) : Returned succ { st with frames := frames } l := by
  obtain ⟨hfr, hrest⟩ := h.top hframes
  have hlt : st.lowlink l < st.rank l := by
    refine lt_of_le_of_ne (h.lowlink_le hfr.mem) fun heq => hne ?_
    obtain ⟨i, hi⟩ := Option.ne_none_iff_exists'.mp (h.visited l hfr.mem)
    rw [heq, State.rank, hi, Option.getD_some]
  refine ⟨⟨h.index_lt, h.visited, h.sorted, h.in_s, h.closed, h.low, fun v hv hnot => ?_⟩, ?_, h.visited l hfr.mem,
    fun _ u hu hle w hw => (h.succ_of_finished hframes hu hle hw).2, absurd hfr.mem⟩
  · by_cases hvl : v = l
    · subst hvl
      exact ⟨hlt, fun w hw => (h.succ_of_finished hframes hv le_rfl hw).1⟩
    · exact h.black v hv (by simpa [hframes, hvl] using hnot)
  · exact hrest.imp fun k hk fr hfr' => ⟨hfr'.congr rfl rfl rfl, rfl⟩

omit [DecidableEq V] in
/-- From the vertices behind `l` the search cannot leave them and what was emitted. -/
theorem Inv.reach_of_finished (heq : st.index l = some (st.lowlink l)) {w : V} (hu : u ∈ st.s)
    (hle : st.rank l ≤ st.rank u) (hreach : Reach succ u w) : st.Done w ∨ w ∈ st.s ∧ st.rank l ≤ st.rank w := by
  have hrank : st.rank l = st.lowlink l := by rw [State.rank, heq, Option.getD_some]
  induction hreach with
  | refl => exact .inr ⟨hu, hle⟩
  | @tail v x _ hedge ih =>
    rcases ih with hdone | ⟨hmem, hlev⟩
    · exact .inl (h.closed v hdone x hedge)
    · obtain ⟨hvis, hlow⟩ := h.succ_of_finished hframes hmem hlev hedge
      by_cases hx : x ∈ st.s
      · exact .inr ⟨hx, hrank ▸ hlow hx⟩
      · exact .inl ⟨hvis, hx⟩

omit [DecidableEq V] in
/-- The vertices behind `l` are its component. -/
theorem Inv.component (heq : st.index l = some (st.lowlink l)) :
    u ∈ st.s ∧ st.rank l ≤ st.rank u ↔ Reach succ l u ∧ Reach succ u l := by
  obtain ⟨hfr, -⟩ := h.top hframes
  constructor
  · rintro ⟨hu, hle⟩
    refine ⟨hfr.reach u hu hle, ?_⟩
    -- every vertex behind `l` reaches one with a smaller index that is still behind `l`
    have hback : ∀ k, ∀ v ∈ st.s, st.rank l ≤ st.rank v → st.rank v = k → Reach succ v l := by
      intro k
      induction k using Nat.strong_induction_on with
      | _ k ih =>
        intro v hv hlev hk
        rcases hlev.lt_or_eq with hlt | hveq
        · obtain ⟨w, hw, hrank, hreach, -⟩ := h.low v hv
          have hlow := (h.black v hv (h.not_gray hframes hlt)).1
          have hlew := ((h.reach_of_finished hframes heq hv hlev hreach).resolve_left fun hd => hd.2 hw).2
          exact hreach.trans (ih (st.rank w) (by omega) w hw hlew rfl)
        · obtain rfl : l = v := h.rank_inj hfr.mem hv hveq
          exact .refl
    exact hback _ u hu hle rfl
  · rintro ⟨hlu, hul⟩
    refine (h.reach_of_finished hframes heq hfr.mem le_rfl hlu).resolve_left fun hdone => ?_
    have hclosed : ∀ w, Reach succ u w → st.Done w := by
      intro w hw
      induction hw with
      | refl => exact hdone
      | tail _ hedge ih => exact h.closed _ ih _ hedge
    exact (hclosed l hul).2 hfr.mem

/-- The stack is cut at `l`. -/
theorem Inv.mem_pop_until (u : V) : (u ∈ (pop_until l st.s).1 ↔ u ∈ st.s ∧ st.rank l ≤ st.rank u) ∧
    (u ∈ (pop_until l st.s).2 ↔ u ∈ st.s ∧ st.rank u < st.rank l) := by
  obtain ⟨hfr, -⟩ := h.top hframes
  obtain ⟨pre, hpre, hs⟩ := pop_until_spec hfr.mem
  have hsorted := h.sorted
  rw [hs, pairwise_append] at hsorted
  obtain ⟨hfirst, -, hcross⟩ := hsorted
  rw [hpre, pairwise_append] at hfirst
  have hseg : ∀ v ∈ (pop_until l st.s).1, st.rank l ≤ st.rank v := by
    intro v hv
    rw [hpre] at hv
    rcases mem_append.mp hv with hv | hv
    · exact (hfirst.2.2 v hv l (by simp)).le
    · rw [mem_singleton.mp hv]
  have hrest : ∀ v ∈ (pop_until l st.s).2, st.rank v < st.rank l := (hcross l (by simp [hpre]))
  have hmem : u ∈ st.s ↔ u ∈ (pop_until l st.s).1 ∨ u ∈ (pop_until l st.s).2 := by rw [← mem_append, ← hs]
  rw [hmem]
  constructor
  · refine ⟨fun hu => ⟨.inl hu, hseg u hu⟩, fun ⟨hu, hle⟩ => hu.resolve_right fun hu' => ?_⟩
    exact absurd (hrest u hu') (not_lt.mpr hle)
  · refine ⟨fun hu => ⟨.inr hu, hrest u hu⟩, fun ⟨hu, hlt⟩ => hu.resolve_left fun hu' => ?_⟩
    exact absurd (hseg u hu') (not_le.mpr hlt)

theorem Inv.mem_component (heq : st.index l = some (st.lowlink l)) :
    u ∈ (pop_until l st.s).1 ↔ Reach succ l u ∧ Reach succ u l := by
  rw [(h.mem_pop_until hframes u).1, h.component hframes heq]

theorem Inv.done_of_emit (in_s : V → Bool) (out : σ) (u : V) :
    ({ st with s := (pop_until l st.s).2, in_s := in_s, frames := frames, out := out } : State V σ).Done u ↔
      st.Done u ∨ u ∈ (pop_until l st.s).1 := by
  obtain ⟨hseg, hrest⟩ := h.mem_pop_until hframes u
  show st.index u ≠ none ∧ u ∉ (pop_until l st.s).2 ↔ (st.index u ≠ none ∧ u ∉ st.s) ∨ u ∈ (pop_until l st.s).1
  rw [hseg, hrest]
  by_cases hu : u ∈ st.s
  · have hvis := h.visited u hu
    simp only [hu, hvis, true_and, not_lt, not_true_eq_false, false_or, ne_eq, not_false_eq_true]
  · simp [hu]

/-- A vertex whose link is its own index is the root of a component. The vertices above it on the stack are taken off
with it, and the search leaves it. -/
theorem Inv.returned_emit (heq : st.index l = some (st.lowlink l)) (out : σ) :
    Returned succ { st with
      s := (pop_until l st.s).2
      in_s := fun v => if v ∈ (pop_until l st.s).1 then false else st.in_s v
      frames := frames
      out := out } l := by
  obtain ⟨hfr, hrest⟩ := h.top hframes
  have hmem := h.mem_pop_until hframes
  have hrank : st.rank l = st.lowlink l := by rw [State.rank, heq, Option.getD_some]
  obtain ⟨pre, hpre, hs⟩ := pop_until_spec hfr.mem
  refine ⟨⟨h.index_lt, fun v hv => h.visited v ((hmem v).2.mp hv).1, ?_, fun v => ?_, fun v hv w hw => ?_,
    fun v hv => ?_,
    fun v hv hnot => ?_⟩, ?_, h.visited l hfr.mem, fun hl => ?_, fun _ => ⟨hrank.le, fun u hu => ?_⟩⟩
  · have hsorted := h.sorted
    rw [hs, pairwise_append] at hsorted
    exact hsorted.2.1
  · dsimp only
    rw [(hmem v).2]
    by_cases hseg : v ∈ (pop_until l st.s).1
    · have hle := ((hmem v).1.mp hseg).2
      simp [hseg, not_lt.mpr hle]
    · rw [if_neg hseg, h.in_s]
      rw [(hmem v).1] at hseg
      push Not at hseg
      exact ⟨fun hv => ⟨hv, hseg hv⟩, And.left⟩
  · rw [h.done_of_emit hframes] at hv ⊢
    rcases hv with hv | hv
    · exact .inl (h.closed v hv w hw)
    · obtain ⟨hvs, hle⟩ := (hmem v).1.mp hv
      rw [(hmem w).1]
      exact h.reach_of_finished hframes heq hvs hle (.single hw)
  · obtain ⟨hvs, hlt⟩ := (hmem v).2.mp hv
    obtain ⟨w, hw, hrankw, hreach, hle⟩ := h.low v hvs
    exact ⟨w, (hmem w).2.mpr ⟨hw, hle.trans_lt hlt⟩, hrankw, hreach, hle⟩
  · obtain ⟨hvs, hlt⟩ := (hmem v).2.mp hv
    have hvl : v ≠ l := fun heq => lt_irrefl _ (heq ▸ hlt)
    exact h.black v hvs (by simpa [hframes, hvl] using hnot)
  · refine hrest.imp fun k hk fr hfr' => ⟨?_, rfl⟩
    obtain ⟨pre', hsucc, hpre'⟩ := hfr'.own
    have hsub : ∀ u, u ∈ (pop_until l st.s).2 → u ∈ st.s := fun u hu => ((hmem u).2.mp hu).1
    exact ⟨(hmem _).2.mpr ⟨hfr'.mem, hfr'.lt.trans_le hk⟩, hfr'.lt, fun u hu => hfr'.reach u (hsub u hu),
      ⟨pre', hsucc, fun w hw => ⟨(hpre' w hw).1, fun hws => (hpre' w hw).2 (hsub w hws)⟩⟩,
      fun u hu hlt hhi w hw hws => hfr'.above u (hsub u hu) hlt hhi w hw (hsub w hws)⟩
  · exact absurd ((hmem l).2.mp hl).2 (lt_irrefl _)
  · exact ((hmem u).2.mp hu).2

end Finish

/-! ### Runs -/

variable (succ) in
/-- `seg` is the component of `l`, and it is emitted after a set that is closed under successors. -/
structure Component (emitted : Set V) (l : V) (seg : List V) : Prop where
  nodup : seg.Nodup
  mem_iff : ∀ u, u ∈ seg ↔ Reach succ l u ∧ Reach succ u l
  not_mem : ∀ u ∈ seg, u ∉ emitted
  closed : ∀ v ∈ emitted, ∀ w ∈ succ v, w ∈ emitted

variable (succ) in
/-- `emit` keeps the property `P` of its result and of the set of emitted vertices, and `Q` holds when it stops. -/
def Keeps (emit : σ → V → List V → Option σ) (P : σ → Set V → Prop) (Q : Prop) : Prop :=
  ∀ out emitted l seg, P out emitted → Component succ emitted l seg → match emit out l seg with
    | some out' => P out' (emitted ∪ {u | u ∈ seg})
    | none => Q

variable (succ) in
structure Good (P : σ → Set V → Prop) (st : State V σ) : Prop where
  inv : Inv succ (fold_child st)
  emitted : P st.out {v | st.Done v}

theorem fold_child_eq (st : State V σ) : ∃ lowlink frames,
    fold_child st = { st with lowlink := lowlink, frames := frames } ∧
    frames.length = st.frames.length := by
  unfold fold_child
  split
  next heq => exact ⟨_, _, rfl, by simp [heq]⟩
  next => exact ⟨_, _, rfl, rfl⟩

theorem Inv.fold_child_self (h : Inv succ st) (hfirst : ∀ fr frames, st.frames = fr :: frames → fr.first) :
    Inv succ (fold_child st) := by
  have hst : fold_child st = st := by
    unfold fold_child
    split
    next heq => exact absurd (hfirst _ _ heq) (by simp)
    next => rfl
  rwa [hst]

variable {emit : σ → V → List V → Option σ} {P : σ → Set V → Prop} {Q : Prop}

theorem Good.start (hindex : ∀ v, st.index v = none) (hs : st.s = []) (hin : ∀ v, st.in_s v = false)
    (hframes : st.frames = []) (hP : P st.out ∅) : Good succ P st := by
  have hdone : ∀ v, ¬ st.Done v := fun v hd => hd.1 (hindex v)
  have hset : {v | st.Done v} = ∅ := Set.eq_empty_iff_forall_notMem.mpr hdone
  refine ⟨Inv.fold_child_self ⟨⟨?_, ?_, ?_, ?_, ?_, ?_, ?_⟩, ?_⟩ (by simp [hframes]), hset ▸ hP⟩
  · simp [hindex]
  · simp [hs]
  · simp [hs]
  · simp [hin, hs]
  · exact fun v hd => absurd hd (hdone v)
  · simp [hs]
  · simp [hs]
  · rw [hframes]
    trivial

theorem Good.inv_of_nil (h : Good succ P st) (hframes : st.frames = []) : Inv succ st := by
  have hfold : fold_child st = st := by rw [fold_child, hframes]
  exact hfold ▸ h.inv

theorem Good.new_node (hinv : Inv succ st) (hP : P st.out {v | st.Done v}) (hv : st.index v = none)
    (hedge : ∀ fr frames, st.frames = fr :: frames → fr.first = false ∧ ∃ it, fr.it = v :: it) :
    Good succ P (new_node succ st v) := by
  refine ⟨(hinv.new_node hv hedge).fold_child_self fun fr frames heq => ?_, ?_⟩
  · cases heq
    rfl
  · have hdone : {w | (Tarjan.new_node succ st v).Done w} = {w | st.Done w} :=
      Set.ext fun w => done_new_node hv (fun hmem => hinv.visited v hmem hv) w
    rw [hdone]
    exact hP

/-- The end of a call, with a component emitted or not. The property of the output is kept, or the search stops with
`Q`. -/
theorem Good.finish {l : V} {b : Bool} {frames : List (Frame V)} (hkeeps : Keeps succ emit P Q) (hinv : Inv succ st)
    (hP : P st.out {v | st.Done v}) (hframes : st.frames = ⟨l, b, []⟩ :: frames) :
    match finish emit st l frames with
    | some st' => Good succ P st'
    | none => Q := by
  by_cases heq : st.index l = some (st.lowlink l)
  · rw [Tarjan.finish, if_pos heq]
    have hcomp : Component succ {v | st.Done v} l (pop_until l st.s).1 := by
      have hmem := hinv.mem_pop_until hframes
      refine ⟨?_, fun u => hinv.mem_component hframes heq, fun u hu hd => hd.2 ((hmem u).1.mp hu).1, hinv.closed⟩
      have hnodup : st.s.Nodup := hinv.sorted.imp fun hlt heq => by rw [heq] at hlt; exact lt_irrefl _ hlt
      obtain ⟨-, -, hs⟩ := pop_until_spec (hinv.top hframes).1.mem
      rw [hs] at hnodup
      exact hnodup.of_append_left
    have hemit := hkeeps st.out _ l _ hP hcomp
    dsimp only
    generalize emit st.out l (pop_until l st.s).1 = r at hemit
    cases r with
    | none => exact hemit
    | some out =>
      refine ⟨(hinv.returned_emit hframes heq out).fold_child, ?_⟩
      have hdone : {v | ({ st with
          s := (pop_until l st.s).2
          in_s := fun v => if v ∈ (pop_until l st.s).1 then false else st.in_s v
          frames := frames
          out := out } : State V σ).Done v} = {v | st.Done v} ∪ {u | u ∈ (pop_until l st.s).1} :=
        Set.ext fun u => hinv.done_of_emit hframes _ _ u
      rw [← hdone] at hemit
      exact hemit
  · rw [Tarjan.finish, if_neg heq]
    exact ⟨(hinv.returned hframes heq).fold_child, hP⟩

/-- A step scans the last vertex of the search path, and goes on to a new vertex or leaves it. -/
theorem Inv.step_cases (emit : σ → V → List V → Option σ) (h : Inv succ (fold_child st)) (hne : st.frames ≠ []) :
    ∃ st2, Inv succ st2 ∧ st2.index = st.index ∧ st2.s = st.s ∧ st2.out = st.out ∧
      st2.frames.length = st.frames.length ∧
      ((∃ l w it frames, st2.frames = ⟨l, false, w :: it⟩ :: frames ∧ st.index w = none ∧
          step succ emit st = some (Tarjan.new_node succ st2 w)) ∨
        ∃ l frames, st2.frames = ⟨l, false, []⟩ :: frames ∧ step succ emit st = finish emit st2 l frames) := by
  obtain ⟨low1, frames1, heq1, hlen1⟩ := fold_child_eq st
  obtain ⟨fr, frames, rfl⟩ : ∃ fr frames, frames1 = fr :: frames := by
    cases frames1 with
    | nil => exact absurd (length_eq_zero_iff.mp hlen1.symm) hne
    | cons fr frames => exact ⟨fr, frames, rfl⟩
  obtain ⟨-, -, -, -, -, hnew⟩ := scan_spec st.index st.in_s (low1 fr.node) fr.it
  have hst2 : Tarjan.scan_top (fold_child st) = { st with
      lowlink := update low1 fr.node (scan st.index st.in_s (low1 fr.node) fr.it).1
      frames := ⟨fr.node, false, (scan st.index st.in_s (low1 fr.node) fr.it).2⟩ :: frames } := by
    rw [heq1, Tarjan.scan_top]
  refine ⟨Tarjan.scan_top (fold_child st), h.scan_top (by rw [heq1]), by rw [hst2], by rw [hst2], by rw [hst2],
    by rw [hst2]; exact hlen1, ?_⟩
  have hframes : (Tarjan.scan_top (fold_child st)).frames =
      ⟨fr.node, false, (scan st.index st.in_s (low1 fr.node) fr.it).2⟩ :: frames := by rw [hst2]
  unfold step
  dsimp only
  cases hit : (scan st.index st.in_s (low1 fr.node) fr.it).2 with
  | cons w rest =>
    rw [hit] at hframes
    exact .inl ⟨fr.node, w, rest, frames, hframes, hnew w rest hit, by rw [hframes]⟩
  | nil =>
    rw [hit] at hframes
    exact .inr ⟨fr.node, frames, hframes, by rw [hframes]⟩

/-- A step of the search: the frame on top takes its next successor or ends. -/
theorem Good.step (hkeeps : Keeps succ emit P Q) (h : Good succ P st) (hne : st.frames ≠ []) :
    match step succ emit st with
    | some st' => Good succ P st'
    | none => Q := by
  obtain ⟨st2, hinv, hindex, hs, hout, -, hcase⟩ := h.inv.step_cases emit hne
  have hP : P st2.out {v | st2.Done v} := by
    have hdone : {v | st2.Done v} = {v | st.Done v} := by simp only [State.Done, hindex, hs]
    rw [hout, hdone]
    exact h.emitted
  rcases hcase with ⟨l, w, it, frames, hframes, hw, hstep⟩ | ⟨l, frames, hframes, hstep⟩
  · rw [hstep]
    refine Good.new_node hinv hP (hindex ▸ hw) fun fr' frames' heq => ?_
    rw [hframes] at heq
    cases heq
    exact ⟨rfl, it, rfl⟩
  · rw [hstep]
    exact Good.finish hkeeps hinv hP hframes

/-- The iterations that are still possible: each of the `vs` is entered and left at most once. -/
def weight (vs : List V) (st : State V σ) : Nat :=
  2 * (vs.filter fun v => (st.index v).isNone).length + st.frames.length

/-- A vertex gets its index once, so that the weight of the vertices without one falls. -/
theorem weight_new_node (succ : V → List V) (hv : v ∈ vs) (hnone : st.index v = none) :
    weight vs (new_node succ st v) < weight vs st := by
  have hfilter : (vs.filter fun u => ((new_node succ st v).index u).isNone) =
      (vs.filter fun u => (st.index u).isNone).filter (· ≠ v) := by
    rw [filter_filter]
    refine filter_congr fun u _ => ?_
    by_cases huv : u = v <;> simp [new_node, huv]
  have hlt : ((vs.filter fun u => (st.index u).isNone).filter (· ≠ v)).length <
      (vs.filter fun u => (st.index u).isNone).length :=
    length_filter_lt_length_iff_exists.mpr ⟨v, mem_filter.mpr ⟨hv, by simp [hnone]⟩, by simp⟩
  have hlen : (new_node succ st v).frames.length = st.frames.length + 1 := rfl
  unfold weight
  rw [hfilter]
  omega

/-- A step decreases the weight, and visited vertices stay visited. -/
theorem Inv.weight_step (hsucc : ∀ v w, w ∈ succ v → w ∈ vs) (h : Inv succ (fold_child st))
    (hne : st.frames ≠ []) (hstep : step succ emit st = some st') :
    weight vs st' < weight vs st ∧ ∀ v, st.index v ≠ none → st'.index v ≠ none := by
  obtain ⟨st2, hinv, hindex, -, -, hlen, hcase⟩ := h.step_cases emit hne
  have hweight : weight vs st2 = weight vs st := by rw [weight, hindex, hlen, weight]
  rw [← hweight]
  rcases hcase with ⟨l, w, it, frames, hframes, hw, hstep'⟩ | ⟨l, frames, hframes, hstep'⟩
  · rw [hstep', Option.some.injEq] at hstep
    obtain ⟨pre, hpre, -⟩ := (hinv.top hframes).1.own
    rw [← hstep]
    refine ⟨weight_new_node succ (hsucc l w (by rw [hpre]; simp)) (hindex ▸ hw), fun v hv => ?_⟩
    have hvw : v ≠ w := fun heq => hv (heq ▸ hw)
    simpa [Tarjan.new_node, hvw, hindex] using hv
  · have hfields : st'.index = st2.index ∧ st'.frames = frames := by
      rw [hstep', finish] at hstep
      split at hstep
      · obtain ⟨out, -, rfl⟩ := Option.map_eq_some_iff.mp hstep
        exact ⟨rfl, rfl⟩
      · cases hstep
        exact ⟨rfl, rfl⟩
    rw [weight, weight, hfields.1, hfields.2, hframes, length_cons, hindex]
    exact ⟨by omega, fun v => id⟩

/-- The search path is worked off. -/
theorem Good.run (hkeeps : Keeps succ emit P Q) (hsucc : ∀ v w, w ∈ succ v → w ∈ vs) (fuel : Nat)
    (st : State V σ) (h : Good succ P st) (hfuel : weight vs st ≤ fuel) :
    (run succ emit fuel st).Ends
      (fun st' => Good succ P st' ∧ st'.frames = [] ∧ ∀ v, st.index v ≠ none → st'.index v ≠ none) Q := by
  induction fuel generalizing st with
  | zero =>
    have hnil : st.frames = [] := length_eq_zero_iff.mp (by unfold weight at hfuel; omega)
    rw [Tarjan.run, if_pos (by simp [hnil])]
    exact ⟨h, hnil, fun _ => id⟩
  | succ fuel ih =>
    by_cases hnil : st.frames = []
    · rw [Tarjan.run, if_pos (by simp [hnil])]
      exact ⟨h, hnil, fun _ => id⟩
    · rw [Tarjan.run, if_neg (by simpa using hnil)]
      have hgood := h.step hkeeps hnil
      cases hstep : Tarjan.step succ emit st with
      | none =>
        rw [hstep] at hgood
        exact hgood
      | some st1 =>
        rw [hstep] at hgood
        obtain ⟨hlt, hvis⟩ := h.inv.weight_step hsucc hnil hstep
        exact (ih st1 hgood (by omega)).imp fun st' ⟨hgood, hnil, hvis'⟩ =>
          ⟨hgood, hnil, fun v hv => hvis' v (hvis v hv)⟩

/-- The whole search: all vertices of `vs` that are not skipped are visited, and every component is emitted. -/
theorem search_spec {todo : List V} (skip : V → Bool) (hkeeps : Keeps succ emit P Q)
    (hsucc : ∀ v w, w ∈ succ v → w ∈ vs) (htodo : ∀ v ∈ todo, v ∈ vs) {fuel : Nat} (hfuel : 2 * vs.length ≤ fuel)
    (st : State V σ) (h : Good succ P st) (hframes : st.frames = []) :
    (search succ emit skip fuel st todo).Ends (fun st' => P st'.out {v | st'.index v ≠ none} ∧
      (∀ v, st.index v ≠ none → st'.index v ≠ none) ∧ (∀ v ∈ todo, skip v = false → st'.index v ≠ none) ∧
      ∀ v, st'.index v ≠ none → ∀ w ∈ succ v, st'.index w ≠ none) Q := by
  induction todo generalizing st with
  | nil =>
    have hinv := h.inv_of_nil hframes
    have hs : st.s = [] := hinv.s_eq_nil hframes
    have hdone : ∀ v, st.Done v ↔ st.index v ≠ none := fun v => by simp [State.Done, hs]
    have hP := h.emitted
    simp only [hdone] at hP
    refine ⟨hP, fun _ => id, by simp, fun v hv w hw => ?_⟩
    exact (hdone w).mp (hinv.closed v ((hdone v).mpr hv) w hw)
  | cons v todo ih =>
    have ih := ih fun w hw => htodo w (mem_cons_of_mem v hw)
    by_cases hskip : ((st.index v).isSome || skip v)
    · rw [search, if_pos hskip]
      refine (ih st h hframes).imp fun st' ⟨hP, hmono, hall, hclosed⟩ => ⟨hP, hmono, fun w hw hws => ?_, hclosed⟩
      rcases mem_cons.mp hw with rfl | hw
      · rw [hws, Bool.or_false, Option.isSome_iff_ne_none] at hskip
        exact hmono w hskip
      · exact hall w hw hws
    · rw [search, if_neg hskip]
      have hnone : st.index v = none := by
        cases hv : st.index v with
        | none => rfl
        | some i => simp [hv] at hskip
      have hnew : Good succ P (new_node succ st v) :=
        Good.new_node (h.inv_of_nil hframes) h.emitted hnone fun fr frames heq => by simp [hframes] at heq
      have hweight := weight_new_node succ (htodo v (by simp)) hnone
      have hbound : weight vs st ≤ 2 * vs.length := by
        have hle := length_filter_le (fun v => (st.index v).isNone) vs
        rw [weight, hframes, length_nil]
        omega
      have hrun := hnew.run hkeeps hsucc fuel _ (by omega)
      generalize run succ emit fuel (new_node succ st v) = r at hrun
      cases r with
      | stopped | out_of_fuel => exact hrun
      | done st1 =>
        obtain ⟨hgood, hnil, hmono⟩ := hrun
        refine (ih st1 hgood hnil).imp fun st' ⟨hP, hmono', hall, hclosed⟩ =>
          ⟨hP, fun w hw => hmono' w (hmono w ?_), fun w hw hws => ?_, hclosed⟩
        · have hwv : w ≠ v := fun heq => hw (heq ▸ hnone)
          simpa [new_node, hwv] using hw
        · rcases mem_cons.mp hw with rfl | hw
          · exact hmono' w (hmono w (by simp [new_node]))
          · exact hall w hw hws

end Invariant

end Tarjan
