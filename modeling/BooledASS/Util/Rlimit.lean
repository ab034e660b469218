import Mathlib.Data.List.Basic
import BooledASS.Logic.Machine

open List Function

/-- A resource limit with the limits below it. The limits of different threads form one tree, and the calls below
hold one lock for the whole tree. -/
structure reslimit where
  m_cancel : UInt32 := 0
  m_suspend : Bool := false
  m_count : UInt64 := 0
  m_limit : UInt64 := 18446744073709551615
  m_children : List reslimit := []

namespace reslimit

mutual

def set_cancel (f : UInt32) : reslimit → reslimit
  | ⟨_, m_suspend, m_count, m_limit, m_children⟩ =>
    ⟨f, m_suspend, m_count, m_limit, set_cancel_children f m_children⟩

/-- The loop over the children. -/
def set_cancel_children (f : UInt32) : List reslimit → List reslimit
  | [] => []
  | r :: rs => set_cancel f r :: set_cancel_children f rs

end

variable (r : reslimit)

def cancel : reslimit := r.set_cancel (r.m_cancel + 1)
def reset_cancel : reslimit := r.set_cancel 0
def inc_cancel : reslimit := r.set_cancel (r.m_cancel + 1)
def dec_cancel : reslimit := if r.m_cancel > 0 then r.set_cancel (r.m_cancel - 1) else r

/-- There is no polling timer. -/
def not_canceled : Bool := r.m_suspend || (r.m_cancel == 0 && decide (r.m_count ≤ r.m_limit))

def is_canceled : Bool := !r.not_canceled

/-- The limit at the end of a path, each step of which is the index of a child. -/
def get : List Nat → reslimit → Option reslimit
  | [], r => some r
  | i :: p, r => r.m_children[i]?.bind (get p)

/-- A call on the limit at the end of a path. -/
def modify : List Nat → (reslimit → reslimit) → reslimit → reslimit
  | [], f, r => f r
  | i :: p, f, r => { r with m_children := r.m_children.modify i (modify p f) }

/-- The calls that the threads make on the limit of a child. -/
inductive call where
  | cancel
  | inc_cancel
  | dec_cancel
deriving DecidableEq

def call.apply : call → reslimit → reslimit
  | .cancel => reslimit.cancel
  | .inc_cancel => reslimit.inc_cancel
  | .dec_cancel => reslimit.dec_cancel

/-- The calls after the cancellation of the parent: another one, or a call on a child. -/
inductive op where
  | cancel_parent
  | child (i : Nat) (c : call)
deriving DecidableEq

/-- The parent is at the end of the path `p`. -/
def exec (p : List Nat) (r : reslimit) : op → reslimit
  | .cancel_parent => r.modify p cancel
  | .child i c => r.modify (p ++ [i]) c.apply

def run (p : List Nat) (r : reslimit) (ops : List op) : reslimit := ops.foldl (exec p) r

/-- The `inc_cancel` calls on each child that have no `dec_cancel` yet, since the last cancellation of the parent. -/
def unmatched (k : Nat → Nat) : op → Nat → Nat
  | .cancel_parent => fun _ => 0
  | .child i .inc_cancel => update k i (k i + 1)
  | .child i .dec_cancel => update k i (k i - 1)
  | .child _ .cancel => k

/-- Every `dec_cancel` on a child has an `inc_cancel` on that child before it, with no cancellation of the parent in
between. -/
def Matched (k : Nat → Nat) : List op → Prop
  | [] => True
  | o :: ops => (∀ i, o = .child i .dec_cancel → 0 < k i) ∧ Matched (unmatched k o) ops

variable {r t : reslimit} {p q : List Nat} {f : reslimit → reslimit} {k : Nat → Nat} {b i : Nat}

theorem get_append : r.get (p ++ q) = (r.get p).bind (get q) := by
  induction p generalizing r with
  | nil => rfl
  | cons i p ih =>
    simp only [get, Option.bind_assoc]
    exact congrArg _ (funext fun c => ih)

theorem modify_append : r.modify (p ++ q) f = r.modify p (modify q f) := by
  induction p generalizing r with
  | nil => rfl
  | cons i p ih =>
    exact congrArg (fun g => { r with m_children := r.m_children.modify i g }) (funext fun c => ih)

theorem get_modify_self : (r.modify p f).get p = (r.get p).map f := by
  induction p generalizing r with
  | nil => rfl
  | cons i p ih =>
    simp only [modify, get, getElem?_modify_eq]
    cases r.m_children[i]? with
    | none => rfl
    | some c => exact ih

/-- What happens to the parent does not depend on where it stands in the tree. -/
theorem get_run (ops : List op) : (r.run p ops).get p = (r.get p).map fun t => t.run [] ops := by
  induction ops generalizing r with
  | nil => simp [run]
  | cons o ops ih =>
    have hstep : (r.exec p o).get p = (r.get p).map fun t => t.exec [] o := by
      cases o with
      | cancel_parent => exact get_modify_self
      | child i c =>
        rw [exec, modify_append]
        exact get_modify_self
    rw [run, foldl_cons, ← run, ih, hstep, Option.map_map]
    rfl

theorem set_cancel_m_cancel (v : UInt32) : (r.set_cancel v).m_cancel = v := by
  cases r
  rw [set_cancel]

theorem set_cancel_children_eq (v : UInt32) (rs : List reslimit) :
    set_cancel_children v rs = rs.map (set_cancel v) := by
  induction rs with
  | nil => rw [set_cancel_children, map_nil]
  | cons r rs ih => rw [set_cancel_children, ih, map_cons]

/-- The whole subtree gets the same counter. -/
theorem set_cancel_child {c : reslimit} {v : UInt32} (hc : (r.set_cancel v).m_children[i]? = some c) :
    c.m_cancel = v := by
  cases r with
  | mk m_cancel m_suspend m_count m_limit m_children =>
    rw [set_cancel, set_cancel_children_eq, getElem?_map] at hc
    obtain ⟨c', -, rfl⟩ := Option.map_eq_some_iff.mp hc
    exact set_cancel_m_cancel v

/-- Every child is cancelled at least once more often than it has `inc_cancel` calls without a `dec_cancel`, and no
counter is above `b`. -/
structure Broadcast (t : reslimit) (k : Nat → Nat) (b : Nat) : Prop where
  parent : t.m_cancel.toNat ≤ b
  child : ∀ i c, t.m_children[i]? = some c → k i < c.m_cancel.toNat ∧ c.m_cancel.toNat ≤ b

theorem toNat_succ {v : UInt32} (hle : v.toNat ≤ b) (hb : b + 1 < 4294967296) : (v + 1).toNat = v.toNat + 1 := by
  exact Nat.mod_eq_of_lt (by simp; omega)

theorem broadcast_cancel (h : t.m_cancel.toNat ≤ b) (hb : b + 1 < 4294967296) :
    t.cancel.Broadcast (fun _ => 0) (b + 1) := by
  have hsucc := toNat_succ h hb
  refine ⟨?_, fun i c hc => ?_⟩
  · rw [cancel, set_cancel_m_cancel]
    omega
  · rw [set_cancel_child hc]
    omega

/-- A call on a child that changes its counter from `c` to `f c`. -/
theorem Broadcast.child_step {k' : Nat → Nat} (h : t.Broadcast k b) (hk : ∀ j, j ≠ i → k' j = k j)
    (hf : ∀ c, k i < c.m_cancel.toNat → c.m_cancel.toNat ≤ b →
      k' i < (f c).m_cancel.toNat ∧ (f c).m_cancel.toNat ≤ b + 1) : (t.modify [i] f).Broadcast k' (b + 1) := by
  refine ⟨Nat.le_succ_of_le h.parent, fun j c hc => ?_⟩
  have hc : (t.m_children.modify i f)[j]? = some c := hc
  by_cases hj : i = j
  · subst hj
    rw [getElem?_modify_eq] at hc
    obtain ⟨c', hc', rfl⟩ := Option.map_eq_some_iff.mp hc
    exact hf c' (h.child i c' hc').1 (h.child i c' hc').2
  · rw [getElem?_modify_ne _ _ hj] at hc
    obtain ⟨hlt, hle⟩ := h.child j c hc
    exact ⟨hk j (Ne.symm hj) ▸ hlt, Nat.le_succ_of_le hle⟩

/-- One call of the parent or of a child. A matched `dec_cancel` takes back one of the `inc_cancel` calls that are
counted, so that the child stays canceled. -/
theorem Broadcast.exec {o : op} (h : t.Broadcast k b) (hb : b + 1 < 4294967296)
    (hdec : ∀ i, o = .child i .dec_cancel → 0 < k i) : (t.exec [] o).Broadcast (unmatched k o) (b + 1) := by
  cases o with
  | cancel_parent => exact broadcast_cancel h.parent hb
  | child i c =>
    cases c with
    | cancel =>
      refine h.child_step (fun _ _ => rfl) fun c hlt hle => ?_
      have hsucc := toNat_succ hle hb
      rw [call.apply, cancel, set_cancel_m_cancel]
      simp only [unmatched]
      omega
    | inc_cancel =>
      refine h.child_step (fun j hj => update_of_ne hj _ _) fun c hlt hle => ?_
      have hsucc := toNat_succ hle hb
      rw [call.apply, inc_cancel, set_cancel_m_cancel]
      simp only [unmatched, update_self]
      omega
    | dec_cancel =>
      refine h.child_step (fun j hj => update_of_ne hj _ _) fun c hlt hle => ?_
      have hpos := hdec i rfl
      have hgt : c.m_cancel > 0 := UInt32.lt_iff_toNat_lt.mpr (by simp; omega)
      have hle1 : 1 ≤ c.m_cancel := UInt32.le_iff_toNat_le.mpr (by simp; omega)
      have hpred : (c.m_cancel - 1).toNat = c.m_cancel.toNat - 1 := UInt32.toNat_sub_of_le _ _ hle1
      rw [call.apply, dec_cancel, if_pos hgt, set_cancel_m_cancel]
      simp only [unmatched, update_self]
      omega

theorem Broadcast.run {ops : List op} (h : t.Broadcast k b) (hb : b + ops.length < 4294967296)
    (hmatched : Matched k ops) : ∃ k', (t.run [] ops).Broadcast k' (b + ops.length) := by
  induction ops generalizing t k b with
  | nil => exact ⟨k, h⟩
  | cons o ops ih =>
    rw [length_cons] at hb ⊢
    obtain ⟨hdec, hrest⟩ := hmatched
    obtain ⟨k', hrun⟩ := ih (h.exec (by omega) hdec) (by omega) hrest
    exact ⟨k', by rwa [show b + (ops.length + 1) = b + 1 + ops.length by omega]⟩

/-- The cancellation of a parent reaches its children and stays with them: for every tree and every sequence of
calls on the parent and its children in which each `dec_cancel` undoes an `inc_cancel` made after the last
cancellation of the parent, and in which no counter wraps around, every child that is not suspended is canceled. -/
theorem cancel_reaches_children {parent c : reslimit} {ops : List op} (hp : r.get p = some parent)
    (hmatched : Matched (fun _ => 0) ops) (hwrap : parent.m_cancel.toNat + 1 + ops.length < 4294967296)
    (hc : ((r.modify p cancel).run p ops).get (p ++ [i]) = some c) (hrunning : c.m_suspend = false) :
    c.is_canceled := by
  have hparent : ((r.modify p cancel).run p ops).get p = some (parent.cancel.run [] ops) := by
    rw [get_run, get_modify_self, hp]
    rfl
  obtain ⟨k, hrun⟩ := (broadcast_cancel (Nat.le_refl _) (by omega)).run hwrap hmatched
  rw [get_append, hparent] at hc
  have hchild : (parent.cancel.run [] ops).m_children[i]? = some c := by simpa [get] using hc
  have hne : c.m_cancel ≠ 0 := fun hzero => by
    have hlt := (hrun.child i c hchild).1
    rw [hzero] at hlt
    exact absurd hlt (Nat.not_lt_zero _)
  simp [is_canceled, not_canceled, hrunning, hne]

/-- A limit with one child. -/
def parent_of_one : reslimit := { m_children := [{}] }

/-- One child, which is canceled and released once after its parent was canceled. -/
theorem cancel_reaches_children_one : ∃ c,
    ((parent_of_one.modify [] cancel).run [] [.child 0 .inc_cancel, .child 0 .dec_cancel]).get ([] ++ [0]) = some c ∧
    c.is_canceled := by
  have hp : parent_of_one.get [] = some parent_of_one := rfl
  have hmatched : Matched (fun _ => 0) [.child 0 .inc_cancel, .child 0 .dec_cancel] := by
    refine ⟨nofun, ?_, trivial⟩
    rintro i ⟨⟩
    exact Nat.zero_lt_one
  exact ⟨_, rfl, cancel_reaches_children (i := 0) hp hmatched (by decide) rfl rfl⟩

/-- The lease of a worker is canceled, then the caller cancels, and then the worker gives up the lease. The `dec_cancel`
has its `inc_cancel`, but it takes back the cancellation by the caller, which has not been added to the counter. -/
theorem cancel_lost_to_dec_cancel :
    let r := parent_of_one.run [] [.child 0 .inc_cancel, .cancel_parent, .child 0 .dec_cancel]
    r.is_canceled ∧ (r.get [0]).map is_canceled = some false := by
  decide

end reslimit
