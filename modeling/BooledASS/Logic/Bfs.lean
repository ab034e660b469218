import Mathlib.Data.Fintype.Card

/-! A breadth-first search that lists the vertices in the order in which they leave the queue. -/

open List

namespace Bfs

variable {V : Type} [DecidableEq V]

structure State (V : Type) where
  visited : V → Bool := fun _ => false
  queue : List V := []
  order : List V := []

namespace State

variable (s : State V)

/-- A vertex that was not visited goes to the end of the queue. -/
def visit (w : V) : State V :=
  if s.visited w then s
  else { s with visited := Function.update s.visited w true, queue := s.queue ++ [w] }

/-- The visited vertices are those listed and those in the queue, each once. -/
structure Inv : Prop where
  nodup : (s.order ++ s.queue).Nodup
  visited_iff : ∀ v, s.visited v ↔ v ∈ s.order ++ s.queue

def unvisited [Fintype V] : Nat := (Finset.univ.filter fun v => s.visited v = false).card

variable {s} {v w : V} {ws : List V}

/-- A node that was visited before is left alone; another one is marked and queued. -/
theorem Inv.visit (h : s.Inv) (w : V) : (s.visit w).Inv := by
  unfold State.visit
  split
  · exact h
  · rename_i hw
    have hnew : w ∉ s.order ++ s.queue := fun hmem => hw ((h.visited_iff w).mpr hmem)
    constructor
    · rw [← append_assoc]
      exact nodup_append.mpr ⟨h.nodup, by simp, fun a ha b hb => by
        rw [mem_singleton.mp hb]
        exact fun hab => hnew (hab ▸ ha)⟩
    · intro v
      rw [← append_assoc, mem_append, ← h.visited_iff v]
      by_cases hv : v = w
      · simp [hv]
      · simp [hv]

theorem Inv.foldl_visit (h : s.Inv) (ws : List V) : (ws.foldl State.visit s).Inv := by
  induction ws generalizing s with
  | nil => exact h
  | cons w ws ih => exact ih (h.visit w)

@[simp] theorem visit_order : (s.visit w).order = s.order := by
  unfold visit
  split <;> rfl

@[simp] theorem foldl_visit_order : (ws.foldl visit s).order = s.order := by
  induction ws generalizing s with
  | nil => rfl
  | cons w ws ih => rw [foldl_cons, ih, visit_order]

theorem visited_visit (h : s.visited v) : (s.visit w).visited v := by
  unfold visit
  split
  · exact h
  · by_cases hv : v = w <;> simp [hv, h]

theorem visited_foldl_visit (h : s.visited v) : (ws.foldl visit s).visited v := by
  induction ws generalizing s with
  | nil => exact h
  | cons w ws ih => exact ih (visited_visit h)

theorem queue_length_le_foldl_visit (s : State V) (ws : List V) : s.queue.length ≤ (ws.foldl visit s).queue.length := by
  induction ws generalizing s with
  | nil => exact le_rfl
  | cons w ws ih =>
    have hvisit : s.queue.length ≤ (s.visit w).queue.length := by
      unfold visit
      split <;> simp
    exact hvisit.trans (ih _)

variable [Fintype V]

/-- A vertex that is put into the queue is no longer unvisited. -/
theorem unvisited_visit (s : State V) (w : V) :
    (s.visit w).unvisited + (s.visit w).queue.length = s.unvisited + s.queue.length := by
  unfold visit
  split
  · rfl
  · rename_i hw
    have herase : (Finset.univ.filter fun v => Function.update s.visited w true v = false) =
        (Finset.univ.filter fun v => s.visited v = false).erase w := by
      ext v
      by_cases hv : v = w <;> simp [hv]
    have hmem : w ∈ Finset.univ.filter fun v => s.visited v = false := by simpa using hw
    have hcard := Finset.card_erase_add_one hmem
    simp only [unvisited, herase, length_append, length_singleton]
    omega

theorem unvisited_foldl_visit (s : State V) (ws : List V) :
    (ws.foldl visit s).unvisited + (ws.foldl visit s).queue.length = s.unvisited + s.queue.length := by
  induction ws generalizing s with
  | nil => rfl
  | cons w ws ih => rw [foldl_cons, ih, unvisited_visit]

end State

/-- The vertex at the front of the queue is listed and its neighbours are visited. -/
def expand (nbrs : V → List V) (s : State V) (u : V) (queue : List V) : State V :=
  (nbrs u).foldl State.visit { s with queue := queue, order := s.order ++ [u] }

theorem unvisited_expand [Fintype V] (nbrs : V → List V) (s : State V) (u : V) (queue : List V) :
    (expand nbrs s u queue).unvisited + (expand nbrs s u queue).queue.length = s.unvisited + queue.length :=
  State.unvisited_foldl_visit { s with queue := queue, order := s.order ++ [u] } (nbrs u)

/-- The search runs until the queue is empty. Each vertex enters the queue once, which bounds the loop. -/
def search [Fintype V] (nbrs : V → List V) (s : State V) : State V :=
  match _hqueue : s.queue with
  | [] => s
  | u :: queue => search nbrs (expand nbrs s u queue)
termination_by s.unvisited + s.queue.length
decreasing_by
  have hmeasure := unvisited_expand nbrs s u queue
  rw [_hqueue, List.length_cons]
  omega

variable {nbrs : V → List V} {s : State V} {v : V}

theorem expand_inv {u : V} {queue : List V} (h : s.Inv) (hqueue : s.queue = u :: queue) :
    (expand nbrs s u queue).Inv := by
  refine .foldl_visit ⟨?_, fun v => ?_⟩ _
  · simpa [hqueue] using h.nodup
  · simpa [hqueue] using h.visited_iff v

variable [Fintype V]

theorem search_inv (h : s.Inv) : (search nbrs s).Inv := by
  fun_induction search nbrs s with
  | case1 => exact h
  | case2 s u queue hqueue ih => exact ih (expand_inv h hqueue)

theorem search_queue : (search nbrs s).queue = [] := by
  fun_induction search nbrs s with
  | case1 s hqueue => exact hqueue
  | case2 s u queue hqueue ih => exact ih

theorem visited_search (h : s.visited v) : (search nbrs s).visited v := by
  fun_induction search nbrs s with
  | case1 => exact h
  | case2 s u queue hqueue ih => exact ih (State.visited_foldl_visit h)

/-- Every vertex of the queue is listed in the end. -/
theorem order_length_search : s.order.length + s.queue.length ≤ (search nbrs s).order.length := by
  fun_induction search nbrs s with
  | case1 s hqueue => simp [hqueue]
  | case2 s u queue hqueue ih =>
    have hgrow : queue.length ≤ (expand nbrs s u queue).queue.length :=
      State.queue_length_le_foldl_visit { s with queue := queue, order := s.order ++ [u] } (nbrs u)
    have horder : (expand nbrs s u queue).order = s.order ++ [u] := State.foldl_visit_order
    rw [horder, length_append, length_singleton] at ih
    rw [hqueue, length_cons]
    omega

end Bfs
