import BooledASS.Util.SortingNetwork.Gates

open List

namespace psort_nw

inductive cmp_t where
  | LE
  | GE
  | EQ
  | GE_FULL
  | LE_FULL
deriving DecidableEq, Repr

/-- The cost functions `vc_*` are used only to choose between two constructions, and any choice will do. -/
structure choices where
  use_dcard : cmp_t → Nat → Nat → Bool
  use_dsorting : cmp_t → Nat → Bool
  use_dsmerge : cmp_t → Nat → Nat → Nat → Bool

variable {L V : Type}

/-- The literals with an even and with an odd index, which `split` separates. -/
def evens : List L → List L
  | [] => []
  | [x] => [x]
  | x :: _ :: xs => x :: evens xs

def odds : List L → List L
  | [] | [_] => []
  | _ :: y :: xs => y :: odds xs

theorem length_evens (xs : List L) : (evens xs).length = (xs.length + 1) / 2 := by
  fun_induction evens xs <;> simp_all
  omega

theorem length_odds (xs : List L) : (odds xs).length = xs.length / 2 := by
  fun_induction odds xs <;> simp_all
  omega

/-- The clauses for all choices of `k` literals. -/
def add_subset (polarity : L → L) : Nat → List L → List L → List (List L)
  | 0, lits, _ => [lits]
  | _ + 1, _, [] => []
  | k + 1, lits, x :: xs => add_subset polarity k (lits ++ [polarity x]) xs ++ add_subset polarity (k + 1) lits xs

variable [DecidableEq L] (ctx : psort_expr L V) (cfg : choices) (t : cmp_t)

def cmp_ge (x1 x2 y1 y2 : L) : List (List L) := [[mk_not ctx y2, x1], [mk_not ctx y2, x2], [mk_not ctx y1, x1, x2]]

def cmp_le (x1 x2 y1 y2 : L) : List (List L) :=
  [[mk_not ctx x1, y1], [mk_not ctx x2, y1], [mk_not ctx x1, mk_not ctx x2, y2]]

/-- The clauses of `cmp`. -/
def cmp (x1 x2 y1 y2 : L) : List (List L) :=
  match t with
  | .LE | .LE_FULL => cmp_le ctx x1 x2 y1 y2
  | .GE | .GE_FULL => cmp_ge ctx x1 x2 y1 y2
  | .EQ => cmp_ge ctx x1 x2 y1 y2 ++ cmp_le ctx x1 x2 y1 y2

/-- The loop of `interleave` over `as[i+1]` and `bs[i]`, with the literal that is left over. -/
def interleave_loop : List L → List L → state L → List L × state L
  | a :: as, b :: bs, s =>
    let y1 := mk_max ctx a b
    let y2 := mk_min ctx a b
    let (out, s) := interleave_loop as bs (add_clauses ctx s (cmp ctx t a b y1 y2))
    (y1 :: y2 :: out, s)
  | [], bs, s => (if bs.length = 1 then bs else [], s)
  | as, [], s => (if as.length = 1 then as else [], s)

def interleave (as bs : List L) (s : state L) : List L × state L :=
  match as with
  | [] => ([], s)
  | a :: as =>
    let (out, s) := interleave_loop ctx t as bs s
    (a :: out, s)

/-- The clauses of `dsmerge` for the outputs `out i` from below. -/
def dsmerge_le (c : Nat) (as bs : List L) (out : Nat → L) : List (List L) :=
  (as.zipIdx.map fun (x, i) => [mk_not ctx x, out i]) ++ (bs.zipIdx.map fun (y, j) => [mk_not ctx y, out j]) ++
    as.zipIdx.flatMap fun (x, i) => bs.zipIdx.flatMap fun (y, j) =>
      if i + j + 2 ≤ c then [[mk_not ctx x, mk_not ctx y, out (i + j + 1)]] else []

/-- The clauses of `dsmerge` for the outputs from above. -/
def dsmerge_ge (c : Nat) (as bs : List L) (out : Nat → L) : List (List L) :=
  (range c).flatMap fun k =>
    (if as.length ≤ k then (bs[k - as.length]?).toList.map fun y => [mk_not ctx (out k), y] else []) ++
    (if bs.length ≤ k then (as[k - bs.length]?).toList.map fun x => [mk_not ctx (out k), x] else []) ++
    (range (min as.length (k + 1))).flatMap fun i =>
      (as[i]?).toList.flatMap fun x => (bs[k - i]?).toList.map fun y => [mk_not ctx (out k), x, y]

def dsmerge (c : Nat) (as bs : List L) (s : state L) : List L × state L :=
  let out i := ctx.fresh (s.next + i)
  let (outs, s) := freshes ctx c s
  let s := if t ≠ .GE then add_clauses ctx s (dsmerge_le ctx c as bs out) else s
  (outs, if t ≠ .LE then add_clauses ctx s (dsmerge_ge ctx c as bs out) else s)

def merge (as bs : List L) (s : state L) : List L × state L :=
  match as, bs with
  | [], bs => (bs, s)
  | as, [] => (as, s)
  | a :: as, b :: bs =>
    if _h : as = [] ∧ bs = [] then
      let y1 := mk_max ctx a b
      let y2 := mk_min ctx a b
      ([y1, y2], add_clauses ctx s (cmp ctx t a b y1 y2))
    else if cfg.use_dsmerge t (as.length + 1) (bs.length + 1) (as.length + bs.length + 2) then
      dsmerge ctx t (as.length + bs.length + 2) (a :: as) (b :: bs) s
    else if (as.length + 1) % 2 = 0 ∧ (bs.length + 1) % 2 = 1 then merge (b :: bs) (a :: as) s
    else
      let (out1, s) := merge (evens (a :: as)) (evens (b :: bs)) s
      let (out2, s) := merge (odds (a :: as)) (odds (b :: bs)) s
      interleave ctx t out1 out2 s
termination_by 2 * (as.length + bs.length) + if as.length % 2 = 0 ∧ bs.length % 2 = 1 then 1 else 0
decreasing_by
  all_goals
    simp only [not_and_or, ← length_eq_zero_iff] at _h
    simp only [length_evens, length_odds, length_cons]
    split_ifs <;> omega

/-- The clauses for a maximum that is the last output. -/
def max_clauses (x1 x2 y : L) : List (List L) :=
  (if t ≠ .GE then [[mk_not ctx x1, y], [mk_not ctx x2, y]] else []) ++ if t ≠ .LE then [[mk_not ctx y, x1, x2]] else []

/-- The first `c` outputs of a merge. -/
def smerge (c : Nat) (as bs : List L) (s : state L) : List L × state L :=
  match as, bs with
  | [], bs => (bs.take c, s)
  | as, [] => (as.take c, s)
  | a :: as, b :: bs =>
    if _h1 : as = [] ∧ bs = [] ∧ c = 1 then
      let y := mk_max ctx a b
      ([y], add_clauses ctx s (max_clauses ctx t a b y))
    else if _ha : c < as.length + 1 then smerge c ((a :: as).take c) (b :: bs) s
    else if _hb : c < bs.length + 1 then smerge c (a :: as) ((b :: bs).take c) s
    else if _hc : as.length + bs.length + 2 ≤ c then merge ctx cfg t (a :: as) (b :: bs) s
    else if cfg.use_dsmerge t (as.length + 1) (bs.length + 1) c then dsmerge ctx t c (a :: as) (b :: bs) s
    else
      let even := c % 2 = 0
      let (out1, s) := smerge (if even then 1 + c / 2 else (c + 1) / 2) (evens (a :: as)) (evens (b :: bs)) s
      let (out2, s) := smerge (if even then c / 2 else (c - 1) / 2) (odds (a :: as)) (odds (b :: bs)) s
      if even then
        match out1.getLast?, out2.getLast? with
        | some z1, some z2 =>
          let y := mk_max ctx z1 z2
          let (out, s) := interleave ctx t out1.dropLast out2.dropLast (add_clauses ctx s (max_clauses ctx t z1 z2 y))
          (out ++ [y], s)
        | _, _ => ([], s)
      else interleave ctx t out1 out2 s
termination_by as.length + bs.length
decreasing_by
  all_goals
    simp only [← length_eq_zero_iff] at _h1
    simp only [length_evens, length_odds, length_cons, length_take]
    omega

/-- All outputs are new variables, with a clause for every set of inputs. -/
def dsorting (m : Nat) (xs : List L) (s : state L) : List L × state L :=
  let out i := ctx.fresh (s.next + i)
  let (outs, s) := freshes ctx m s
  let les := (range m).flatMap fun k => add_subset (mk_not ctx) (k + 1) [out k] xs
  let ges := (range m).flatMap fun k => add_subset id (xs.length - k) [mk_not ctx (out k)] xs
  let s := if t ≠ .GE then add_clauses ctx s les else s
  (outs, if t ≠ .LE then add_clauses ctx s ges else s)

def sorting (xs : List L) (s : state L) : List L × state L :=
  match xs with
  | [] => ([], s)
  | [x] => ([x], s)
  | [x, y] => merge ctx cfg t [x] [y] s
  | x :: y :: z :: xs =>
    let n := xs.length + 3
    if cfg.use_dsorting t n then dsorting ctx t n (x :: y :: z :: xs) s
    else
      let (out1, s) := sorting ((x :: y :: z :: xs).take (n / 2)) s
      let (out2, s) := sorting ((x :: y :: z :: xs).drop (n / 2)) s
      merge ctx cfg t out1 out2 s
termination_by xs.length
decreasing_by
  all_goals
    simp only [length_cons, length_take, length_drop]
    omega

/-- The first `k` outputs of a sorting network, where `k` is positive. -/
def card (k : Nat) (xs : List L) (s : state L) : List L × state L :=
  if _h : xs.length ≤ max k 1 then sorting ctx cfg t xs s
  else if cfg.use_dcard t k xs.length then dsorting ctx t k xs s
  else
    let (out1, s) := card k (xs.take (xs.length / 2)) s
    let (out2, s) := card k (xs.drop (xs.length / 2)) s
    smerge ctx cfg t k out1 out2 s
termination_by xs.length
decreasing_by
  all_goals
    simp only [length_take, length_drop]
    omega

end psort_nw
