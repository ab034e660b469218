import Mathlib.Data.List.Dedup
import BooledASS.Logic.Term

open Function

namespace ctx_simplify

inductive srt where
  | bool
  | other (n : Nat)
deriving DecidableEq, Repr

/-- The function declarations that the simplifier looks at; `other` is any other function, and `non_app` is a variable
or a quantifier. -/
inductive decl where
  | OP_TRUE
  | OP_FALSE
  | OP_NOT
  | OP_OR
  | OP_AND
  | OP_ITE (range : srt)
  | OP_EQ
  | other (n : Nat) (range : srt)
  | non_app (n : Nat) (range : srt)
deriving DecidableEq, Repr

abbrev expr := Term decl

instance : LawfulBEq expr := inferInstance

def decl.range : decl → srt
  | .OP_ITE range | .other _ range | .non_app _ range => range
  | _ => .bool

def get_sort (e : expr) : srt := e.op.range

def is_app (e : expr) : Bool :=
  match e.op with
  | .non_app _ _ => false
  | _ => true

def is_true (e : expr) : Bool := e.op == .OP_TRUE
def is_false (e : expr) : Bool := e.op == .OP_FALSE
def mk_true : expr := .app .OP_TRUE []
def mk_false : expr := .app .OP_FALSE []
def mk_not (e : expr) : expr := .app .OP_NOT [e]

/-- `while (m.is_not(t, t)) sign = !sign;`. -/
def strip_not : expr → Bool → expr × Bool
  | .app .OP_NOT [t], sign => strip_not t (!sign)
  | t, sign => (t, sign)

/-! ### The asserted facts -/

/-- A fact is a term with the constant that it equals. -/
abbrev facts := expr → Option expr

structure ctx_propagate_assertions where
  m_assertions : facts := fun _ => none
  m_trail : List expr := []
  m_scopes : List Nat := []

namespace ctx_propagate_assertions

variable (c : ctx_propagate_assertions)

def scope_level : Nat := c.m_scopes.length
def push : ctx_propagate_assertions := { c with m_scopes := c.m_scopes ++ [c.m_trail.length] }

/-- The entry of a term that has one stays: with a depth limit a term may keep a fact unsimplified. -/
def assert_eq_core (t val : expr) : ctx_propagate_assertions :=
  if (c.m_assertions t).isSome then c
  else { c with m_assertions := update c.m_assertions t (some val), m_trail := c.m_trail ++ [t] }

def pop (num_scopes : Nat) : ctx_propagate_assertions :=
  match c.m_scopes[c.scope_level - num_scopes]? with
  | none => c
  | some old_trail_size =>
    { m_assertions := fun key => if key ∈ c.m_trail.drop old_trail_size then none else c.m_assertions key
      m_trail := c.m_trail.take old_trail_size
      m_scopes := c.m_scopes.take (c.scope_level - num_scopes) }

end ctx_propagate_assertions

/-! ### The simplifier -/

/-- A cached result with its level. The facts asserted when it was made are recorded for the proofs only. -/
structure cached_result where
  m_to : expr
  m_lvl : Nat
  made_under : facts

/-- The lists of `m_cache` have the newest result first. What `shared` answers depends on reference counts and on the
occurrences in the goal; here it is an arbitrary function of the term and of a clock. The log `reuses` of cached
results with the facts they are used under is for the proofs only. -/
structure imp where
  m_simp : ctx_propagate_assertions := {}
  m_cache : expr → List cached_result := fun _ => []
  m_cache_undo : Nat → List expr := fun _ => []
  m_num_steps : Nat := 0
  m_max_depth : Nat := 1024
  m_max_steps : Nat := 4294967295
  m_bail_on_blowup : Bool := false
  m_shared : Nat → expr → Bool
  m_clock : Nat := 0
  reuses : List (cached_result × facts) := []

namespace imp

variable (s : imp)

def scope_level : Nat := s.m_simp.scope_level
def shared (t : expr) : Bool := s.m_shared s.m_clock t
def tick : imp := { s with m_clock := s.m_clock + 1 }

def cache_core (src dst : expr) : imp :=
  { s with
    m_cache := update s.m_cache src (⟨dst, s.scope_level, s.m_simp.m_assertions⟩ :: s.m_cache src)
    m_cache_undo := update s.m_cache_undo s.scope_level (s.m_cache_undo s.scope_level ++ [src]) }

def cache (src dst : expr) : imp := if s.shared src then s.tick.cache_core src dst else s.tick

/-- The newest result of each key of the level is dropped, from the last key on. -/
def restore_cache (lvl : Nat) : imp :=
  { s with
    m_cache := (s.m_cache_undo lvl).reverse.foldl (fun cache key => update cache key (cache key).tail) s.m_cache
    m_cache_undo := update s.m_cache_undo lvl [] }

/-- The loop of `pop` from level `lvl` downwards. -/
def restore_levels : imp → Nat → Nat → imp
  | s, _, 0 => s
  | s, lvl, n + 1 => restore_levels (s.restore_cache lvl) (lvl - 1) n

def pop (num_scopes : Nat) : imp :=
  if num_scopes = 0 then s
  else restore_levels { s with m_simp := s.m_simp.pop num_scopes } s.scope_level num_scopes

/-- The newest result, if it was made at the current level. -/
def is_cached (t : expr) : Option cached_result :=
  match s.m_cache t with
  | [] => none
  | e :: _ => if e.m_lvl = s.scope_level then some e else none

section Params

variable (is_value : expr → Bool) (mk_app : decl → List expr → expr)

/-- `assert_eq_val` with the answer of `shared`. -/
def assert_eq_val (t val : expr) (mk_scope : Bool) : imp :=
  if s.shared t then
    { s with m_simp := (if mk_scope then s.m_simp.push else s.m_simp).assert_eq_core t val }
  else s

/-- The test for an equation with a value that ends `assert_expr`. -/
def assert_eq (t : expr) (sign mk_scope : Bool) : imp :=
  match t with
  | .app .OP_EQ [lhs, rhs] =>
    if sign then s
    else if is_value rhs then s.assert_eq_val lhs rhs mk_scope
    else if is_value lhs then s.assert_eq_val rhs lhs mk_scope
    else s
  | _ => s

/-- `assert_expr` of this context always answers true. -/
def assert_expr (p : expr) (sign : Bool) : imp :=
  let q := strip_not p sign
  if s.shared q.1 || s.shared p then
    (({ s with m_simp := s.m_simp.push.assert_eq_core q.1 (if q.2 then mk_false else mk_true) } : imp).tick.assert_eq
      is_value q.1 q.2 false).tick
  else (s.tick.assert_eq is_value q.1 q.2 true).tick

/-- The loop over the arguments, in either direction. `none` is the early exit: an argument decides the formula. The
flag is `modified`. -/
def or_and_loop (simplify : imp → expr → imp × expr) (OR : Bool) : imp → List expr → imp × Option (List expr × Bool)
  | s, [] => (s, some ([], false))
  | s, arg :: rest =>
    let p := simplify s arg
    let s := if !rest.isEmpty && !is_true p.2 && !is_false p.2 then p.1.assert_expr is_value p.2 OR else p.1
    if (OR && is_false p.2) || (!OR && is_true p.2) then
      let r := or_and_loop simplify OR s rest
      (r.1, r.2.map fun q => (q.1, true))
    else if (OR && is_true p.2) || (!OR && is_false p.2) then (s, none)
    else
      let r := or_and_loop simplify OR s rest
      (r.1, r.2.map fun q => (p.2 :: q.1, q.2 || p.2 != arg))

/-- The result of an early exit. With the other flag it is the formula without arguments. -/
def decided (OR : Bool) : expr := if OR then mk_true else mk_false

/-- The loop, with the scopes that it opened closed again. -/
def or_and_pass (simplify : imp → expr → imp × expr) (OR : Bool) (s : imp) (args : List expr) :
    imp × Option (List expr × Bool) :=
  let r := or_and_loop is_value simplify OR s args
  (r.1.pop (r.1.scope_level - s.scope_level), r.2)

/-- The formula of the arguments that are left, in reverse order. -/
def or_and_result (OR : Bool) (t : expr) (modified : Bool) (new_args : List expr) : expr :=
  if !modified then t
  else
    match new_args with
    | [] => decided !OR
    | [arg] => arg
    | args => mk_app t.op args.reverse

def simplify_or_and (simplify : imp → expr → imp × expr) (OR : Bool) (s : imp) (t : expr) : imp × expr :=
  let p := or_and_pass is_value simplify OR s t.args
  match p.2 with
  | none => (p.1.cache t (decided OR), decided OR)
  | some new_args =>
    let q := or_and_pass is_value simplify OR p.1 new_args.1.reverse
    match q.2 with
    | none => (q.1.cache t (decided OR), decided OR)
    | some new_new_args =>
      let r := or_and_result mk_app OR t (new_args.2 || new_new_args.2) new_new_args.1
      (q.1.cache t r, r)

/-- A branch that is simplified under the condition or its negation. -/
def simplify_branch (simplify : imp → expr → imp × expr) (s : imp) (new_c : expr) (sign : Bool) (t : expr) :
    imp × expr :=
  let p := simplify (s.assert_expr is_value new_c sign) t
  (p.1.pop (p.1.scope_level - s.scope_level), p.2)

def simplify_ite (simplify : imp → expr → imp × expr) (s : imp) (ite : expr) : imp × expr :=
  match ite.args with
  | [c, t, e] =>
    let pc := simplify s c
    if is_true pc.2 then
      let r := simplify pc.1 t
      (r.1.cache ite r.2, r.2)
    else if is_false pc.2 then
      let r := simplify pc.1 e
      (r.1.cache ite r.2, r.2)
    else
      let pt := simplify_branch is_value simplify pc.1 pc.2 false t
      let pe := simplify_branch is_value simplify pt.1 pc.2 true e
      let r :=
        if c = pc.2 ∧ t = pt.2 ∧ e = pe.2 then ite
        else if pt.2 = pe.2 then pt.2
        else mk_app ite.op [pc.2, pt.2, pe.2]
      (pe.1.cache ite r, r)
  | _ => (s, ite)

def simplify_args (simplify : imp → expr → imp × expr) : imp → List expr → imp × List expr
  | s, [] => (s, [])
  | s, arg :: rest =>
    let p := simplify s arg
    let r := simplify_args simplify p.1 rest
    (r.1, p.2 :: r.2)

def simplify_app (simplify : imp → expr → imp × expr) (s : imp) (t : expr) : imp × expr :=
  let r := simplify_args simplify s t.args
  (r.1, if r.2 = t.args then t else mk_app t.op r.2)

/-- `simplify` at the depth that is `fuel` below the limit. -/
def simplify : Nat → imp → expr → imp × expr
  | 0, s, t => (s, t)
  | fuel + 1, s, t =>
    if s.m_num_steps ≥ s.m_max_steps ∨ !is_app t then (s, t)
    else
      match s.is_cached t with
      | some e => ({ s with reuses := (e, s.m_simp.m_assertions) :: s.reuses }, e.m_to)
      | none =>
        match s.m_simp.m_assertions t with
        | some r => (s, r)
        | none =>
          let s := { s with m_num_steps := s.m_num_steps + 1 }
          match t.op with
          | .OP_OR => simplify_or_and is_value mk_app (simplify fuel) true s t
          | .OP_AND => simplify_or_and is_value mk_app (simplify fuel) false s t
          | .OP_ITE _ => simplify_ite is_value mk_app (simplify fuel) s t
          | _ => simplify_app mk_app (simplify fuel) s t

end Params

end imp

/-! ### Goals -/

/-- The formulas of a goal with their dependencies. Proofs are not recorded. -/
structure goal (D : Type) where
  m_forms : List (expr × Option D)
  m_inconsistent : Bool := false
  proofs_enabled : Bool := false

namespace goal

variable {D : Type} (g : goal D)

def form (i : Nat) : expr := if g.m_inconsistent then mk_false else ((g.m_forms[i]?).map Prod.fst).getD mk_true
def dep (i : Nat) : Option D := (g.m_forms[i]?).bind Prod.snd

def push_back (f : expr) (d : Option D) : goal D :=
  if is_true f then g
  else if is_false f then { g with m_forms := [(mk_false, d)], m_inconsistent := true }
  else { g with m_forms := g.m_forms ++ [(f, d)] }

mutual

/-- The loop of `quick_process`: the conjuncts of the formula, or of its negation, in the order in which they come off
the stack. -/
def quick_conjuncts : Bool → expr → List expr
  | true, .app .OP_AND args => quick_conjuncts_list true args
  | false, .app .OP_OR args => quick_conjuncts_list false args
  | pol, .app .OP_NOT [g] => quick_conjuncts (!pol) g
  | pol, curr => [if pol then curr else mk_not curr]

def quick_conjuncts_list : Bool → List expr → List expr
  | _, [] => []
  | pol, t :: ts => quick_conjuncts pol t ++ quick_conjuncts_list pol ts

end

mutual

/-- The leaves of `slow_process`, for a formula or for the negation of one. -/
def slow_conjuncts : Bool → expr → List expr
  | true, .app .OP_AND args => slow_and args
  | true, .app .OP_NOT [.app .OP_OR args] => slow_not_or args
  | false, .app .OP_OR args => slow_not_or args
  | true, f => [f]
  | false, f => [mk_not f]

def slow_and : List expr → List expr
  | [] => []
  | t :: ts => slow_conjuncts true t ++ slow_and ts

def slow_not_or : List expr → List expr
  | [] => []
  | .app .OP_NOT [t] :: ts => slow_conjuncts true t ++ slow_not_or ts
  | t :: ts => slow_conjuncts false t ++ slow_not_or ts

end

/-- The conjuncts after the one that is saved are appended, until the goal is inconsistent. -/
def push_conjuncts (d : Option D) : goal D → List expr → goal D
  | g, [] => g
  | g, f :: fs => if g.m_inconsistent then g else push_conjuncts d (g.push_back f d) fs

/-- Whether `quick_process` splits the formula at all. -/
def is_split (f : expr) : Bool :=
  match f with
  | .app .OP_AND _ => true
  | .app .OP_NOT [.app .OP_OR _] => true
  | _ => false

/-- The formula at `i` is replaced; a formula that is false is appended, which makes the goal inconsistent unless it is
a conjunction. -/
def update_saved (i : Nat) (f : expr) (d : Option D) (saved : expr) : goal D :=
  if g.m_inconsistent then g
  else if is_false saved then g.push_back f d
  else { g with m_forms := g.m_forms.set i (saved, d) }

/-- A formula with conjuncts none of which is saved stays as it is. -/
def update (i : Nat) (f : expr) (d : Option D) : goal D :=
  if g.m_inconsistent then g
  else if is_split f then
    match if g.proofs_enabled then slow_conjuncts true f else quick_conjuncts true f with
    | [] => g.update_saved i f d f
    | saved :: rest =>
      (push_conjuncts d g rest).update_saved i (if g.proofs_enabled then saved else f) d saved
  else g.update_saved i f d f

end goal

namespace imp

variable {D : Type} (is_value : expr → Bool) (mk_app : decl → List expr → expr)

/-- One formula is simplified and asserted, if it is not the last one. -/
def process_form (last : Bool) (s : imp) (g : goal D) (i : Nat) : imp × goal D :=
  let p := simplify is_value mk_app s.m_max_depth s (g.form i)
  let s := if !last && !is_true p.2 && !is_false p.2 && (g.dep i).isNone then p.1.assert_expr is_value p.2 false
    else p.1
  (s, g.update i p.2 (g.dep i))

/-- The loop over the formulas with the given indices. -/
def process_forms : imp → goal D → List Nat → imp × goal D
  | s, g, [] => (s, g)
  | s, g, i :: is =>
    if g.m_inconsistent then (s, g)
    else
      let p := process_form is_value mk_app is.isEmpty s g i
      process_forms p.1 p.2 is

def process_goal (s : imp) (g : goal D) : imp × goal D :=
  let p := process_forms is_value mk_app s g (List.range g.m_forms.length)
  let s1 := p.1.pop (p.1.scope_level - s.scope_level)
  let q := process_forms is_value mk_app s1 p.2 (List.range p.2.m_forms.length).reverse
  (q.1.pop (q.1.scope_level - s1.scope_level), q.2)

mutual

def subterms : expr → List expr
  | .app f ts => .app f ts :: subterms_list ts

def subterms_list : List expr → List expr
  | [] => []
  | t :: ts => subterms t ++ subterms_list ts

end

/-- The number of nodes of a term in which equal nodes are shared. -/
def expr_size (t : expr) : Nat := (subterms t).dedup.length

/-- `process`: one formula by itself. -/
def process (s : imp) (t : expr) : imp × expr :=
  let p := simplify is_value mk_app s.m_max_depth s t
  (p.1, if s.m_bail_on_blowup && expr_size t < expr_size p.2 then t else p.2)

/-- The loop over the formulas when proofs are enabled. -/
def process_each : imp → goal D → List Nat → imp × goal D
  | s, g, [] => (s, g)
  | s, g, i :: is =>
    if g.m_inconsistent then (s, g)
    else
      let p := process is_value mk_app s (g.form i)
      process_each p.1 (g.update i p.2 (g.dep i)) is

/-- `operator()`. -/
def run (s : imp) (g : goal D) : imp × goal D :=
  if g.m_inconsistent then (s, g)
  else
    let s := { s with m_num_steps := 0 }
    if g.proofs_enabled then process_each is_value mk_app s g (List.range g.m_forms.length)
    else process_goal is_value mk_app s g

/-- What the destructor does to the scopes and the cache. -/
def destroy (s : imp) : imp := (s.pop s.scope_level).restore_cache 0

/-- The tactic on a goal: `clean` destroys the simplifier after the run. -/
def tactic (s : imp) (g : goal D) : imp × goal D :=
  let p := run is_value mk_app s g
  (p.1.destroy, p.2)

end imp

end ctx_simplify
