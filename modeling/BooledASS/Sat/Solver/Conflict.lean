import BooledASS.Sat.Solver.Backtrack

namespace sat.solver

variable (s : solver)

def update_max_level (lit : literal) (acc : Nat × Bool) : Nat × Bool :=
  if s.lvl lit.var < acc.1 then acc else (s.lvl lit.var, acc.1 < s.lvl lit.var)

/-- The level of a conflict, and whether one literal alone has that level. -/
def get_max_lvl (not_l : Option literal) (js : justification) : Nat × Bool :=
  let level := not_l.elim 0 fun l => s.lvl l.var
  match js.get_kind with
  | .NONE => (max level js.level, true)
  | .BINARY l => s.update_max_level l (level, true)
  | .CLAUSE off => (s.m_cls off).m_lits.foldl (fun acc l => s.update_max_level l acc) (level, true)

/-- `skip_literals_above_conflict_level`: the trail from its end down, without the literals above the
conflict level at its end. -/
def skip_literals_above_conflict_level : List literal :=
  s.m_trail.reverse.dropWhile fun l => s.m_conflict_lvl < s.lvl l.var

def process_antecedent (antecedent : literal) (num_marks : Nat) : solver × Nat :=
  if !s.is_marked antecedent.var ∧ s.lvl antecedent.var > 0 then
    if s.lvl antecedent.var = s.m_conflict_lvl then (s.mark antecedent.var, num_marks + 1)
    else ({ s.mark antecedent.var with m_lemma := s.m_lemma ++ [~~~antecedent] }, num_marks)
  else (s, num_marks)

def process_antecedents : solver → List literal → (num_marks : Nat) → solver × Nat
  | s, [], num_marks => (s, num_marks)
  | s, l :: rest, num_marks =>
    let p := s.process_antecedent l num_marks
    process_antecedents p.1 rest p.2

/-- The literals of a clause other than its `consequent`, which is one of the watches. -/
def clause_antecedents (c : clause) : Option literal → List literal
  | none => c.m_lits
  | some consequent => if c.at 0 = consequent then c.m_lits.drop 1 else c.at 0 :: c.m_lits.drop 2

/-- The antecedents that the switch of `resolve_conflict_core` runs through. -/
def antecedents (consequent : Option literal) (js : justification) : List literal :=
  match js.get_kind with
  | .NONE => []
  | .BINARY l => [~~~l]
  | .CLAUSE off => (clause_antecedents (s.m_cls off) consequent).map (~~~·)

/-- The loop of `resolve_conflict_core` down the trail: the next marked literal of the conflict level
is resolved upon, until it is the only one left. An empty rest of the trail is the failure of
`VERIFY(idx > 0)`. -/
def resolve_walk : solver → (num_marks : Nat) → List literal → Option (solver × literal)
  | _, _, [] => none
  | s, num_marks, consequent :: rest =>
    if s.is_marked consequent.var ∧ s.lvl consequent.var = s.m_conflict_lvl then
      let num_marks := if num_marks = 0 then 4294967295 else num_marks - 1
      let s1 := s.reset_mark consequent.var
      if num_marks > 0 then
        let p := s1.process_antecedents (s1.antecedents (some consequent) (s1.m_justification consequent.var)) num_marks
        resolve_walk p.1 p.2 rest
      else some (s1, consequent)
    else resolve_walk s num_marks rest

/-- From `m_lemma.reset()` to `m_lemma[0] = ~consequent`. The slot saved for the first UIP is filled
in at the end. -/
def resolve_first_uip : Option solver :=
  let s0 := { s with m_lemma := [] }
  let p := match s.m_not_l with
    | none => (s0, 0)
    | some not_l => s0.process_antecedent not_l 0
  let p := p.1.process_antecedents (s.antecedents (s.m_not_l.map (~~~·)) s.m_conflict) p.2
  match p.1.resolve_walk p.2 s.skip_literals_above_conflict_level with
  | none => none
  | some (s, consequent) => some { s with m_lemma := (~~~consequent) :: s.m_lemma }

/-- `u2s`: the bit of an element in a `level_approx_set`. -/
def level_bit (level : Nat) : BitVec 32 := 1#32 <<< (level % 32)

def lemma_lvl_set : BitVec 32 := s.m_lemma.foldl (fun set l => set ||| level_bit (s.lvl l.var)) 0#32
def may_contain (set : BitVec 32) (level : Nat) : Bool := set &&& level_bit level != 0#32

/-- `reset_unmark(old_size)`. -/
def reset_unmark (old_size : Nat) : solver :=
  { (s.m_unmark.drop old_size).foldl (fun s v => s.reset_mark v) s with
    m_unmark := s.m_unmark.take old_size }

/-- The antecedents of a literal of the trail as `implied_by_marked` goes through them: it compares
the first watch by its variable. -/
def antecedents_of_var (v : bool_var) : List literal :=
  match (s.m_justification v).get_kind with
  | .NONE => []
  | .BINARY l => [~~~l]
  | .CLAUSE off =>
    let c := s.m_cls off
    (if (c.at 0).var = v then c.m_lits.drop 1 else c.at 0 :: c.m_lits.drop 2).map (~~~·)

/-- `process_antecedent_for_minimization` on each antecedent in turn, with `m_lemma_min_stack`;
`none` is the early failure. -/
def process_antecedents_for_minimization (lvl_set : BitVec 32) :
    solver → List literal → List literal → solver × Option (List literal)
  | s, stack, [] => (s, some stack)
  | s, stack, a :: rest =>
    if !s.is_marked a.var ∧ s.lvl a.var > 0 then
      if may_contain lvl_set (s.lvl a.var) then
        process_antecedents_for_minimization lvl_set
          { s.mark a.var with m_unmark := s.m_unmark ++ [a.var] } (a :: stack) rest
      else (s, none)
    else process_antecedents_for_minimization lvl_set s stack rest

/-- The loop of `implied_by_marked`; the top of the stack is its head, `none` is out of fuel. -/
def implied_loop (lvl_set : BitVec 32) (old_size : Nat) :
    Nat → solver → List literal → Option (solver × Bool)
  | _, s, [] => some (s, true)
  | 0, _, _ :: _ => none
  | fuel + 1, s, lit :: stack =>
    if (s.m_justification lit.var).get_kind = .NONE ∧ s.lvl lit.var > 0 then
      some (s.reset_unmark old_size, false)
    else
      match process_antecedents_for_minimization lvl_set s stack (s.antecedents_of_var lit.var) with
      | (s, none) => some (s.reset_unmark old_size, false)
      | (s, some stack) => implied_loop lvl_set old_size fuel s stack

/-- Every literal on the stack but the first one stands for a newly marked variable. -/
def implied_by_marked (lvl_set : BitVec 32) (lit : literal) : Option (solver × Bool) :=
  implied_loop lvl_set s.m_unmark.length (s.m_trail.length + 1) s [lit]

/-- The loop of `minimize_lemma` over the literals after the first one. -/
def minimize_loop (lvl_set : BitVec 32) :
    solver → List literal → List literal → Option (solver × List literal)
  | s, kept, [] => some (s, kept)
  | s, kept, l :: rest =>
    match s.implied_by_marked lvl_set l with
    | none => none
    | some (s, true) => minimize_loop lvl_set { s with m_unmark := s.m_unmark ++ [l.var] } kept rest
    | some (s, false) => minimize_loop lvl_set s (kept ++ [l]) rest

def minimize_lemma : Option solver :=
  match s.m_lemma with
  | [] => some s
  | l0 :: rest =>
    match minimize_loop s.lemma_lvl_set s [] rest with
    | none => none
    | some (s, kept) => some { s.reset_unmark 0 with m_lemma := l0 :: kept }

def update_lrb_reasoned_lit (lit : literal) : solver :=
  if s.is_marked lit.var then s
  else { s.mark lit.var with m_lemma := s.m_lemma ++ [lit] }

/-- The literals of the justification of a variable, as `update_lrb_reasoned` visits them. -/
def reason_literals (v : bool_var) : List literal :=
  match (s.m_justification v).get_kind with
  | .NONE => []
  | .BINARY l => [l]
  | .CLAUSE off => (s.m_cls off).m_lits

/-- The variables met are marked and their literals appended to the lemma, to be unmarked and cut
off again; what is counted for them is left out. -/
def update_lrb_reasoned : solver :=
  let sz := s.m_lemma.length
  let s1 := s.m_lemma.reverse.foldl (fun s l => (s.reason_literals l.var).foldl update_lrb_reasoned_lit s)
    (s.m_lemma.head?.elim s fun l0 => s.mark l0.var)
  let s2 := s1.m_lemma.head?.elim s1 fun l0 => s1.reset_mark l0.var
  { (s1.m_lemma.drop sz).foldl (fun s l => s.reset_mark l.var) s2 with
    m_lemma := s1.m_lemma.take sz }

def reset_lemma_var_marks : solver :=
  let s1 := match s.m_config.m_branching_heuristic with
    | .BH_VSIDS => s.update_lrb_reasoned
    | .BH_CHB => s
  s1.m_lemma.tail.foldl (fun s l => s.reset_mark l.var) s1

/-- The leading binary watches of a list; the loop of `dyn_sub_res` stops at the first other one. -/
def leading_binaries : List watched → List literal
  | .BINARY l _ :: rest => l :: leading_binaries rest
  | _ => []

/-- `eliminate ~l2 from lemma because we have the clause l \/ l2`. -/
def dyn_sub_res_step (l0 l2 : literal) : solver :=
  if s.is_marked_lit (~~~l2) ∧ l0 ≠ ~~~l2 then s.unmark_lit (~~~l2) else s

def dyn_sub_res_lit (l0 l : literal) : solver :=
  if s.is_marked_lit l then
    (leading_binaries (s.m_watches (~~~l)) ++ (s.m_cached_bins (~~~l)).getD []).foldl
      (fun s l2 => s.dyn_sub_res_step l0 l2) s
  else s

/-- The last loop of `dyn_sub_res`: the marked literals stay and are unmarked. -/
def dyn_sub_res_collect : solver → List literal → List literal → solver × List literal
  | s, kept, [] => (s, kept)
  | s, kept, l :: rest =>
    if s.is_marked_lit l then dyn_sub_res_collect (s.unmark_lit l) (kept ++ [l]) rest
    else dyn_sub_res_collect s kept rest

def dyn_sub_res : solver :=
  match s.m_lemma with
  | [] => s
  | l0 :: rest =>
    let s1 := (l0 :: rest).foldl (fun s l => s.mark_lit l) s
    let s2 := (l0 :: rest).foldl (fun s l => s.dyn_sub_res_lit l0 l) s1
    let r := dyn_sub_res_collect s2 [] (l0 :: rest)
    { r.1 with m_lemma := r.2 }

/-- The first half of `learn_lemma_and_backjump`: what becomes of the lemma before backjumping. -/
def simplify_lemma : Option solver :=
  if s.m_config.m_minimize_lemmas then
    match s.minimize_lemma with
    | none => none
    | some s =>
      let s := s.reset_lemma_var_marks
      some (if s.m_config.m_dyn_sub_res then s.dyn_sub_res else s)
  else some s.reset_lemma_var_marks

def allow_backtracking : Bool := s.m_conflicts_since_init > s.m_config.m_backtrack_init_conflicts

def use_backjumping (num_scopes : Nat) : Bool :=
  num_scopes > 0 && (num_scopes ≤ s.m_config.m_backtrack_scopes || !s.allow_backtracking)

/-- The last position from 1 on with level `backjump_lvl` changes place with the first literal. -/
def swap_highest (backjump_lvl : Nat) (lits : List literal) : List literal :=
  match ((List.range' 1 (lits.length - 1)).reverse.find? fun i =>
      s.lvl (lits.getD i ⟨0, false⟩).var == backjump_lvl) with
  | some i => swapAt lits i 0
  | none => lits

/-- The highest level of the literals after the first one. -/
def backjump_lvl (rest : List literal) : Nat := rest.foldr (fun l m => max (s.lvl l.var) m) 0

/-- The backtracking of `learn_lemma_and_backjump`, for the lemma `l0 :: rest`. -/
def backjump (l0 : literal) (rest : List literal) : Option solver :=
  let backtrack_lvl := max (s.lvl l0.var) (s.backjump_lvl rest)
  let num_scopes := s.scope_lvl - s.backjump_lvl rest
  if s.use_backjumping num_scopes then s.pop_reinit num_scopes
  else s.pop_reinit (s.scope_lvl - backtrack_lvl + 1)

/-- The second half of `learn_lemma_and_backjump`. -/
def backjump_and_learn : Option solver :=
  match s.m_lemma with
  | [] => (s.pop_reinit s.scope_lvl).map fun s => s.mk_clause_core [] true
  | l0 :: rest =>
    let lits := if s.lvl l0.var < s.backjump_lvl rest then s.swap_highest (s.backjump_lvl rest) (l0 :: rest)
      else l0 :: rest
    (s.backjump l0 rest).map fun s => { s.mk_clause_core lits true with m_lemma := [] }

/-- The lemma of the current conflict, after resolution and minimization, in `m_lemma`. -/
def conflict_lemma : Option solver := s.resolve_first_uip.bind simplify_lemma

/-- The state with the level of the conflict computed, and whether one literal alone has it. -/
def enter_conflict : solver × Bool :=
  let m := s.get_max_lvl s.m_not_l s.m_conflict
  ({ s with m_conflicts_since_init := s.m_conflicts_since_init + 1, m_conflict_lvl := m.1 }, m.2)

/-- The state in which the lemma of a conflict is computed. -/
def analysis_state : solver := { s.enter_conflict.1 with m_force_conflict_analysis := false }

/-- The extraction of the unsat core is left out: with assumptions a conflict at level 0 or 1 returns
`l_false` here. -/
def resolve_conflict_core : Option (solver × lbool) :=
  let p := s.enter_conflict
  let s := p.1
  if s.m_conflict_lvl ≤ 1 ∧ s.tracking_assumptions then some (s, .l_false)
  else if s.m_conflict_lvl = 0 then some (s, .l_false)
  else if s.allow_backtracking ∧ p.2 ∧ !s.m_force_conflict_analysis then
    (s.pop_reinit (s.scope_lvl - s.m_conflict_lvl + 1)).map fun s =>
      ({ s with m_force_conflict_analysis := true }, .l_undef)
  else
    ({ s with m_force_conflict_analysis := false }.conflict_lemma.bind backjump_and_learn).map fun s => (s, .l_undef)

end sat.solver
