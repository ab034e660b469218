import BooledASS.Util.SortingNetwork.AtMostOne
import BooledASS.Util.SortingNetwork.Counting

open List

namespace psort_nw

inductive sorting_network_encoding where
  | sorted_at_most
  | grouped_at_most
  | bimander_at_most
  | ordered_at_most
  | unate_at_most
  | circuit_at_most
deriving DecidableEq, Repr

variable {L V : Type} [DecidableEq L] (ctx : psort_expr L V)

section Model

variable (enc : sorting_network_encoding) (cfg : choices) (full : Bool)

def mk_exactly_1 (xs : List L) (s : state L) : L × state L :=
  if enc = .ordered_at_most then mk_ordered_1 ctx full true xs s
  else
    let (r1, ors, s) :=
      if enc = .bimander_at_most then mk_at_most_1_bimander ctx full xs s else mk_at_most_1 ctx full xs true s
    if full then (mk_and ctx [r1, mk_or ctx ors], s) else (r1, add_clause ctx s (ors ++ [mk_not ctx r1]))

mutual

/-- The literal and the new state; `none` where the source reads outside of an array. -/
def ge (k : Nat) (xs : List L) (s : state L) : Option (L × state L) :=
  if _hk : xs.length < k then some (ctx.mk_false, s)
  else if k = 0 then some (ctx.mk_true, s)
  else if k = 1 then some (mk_or ctx xs, s)
  else if _hd : xs.length < 2 * k then le (xs.length - k) (xs.map (mk_not ctx)) s
  else
    let t := if full then .GE_FULL else .GE
    match enc with
    | .unate_at_most => (unate_cmp ctx t k xs).map (·, s)
    | .circuit_at_most => (circuit_cmp ctx t k xs).map (·, s)
    | _ =>
      let (out, s) := card ctx cfg t k xs s
      (out[k - 1]?).map (·, s)
termination_by if xs.length < 2 * k then 1 else 0
decreasing_by simp only [length_map]; split_ifs <;> omega

def le (k : Nat) (xs : List L) (s : state L) : Option (L × state L) :=
  if _hk : xs.length ≤ k then some (ctx.mk_true, s)
  else if _hd : xs.length < 2 * k then ge (xs.length - k) (xs.map (mk_not ctx)) s
  else if k = 1 then
    match enc with
    | .bimander_at_most =>
      let (r, _, s) := mk_at_most_1_bimander ctx full xs s
      some (r, s)
    | .ordered_at_most => some (mk_ordered_1 ctx full false xs s)
    | _ =>
      let (r, _, s) := mk_at_most_1 ctx full xs false s
      some (r, s)
  else
    let t := if full then .LE_FULL else .LE
    match enc with
    | .unate_at_most => (unate_cmp ctx t k xs).map (·, s)
    | .circuit_at_most => (circuit_cmp ctx t k xs).map (·, s)
    | _ =>
      let (out, s) := card ctx cfg t (k + 1) xs s
      (out[k]?).map (mk_not ctx ·, s)
termination_by if xs.length < 2 * k then 1 else 0
decreasing_by simp only [length_map]; split_ifs <;> omega

end

def eq (k : Nat) (xs : List L) (s : state L) : Option (L × state L) :=
  if _hk : xs.length < k then some (ctx.mk_false, s)
  else if _hd : xs.length < 2 * k then eq (xs.length - k) (xs.map (mk_not ctx)) s
  else if k = 1 then some (mk_exactly_1 ctx enc full xs s)
  else
    match enc with
    | .unate_at_most => (unate_cmp ctx .EQ k xs).map (·, s)
    | .circuit_at_most => (circuit_cmp ctx .EQ k xs).map (·, s)
    | _ =>
      let (out, s) := card ctx cfg .EQ (k + 1) xs s
      if k = 0 then (out[k]?).map (mk_not ctx ·, s)
      else do
        let o' ← out[k - 1]?
        let o ← out[k]?
        return (mk_min ctx o' (mk_not ctx o), s)
termination_by if xs.length < 2 * k then 1 else 0
decreasing_by simp only [length_map, length_attach]; split_ifs <;> omega

end Model

variable {ctx} {enc : sorting_network_encoding} {cfg : choices} {full : Bool} {s s' : state L} {xs : List L} {k : Nat}

/-- Without `full` every clause has the negation of the result. -/
theorem models_mk_at_most_1_loop {result : L} {v : V} (hv : ctx.val v result = false) (use_ors : Bool) (m : Nat)
    (ins ors : List L) (p : state L × List L) (hp : p.1.Models ctx v) :
    (mk_at_most_1_loop ctx false use_ors result m ins ors p).2.1.Models ctx v := by
  have hgroup (p : state L × List L) (hp : p.1.Models ctx v) (g : List L) :
      (mk_at_most_1_small ctx false result p g).1.Models ctx v := by
    unfold mk_at_most_1_small
    split
    · exact hp
    · exact models_pairs.mpr ⟨hp, fun hr => by simp [hv] at hr⟩
  have hgroups (gs : List (List L)) (p : state L × List L) (hp : p.1.Models ctx v) :
      (gs.foldl (mk_at_most_1_small ctx false result) p).1.Models ctx v :=
    foldlRecOn (motive := fun p => p.1.Models ctx v) gs _ hp fun p hp g _ => hgroup p hp g
  fun_induction mk_at_most_1_loop ctx false use_ors result m ins ors p with
  | case1 => exact hp
  | case2 => exact hgroups _ _ hp
  | case3 m ins ors p hne m' p' hle ors' ih => exact ih (hgroups _ _ hp)

theorem models_mk_at_most_1 {v : V} {use_ors : Bool} (hs : s.Models ctx v)
    (hv : ctx.val v (ctx.fresh s.next) = false) : (mk_at_most_1 ctx false xs use_ors s).2.2.Models ctx v :=
  models_mk_at_most_1_loop hv use_ors 2 xs [] _ hs

section Encodes

variable {C C' : V → Prop} {r : L × state L}

omit [DecidableEq L] in
theorem Encodes.congr (h : Encodes ctx full s xs C r) (hC : ∀ v, C v ↔ C' v) : Encodes ctx full s xs C' r := by
  obtain rfl : C = C' := funext fun v => propext (hC v)
  exact h

/-- The condition is put on the negated literals. -/
theorem Encodes.dual {o : Option (L × state L)} (h : ∃ r, o = some r ∧ Encodes ctx full s (xs.map (mk_not ctx)) C r)
    (hC : ∀ v, C v ↔ C' v) : ∃ r, o = some r ∧ Encodes ctx full s xs C' r := by
  obtain ⟨r, heq, h⟩ := h
  refine ⟨r, heq, congr ⟨h.models, h.sound, h.exact, fun P v0 hP => h.complete P v0 fun v hv l hl => ?_⟩ hC⟩
  obtain ⟨x, hx, rfl⟩ := mem_map.mp hl
  rw [val_mk_not, val_mk_not, hP v hv x hx]

theorem countP_map_mk_not (v : V) (xs : List L) :
    (xs.map (mk_not ctx)).countP (ctx.val v) = xs.length - xs.countP (ctx.val v) := by
  have := length_eq_countP_add_countP (ctx.val v) (l := xs)
  simp only [countP_map, Function.comp_def, val_mk_not, Bool.not_eq_true, Bool.decide_eq_false] at this ⊢
  omega

omit [DecidableEq L] in
theorem countP_eq_one_iff (v : V) (xs : List L) : xs.countP (ctx.val v) = 1 ↔ One ctx v xs ∧ ∃ l ∈ xs, ctx.val v l := by
  rw [one_iff_countP, ← countP_pos_iff]
  omega

/-- At most one and at least one. -/
theorem Encodes.exactly {r1 : L} {ors : List L} (h : Encodes ctx full s xs (One ctx · xs) (r1, s'))
    (hors : ∀ v, ors.any (ctx.val v) = xs.any (ctx.val v)) : Encodes ctx full s xs (fun v => xs.countP (ctx.val v) = 1)
      (if full then (mk_and ctx [r1, mk_or ctx ors], s') else (r1, add_clause ctx s' (ors ++ [mk_not ctx r1]))) := by
  have hany v : (∃ l ∈ xs, ctx.val v l) ↔ ors.any (ctx.val v) := by rw [hors, any_eq_true]
  refine .congr ?_ fun v => (countP_eq_one_iff v xs).symm
  cases full with
  | true =>
    have hval v : ctx.val v (mk_and ctx [r1, mk_or ctx ors]) ↔ ctx.val v r1 ∧ ∃ l ∈ xs, ctx.val v l := by simp [hany]
    exact ⟨h.models, fun v hv hr => ((hval v).mp hr).imp_left (h.sound v hv), fun hfull v hv hC =>
      (hval v).mpr (hC.imp_left (h.exact hfull v hv)), fun P v0 hP _ => (h.complete P v0 hP fun _ _ => .inl rfl).imp
        (fun _ => id) fun v _ hQ hC => (hval v).mpr (hC.imp_left hQ)⟩
  | false =>
    have hclause v : (add_clause ctx s' (ors ++ [mk_not ctx r1])).Models ctx v ↔
        s'.Models ctx v ∧ (ctx.val v r1 → ∃ l ∈ xs, ctx.val v l) := by
      rw [models_add_clause, hany]
      refine and_congr_right fun _ => ?_
      cases hr : ctx.val v r1 <;> simp [hr]
    refine ⟨fun v hv => h.models v ((hclause v).mp hv).1, fun v hv hr => ⟨h.sound v ((hclause v).mp hv).1 hr,
      ((hclause v).mp hv).2 hr⟩, nofun, fun P v0 hP hor => ?_⟩
    have hP' v hv := (hor v hv).resolve_left nofun
    exact ((h.complete P v0 hP fun v hv => .inr (hP' v hv).1).trans (.of_models (next_add_clause _ _) fun v hv hm =>
      (hclause v).mpr ⟨hm, fun _ => (hP' v hv.1).2⟩)).imp (fun _ => id) fun v _ hQ hC => hQ.1 hC.1

theorem mk_exactly_1_encodes :
    Encodes ctx full s xs (fun v => xs.countP (ctx.val v) = 1) (mk_exactly_1 ctx enc full xs s) := by
  have hors v : (mk_at_most_1 ctx full xs true s).2.1.any (ctx.val v) = xs.any (ctx.val v) :=
    mk_at_most_1_loop_ors 2 xs [] _ fun _ => rfl
  by_cases hordered : enc = .ordered_at_most
  · rw [mk_exactly_1, if_pos hordered]
    exact mk_ordered_1_encodes.congr fun v => by simp [OrderedCond, countP_eq_one_iff]
  by_cases hbimander : enc = .bimander_at_most
  · rw [mk_exactly_1, if_neg hordered, if_pos hbimander]
    refine Encodes.exactly mk_at_most_1_bimander_encodes fun v => ?_
    cases full
    · exact any_map_mk_or 1 xs
    · exact hors v
  · rw [mk_exactly_1, if_neg hordered, if_neg hbimander]
    exact Encodes.exactly (mk_at_most_1_encodes true) hors

omit [DecidableEq L] in
theorem Encodes.mono {exact : Bool} (h : Encodes ctx full s xs C r) (hexact : exact → full) :
    Encodes ctx exact s xs C r :=
  ⟨h.models, h.sound, fun he => h.exact (hexact he), fun P v0 hP hor => h.complete P v0 hP fun v hv =>
    (hor v hv).imp_left hexact⟩

theorem le_one_encodes : ∃ r, le ctx enc cfg full 1 xs s = some r ∧
    Encodes ctx full s xs (fun v => xs.countP (ctx.val v) ≤ 1) r := by
  rw [le.eq_def]
  by_cases hn : xs.length ≤ 1
  · rw [dif_pos hn]
    exact ⟨_, rfl, .of_gate fun v => iff_of_true (ctx.val_true v) (countP_le_length.trans hn)⟩
  · rw [dif_neg hn, dif_neg (by omega)]
    have hone v : One ctx v xs ↔ _ := one_iff_countP xs
    cases enc
    case bimander_at_most => exact ⟨_, rfl, mk_at_most_1_bimander_encodes.congr hone⟩
    case ordered_at_most => exact ⟨_, rfl, mk_ordered_1_encodes.congr fun v => by simp [OrderedCond, hone]⟩
    all_goals exact ⟨_, rfl, (mk_at_most_1_encodes false).congr hone⟩

theorem eq_one_encodes (hn : 2 ≤ xs.length) : ∃ r, eq ctx enc cfg full 1 xs s = some r ∧
    Encodes ctx full s xs (fun v => xs.countP (ctx.val v) = 1) r := by
  rw [eq.eq_def, dif_neg (by omega), dif_neg (by omega)]
  exact ⟨_, rfl, mk_exactly_1_encodes⟩

end Encodes

/-- What is asked of the literal for a condition on literals that are below `n`. -/
structure Faithful (ctx : psort_expr L V) (full : Bool) (n : Nat) (C : V → Prop) (r : L × state L) : Prop where
  sound : ∀ v, r.2.Models ctx v → ctx.val v r.1 → C v
  extends_true : ∀ v, C v → ∃ v', (∀ l, ctx.Below n l → ctx.val v' l = ctx.val v l) ∧ r.2.Models ctx v' ∧ ctx.val v' r.1
  exact : full → ∀ v, r.2.Models ctx v → (ctx.val v r.1 ↔ C v)
  extends_all : full → ∀ v, ∃ v', (∀ l, ctx.Below n l → ctx.val v' l = ctx.val v l) ∧ r.2.Models ctx v'

omit [DecidableEq L] in
theorem Encodes.faithful {n : Nat} {r : L × state L} (p : Nat → Prop) (hxs : ∀ x ∈ xs, ctx.Below n x)
    (h : Encodes ctx full { next := n } xs (fun v => p (xs.countP (ctx.val v))) r) :
    Faithful ctx full n (fun v => p (xs.countP (ctx.val v))) r := by
  have hcount {v v' : V} (hv : ∀ l, ctx.Below n l → ctx.val v' l = ctx.val v l) :
      xs.countP (ctx.val v') = xs.countP (ctx.val v) := countP_congr fun x hx => by rw [hv x (hxs x hx)]
  have hextends v hor := (h.complete
    (fun v' => ∀ l, ctx.Below n l → ctx.val v' l = ctx.val v l) v (fun v' hv' x hx => hv' x (hxs x hx))
    fun v' hv' => by rwa [hcount hv']).extends rfl fun _ => id
  refine ⟨h.sound, fun v hC => ?_, fun hfull v hv => ⟨h.sound v hv, h.exact hfull v hv⟩, fun hfull v => ?_⟩
  · obtain ⟨v', hagree, hm, hr⟩ := hextends v (.inr hC)
    exact ⟨v', hagree, hm, hr (by rwa [hcount hagree])⟩
  · obtain ⟨v', hagree, hm, -⟩ := hextends v (.inl hfull)
    exact ⟨v', hagree, hm⟩

/-- At most one and exactly one, in the encodings that use clauses.  The literal implies the condition, and every
assignment that meets the condition extends to a model in which the literal is true; with `full` the two are equivalent
and every assignment extends to a model.  The new variables are those from `n` on, and no literal given may use them. -/
theorem at_most_one_exact (ctx : psort_expr L V) (cfg : choices) (full : Bool) {n : Nat} (hxs : ∀ x ∈ xs, ctx.Below n x)
    (henc : enc ≠ .unate_at_most ∧ enc ≠ .circuit_at_most) :
    (∃ r, le ctx enc cfg full 1 xs { next := n } = some r ∧
      Faithful ctx full n (fun v => xs.countP (ctx.val v) ≤ 1) r) ∧
    ∃ r, eq ctx enc cfg full 1 xs { next := n } = some r ∧
      Faithful ctx full n (fun v => xs.countP (ctx.val v) = 1) r := by
  constructor
  · obtain ⟨r, heq, h⟩ : ∃ r, le ctx enc cfg full 1 xs { next := n } = some r ∧ _ := le_one_encodes
    exact ⟨r, heq, h.faithful (· ≤ 1) hxs⟩
  · match xs, hxs with
    | [], hxs =>
      refine ⟨(ctx.mk_false, { next := n }), by rw [eq.eq_def, dif_pos (by simp)],
        Encodes.faithful (· = 1) hxs (.of_gate fun v => ?_)⟩
      simp [ctx.val_false]
    | [x], hxs =>
      -- the bound is replaced by 0 and the literal negated, and the network of one literal is the literal
      refine ⟨(mk_not ctx (mk_not ctx x), { next := n }), ?_, Encodes.faithful (· = 1) hxs (.of_gate fun v => ?_)⟩
      · rw [eq.eq_def, eq.eq_def]
        cases enc <;> simp_all [card, sorting]
      · simp
    | x :: y :: xs, hxs =>
      obtain ⟨r, heq, h⟩ : ∃ r, eq ctx enc cfg full 1 (x :: y :: xs) { next := n } = some r ∧ _ :=
        eq_one_encodes (by simp)
      exact ⟨r, heq, h.faithful (· = 1) hxs⟩

/-- Literals as functions of the assignment, where the `n`-th variable is also the `n`-th literal. -/
def functions : psort_expr ((Nat → Bool) → Bool) (Nat → Bool) where
  mk_true _ := true
  mk_false _ := false
  mk_not l v := !l v
  mk_max ls v := ls.any (· v)
  mk_min ls v := ls.all (· v)
  fresh n v := v n
  val v l := l v
  val_true _ := rfl
  val_false _ := rfl
  val_not _ _ := rfl
  val_max _ _ := rfl
  val_min _ _ := rfl
  Below n l := ∀ v v', (∀ i < n, v i = v' i) → l v = l v'
  extend v n bs := by
    refine ⟨fun i => if i < n then v i else bs.getD (i - n) false, fun i b hb => ?_,
      fun l hl => hl _ _ fun i hi => if_pos hi⟩
    simp [hb]

def always : choices := ⟨fun _ _ _ => true, fun _ _ => true, fun _ _ _ _ => true⟩

open Classical in
/-- Two variables, and the first new one is the result. -/
theorem at_most_one_exact_pair :
    ∃ r, le functions .grouped_at_most always false 1 [fun v => v 0, fun v => v 1] { next := 2 } = some r ∧
    Faithful functions false 2 (fun v => [fun v : Nat → Bool => v 0, fun v => v 1].countP (functions.val v) ≤ 1) r :=
  have hbelow : ∀ x ∈ [fun v : Nat → Bool => v 0, fun v => v 1], functions.Below 2 x := by simp +contextual [functions]
  (at_most_one_exact functions always false hbelow ⟨by decide, by decide⟩).1

section Counters

variable {exact : Bool}

theorem unate_encodes (t : cmp_t) (hk : k = 0 → t = .LE ∨ t = .LE_FULL) :
    ∃ r, (unate_cmp ctx t k xs).map (·, s) = some r ∧
    Encodes ctx exact s xs (fun v => t.compare (xs.countP (ctx.val v)) k) r := by
  obtain ⟨l, heq, hl⟩ := unate_cmp_spec ctx t xs hk
  exact ⟨(l, s), by rw [heq]; rfl, .of_gate hl⟩

theorem circuit_encodes (t : cmp_t) (hk : k = 0 → t = .LE ∨ t = .LE_FULL) :
    ∃ r, (circuit_cmp ctx t k xs).map (·, s) = some r ∧
    Encodes ctx exact s xs (fun v => t.compare (xs.countP (ctx.val v)) k) r := by
  obtain ⟨l, heq, hl⟩ := circuit_cmp_spec ctx t xs hk
  exact ⟨(l, s), by rw [heq]; rfl, .of_gate hl⟩

variable (henc : enc = .unate_at_most ∨ enc = .circuit_at_most)

include henc

/-- At least `k` of the literals, where `k` is one or at most half of their number, so that the literals are counted
and not their negations. -/
theorem ge_encodes_of_le (hk : k ≤ xs.length) (h2 : k = 1 ∨ 2 * k ≤ xs.length) :
    ∃ r, ge ctx enc cfg full k xs s = some r ∧ Encodes ctx exact s xs (fun v => k ≤ xs.countP (ctx.val v)) r := by
  rw [ge.eq_def, dif_neg (by omega)]
  by_cases h0 : k = 0
  · rw [if_pos h0]
    exact ⟨_, rfl, .of_gate fun v => by simp [ctx.val_true, h0]⟩
  by_cases h1 : k = 1
  · rw [if_neg h0, if_pos h1]
    refine ⟨_, rfl, .of_gate fun v => ?_⟩
    rw [val_mk_or, any_eq_true, h1, Nat.one_le_iff_ne_zero, ← Nat.pos_iff_ne_zero, countP_pos_iff]
  · rw [if_neg h0, if_neg h1, dif_neg (by omega)]
    rcases henc with rfl | rfl <;> cases full
    · exact unate_encodes .GE (absurd · h0)
    · exact unate_encodes .GE_FULL (absurd · h0)
    · exact circuit_encodes .GE (absurd · h0)
    · exact circuit_encodes .GE_FULL (absurd · h0)

/-- At most `k` of the literals, where `k` is at most half of their number. For `k = 1` the clauses are those for at
most one, which need `full` to be exact. -/
theorem le_encodes_of_le (h2 : 2 * k ≤ xs.length) (hone : exact → full ∨ k ≠ 1) :
    ∃ r, le ctx enc cfg full k xs s = some r ∧ Encodes ctx exact s xs (fun v => xs.countP (ctx.val v) ≤ k) r := by
  by_cases h1 : k = 1
  · subst h1
    obtain ⟨r, heq, h⟩ : ∃ r, le ctx enc cfg full 1 xs s = some r ∧ _ := le_one_encodes
    exact ⟨r, heq, h.mono fun he => (hone he).resolve_right (not_not.mpr rfl)⟩
  rw [le.eq_def]
  by_cases hn : xs.length ≤ k
  · rw [dif_pos hn]
    exact ⟨_, rfl, .of_gate fun v => iff_of_true (ctx.val_true v) (countP_le_length.trans hn)⟩
  · rw [dif_neg hn, dif_neg (by omega), if_neg h1]
    rcases henc with rfl | rfl <;> cases full
    · exact unate_encodes .LE (fun _ => .inl rfl)
    · exact unate_encodes .LE_FULL (fun _ => .inr rfl)
    · exact circuit_encodes .LE (fun _ => .inl rfl)
    · exact circuit_encodes .LE_FULL (fun _ => .inr rfl)

theorem eq_encodes_of_le (h0 : 0 < k) (h2 : 2 * k ≤ xs.length) (hone : exact → full ∨ k ≠ 1) :
    ∃ r, eq ctx enc cfg full k xs s = some r ∧ Encodes ctx exact s xs (fun v => xs.countP (ctx.val v) = k) r := by
  by_cases h1 : k = 1
  · subst h1
    obtain ⟨r, heq, h⟩ : ∃ r, eq ctx enc cfg full 1 xs s = some r ∧ _ := eq_one_encodes h2
    exact ⟨r, heq, h.mono fun he => (hone he).resolve_right (not_not.mpr rfl)⟩
  rw [eq.eq_def, dif_neg (by omega), dif_neg (by omega), if_neg h1]
  rcases henc with rfl | rfl
  · exact unate_encodes .EQ (absurd · h0.ne')
  · exact circuit_encodes .EQ (absurd · h0.ne')

theorem ge_encodes (hk : k ≤ xs.length) (hone : exact → full ∨ k < 2 ∨ k + 1 ≠ xs.length) :
    ∃ r, ge ctx enc cfg full k xs s = some r ∧ Encodes ctx exact s xs (fun v => k ≤ xs.countP (ctx.val v)) r := by
  by_cases h2 : k = 1 ∨ 2 * k ≤ xs.length
  · exact ge_encodes_of_le henc hk h2
  · rw [ge.eq_def, dif_neg (by omega), if_neg (by omega), if_neg (by omega), dif_pos (by omega)]
    refine Encodes.dual (le_encodes_of_le henc (by rw [length_map]; omega) fun he =>
      (hone he).imp_right (by omega)) fun v => ?_
    have hcount : xs.countP (ctx.val v) ≤ xs.length := countP_le_length
    rw [countP_map_mk_not]
    omega

theorem le_encodes (hone : exact → full ∨ k ≠ 1 ∨ xs.length ≤ 1) :
    ∃ r, le ctx enc cfg full k xs s = some r ∧ Encodes ctx exact s xs (fun v => xs.countP (ctx.val v) ≤ k) r := by
  have hcount v : xs.countP (ctx.val v) ≤ xs.length := countP_le_length
  by_cases hn : xs.length ≤ k
  · rw [le.eq_def, dif_pos hn]
    exact ⟨_, rfl, .of_gate fun v => iff_of_true (ctx.val_true v) ((hcount v).trans hn)⟩
  by_cases h2 : 2 * k ≤ xs.length
  · exact le_encodes_of_le henc h2 fun he => (hone he).imp_right (by omega)
  · rw [le.eq_def, dif_neg hn, dif_pos (by omega)]
    refine Encodes.dual (ge_encodes_of_le henc (by rw [length_map]; omega) (by rw [length_map]; omega)) fun v => ?_
    have := hcount v
    rw [countP_map_mk_not]
    omega

theorem eq_encodes (h0 : 0 < k) (hk : k < xs.length) (hone : exact → full ∨ k ≠ 1 ∧ k + 1 ≠ xs.length) :
    ∃ r, eq ctx enc cfg full k xs s = some r ∧ Encodes ctx exact s xs (fun v => xs.countP (ctx.val v) = k) r := by
  by_cases h2 : 2 * k ≤ xs.length
  · exact eq_encodes_of_le henc h0 h2 fun he => (hone he).imp_right And.left
  · rw [eq.eq_def, dif_neg (by omega), dif_pos (by omega)]
    refine Encodes.dual (eq_encodes_of_le henc (by omega) (by rw [length_map]; omega) fun he =>
      (hone he).imp_right (by omega)) fun v => ?_
    have hcount : xs.countP (ctx.val v) ≤ xs.length := countP_le_length
    rw [countP_map_mk_not]
    omega

/-- Without `full` the literal of at most one is only implied: it may be false in a model whatever the literals are. -/
theorem le_one_may_be_false (ctx : psort_expr L V) (cfg : choices) (xs : List L) (v : V) (hn : 2 ≤ xs.length)
    (hs : s.Models ctx v) (hv : ctx.val v (ctx.fresh s.next) = false) :
    ∃ r, le ctx enc cfg false 1 xs s = some r ∧ r.2.Models ctx v ∧ ctx.val v r.1 = false := by
  have hle : le ctx enc cfg false 1 xs s =
      some ((mk_at_most_1 ctx false xs false s).1, (mk_at_most_1 ctx false xs false s).2.2) := by
    rw [le.eq_def, dif_neg (by omega), dif_neg (by omega)]
    rcases henc with rfl | rfl <;> rfl
  exact ⟨_, hle, models_mk_at_most_1 hs hv, hv⟩

theorem eq_one_may_be_false (ctx : psort_expr L V) (cfg : choices) (xs : List L) (v : V) (hn : 2 ≤ xs.length)
    (hs : s.Models ctx v) (hv : ctx.val v (ctx.fresh s.next) = false) :
    ∃ r, eq ctx enc cfg false 1 xs s = some r ∧ r.2.Models ctx v ∧ ctx.val v r.1 = false := by
  have heq : eq ctx enc cfg false 1 xs s = some ((mk_at_most_1 ctx false xs true s).1,
      add_clause ctx (mk_at_most_1 ctx false xs true s).2.2
        ((mk_at_most_1 ctx false xs true s).2.1 ++ [mk_not ctx (mk_at_most_1 ctx false xs true s).1])) := by
    rw [eq.eq_def, dif_neg (by omega), dif_neg (by omega)]
    rcases henc with rfl | rfl <;> rfl
  refine ⟨_, heq, models_add_clause.mpr ⟨models_mk_at_most_1 hs hv, _,
    mem_append_right _ (mem_singleton_self _), ?_⟩, hv⟩
  rw [val_mk_not, Bool.not_eq_true']
  exact hv

end Counters

/-- A sum of no bits is computed as a sum of one bit. -/
theorem circuit_add_zero (hne : xs ≠ []) : circuit_add ctx 0 xs = circuit_add ctx 1 xs := by
  fun_induction circuit_add ctx 0 xs with
  | case1 => exact absurd rfl hne
  | case2 x => simp [circuit_add]
  | case3 x y xs half ih1 ih2 =>
    rw [ih1 (by simp [half]), ih2 (by simp [half]; omega), circuit_add]

variable (ctx cfg full s) in
/-- The circuit has no bit of the count to compare with, only the carry of the first one. -/
theorem eq_zero_circuit (xs : List L) (hne : xs ≠ []) : ∃ r, eq ctx .circuit_at_most cfg full 0 xs s = some r ∧
    r.2 = s ∧ ∀ v, ctx.val v r.1 ↔ xs.countP (ctx.val v) ≤ 1 := by
  obtain ⟨out, ovfl, hadd, hlen, hv⟩ := circuit_add_spec ctx Nat.zero_lt_one xs
  refine ⟨(mk_and ctx [mk_not ctx ovfl], s), ?_, rfl, fun v => ?_⟩
  · rw [eq.eq_def]
    simp [circuit_cmp, circuit_add_zero hne, hadd, kvec]
  · have := hv v
    simp only [val_mk_and, val_mk_not, all_cons, all_nil, Bool.and_true]
    grind

theorem eq_zero_unate : eq ctx .unate_at_most cfg full 0 xs s = none := by
  rw [eq.eq_def]
  simp [unate_cmp]

/-- The literal for a condition on the number of true literals is returned and equivalent to it, for every context and
every list of `n` literals. -/
def Exact (count : ∀ {L V : Type} [DecidableEq L], psort_expr L V → choices → List L → state L → Option (L × state L))
    (n : Nat) (p : Nat → Prop) : Prop :=
  ∀ (L V : Type) [DecidableEq L] (ctx : psort_expr L V) (cfg : choices) (xs : List L) (s : state L), xs.length = n →
    ∃ r, count ctx cfg xs s = some r ∧ ∀ v, r.2.Models ctx v → (ctx.val v r.1 ↔ p (xs.countP (ctx.val v)))

section Exact

variable {n : Nat}

omit [DecidableEq L] in
theorem Encodes.iff {C : V → Prop} {o : Option (L × state L)} (h : ∃ r, o = some r ∧ Encodes ctx true s xs C r) :
    ∃ r, o = some r ∧ ∀ v, r.2.Models ctx v → (ctx.val v r.1 ↔ C v) :=
  h.imp fun _ => .imp_right fun h v hv => ⟨h.sound v hv, h.exact rfl v hv⟩

/-- The first `n` variables. -/
def vars (n : Nat) : List ((Nat → Bool) → Bool) := (range n).map fun i v => v i

theorem length_vars (n : Nat) : (vars n).length = n := by simp [vars]

theorem countP_vars (n : Nat) (v : Nat → Bool) : (vars n).countP (functions.val v) = (range n).countP v := by
  simp [vars, countP_map, Function.comp_def, functions]

theorem countP_zero (hn : 0 < n) : (range n).countP (decide <| · = 0) = 1 := by
  obtain ⟨m, rfl⟩ := Nat.exists_eq_add_one_of_ne_zero hn.ne'
  simp [range_succ_eq_map, countP_map, Function.comp_def]

theorem countP_pos_lt (hn : 0 < n) : (range n).countP (fun i => decide (0 < i ∧ i < n)) = n - 1 := by
  obtain ⟨m, rfl⟩ := Nat.exists_eq_add_one_of_ne_zero hn.ne'
  rw [range_succ_eq_map, countP_cons_of_neg (by simp), countP_map, countP_eq_length.mpr (by simp), length_range,
    Nat.add_sub_cancel]

open Classical in
/-- What exactness says of the first `n` variables. -/
theorem Exact.vars {count : ∀ {L V : Type} [DecidableEq L], psort_expr L V → choices → List L → state L →
      Option (L × state L)} {p : Nat → Prop} (h : Exact count n p) {r} (v : Nat → Bool)
    (hr : count functions always (vars n) { next := n } = some r) (hm : r.2.Models functions v) :
    functions.val v r.1 ↔ p ((range n).countP v) := by
  obtain ⟨r', hr', hiff⟩ := h _ _ functions always (psort_nw.vars n) { next := n } (length_vars n)
  obtain rfl : r = r' := Option.some.inj (hr.symm.trans hr')
  rw [hiff v hm, countP_vars]

/-- At least `k`: exact except for `n - 1` of `n` literals, which becomes at most one of the negated literals. Its
clauses only imply the condition, so that a model may make the result false. -/
theorem ge_exact_iff (henc : enc = .unate_at_most ∨ enc = .circuit_at_most) (full : Bool) (hk : k ≤ n) :
    Exact (fun ctx cfg => ge ctx enc cfg full k) n (k ≤ ·) ↔ full ∨ k < 2 ∨ k + 1 ≠ n := by
  constructor
  · classical
    intro h
    by_contra! hbad
    obtain ⟨hfull, hk2, rfl⟩ := hbad
    obtain rfl : full = false := Bool.eq_false_iff.mpr hfull
    -- the first `k + 1` variables are true, and the next one is the literal
    obtain ⟨r, hr, hm, hval⟩ := le_one_may_be_false (s := { next := k + 1 }) henc functions always
      ((vars (k + 1)).map (mk_not functions)) (decide <| · < k + 1) (by simp [length_vars]; omega) nofun
      (by simp [functions])
    have hge : ge functions enc always false k (vars (k + 1)) { next := k + 1 } = some r := by
      rw [ge.eq_def, dif_neg (by simp [length_vars]), if_neg (by omega), if_neg (by omega),
        dif_pos (by rw [length_vars]; omega), length_vars, Nat.add_sub_cancel_left, hr]
    have hiff := h.vars _ hge hm
    rw [hval, countP_eq_length.mpr (by simp), length_range] at hiff
    exact absurd (hiff.mpr k.le_succ) nofun
  · rintro hone L V _ ctx cfg xs s rfl
    exact Encodes.iff (ge_encodes henc hk fun _ => hone)

theorem le_exact_iff (henc : enc = .unate_at_most ∨ enc = .circuit_at_most) (full : Bool) :
    Exact (fun ctx cfg => le ctx enc cfg full k) n (· ≤ k) ↔ full ∨ k ≠ 1 ∨ n ≤ 1 := by
  constructor
  · classical
    intro h
    by_contra! hbad
    obtain ⟨hfull, rfl, hn⟩ := hbad
    obtain rfl : full = false := Bool.eq_false_iff.mpr hfull
    obtain ⟨r, hr, hm, hval⟩ := le_one_may_be_false (s := { next := n }) henc functions always (vars n)
      (fun _ => false) (by rwa [length_vars]) nofun rfl
    have hiff := h.vars _ hr hm
    rw [hval, countP_false] at hiff
    exact absurd (hiff.mpr zero_le_one) nofun
  · rintro hone L V _ ctx cfg xs s rfl
    exact Encodes.iff (le_encodes henc fun _ => hone)

/-- The literals and the bound are negated if more than half of them are asked for. -/
theorem eq_dual (hk : k ≤ xs.length) (h2 : xs.length < 2 * k) :
    eq ctx enc cfg full k xs s = eq ctx enc cfg full (xs.length - k) (xs.map (mk_not ctx)) s := by
  rw [eq.eq_def, dif_neg (by omega), dif_pos h2]

open Classical in
/-- None or all of the literals are asked for. -/
theorem eq_not_exact_of_eq_zero (henc : enc = .unate_at_most ∨ enc = .circuit_at_most) (full : Bool)
    (hk : k = 0 ∨ k = n) (hn : enc = .circuit_at_most → n ≠ 0) :
    ¬ Exact (fun ctx cfg => eq ctx enc cfg full k) n (· = k) := by
  intro h
  by_cases h0 : k = 0
  · subst h0
    rcases henc with rfl | rfl
    · obtain ⟨r, hr, -⟩ := h _ _ functions always (vars n) { next := n } (length_vars n)
      exact absurd (eq_zero_unate.symm.trans hr) nofun
    · have hpos := Nat.pos_of_ne_zero (hn rfl)
      have hlen := length_vars n
      obtain ⟨r, hr, hs, hval⟩ := eq_zero_circuit functions always full { next := n } (vars n) (by grind)
      have hiff := h.vars (decide <| · = 0) hr (by rw [hs]; exact nofun)
      rw [hval, countP_vars, countP_zero hpos] at hiff
      exact absurd (hiff.mp le_rfl) one_ne_zero
  · obtain rfl := hk.resolve_left h0
    have hpos := Nat.pos_of_ne_zero h0
    have hlen := length_vars k
    have hdual : eq functions enc always full k (vars k) { next := k } =
        eq functions enc always full 0 ((vars k).map (mk_not functions)) { next := k } := by
      rw [eq_dual hlen.ge (by omega), hlen, Nat.sub_self]
    rcases henc with rfl | rfl
    · obtain ⟨r, hr, -⟩ := h _ _ functions always (vars k) { next := k } hlen
      exact absurd ((hdual.trans eq_zero_unate).symm.trans hr) nofun
    · obtain ⟨r, hr, hs, hval⟩ := eq_zero_circuit functions always full { next := k }
        ((vars k).map (mk_not functions)) (by rw [ne_eq, map_eq_nil_iff]; grind)
      have hiff := h.vars (fun i => decide (0 < i ∧ i < k)) (hdual.trans hr) (by rw [hs]; exact nofun)
      rw [hval, countP_map_mk_not, countP_vars, hlen, countP_pos_lt hpos] at hiff
      omega

open Classical in
/-- One literal, or all but one, is asked for. -/
theorem eq_not_exact_of_eq_one (henc : enc = .unate_at_most ∨ enc = .circuit_at_most) (h0 : 0 < k) (hk : k < n)
    (hone : k = 1 ∨ k + 1 = n) : ¬ Exact (fun ctx cfg => eq ctx enc cfg false k) n (· = k) := by
  intro h
  have hlen := length_vars n
  by_cases h2 : 2 * k ≤ n
  · obtain rfl : k = 1 := by omega
    obtain ⟨r, hr, hm, hval⟩ := eq_one_may_be_false (s := { next := n }) henc functions always (vars n)
      (decide <| · = 0) (by omega) nofun (by simp [functions]; omega)
    have hiff := h.vars _ hr hm
    rw [hval, countP_zero (by omega)] at hiff
    exact absurd (hiff.mpr rfl) nofun
  · obtain rfl : n = k + 1 := by omega
    obtain ⟨r, hr, hm, hval⟩ := eq_one_may_be_false (s := { next := k + 1 }) henc functions always
      ((vars (k + 1)).map (mk_not functions)) (fun i => decide (0 < i ∧ i < k + 1)) (by rw [length_map]; omega) nofun
      (by simp [functions])
    have hdual : eq functions enc always false k (vars (k + 1)) { next := k + 1 } = some r := by
      rw [eq_dual (by omega) (by omega), hlen, Nat.add_sub_cancel_left, hr]
    have hiff := h.vars _ hdual hm
    rw [hval, countP_pos_lt k.succ_pos] at hiff
    exact absurd (hiff.mpr rfl) nofun

/-- Exactly `k`: at zero, and at `n`, which becomes zero of the negated literals, the counters have no right answer
but for the circuit over the empty list. At one and at `n - 1` the clauses only imply the condition. -/
theorem eq_exact_iff (henc : enc = .unate_at_most ∨ enc = .circuit_at_most) (full : Bool) (hk : k ≤ n) :
    Exact (fun ctx cfg => eq ctx enc cfg full k) n (· = k) ↔
      (0 < k ∧ k < n ∨ n = 0 ∧ enc = .circuit_at_most) ∧ (full ∨ k ≠ 1 ∧ k + 1 ≠ n) := by
  constructor
  · intro h
    have hrange : 0 < k ∧ k < n ∨ n = 0 ∧ enc = .circuit_at_most := by
      by_contra! hbad
      exact eq_not_exact_of_eq_zero henc full (by omega) (by tauto) h
    refine ⟨hrange, ?_⟩
    by_contra! hbad
    obtain rfl : full = false := Bool.eq_false_iff.mpr hbad.1
    obtain ⟨h0, hlt⟩ | ⟨rfl, -⟩ := hrange
    · exact eq_not_exact_of_eq_one henc h0 hlt (by tauto) h
    · omega
  · rintro ⟨⟨h0, hlt⟩ | ⟨rfl, rfl⟩, hone⟩ L V _ ctx cfg xs s hlen
    · subst hlen
      exact Encodes.iff (eq_encodes henc h0 hlt fun _ => hone)
    · obtain rfl := Nat.le_zero.mp hk
      obtain rfl := length_eq_zero_iff.mp hlen
      show ∃ r, eq ctx .circuit_at_most cfg full 0 [] s = some r ∧ _
      rw [eq.eq_def]
      simp [circuit_cmp, circuit_add, kvec, ctx.val_false]

end Exact

/-- The encodings that count with gates.  `eq` reads in front of the array of the unate counter, or compares no bits of
the circuit, if none or all of the literals are asked for (the one list that is spared is the empty one, by the
circuit); and where the comparison becomes at most one or exactly one, the clauses for it only imply the condition,
unless `full` is set: `ge` reaches them at `n - 1`, `le` at 1, and `eq` at both. -/
theorem counters_exact (henc : enc = .unate_at_most ∨ enc = .circuit_at_most) (full : Bool) {n : Nat} (hk : k ≤ n) :
    (Exact (fun ctx cfg => ge ctx enc cfg full k) n (k ≤ ·) ↔ full ∨ k < 2 ∨ k + 1 ≠ n) ∧
    (Exact (fun ctx cfg => le ctx enc cfg full k) n (· ≤ k) ↔ full ∨ k ≠ 1 ∨ n ≤ 1) ∧
    (Exact (fun ctx cfg => eq ctx enc cfg full k) n (· = k) ↔
      (0 < k ∧ k < n ∨ n = 0 ∧ enc = .circuit_at_most) ∧ (full ∨ k ≠ 1 ∧ k + 1 ≠ n)) :=
  ⟨ge_exact_iff henc full hk, le_exact_iff henc full, eq_exact_iff henc full hk⟩

/-- Two of three literals, which become one of the three negated ones: `ge` is not exact, `le` is, and `eq` is if
`full` is set. -/
theorem counters_exact_at_two : 2 ≤ 3 ∧ ¬ Exact (fun ctx cfg => ge ctx .circuit_at_most cfg false 2) 3 (2 ≤ ·) ∧
    Exact (fun ctx cfg => le ctx .circuit_at_most cfg false 2) 3 (· ≤ 2) ∧
    Exact (fun ctx cfg => eq ctx .circuit_at_most cfg true 2) 3 (· = 2) :=
  have hfalse := counters_exact (.inr rfl) false (k := 2) (n := 3) (by decide)
  ⟨by decide, fun h => absurd (hfalse.1.mp h) (by decide), hfalse.2.1.mpr (by decide),
    (counters_exact (.inr rfl) true (by decide)).2.2.mpr (by decide)⟩

open Classical in
/-- No literal is asked to be true: the unate counter reads in front of its array, and the circuit has no bits and is
true of every assignment. -/
theorem counters_wrong_at_zero : eq functions .unate_at_most always true 0 [fun v => v 0] { next := 1 } = none ∧
    ∃ r, eq functions .circuit_at_most always true 0 [fun v => v 0] { next := 1 } = some r ∧
      ∀ v, functions.val v r.1 := by
  constructor
  · rw [eq.eq_def]
    simp [unate_cmp]
  · rw [eq.eq_def]
    simp [circuit_cmp, circuit_add, kvec, functions.val_false]

end psort_nw
