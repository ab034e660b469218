import BooledASS.Tactic.CtxSimplifySound

open List

namespace ctx_simplify

variable {U D : Type} {M : interp U} {e f t : expr} {ts es : List expr} {pol : Bool}

/-! ### Conjuncts -/

/-- The list has the conjuncts of the formula, or of its negation. -/
structure Splits (pol : Bool) (f : expr) (es : List expr) : Prop where
  formulas : ∀ e ∈ es, Formula e
  holds : ∀ {U : Type} (M : interp U), (∀ e ∈ es, Holds M e) ↔ eval M f = .inl pol

theorem Splits.leaf (h : Formula f) : Splits pol f [if pol then f else mk_not f] := by
  cases pol with
  | true => exact ⟨by simpa using h, fun M => by simp [Holds]⟩
  | false => exact ⟨by simpa using h.not, fun M => by simpa [Holds, mk_not] using h.eval_not_iff true⟩

theorem Splits.not (hf : Formula t) (h : Splits (!pol) t es) : Splits pol (.app .OP_NOT [t]) es :=
  ⟨h.formulas, fun M => (h.holds M).trans (hf.eval_not_iff pol).symm⟩

theorem Splits.or_and {split : expr → List expr} (hts : ∀ t ∈ ts, Formula t) (h : ∀ t ∈ ts, Splits pol t (split t)) :
    Splits pol (.app (or_and_op !pol) ts) (ts.flatMap split) := by
  refine ⟨fun e he => ?_, fun M => ?_⟩
  · obtain ⟨t, ht, he⟩ := mem_flatMap.mp he
    exact (h t ht).formulas e he
  · have heval : eval M (.app (or_and_op !pol) ts) = .inl (!!pol) ↔ ∀ t ∈ ts, eval M t = .inl (!!pol) := eval_or_and hts
    rw [Bool.not_not] at heval
    rw [heval]
    refine ⟨fun hall t ht => ((h t ht).holds M).mp fun e he => hall e (mem_flatMap.mpr ⟨t, ht, he⟩),
      fun hall e he => ?_⟩
    obtain ⟨t, ht, he⟩ := mem_flatMap.mp he
    exact ((h t ht).holds M).mpr (hall t ht) e he

namespace goal

theorem quick_conjuncts_list_eq (pol : Bool) (ts : List expr) :
    quick_conjuncts_list pol ts = ts.flatMap (quick_conjuncts pol) := by
  induction ts with
  | nil => rfl
  | cons t ts ih => rw [quick_conjuncts_list, ih, flatMap_cons]

/-- Conjunctions are split, and so are disjunctions below a negation. The list holds exactly where the formula has the
value `pol`. -/
theorem quick_conjuncts_spec (pol : Bool) (h : Formula f) : Splits pol f (quick_conjuncts pol f) := by
  induction f using Term.induct generalizing pol with
  | h op ts ih =>
    have hleaf : Splits pol (.app op ts) [if pol then .app op ts else mk_not (.app op ts)] := .leaf h
    cases op with
    | OP_AND =>
      cases pol with
      | true =>
        have hts : ∀ t ∈ ts, Formula t := .or_and_args false h.sorted
        simp only [quick_conjuncts, quick_conjuncts_list_eq]
        exact .or_and hts fun t ht => ih t ht true (hts t ht)
      | false => simpa only [quick_conjuncts] using hleaf
    | OP_OR =>
      cases pol with
      | true => simpa only [quick_conjuncts] using hleaf
      | false =>
        have hts : ∀ t ∈ ts, Formula t := Formula.or_and_args true h.sorted
        simp only [quick_conjuncts, quick_conjuncts_list_eq]
        exact .or_and hts fun t ht => ih t ht false (hts t ht)
    | OP_NOT =>
      obtain ⟨t, rfl, -⟩ := accepts_not (wellSorted_app.mp h.sorted).1
      simp only [quick_conjuncts]
      exact .not h.not_arg (ih t (by simp) (!pol) h.not_arg)
    | OP_TRUE | OP_FALSE | OP_ITE | OP_EQ | other | non_app => simpa only [quick_conjuncts] using hleaf

/-- An argument of a negated disjunction. -/
def slow_not : expr → List expr
  | .app .OP_NOT [t] => slow_conjuncts true t
  | t => slow_conjuncts false t

theorem slow_and_eq (ts : List expr) : slow_and ts = ts.flatMap (slow_conjuncts true) := by
  induction ts with
  | nil => rfl
  | cons t ts ih => rw [slow_and, ih, flatMap_cons]

theorem slow_not_or_eq (ts : List expr) : slow_not_or ts = ts.flatMap slow_not := by
  induction ts with
  | nil => rfl
  | cons t ts ih =>
    rw [flatMap_cons, ← ih]
    unfold slow_not
    split
    · rw [slow_not_or]
    · simp only [slow_not_or]

/-- Induction on the formula, for the three ways in which it can occur: by itself, below a negation that was removed,
and as an argument of a negated disjunction. -/
theorem slow_conjuncts_spec (h : Formula f) :
    (∀ pol, Splits pol f (slow_conjuncts pol f)) ∧ Splits false f (slow_not f) := by
  induction f using Term.induct with
  | h op ts ih =>
    have hleaf pol : Splits pol (.app op ts) [if pol then .app op ts else mk_not (.app op ts)] := .leaf h
    cases op with
    | OP_AND =>
      have hts : ∀ t ∈ ts, Formula t := Formula.or_and_args false h.sorted
      have hfalse : Splits false (.app .OP_AND ts) (slow_conjuncts false (.app .OP_AND ts)) := by exact hleaf false
      refine ⟨fun pol => ?_, hfalse⟩
      cases pol with
      | true =>
        simp only [slow_conjuncts, slow_and_eq]
        exact .or_and hts fun t ht => (ih t ht (hts t ht)).1 true
      | false => exact hfalse
    | OP_OR =>
      have hts : ∀ t ∈ ts, Formula t := .or_and_args true h.sorted
      have hfalse : Splits false (.app .OP_OR ts) (slow_conjuncts false (.app .OP_OR ts)) := by
        simp only [slow_conjuncts, slow_not_or_eq]
        exact .or_and hts fun t ht => (ih t ht (hts t ht)).2
      refine ⟨fun pol => ?_, hfalse⟩
      cases pol with
      | true => exact hleaf true
      | false => exact hfalse
    | OP_NOT =>
      obtain ⟨t, rfl, -⟩ := accepts_not (wellSorted_app.mp h.sorted).1
      have iht := ih t (by simp) h.not_arg
      refine ⟨fun pol => ?_, .not h.not_arg (iht.1 true)⟩
      cases pol with
      | true =>
        by_cases hor : ∃ args, t = .app .OP_OR args
        · obtain ⟨args, rfl⟩ := hor
          have hargs := iht.1 false
          exact .not h.not_arg hargs
        · have hone : slow_conjuncts true (.app .OP_NOT [t]) = [.app .OP_NOT [t]] := by
            rw [slow_conjuncts.eq_def]
            split <;> simp_all
          rw [hone]
          exact hleaf true
      | false => exact hleaf false
    | OP_TRUE | OP_FALSE | OP_ITE | OP_EQ | other | non_app =>
      refine ⟨fun pol => ?_, hleaf false⟩
      cases pol with
      | true => exact hleaf true
      | false => exact hleaf false

/-! ### Updates of a goal -/

variable {g g' : goal D} {d : Option D} {i : Nat}

/-- The conjunction of the formulas holds. -/
def Holds (M : interp U) (g : goal D) : Prop := ∀ p ∈ g.m_forms, ctx_simplify.Holds M p.1

def Sorted (g : goal D) : Prop := ∀ p ∈ g.m_forms, Formula p.1

/-- The other formulas hold. -/
def Others (M : interp U) (g : goal D) (i : Nat) : Prop :=
  ∀ j p, j ≠ i → g.m_forms[j]? = some p → ctx_simplify.Holds M p.1

theorem forall_mem_set {A : Type} {P : A → Prop} {l : List A} (hi : i < l.length) (a : A) :
    (∀ p ∈ l.set i a, P p) ↔ P a ∧ ∀ j p, j ≠ i → l[j]? = some p → P p := by
  constructor
  · refine fun h => ⟨h a (mem_set hi a), fun j p hj hp => h p ?_⟩
    refine mem_of_getElem? (i := j) ?_
    rwa [getElem?_set_ne hj.symm]
  · rintro ⟨ha, hothers⟩ p hp
    obtain ⟨j, hj⟩ := mem_iff_getElem?.mp hp
    by_cases hji : j = i
    · subst hji
      rw [getElem?_set_self hi] at hj
      rwa [← Option.some.inj hj]
    · rw [getElem?_set_ne (Ne.symm hji)] at hj
      exact hothers j p hji hj

theorem holds_iff (hi : i < g.m_forms.length) : g.Holds M ↔ ctx_simplify.Holds M g.m_forms[i].1 ∧ g.Others M i := by
  have h := forall_mem_set (P := fun p => ctx_simplify.Holds M p.1) hi g.m_forms[i]
  rwa [set_getElem_self] at h

theorem form_eq (hg : g.m_inconsistent = false) (hi : i < g.m_forms.length) : g.form i = g.m_forms[i].1 := by
  simp [form, hg, getElem?_eq_getElem hi]

/-- What appending formulas does: one of them is false, or those that are not true are at the end. -/
inductive Appends (g : goal D) (fs : List expr) (g' : goal D) : Prop where
  | inconsistent (f : expr) (d : Option D) (hf : f ∈ fs) (hfalse : is_false f)
    (hforms : g'.m_forms = [(mk_false, d)]) (hinconsistent : g'.m_inconsistent)
  | append (ext : List (expr × Option D)) (hforms : g'.m_forms = g.m_forms ++ ext)
      (hconsistent : g'.m_inconsistent = false)
    (hext : ∀ p ∈ ext, p.1 ∈ fs) (hall : ∀ f ∈ fs, is_true f ∨ ∃ p ∈ ext, p.1 = f)

theorem push_back_appends (hg : g.m_inconsistent = false) (f : expr) (d : Option D) :
    Appends g [f] (g.push_back f d) := by
  fun_cases push_back with
  | case1 htrue => exact .append [] (by simp) hg (by simp) (by simp [htrue])
  | case2 _ hfalse => exact .inconsistent f d (by simp) hfalse rfl rfl
  | case3 => exact .append [(f, d)] rfl hg (by simp) (by simp)

/-- The formulas are pushed one after the other. The loop stops at one that is false, and those that are true are left
out. -/
theorem push_conjuncts_appends (fs : List expr) (hg : g.m_inconsistent = false) :
    Appends g fs (push_conjuncts d g fs) := by
  induction fs generalizing g with
  | nil => exact .append [] (by simp [push_conjuncts]) hg (by simp) (by simp)
  | cons f fs ih =>
    rw [push_conjuncts, if_neg (by simp [hg])]
    cases push_back_appends hg f d with
    | inconsistent f' d' hf hfalse hforms hinc =>
      have hstop : push_conjuncts d (g.push_back f d) fs = g.push_back f d := by
        cases fs with
        | nil => rfl
        | cons => rw [push_conjuncts, if_pos hinc]
      rw [hstop]
      exact .inconsistent f' d' (by simp_all) hfalse hforms hinc
    | append ext hforms hcons hext hall =>
      cases ih hcons with
      | inconsistent f' d' hf hfalse hforms' hinc => exact .inconsistent f' d' (by simp [hf]) hfalse hforms' hinc
      | append ext' hforms' hcons' hext' hall' =>
        refine .append (ext ++ ext') (by rw [hforms', hforms, append_assoc]) hcons' (fun p hp => ?_) fun f' hf' => ?_
        · rcases mem_append.mp hp with hp | hp
          · exact mem_cons.mpr (.inl (mem_singleton.mp (hext p hp)))
          · exact .tail _ (hext' p hp)
        · rcases mem_cons.mp hf' with rfl | hf'
          · refine (hall f' (by simp)).imp_right ?_
            rintro ⟨p, hp, heq⟩
            exact ⟨p, mem_append_left _ hp, heq⟩
          · refine (hall' f' hf').imp_right ?_
            rintro ⟨p, hp, heq⟩
            exact ⟨p, mem_append_right _ hp, heq⟩

/-- What an update does: the goal becomes inconsistent, or the formulas in the place of the old one and at the end stand
for the new one. -/
inductive Updates (g : goal D) (i : Nat) (f : expr) (g' : goal D) : Prop where
  | inconsistent (d : Option D) (hforms : g'.m_forms = [(mk_false, d)]) (hinconsistent : g'.m_inconsistent)
    (hfalse : ∀ {U : Type} (M : interp U), ¬ ctx_simplify.Holds M f)
  | split (e : expr × Option D) (ext : List (expr × Option D)) (hforms : g'.m_forms = g.m_forms.set i e ++ ext)
    (hconsistent : g'.m_inconsistent = false) (he : Formula e.1) (hext : ∀ p ∈ ext, Formula p.1)
    (himp : ∀ {U : Type} (M : interp U), ctx_simplify.Holds M e.1 → (∀ p ∈ ext, ctx_simplify.Holds M p.1) →
      ctx_simplify.Holds M f)
    (hback : ∀ {U : Type} (M : interp U), ctx_simplify.Holds M f → ctx_simplify.Holds M (g.form i) →
      ctx_simplify.Holds M e.1 ∧ ∀ p ∈ ext, ctx_simplify.Holds M p.1)

theorem not_holds_of_is_false (h : is_false f) : ¬ ctx_simplify.Holds M f := by
  rw [ctx_simplify.Holds, eval_of_is_false h]
  simp

/-- A formula that is not split. -/
theorem update_saved_self (hg : g.m_inconsistent = false) (hf : Formula f) :
    Updates g i f (g.update_saved i f d f) := by
  rw [update_saved, if_neg (by simp [hg])]
  split
  next hfalse =>
    have hnot_true : is_true f = false := by
      cases htrue : is_true f with
      | false => rfl
      | true =>
        simp only [is_true, is_false, beq_iff_eq] at htrue hfalse
        rw [htrue] at hfalse
        cases hfalse
    rw [push_back, if_neg (by simp [hnot_true]), if_pos hfalse]
    exact .inconsistent d rfl rfl fun M => not_holds_of_is_false hfalse
  next => exact .split (f, d) [] (by simp) hg hf (by simp) (fun M he _ => he) fun M hf _ => ⟨hf, by simp⟩

theorem is_split_of {f : expr} (h : is_split f) : is_true f = false ∧ is_false f = false := by
  cases f with
  | app op ts => cases op <;> simp_all [is_split, is_true, is_false]

/-- The first conjunct takes the place of the old formula and the others go to the end. If it is false, the formula is
appended as a whole and the old one stays. -/
theorem update_updates (hg : g.m_inconsistent = false) (hs : g.Sorted) (hi : i < g.m_forms.length) (hf : Formula f) :
    Updates g i f (g.update i f d) := by
  rw [update, if_neg (by simp [hg])]
  split
  next hsplit =>
    have hconj : Splits true f (if g.proofs_enabled then slow_conjuncts true f else quick_conjuncts true f) := by
      split
      · exact (slow_conjuncts_spec hf).1 true
      · exact quick_conjuncts_spec true hf
    generalize (if g.proofs_enabled then slow_conjuncts true f else quick_conjuncts true f) = conj at hconj
    cases conj with
    | nil => exact update_saved_self hg hf
    | cons saved rest =>
      obtain ⟨hsaved, hrest⟩ := forall_mem_cons.mp hconj.formulas
      have hall {U : Type} (M : interp U) :
          ctx_simplify.Holds M f ↔ ctx_simplify.Holds M saved ∧ ∀ e ∈ rest, ctx_simplify.Holds M e := by
        rw [ctx_simplify.Holds, ← hconj.holds M, forall_mem_cons]
      have hpush : Appends g rest (push_conjuncts d g rest) := push_conjuncts_appends rest hg
      dsimp only
      generalize push_conjuncts d g rest = g1 at hpush
      cases hpush with
      | inconsistent f' d' hf' hfalse hforms hinc =>
        rw [update_saved, if_pos hinc]
        exact .inconsistent d' hforms hinc fun M h => not_holds_of_is_false hfalse (((hall M).mp h).2 f' hf')
      | append ext hforms hcons hext hmem =>
        have hextf : ∀ p ∈ ext, Formula p.1 := fun p hp => hrest p.1 (hext p hp)
        have hexts {U : Type} (M : interp U) (h : ∀ p ∈ ext, ctx_simplify.Holds M p.1) :
            ∀ e ∈ rest, ctx_simplify.Holds M e := by
          intro e he
          rcases hmem e he with htrue | ⟨p, hp, rfl⟩
          · exact eval_of_is_true htrue
          · exact h p hp
        have hexts' {U : Type} (M : interp U) h : ∀ p ∈ ext, ctx_simplify.Holds M p.1 :=
          fun p hp => ((hall M).mp h).2 p.1 (hext p hp)
        rw [update_saved, if_neg (by simp [hcons])]
        split
        next hfalse =>
          have hnot {U : Type} (M : interp U) : ¬ ctx_simplify.Holds M f :=
            fun h => not_holds_of_is_false hfalse ((hall M).mp h).1
          have hlast : ∀ f', f' = saved ∨ f' = f → Updates g i f (g1.push_back f' d) := by
            intro f' hf'
            have hformula : Formula f' := by rcases hf' with rfl | rfl <;> assumption
            have hnot' {U : Type} (M : interp U) : ¬ ctx_simplify.Holds M f' := by
              rcases hf' with rfl | rfl
              · exact not_holds_of_is_false hfalse
              · exact hnot M
            have hnot_true : ¬ is_true f' := by
              rcases hf' with rfl | rfl
              · simp_all [is_true, is_false]
              · simp_all [is_split_of hsplit]
            rw [push_back, if_neg hnot_true]
            split
            next => exact .inconsistent d rfl rfl hnot
            next =>
              refine .split g.m_forms[i] (ext ++ [(f', d)]) ?_ hcons (hs _ (getElem_mem hi)) ?_
                (fun M _ h => absurd (h (f', d) (by simp)) (hnot' M)) fun M h _ => absurd h (hnot M)
              · simp [hforms]
              · exact Lists.forall_mem_concat hextf hformula
          split
          · exact hlast saved (.inl rfl)
          · exact hlast f (.inr rfl)
        next =>
          refine .split (saved, d) ext ?_ hcons hsaved hextf (fun M h h' => (hall M).mpr ⟨h, hexts M h'⟩)
            fun M h _ => ⟨((hall M).mp h).1, hexts' M h⟩
          rw [hforms, set_append_left _ _ hi]
  next => exact update_saved_self hg hf

theorem Updates.sorted (h : Updates g i f g') (hs : g.Sorted) : g'.Sorted := by
  cases h with
  | inconsistent d hforms _ _ =>
    intro p hp
    rw [hforms, mem_singleton] at hp
    subst hp
    exact .mk_false
  | split e ext hforms _ he hext _ _ =>
    intro p hp
    rw [hforms, mem_append] at hp
    rcases hp with hp | hp
    · rcases mem_or_eq_of_mem_set hp with hp | rfl
      · exact hs p hp
      · exact he
    · exact hext p hp

/-- The conjunction is the same when the new formula is equivalent under the other formulas. -/
theorem Updates.holds (h : Updates g i f g') (hg : g.m_inconsistent = false) (hi : i < g.m_forms.length)
    (heq : g.Others M i → (ctx_simplify.Holds M f ↔ ctx_simplify.Holds M (g.form i))) : g'.Holds M ↔ g.Holds M := by
  rw [holds_iff hi, ← form_eq hg hi]
  cases h with
  | inconsistent d hforms _ hfalse =>
    refine iff_of_false (fun h => ?_) fun h => hfalse M ((heq h.2).mpr h.1)
    have hmk := h (mk_false, d) (by simp [hforms])
    exact not_holds_of_is_false rfl hmk
  | split e ext hforms _ _ _ himp hback =>
    have hset := forall_mem_set (P := fun p => ctx_simplify.Holds M p.1) hi e
    rw [Holds, hforms, forall_mem_append, hset]
    constructor
    · rintro ⟨⟨he, hothers⟩, hext⟩
      exact ⟨(heq hothers).mp (himp M he hext), hothers⟩
    · rintro ⟨hform, hothers⟩
      obtain ⟨he, hext⟩ := hback M ((heq hothers).mpr hform) hform
      exact ⟨⟨he, hothers⟩, hext⟩

end goal

end ctx_simplify
