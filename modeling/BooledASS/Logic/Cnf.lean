import Mathlib.Data.Set.Insert
import Mathlib.Data.List.Induction
import BooledASS.Logic.Lists

open List

namespace Cnf

/-- A literal over the variables `ν`; `sign = true` is the negative literal. -/
structure Lit (ν : Type) where
  var : ν
  sign : Bool
deriving DecidableEq, Repr

variable {ν : Type}

namespace Lit

instance : Complement (Lit ν) := ⟨fun l => ⟨l.var, !l.sign⟩⟩

@[simp] theorem compl_var (l : Lit ν) : (~~~l).var = l.var := rfl
@[simp] theorem compl_sign (l : Lit ν) : (~~~l).sign = !l.sign := rfl

@[simp] theorem compl_compl (l : Lit ν) : ~~~(~~~l) = l := by
  cases l
  simp [Complement.complement]

@[simp] theorem compl_inj {l m : Lit ν} : ~~~l = ~~~m ↔ l = m :=
  ⟨fun h => by simpa using congrArg Complement.complement h, fun h => by rw [h]⟩

@[simp] theorem compl_ne (l : Lit ν) : ~~~l ≠ l := by
  intro h
  simpa using congrArg Lit.sign h

theorem compl_eq_iff {l m : Lit ν} : ~~~l = m ↔ l = ~~~m := ⟨fun h => by simp [← h], fun h => by simp [h]⟩

/-- Two literals of one variable are equal or complementary. -/
theorem eq_or_eq_compl_of_var_eq {l m : Lit ν} (h : l.var = m.var) : l = m ∨ l = ~~~m := by
  obtain ⟨v, b⟩ := l
  obtain ⟨w, c⟩ := m
  subst h
  cases b <;> cases c <;> simp [Complement.complement]

/-- The literal is true under a total assignment. -/
def Holds (a : ν → Bool) (l : Lit ν) : Prop := a l.var = !l.sign

instance (a : ν → Bool) (l : Lit ν) : Decidable (l.Holds a) := inferInstanceAs (Decidable (a l.var = !l.sign))

@[simp] theorem holds_compl {a : ν → Bool} {l : Lit ν} : (~~~l).Holds a ↔ ¬ l.Holds a := by
  unfold Holds
  cases h : a l.var <;> cases hs : l.sign <;> simp [hs]

end Lit

/-- Some literal of the clause is true. -/
def Satisfies (a : ν → Bool) (c : List (Lit ν)) : Prop := ∃ l ∈ c, l.Holds a

instance (a : ν → Bool) (c : List (Lit ν)) : Decidable (Satisfies a c) :=
  inferInstanceAs (Decidable (∃ l ∈ c, l.Holds a))

/-- The assignment satisfies every clause of the set. -/
def Models (a : ν → Bool) (F : Set (List (Lit ν))) : Prop := ∀ c ∈ F, Satisfies a c

/-- Every model of the clause set satisfies the clause. -/
def Entails (F : Set (List (Lit ν))) (c : List (Lit ν)) : Prop := ∀ a, Models a F → Satisfies a c

/-- Every model of the clause set in which all literals of `S` are true makes `l` true. -/
def EntailsFrom (F : Set (List (Lit ν))) (S : Set (Lit ν)) (l : Lit ν) : Prop :=
  ∀ a, Models a F → (∀ m ∈ S, m.Holds a) → l.Holds a

/-- No assignment satisfies the clause set. -/
def Unsat (F : Set (List (Lit ν))) : Prop := ∀ a, ¬ Models a F

variable {F G : Set (List (Lit ν))} {S T : Set (Lit ν)} {c d e : List (Lit ν)} {a : ν → Bool} {l m : Lit ν}

theorem satisfies_cons : Satisfies a (l :: c) ↔ l.Holds a ∨ Satisfies a c := by simp [Satisfies]
@[simp] theorem not_satisfies_nil : ¬ Satisfies a ([] : List (Lit ν)) := by simp [Satisfies]

theorem Satisfies.mono (h : Satisfies a c) (hsub : ∀ l ∈ c, l ∈ d) : Satisfies a d := by
  obtain ⟨l, hl, hl'⟩ := h
  exact ⟨l, hsub l hl, hl'⟩

theorem not_satisfies_iff : ¬ Satisfies a c ↔ ∀ l ∈ c, (~~~l).Holds a := by simp [Satisfies]
theorem Models.mono (h : Models a G) (hsub : F ⊆ G) : Models a F := fun c hc => h c (hsub hc)
theorem Entails.of_mem (h : c ∈ F) : Entails F c := fun _ ha => ha c h

/-- A clause set that entails every clause of `F` entails everything `F` does. -/
theorem Entails.trans (hG : ∀ c ∈ F, Entails G c) (h : Entails F d) : Entails G d :=
  fun a ha => h a fun c hc => hG c hc a ha

theorem Entails.mono (h : Entails F c) (hsub : F ⊆ G) : Entails G c := fun a ha => h a (ha.mono hsub)
theorem Entails.weaken (h : Entails F c) (hsub : ∀ l ∈ c, l ∈ d) : Entails F d := fun a ha => (h a ha).mono hsub

/-- Resolution on `l`: what is left of either premise is kept. -/
theorem Entails.resolve (hc : Entails F c) (hd : Entails F d)
    (hce : ∀ m ∈ c, m = l ∨ m ∈ e) (hde : ∀ m ∈ d, m = ~~~l ∨ m ∈ e) : Entails F e := by
  intro a ha
  obtain ⟨m, hm, hma⟩ := hc a ha
  obtain ⟨n, hn, hna⟩ := hd a ha
  rcases hce m hm with rfl | hme
  · rcases hde n hn with rfl | hne
    · exact absurd hma (Lit.holds_compl.mp hna)
    · exact ⟨n, hne, hna⟩
  · exact ⟨m, hme, hma⟩

theorem Entails.holds_of_unit (h : Entails F [l]) (ha : Models a F) : l.Holds a := by
  obtain ⟨m, hm, hma⟩ := h a ha
  simp only [mem_singleton] at hm
  exact hm ▸ hma

/-- In a model of the set a clause with all other literals false makes the remaining one true. -/
theorem Entails.holds_of_others_false (h : Entails F c) (ha : Models a F)
    (hothers : ∀ m ∈ c, m ≠ l → (~~~m).Holds a) : l.Holds a := by
  obtain ⟨m, hm, hma⟩ := h a ha
  by_cases hml : m = l
  · exact hml ▸ hma
  · exact absurd hma (Lit.holds_compl.mp (hothers m hm hml))

theorem entails_nil_iff : Entails F [] ↔ Unsat F := by simp [Entails, Unsat]

/-- Cut: a literal that follows from `T`, whose members all follow from `S`, follows from `S`. -/
theorem EntailsFrom.cut (h : EntailsFrom F T l) (hT : ∀ m ∈ T, EntailsFrom F S m) : EntailsFrom F S l :=
  fun a ha hS => h a ha fun m hm => hT m hm a ha hS

/-- The clause `l ∨ ¬a₁ ∨ ... ∨ ¬aₙ` makes `l` a consequence of `a₁, ..., aₙ`. -/
theorem Entails.entailsFrom {A : List (Lit ν)} (h : Entails F (l :: A.map (~~~·))) : EntailsFrom F {a | a ∈ A} l := by
  intro a ha hA
  refine h.holds_of_others_false ha fun m hm hne => ?_
  obtain ⟨b, hb, rfl⟩ := mem_map.mp ((mem_cons.mp hm).resolve_left hne)
  simpa using hA b hb

/-- A clause whose literals each have a complement that follows from `S` can be replaced by the
complements of `S`. -/
theorem Entails.of_entailsFrom (h : Entails F c)
    (hc : ∀ l ∈ c, l ∈ d ∨ EntailsFrom F {m | ~~~m ∈ d} (~~~l)) : Entails F d := by
  intro a ha
  by_contra hd
  obtain ⟨l, hl, hla⟩ := h a ha
  rcases hc l hl with hld | hfrom
  · exact hd ⟨l, hld, hla⟩
  · refine Lit.holds_compl.mp (hfrom a ha fun m hm => ?_) hla
    simpa using not_satisfies_iff.mp hd _ hm

theorem mem_map_compl {c : List (Lit ν)} {l : Lit ν} : l ∈ c.map (~~~·) ↔ ~~~l ∈ c :=
  ⟨fun h => by
    obtain ⟨m, hm, rfl⟩ := mem_map.mp h
    simpa using hm, fun h => mem_map.mpr ⟨~~~l, h, by simp⟩⟩

theorem map_compl_compl (A : List (Lit ν)) : (A.map (~~~·)).map (~~~·) = A := by simp [Function.comp_def]

/-- Along a trail in which every literal of `R` follows from earlier literals that are themselves in
`R` or follow from `K`, all literals of `R` follow from `K`. -/
theorem EntailsFrom.of_reasons {trail : List (Lit ν)} {K R : Set (Lit ν)}
    (h : ∀ pre l post, trail = pre ++ l :: post → l ∈ R → ∃ A : List (Lit ν),
      EntailsFrom F {a | a ∈ A} l ∧ ∀ a ∈ A, a ∈ pre ∧ (a ∈ R ∨ EntailsFrom F K a)) :
    ∀ l ∈ trail, l ∈ R → EntailsFrom F K l := by
  suffices hpre : ∀ pre post, trail = pre ++ post → ∀ l ∈ pre, l ∈ R → EntailsFrom F K l from
    hpre trail [] (by simp)
  intro pre
  induction pre using reverseRecOn with
  | nil => simp
  | append_singleton pre x ih =>
    intro post htrail l hl hR
    have htrail' : trail = pre ++ x :: post := by simpa using htrail
    rcases mem_append.mp hl with hl | hl
    · exact ih (x :: post) htrail' l hl hR
    · obtain rfl : l = x := by simpa using hl
      obtain ⟨A, hfrom, hA⟩ := h pre l post htrail' hR
      refine hfrom.cut fun a ha => ?_
      obtain ⟨hapre, haR | haK⟩ := hA a ha
      · exact ih (l :: post) htrail' a hapre haR
      · exact haK

end Cnf
