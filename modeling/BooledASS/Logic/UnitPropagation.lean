import BooledASS.Logic.Cnf

namespace Cnf

variable {ν : Type}

/-- The literals that unit propagation over the clauses of `F` reaches from the literals `S`. -/
inductive Derives (F : Set (List (Lit ν))) (S : Set (Lit ν)) : Lit ν → Prop
  | of_mem {l : Lit ν} : l ∈ S → Derives F S l
  | unit {c : List (Lit ν)} {l : Lit ν} : c ∈ F → l ∈ c → (∀ m ∈ c, m ≠ l → Derives F S (~~~m)) → Derives F S l

/-- Unit propagation reaches a conflict: a clause has only false literals, or a literal is true and false. -/
def Refutes (F : Set (List (Lit ν))) (S : Set (Lit ν)) : Prop :=
  (∃ c ∈ F, ∀ m ∈ c, Derives F S (~~~m)) ∨ ∃ l, Derives F S l ∧ Derives F S (~~~l)

/-- The negation of a clause, as literals. -/
def negated (c : List (Lit ν)) : Set (Lit ν) := {m | ~~~m ∈ c}

/-- Unit propagation over `F` does with the clause nothing that it does not do without it. -/
def Absorbed (F : Set (List (Lit ν))) (c : List (Lit ν)) : Prop :=
  Refutes F (negated c) ∧ ∀ l ∈ c, Derives F {m | ~~~m ∈ c ∧ ~~~m ≠ l} l ∨ Refutes F {m | ~~~m ∈ c ∧ ~~~m ≠ l}

variable {F G : Set (List (Lit ν))} {S T : Set (Lit ν)} {c : List (Lit ν)} {l : Lit ν}

theorem Derives.mono (h : Derives F S l) (hF : F ⊆ G) (hS : S ⊆ T) : Derives G T l := by
  induction h with
  | of_mem hl => exact .of_mem (hS hl)
  | unit hc hl _ ih => exact .unit (hF hc) hl ih

theorem Refutes.mono (h : Refutes F S) (hF : F ⊆ G) (hS : S ⊆ T) : Refutes G T := by
  rcases h with ⟨c, hc, hfalse⟩ | ⟨l, hl, hneg⟩
  · exact .inl ⟨c, hF hc, fun m hm => (hfalse m hm).mono hF hS⟩
  · exact .inr ⟨l, hl.mono hF hS, hneg.mono hF hS⟩

theorem Derives.cut (h : Derives F T l) (hT : ∀ m ∈ T, Derives F S m) : Derives F S l := by
  induction h with
  | of_mem hl => exact hT _ hl
  | unit hc hl _ ih => exact .unit hc hl ih

theorem Refutes.cut (h : Refutes F T) (hT : ∀ m ∈ T, Derives F S m) : Refutes F S := by
  rcases h with ⟨c, hc, hfalse⟩ | ⟨l, hl, hneg⟩
  · exact .inl ⟨c, hc, fun m hm => (hfalse m hm).cut hT⟩
  · exact .inr ⟨l, hl.cut hT, hneg.cut hT⟩

theorem Derives.entailsFrom (h : Derives F S l) : EntailsFrom F S l := fun a ha hS => by
  induction h with
  | of_mem hl => exact hS _ hl
  | unit hc _ _ ih => exact (Entails.of_mem hc).holds_of_others_false ha ih

/-- No model of the clauses makes all the literals true. -/
theorem Refutes.false_of_models (h : Refutes F S) {a : ν → Bool} (ha : Models a F) (hS : ∀ m ∈ S, m.Holds a) :
    False := by
  rcases h with ⟨c, hc, hfalse⟩ | ⟨l, hl, hneg⟩
  · exact not_satisfies_iff.mpr (fun m hm => (hfalse m hm).entailsFrom a ha hS) (ha c hc)
  · exact Lit.holds_compl.mp (hneg.entailsFrom a ha hS) (hl.entailsFrom a ha hS)

/-- A clause with a refuted negation is entailed. -/
theorem Refutes.entails (h : Refutes F (negated c)) : Entails F c := fun a ha => by
  by_contra hc
  refine h.false_of_models ha fun m hm => ?_
  simpa using not_satisfies_iff.mp hc _ hm

/-- What contains `S` and is closed under the unit clauses contains all that propagation reaches. -/
theorem Derives.mem_of_closed (h : Derives F S l) (hS : S ⊆ T)
    (hclosed : ∀ c ∈ F, ∀ l ∈ c, (∀ m ∈ c, m ≠ l → ~~~m ∈ T) → l ∈ T) : l ∈ T := by
  induction h with
  | of_mem hl => exact hS hl
  | unit hc hl _ ih => exact hclosed _ hc _ hl ih

theorem not_refutes_of_closed (hS : S ⊆ T) (hclosed : ∀ c ∈ F, ∀ l ∈ c, (∀ m ∈ c, m ≠ l → ~~~m ∈ T) → l ∈ T)
    (hcons : ∀ l ∈ T, ~~~l ∉ T) (hnil : [] ∉ F) : ¬ Refutes F S := by
  rintro (⟨c, hc, hfalse⟩ | ⟨l, hl, hneg⟩)
  · have hT : ∀ m ∈ c, ~~~m ∈ T := fun m hm => (hfalse m hm).mem_of_closed hS hclosed
    obtain ⟨l, hl⟩ := List.exists_mem_of_ne_nil c fun h => hnil (h ▸ hc)
    exact hcons l (hclosed c hc l hl fun m hm _ => hT m hm) (hT l hl)
  · exact hcons l (hl.mem_of_closed hS hclosed) (hneg.mem_of_closed hS hclosed)

/-- A clause with all literals of a clause of `F` is absorbed. -/
theorem Absorbed.of_subset {d : List (Lit ν)} (hd : d ∈ F) (hsub : ∀ m ∈ d, m ∈ c) : Absorbed F c := by
  refine ⟨.inl ⟨d, hd, fun m hm => .of_mem (by simpa [negated] using hsub m hm)⟩, fun l _ => ?_⟩
  by_cases hl : l ∈ d
  · exact .inl (.unit hd hl fun m hm hne => .of_mem (by simpa using ⟨hsub m hm, hne⟩))
  · refine .inr (.inl ⟨d, hd, fun m hm => .of_mem ?_⟩)
    simpa using ⟨hsub m hm, fun heq => hl (heq ▸ hm)⟩

theorem Absorbed.of_mem (h : c ∈ F) : Absorbed F c := .of_subset h fun _ hm => hm

/-- Propagation over clauses that `F` absorbs reaches nothing that propagation over `F` does not. -/
theorem Derives.of_absorbed (habs : ∀ c ∈ G, Absorbed F c) (h : Derives G S l) : Derives F S l ∨ Refutes F S := by
  induction h with
  | of_mem hl => exact .inl (.of_mem hl)
  | @unit c l hc hl _ ih =>
    by_cases hrefuted : Refutes F S
    · exact .inr hrefuted
    have hothers : ∀ m ∈ {m | ~~~m ∈ c ∧ ~~~m ≠ l}, Derives F S m := by
      rintro m ⟨hm, hne⟩
      simpa using (ih (~~~m) hm hne).resolve_right hrefuted
    exact ((habs c hc).2 l hl).imp (fun h => h.cut hothers) fun h => h.cut hothers

theorem Refutes.of_absorbed (habs : ∀ c ∈ G, Absorbed F c) (h : Refutes G S) : Refutes F S := by
  by_contra hnot
  have hderives {l : Lit ν} (hl : Derives G S l) : Derives F S l := (hl.of_absorbed habs).resolve_right hnot
  rcases h with ⟨c, hc, hfalse⟩ | ⟨l, hl, hneg⟩
  · exact hnot ((habs c hc).1.cut fun m hm => by simpa using hderives (hfalse (~~~m) hm))
  · exact hnot (.inr ⟨l, hderives hl, hderives hneg⟩)

theorem Absorbed.trans (habs : ∀ c ∈ G, Absorbed F c) (h : Absorbed G c) : Absorbed F c :=
  ⟨h.1.of_absorbed habs, fun l hl => (h.2 l hl).elim (fun h => h.of_absorbed habs) fun h => .inr (h.of_absorbed habs)⟩

end Cnf
