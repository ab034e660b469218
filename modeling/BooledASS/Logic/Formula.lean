import Mathlib.Data.Set.Basic

open List

/-- Formulas with their meaning in the models `M`, and the connectives that are needed. -/
structure Interp (E M : Type) where
  holds : M → E → Prop
  mk_not : E → E
  mk_and : List E → E
  mk_or : List E → E
  holds_mk_not : ∀ m e, holds m (mk_not e) ↔ ¬ holds m e
  holds_mk_and : ∀ m es, holds m (mk_and es) ↔ ∀ e ∈ es, holds m e
  holds_mk_or : ∀ m es, holds m (mk_or es) ↔ ∃ e ∈ es, holds m e

namespace Interp

variable {E M : Type} (I : Interp E M)

/-- All formulas of the set hold. -/
def Models (m : M) (T : Set E) : Prop := ∀ f ∈ T, I.holds m f

def Entails (T : Set E) (e : E) : Prop := ∀ m, I.Models m T → I.holds m e

/-- The list is a core: with the formulas of the set not all of its members hold. -/
def Core (T : Set E) (c : List E) : Prop := ∀ m, I.Models m T → ∃ e ∈ c, ¬ I.holds m e

/-- Exactly one of the two formulas holds. -/
def Complementary (a b : E) : Prop := ∀ m, I.holds m a ↔ ¬ I.holds m b

variable {I} {T T' : Set E} {a b e : E} {c c' : List E}

theorem complementary_mk_not (a : E) : I.Complementary a (I.mk_not a) := fun m => by rw [I.holds_mk_not, not_not]
theorem Models.mono {m : M} (h : I.Models m T') (hsub : T ⊆ T') : I.Models m T := fun f hf => h f (hsub hf)
theorem Entails.of_mem (h : e ∈ T) : I.Entails T e := fun _ hm => hm e h

/-- Formulas that are entailed may be added. -/
theorem Core.cut (h : I.Core T' c) (hT : ∀ f ∈ T', I.Entails T f) : I.Core T c :=
  fun m hm => h m fun f hf => hT f hf m hm

theorem Entails.cut (h : I.Entails T' e) (hT : ∀ f ∈ T', I.Entails T f) : I.Entails T e :=
  fun m hm => h m fun f hf => hT f hf m hm

theorem Core.mono (h : I.Core T c) (hsub : ∀ e ∈ c, e ∈ c') : I.Core T c' := fun m hm => by
  obtain ⟨e, he, hfalse⟩ := h m hm
  exact ⟨e, hsub e he, hfalse⟩

/-- Members of the core that are entailed can be left out. -/
theorem Core.drop (h : I.Core T c) (hsub : ∀ e ∈ c, e ∈ c' ∨ I.Entails T e) : I.Core T c' := fun m hm => by
  obtain ⟨e, he, hfalse⟩ := h m hm
  rcases hsub e he with hmem | hent
  · exact ⟨e, hmem, hfalse⟩
  · exact absurd (hent m hm) hfalse

/-- Cores for complementary formulas are resolved. -/
theorem Core.resolve {c1 c2 : List E} (hab : I.Complementary a b) (h1 : I.Core T c1) (h2 : I.Core T c2)
    (hsub1 : ∀ e ∈ c1, e ≠ a → e ∈ c) (hsub2 : ∀ e ∈ c2, e ≠ b → e ∈ c) : I.Core T c := fun m hm => by
  obtain ⟨e1, he1, hfalse1⟩ := h1 m hm
  obtain ⟨e2, he2, hfalse2⟩ := h2 m hm
  by_cases h1a : e1 = a
  · by_cases h2b : e2 = b
    · subst h1a h2b
      exact absurd ((hab m).mpr hfalse2) hfalse1
    · exact ⟨e2, hsub2 e2 he2 h2b, hfalse2⟩
  · exact ⟨e1, hsub1 e1 he1 h1a, hfalse1⟩

/-- A core with one member gives the negation of this member. -/
theorem Core.entails_mk_not (h : I.Core T [e]) : I.Entails T (I.mk_not e) := fun m hm => by
  obtain ⟨f, hf, hfalse⟩ := h m hm
  rw [mem_singleton] at hf
  rw [I.holds_mk_not]
  exact hf ▸ hfalse

theorem Core.entails_not_and (h : I.Core T c) : I.Entails T (I.mk_not (I.mk_and c)) := fun m hm => by
  obtain ⟨e, he, hfalse⟩ := h m hm
  rw [I.holds_mk_not, I.holds_mk_and]
  exact fun hall => hfalse (hall e he)

theorem Core.entails_or_not (h : I.Core T c) : I.Entails T (I.mk_or (c.map I.mk_not)) := fun m hm => by
  obtain ⟨e, he, hfalse⟩ := h m hm
  rw [I.holds_mk_or]
  exact ⟨I.mk_not e, mem_map_of_mem he, (I.holds_mk_not m e).mpr hfalse⟩

/-- The formulas are the sets of their models. -/
def ofBool (M : Type) : Interp (M → Bool) M where
  holds m e := e m
  mk_not e := fun m => !e m
  mk_and es := fun m => es.all fun e => e m
  mk_or es := fun m => es.any fun e => e m
  holds_mk_not m e := by simp
  holds_mk_and m es := by simp
  holds_mk_or m es := by simp

section OfBool

variable {M : Type} {T : Set (M → Bool)} {c : List (M → Bool)}

/-- A core is found by a test of all models of some of the formulas. -/
theorem core_ofBool (fs : List (M → Bool)) (hfs : ∀ f ∈ fs, f ∈ T)
    (h : ∀ m, fs.all (fun f => f m) → c.all (fun e => e m) = false) : (ofBool M).Core T c := fun m hm => by
  have hall : fs.all (fun f => f m) := all_eq_true.mpr fun f hf => hm f (hfs f hf)
  obtain ⟨e, he, hfalse⟩ := all_eq_false.mp (h m hall)
  exact ⟨e, he, hfalse⟩

/-- A model of everything is against a core. -/
theorem not_core_ofBool (m : M) (hT : ∀ f ∈ T, f m) (hc : c.all (fun e => e m)) :
    ¬ (ofBool M).Core T c := fun h => by
  obtain ⟨e, he, hfalse⟩ := h m hT
  exact hfalse (all_eq_true.mp hc e he)

end OfBool

end Interp
