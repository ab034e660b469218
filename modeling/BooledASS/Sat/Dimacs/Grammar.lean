import Mathlib.Data.Int.Lemmas
import BooledASS.Sat.Dimacs.Scanner

open List Option

namespace dimacs

/-- The value of a sequence of digits. -/
def decimal (ds : List UInt8) : Int := ds.foldl (fun val c => val * 10 + ((c.toNat : Int) - '0'.toNat)) 0

/-- The text starts with the integer `n`, written in decimal, and goes on with `rest`. -/
def Integer (text : List UInt8) (n : Int) (rest : List UInt8) : Prop :=
  ∃ ws sign ds : List UInt8, text = ws ++ sign ++ ds ++ rest ∧ (∀ c ∈ ws, is_whitespace c.toNat) ∧
    ds ≠ [] ∧ (∀ c ∈ ds, is_digit c.toNat) ∧ (∀ c ∈ rest.head?, is_digit c.toNat = false) ∧
    ((sign = [] ∨ sign = ['+'.toUInt8]) ∧ n = decimal ds ∨ sign = ['-'.toUInt8] ∧ n = -decimal ds)

/-- The text starts with the integers `ns`, none of them zero, and goes on with `rest`. -/
inductive Integers (text : List UInt8) : List Int → List UInt8 → Prop
  | nil : Integers text [] text
  | snoc {ns : List Int} {n : Int} {mid rest : List UInt8} :
      Integers text ns mid → Integer mid n rest → n ≠ 0 → Integers text (ns ++ [n]) rest

/-- The text starts with a space, with a comment or problem line, or with a zero-terminated
sequence of integers, which is a clause. -/
inductive Item (text : List UInt8) : List (List Int) → List UInt8 → Prop
  | space {c : UInt8} {rest : List UInt8} : text = c :: rest → is_whitespace c.toNat → Item text [] rest
  | line {c : UInt8} {body rest : List UInt8} :
      text = c :: body ++ rest → c = 'c'.toUInt8 ∨ c = 'p'.toUInt8 →
      (10 ∉ body ∧ rest = [] ∨ ∃ body', body = body' ++ [10] ∧ 10 ∉ body') → Item text [] rest
  | clause {ns : List Int} {mid rest : List UInt8} :
      Integers text ns mid → Integer mid 0 rest → Item text [ns] rest

/-- The text starts with items, whose clauses are `css`, and goes on with `rest`. -/
inductive Clauses (text : List UInt8) : List (List Int) → List UInt8 → Prop
  | nil : Clauses text [] text
  | snoc {css cs : List (List Int)} {mid rest : List UInt8} :
      Clauses text css mid → Item mid cs rest → Clauses text (css ++ cs) rest

/-- Every integer that is met on reading the text is in the range of `int`, with its negation. -/
def InRange (text : List UInt8) : Prop :=
  ∀ css ns mid mid' n rest, Clauses text css mid → Integers mid ns mid' → Integer mid' n rest → n.natAbs < 2 ^ 31

section Suffix

variable {n : Int} {rest text : List UInt8} {css : List (List Int)}

theorem Integer.suffix (h : Integer text n rest) : rest <:+ text := by
  obtain ⟨ws, sign, ds, rfl, -⟩ := h
  exact suffix_append _ _

theorem Integers.suffix {ns : List Int} (h : Integers text ns rest) : rest <:+ text := by
  induction h with
  | nil => exact suffix_refl _
  | snoc _ hn _ ih => exact hn.suffix.trans ih

theorem Clauses.suffix (h : Clauses text css rest) : rest <:+ text := by
  induction h with
  | nil => exact suffix_refl _
  | snoc _ hitem ih =>
    refine .trans ?_ ih
    cases hitem with
    | space htext _ => exact htext ▸ suffix_cons _ _
    | line htext _ _ => exact htext ▸ suffix_append _ _
    | clause hns hzero => exact hzero.suffix.trans hns.suffix

theorem decimal_bounds {ds : List UInt8} (hds : ∀ c ∈ ds, is_digit c.toNat) :
    0 ≤ decimal ds ∧ decimal ds < 10 ^ ds.length := by
  induction ds using reverseRecOn with
  | nil => simp [decimal]
  | append_singleton ds c ih =>
    obtain ⟨h0, hlt⟩ := ih fun c' hc' => hds c' (by simp [hc'])
    have hc : is_digit c.toNat := hds c (by simp)
    have hstep : decimal (ds ++ [c]) = decimal ds * 10 + (c.toNat - 48) := by simp [decimal]
    simp only [is_digit, Bool.and_eq_true, decide_eq_true_eq] at hc
    have hc0 : (48 : Int) ≤ c.toNat := hc.1
    have hc9 : (c.toNat : Int) ≤ 57 := hc.2
    rw [length_append, length_singleton]
    omega

/-- A text in which no more than nine digits follow each other is in range. -/
theorem inRange_of_short_runs
    (hruns : ∀ ds : List UInt8, ds <:+: text → (∀ c ∈ ds, is_digit c.toNat) → ds.length ≤ 9) : InRange text := by
  intro css ns mid mid' n rest hcss hns hn
  obtain ⟨ws, sign, ds, hmid', -, -, hds, -, hvalue⟩ := hn
  have hsub : ds <:+: mid' := ⟨ws ++ sign, rest, by rw [hmid']⟩
  have hlen : ds.length ≤ 9 := hruns ds (hsub.trans (hns.suffix.trans hcss.suffix).isInfix) hds
  obtain ⟨h0, hlt⟩ := decimal_bounds hds
  have hpow : (10 : Int) ^ ds.length ≤ 10 ^ 9 := pow_le_pow_right₀ (by decide) hlen
  rcases hvalue with ⟨-, rfl⟩ | ⟨-, rfl⟩ <;> omega

end Suffix

section Unique

variable {c : UInt8} {m n : Int} {ms ns : List Int} {css : List (List Int)} {text mid mid' rest rest' : List UInt8}

/-- Two splits of a text behind its characters of a class are the same. -/
theorem split_unique {p : UInt8 → Bool} {xs ys xs' ys' : List UInt8} (h : xs ++ ys = xs' ++ ys')
    (hxs : ∀ c ∈ xs, p c) (hxs' : ∀ c ∈ xs', p c) (hys : ∀ c ∈ ys.head?, p c = false)
    (hys' : ∀ c ∈ ys'.head?, p c = false) : xs = xs' ∧ ys = ys' := by
  induction xs generalizing xs' with
  | nil =>
    cases xs' with
    | nil => exact ⟨rfl, h⟩
    | cons c xs' => simp [show ys = c :: (xs' ++ ys') from h, hxs' c (by simp)] at hys
  | cons c xs ih =>
    cases xs' with
    | nil => simp [← show c :: (xs ++ ys) = ys' from h, hxs c (by simp)] at hys'
    | cons c' xs' =>
      obtain ⟨rfl, htail⟩ := cons.inj h
      obtain ⟨rfl, rfl⟩ := ih htail (fun c hc => hxs c (.tail _ hc)) fun c hc => hxs' c (.tail _ hc)
      exact ⟨rfl, rfl⟩

/-- What an integer starts with behind its spaces. -/
theorem integer_head {sign ds : List UInt8} (rest : List UInt8) (hne : ds ≠ []) (hds : ∀ c ∈ ds, is_digit c.toNat)
    (hsign : ∀ c ∈ sign, c = '+'.toUInt8 ∨ c = '-'.toUInt8) :
    ∃ c t, sign ++ ds ++ rest = c :: t ∧ (is_digit c.toNat ∨ c = '+'.toUInt8 ∨ c = '-'.toUInt8) := by
  cases sign with
  | nil =>
    obtain ⟨d, ds', rfl⟩ := exists_cons_of_ne_nil hne
    exact ⟨d, ds' ++ rest, rfl, .inl (hds d (by simp))⟩
  | cons c sign => exact ⟨c, sign ++ ds ++ rest, rfl, .inr (hsign c (by simp))⟩

theorem not_space_of_head (h : is_digit c.toNat ∨ c = '+'.toUInt8 ∨ c = '-'.toUInt8) :
    is_whitespace c.toNat = false := by
  rcases h with h | rfl | rfl
  · simp only [is_digit, is_whitespace, Bool.and_eq_true, decide_eq_true_eq, Char.toNat] at h ⊢
    simp at h ⊢
    omega
  · decide
  · decide

theorem not_sign_of_digit (h : is_digit c.toNat) : ¬(c = '+'.toUInt8 ∨ c = '-'.toUInt8) := by
  rintro (rfl | rfl)
  · exact absurd h (by decide)
  · exact absurd h (by decide)

theorem not_head_of_line (h : c = 'c'.toUInt8 ∨ c = 'p'.toUInt8) :
    ¬(is_digit c.toNat ∨ c = '+'.toUInt8 ∨ c = '-'.toUInt8) ∧ is_whitespace c.toNat = false := by
  rcases h with rfl | rfl
  · decide
  · decide

/-- The parts of an integer. -/
theorem Integer.parts (h : Integer text n rest) : ∃ ws sign ds : List UInt8, text = ws ++ (sign ++ ds ++ rest) ∧
    (∀ c ∈ ws, is_whitespace c.toNat) ∧ ds ≠ [] ∧ (∀ c ∈ ds, is_digit c.toNat) ∧
    (∀ c ∈ rest.head?, is_digit c.toNat = false) ∧ (∀ c ∈ sign, c = '+'.toUInt8 ∨ c = '-'.toUInt8) ∧
    n = if sign = ['-'.toUInt8] then -decimal ds else decimal ds := by
  obtain ⟨ws, sign, ds, htext, hws, hne, hds, hrest, hsign⟩ := h
  refine ⟨ws, sign, ds, by simpa using htext, hws, hne, hds, hrest, ?_⟩
  rcases hsign with ⟨rfl | rfl, rfl⟩ | ⟨rfl, rfl⟩
  · simp
  · simp [show '+'.toUInt8 ≠ '-'.toUInt8 by decide]
  · simp

/-- A text starts with one integer at most: the digits go on as far as they can. -/
theorem Integer.unique (h : Integer text m rest) (h' : Integer text n rest') : m = n ∧ rest = rest' := by
  obtain ⟨ws, sign, ds, rfl, hws, hne, hds, hrest, hsign, rfl⟩ := h.parts
  obtain ⟨ws', sign', ds', htext, hws', hne', hds', hrest', hsign', rfl⟩ := h'.parts
  have hspace {sign ds rest : List UInt8} (hne : ds ≠ []) (hds : ∀ c ∈ ds, is_digit c.toNat)
      (hsign : ∀ c ∈ sign, c = '+'.toUInt8 ∨ c = '-'.toUInt8) :
      ∀ c ∈ (sign ++ ds ++ rest).head?, is_whitespace c.toNat = false := by
    obtain ⟨c, t, heq, hc⟩ := integer_head rest hne hds hsign
    simpa [heq] using not_space_of_head hc
  have hdigit {ds rest : List UInt8} (hne : ds ≠ []) (hds : ∀ c ∈ ds, is_digit c.toNat) :
      ∀ c ∈ (ds ++ rest).head?, decide (c = '+'.toUInt8 ∨ c = '-'.toUInt8) = false := by
    obtain ⟨d, ds, rfl⟩ := exists_cons_of_ne_nil hne
    simpa using not_sign_of_digit (hds d (by simp))
  -- the spaces, the sign and the digits are each the characters of a class
  obtain ⟨-, htext⟩ := split_unique htext hws hws' (hspace hne hds hsign) (hspace hne' hds' hsign')
  rw [append_assoc, append_assoc] at htext
  obtain ⟨rfl, hdigits⟩ := split_unique htext (fun c hc => decide_eq_true (hsign c hc))
    (fun c hc => decide_eq_true (hsign' c hc)) (hdigit hne hds) (hdigit hne' hds')
  obtain ⟨rfl, rfl⟩ := split_unique hdigits hds hds' hrest hrest'
  exact ⟨rfl, rfl⟩

/-- An integer may start with a space. -/
theorem Integer.of_space (hc : is_whitespace c.toNat) (h : Integer (c :: text) n rest) : Integer text n rest := by
  obtain ⟨ws, sign, ds, htext, hws, hne, hds, hrest, hsign⟩ := h
  cases ws with
  | nil =>
    have hchars : ∀ c ∈ sign, c = '+'.toUInt8 ∨ c = '-'.toUInt8 := by
      rcases hsign with ⟨rfl | rfl, -⟩ | ⟨rfl, -⟩ <;> simp
    obtain ⟨d, t, heq, hd⟩ := integer_head rest hne hds hchars
    obtain ⟨rfl, -⟩ := cons.inj ((show c :: text = sign ++ ds ++ rest by simpa using htext).trans heq)
    simp [not_space_of_head hd] at hc
  | cons c' ws =>
    exact ⟨ws, sign, ds, (cons.inj htext).2, fun c hc => hws c (.tail _ hc), hne, hds, hrest, hsign⟩

theorem Integer.head (h : Integer text n rest) : ∃ c t, text = c :: t ∧
    (is_whitespace c.toNat ∨ is_digit c.toNat ∨ c = '+'.toUInt8 ∨ c = '-'.toUInt8) := by
  obtain ⟨ws, sign, ds, rfl, hws, hne, hds, -, hsign, -⟩ := h.parts
  cases ws with
  | nil =>
    obtain ⟨d, t, heq, hd⟩ := integer_head rest hne hds hsign
    exact ⟨d, t, heq, .inr hd⟩
  | cons c ws => exact ⟨c, _, rfl, .inl (hws c (by simp))⟩

theorem Integer.not_line (hc : c = 'c'.toUInt8 ∨ c = 'p'.toUInt8) : ¬Integer (c :: text) n rest := by
  intro h
  obtain ⟨d, t, heq, hd⟩ := h.head
  obtain ⟨rfl, -⟩ := cons.inj heq
  rcases hd with hd | hd
  · simp [(not_head_of_line hc).2] at hd
  · exact (not_head_of_line hc).1 hd

/-- The text is at its end, or at a character with which no item starts. -/
def Stops (text : List UInt8) : Prop :=
  ∀ c ∈ text.head?, is_whitespace c.toNat = false ∧ ¬(c = 'c'.toUInt8 ∨ c = 'p'.toUInt8) ∧
    ¬(is_digit c.toNat ∨ c = '+'.toUInt8 ∨ c = '-'.toUInt8)

theorem Integer.not_stops (h : Integer text n rest) : ¬Stops text := by
  intro hstops
  obtain ⟨c, t, rfl, hc⟩ := h.head
  obtain ⟨hspace, -, hhead⟩ := hstops c rfl
  rcases hc with hc | hc
  · simp [hspace] at hc
  · exact hhead hc

/-- The first of the integers, or none. -/
theorem Integers.front (h : Integers text ns rest) : ns = [] ∧ text = rest ∨
    ∃ n ns' mid, ns = n :: ns' ∧ Integer text n mid ∧ n ≠ 0 ∧ Integers mid ns' rest := by
  induction h with
  | nil => exact .inl ⟨rfl, rfl⟩
  | @snoc ns n mid rest _ hn hne ih =>
    rcases ih with ⟨rfl, rfl⟩ | ⟨m, ms, mid', rfl, hm, hm0, hms⟩
    · exact .inr ⟨n, [], rest, rfl, hn, hne, .nil⟩
    · exact .inr ⟨m, ms ++ [n], mid', rfl, hm, hm0, hms.snoc hn hne⟩

/-- The first integer of a sequence that one more integer follows. -/
theorem Integers.first (h : Integers text ns mid) (hn : Integer mid n rest) : ∃ m mid, Integer text m mid := by
  rcases h.front with ⟨-, rfl⟩ | ⟨m, -, mid', -, hm, -⟩
  · exact ⟨n, rest, hn⟩
  · exact ⟨m, mid', hm⟩

theorem Integers.of_space (hc : is_whitespace c.toNat) (h : Integers (c :: text) ns mid) (hn : Integer mid n rest) :
    ∃ mid, Integers text ns mid ∧ Integer mid n rest := by
  induction h generalizing n rest with
  | nil => exact ⟨text, .nil, hn.of_space hc⟩
  | snoc _ hm hm0 ih =>
    obtain ⟨mid', hns, hm'⟩ := ih hm
    exact ⟨_, .snoc hns hm' hm0, hn⟩

/-- The integers that are read before a zero is found are those of the sequence up to that zero. -/
theorem Integers.unique (h : Integers text ns mid) (hn : Integer mid n rest) (h' : Integers text ms mid')
    (h0 : Integer mid' 0 rest') : n ≠ 0 ∧ n ∈ ms ∨ n = 0 ∧ ns = ms ∧ rest = rest' := by
  induction ns generalizing text ms with
  | nil =>
    obtain ⟨-, rfl⟩ | ⟨_, _, _, heq, -⟩ := h.front
    · rcases h'.front with ⟨rfl, rfl⟩ | ⟨m, ms, mid, rfl, hm, hm0, -⟩
      · obtain ⟨rfl, rfl⟩ := hn.unique h0
        exact .inr ⟨rfl, rfl, rfl⟩
      · obtain ⟨rfl, -⟩ := hn.unique hm
        exact .inl ⟨hm0, by simp⟩
    · cases heq
  | cons a ns ih =>
    obtain ⟨heq, -⟩ | ⟨_, _, mid1, heq, ha, ha0, hns⟩ := h.front
    · cases heq
    obtain ⟨rfl, rfl⟩ := cons.inj heq
    rcases h'.front with ⟨rfl, rfl⟩ | ⟨b, ms, mid2, rfl, hb, -, hms⟩
    · exact absurd (ha.unique h0).1 ha0
    · obtain ⟨rfl, rfl⟩ := ha.unique hb
      exact (ih hns hms).imp (.imp_right (mem_cons_of_mem a)) fun ⟨hn0, heq, hrest⟩ => ⟨hn0, by rw [heq], hrest⟩

theorem Clauses.front (h : Clauses text css rest) : css = [] ∧ text = rest ∨
    ∃ cs css' mid, css = cs ++ css' ∧ Item text cs mid ∧ Clauses mid css' rest := by
  induction h with
  | nil => exact .inl ⟨rfl, rfl⟩
  | @snoc css cs mid rest _ hitem ih =>
    rcases ih with ⟨rfl, rfl⟩ | ⟨cs', css', mid', rfl, hitem', hcss'⟩
    · exact .inr ⟨cs, [], rest, by simp, hitem, .nil⟩
    · exact .inr ⟨cs', css' ++ cs, mid', by simp, hitem', hcss'.snoc hitem⟩

theorem Clauses.cons {cs : List (List Int)} (hitem : Item text cs mid) (h : Clauses mid css rest) :
    Clauses text (cs ++ css) rest := by
  induction h with
  | nil => simpa using Clauses.nil.snoc hitem
  | snoc _ hitem' ih => exact append_assoc cs _ _ ▸ ih.snoc hitem'

/-- A line ends at the first line break, or with the text if there is none. -/
theorem line_unique {body body' : List UInt8} (h : body ++ rest = body' ++ rest')
    (hline : 10 ∉ body ∧ rest = [] ∨ ∃ body1, body = body1 ++ [10] ∧ 10 ∉ body1)
    (hline' : 10 ∉ body' ∧ rest' = [] ∨ ∃ body1, body' = body1 ++ [10] ∧ 10 ∉ body1) : rest = rest' := by
  rcases hline with ⟨hbody, rfl⟩ | ⟨body1, rfl, hbody1⟩ <;> rcases hline' with ⟨hbody', rfl⟩ | ⟨body2, rfl, hbody2⟩
  · rfl
  · simp [show body = body2 ++ [10] ++ rest' by simpa using h] at hbody
  · simp [show body' = body1 ++ [10] ++ rest by simpa using h.symm] at hbody'
  · have hbreak {body : List UInt8} (hbody : 10 ∉ body) : ∀ c ∈ body, decide (c ≠ 10) := by
      intro c hc
      exact decide_eq_true fun h => hbody (h ▸ hc)
    rw [append_assoc, append_assoc] at h
    exact (cons.inj (split_unique h (hbreak hbody1) (hbreak hbody2) (by simp) (by simp)).2).2

variable {stop : List UInt8} (hstop : Stops stop)
include hstop

/-- The integers at the start of a text are those of its first clause. -/
theorem Clauses.first (h : Clauses text css stop) (hns : Integers text ns mid) (hn : Integer mid n rest) :
    ∃ ms css' rest', css = ms :: css' ∧ Clauses rest' css' stop ∧
      (n ≠ 0 ∧ n ∈ ms ∨ n = 0 ∧ ns = ms ∧ rest = rest') := by
  obtain ⟨m, mid1, hm⟩ := hns.first hn
  induction text generalizing mid with
  | nil =>
    obtain ⟨c, t, heq, -⟩ := hm.head
    cases heq
  | cons c text ih =>
    obtain ⟨-, rfl⟩ | ⟨cs, css, mid2, rfl, hitem, hcss⟩ := h.front
    · exact absurd hstop hm.not_stops
    cases hitem with
    | space heq hc =>
      obtain ⟨rfl, rfl⟩ := cons.inj heq
      obtain ⟨mid', hns', hn'⟩ := hns.of_space hc hn
      exact ih hcss hns' hn' (hm.of_space hc)
    | line heq hc _ =>
      obtain ⟨rfl, -⟩ := cons.inj heq
      exact absurd hm (Integer.not_line hc)
    | clause hms h0 => exact ⟨_, css, mid2, rfl, hcss, hns.unique hn hms h0⟩

/-- A text that is read up to where no item starts goes on behind its first item. -/
theorem Clauses.behind_item {cs : List (List Int)} (h : Clauses text css stop) (hitem : Item text cs rest) :
    ∃ css', css = cs ++ css' ∧ Clauses rest css' stop := by
  cases hitem with
  | @space c _ heq hc =>
    subst heq
    obtain ⟨-, rfl⟩ | ⟨cs, css, mid, rfl, hitem, hcss⟩ := h.front
    · simp [(hstop c rfl).1] at hc
    cases hitem with
    | space heq _ =>
      obtain ⟨-, rfl⟩ := cons.inj heq
      exact ⟨css, rfl, hcss⟩
    | line heq hc' _ =>
      obtain ⟨rfl, -⟩ := cons.inj heq
      simp [(not_head_of_line hc').2] at hc
    | clause hns h0 =>
      obtain ⟨mid', hns', h0'⟩ := hns.of_space hc h0
      exact ⟨_, rfl, hcss.cons (.clause hns' h0')⟩
  | @line c body _ heq hc hline =>
    subst heq
    obtain ⟨-, rfl⟩ | ⟨cs, css, mid, rfl, hitem, hcss⟩ := h.front
    · exact absurd hc (hstop c rfl).2.1
    cases hitem with
    | space heq hc' =>
      obtain ⟨rfl, -⟩ := cons.inj heq
      simp [(not_head_of_line hc).2] at hc'
    | line heq _ hline' =>
      obtain ⟨-, heq⟩ := cons.inj heq
      obtain rfl := line_unique heq hline hline'
      exact ⟨css, rfl, hcss⟩
    | clause hns h0 =>
      obtain ⟨m, mid1, hm⟩ := hns.first h0
      exact absurd hm (Integer.not_line hc)
  | clause hns h0 =>
    obtain ⟨ms, css', rest', rfl, hcss', ⟨hne, -⟩ | ⟨-, rfl, rfl⟩⟩ := h.first hstop hns h0
    · exact absurd rfl hne
    · exact ⟨css', rfl, hcss'⟩

theorem Clauses.behind {css' : List (List Int)} (h : Clauses text css stop) (h' : Clauses text css' mid) :
    ∃ css'', css = css' ++ css'' ∧ Clauses mid css'' stop := by
  induction h' with
  | nil => exact ⟨css, rfl, h⟩
  | snoc _ hitem ih =>
    obtain ⟨css1, rfl, hcss1⟩ := ih
    obtain ⟨css2, rfl, hcss2⟩ := hcss1.behind_item hstop hitem
    exact ⟨css2, by simp, hcss2⟩

end Unique

/-- A text that is read to its end is in range when the integers of its clauses are. -/
theorem Clauses.inRange {css : List (List Int)} {text : List UInt8} (h : Clauses text css [])
    (hcss : ∀ ns ∈ css, ∀ n ∈ ns, n.natAbs < 2 ^ 31) : InRange text := by
  intro css' ns mid mid' n rest hcss' hns hn
  have hend : Stops [] := by simp [Stops]
  obtain ⟨css1, rfl, hcss1⟩ := h.behind hend hcss'
  obtain ⟨ms, css2, rest', rfl, -, ⟨-, hmem⟩ | ⟨rfl, -⟩⟩ := hcss1.first hend hns hn
  · exact hcss ms (by simp) n hmem
  · decide

end dimacs
