import Mathlib.Algebra.Group.Int.Defs
import Mathlib.Algebra.Group.Nat.Defs
import BooledASS.Logic.Loop
import BooledASS.Sat.Types

open Option

namespace dimacs

/-- What `get` returns at the end of the input. -/
def EOF : Int := -1

/-- The stream with its one character of lookahead: `m_text` holds that character and every
character behind it, and is empty at the end of the input. -/
structure stream_buffer where
  m_text : List UInt8
  m_line : Nat
deriving DecidableEq, Repr

def stream_buffer.open (text : List UInt8) : stream_buffer := ⟨text, 0⟩

/-- `operator*`, the lookahead. -/
def stream_buffer.val (buf : stream_buffer) : Int :=
  match buf.m_text with
  | [] => EOF
  | c :: _ => c.toNat

/-- `operator++`. The line counter is an `unsigned`. -/
def stream_buffer.next (buf : stream_buffer) : stream_buffer :=
  { m_text := buf.m_text.tail
    m_line := if buf.m_text.tail.head? = some 10 then (buf.m_line + 1) % 2 ^ 32 else buf.m_line }

/-- The exception of the scanner, with what was written to `err` before it was thrown. -/
structure lex_error where
  err : String
deriving DecidableEq, Repr

/-- `while (p(*in)) { a = act(a, *in); ++in; }` -/
def scan_while {α : Type} (p : Int → Bool) (act : α → Int → α) (fuel : Nat) (a : α) (buf : stream_buffer) :
    Option (α × stream_buffer) :=
  Loop.run (fun s => some <| if p s.2.val then .inl (act s.1 s.2.val, s.2.next) else .inr s) fuel (a, buf)

section Scanning

variable {α : Type} {p : Int → Bool} {act : α → Int → α} {fuel : Nat} {a a' : α} {buf buf' : stream_buffer}

theorem stream_buffer.val_eq_EOF : buf.val = EOF ↔ buf.m_text = [] := by
  unfold stream_buffer.val EOF
  cases buf.m_text with
  | nil => simp
  | cons c rest => simp

/-- A character that is not the end of the input is the first one of the text. -/
theorem stream_buffer.text_eq_cons (h : buf.val ≠ EOF) :
    ∃ c : UInt8, buf.val = c.toNat ∧ buf.m_text = c :: buf.next.m_text := by
  unfold val stream_buffer.next at *
  cases htext : buf.m_text with
  | nil => simp [htext] at h
  | cons c rest => exact ⟨c, rfl, rfl⟩

/-- What a scan that stops at the end of the input consumes. -/
theorem scan_while_spec (hp : p EOF = false) (h : scan_while p act fuel a buf = some (a', buf')) :
    ∃ cs : List UInt8, buf.m_text = cs ++ buf'.m_text ∧ (∀ c ∈ cs, p c.toNat) ∧ p buf'.val = false ∧
      a' = cs.foldl (fun a c => act a c.toNat) a := by
  -- the invariant is the statement for the characters consumed so far
  refine Loop.run_invariant (I := fun s => ∃ cs : List UInt8, buf.m_text = cs ++ s.2.m_text ∧ (∀ c ∈ cs, p c.toNat) ∧
      s.1 = cs.foldl (fun a c => act a c.toNat) a)
    (Q := fun s => ∃ cs : List UInt8, buf.m_text = cs ++ s.2.m_text ∧ (∀ c ∈ cs, p c.toNat) ∧
      p s.2.val = false ∧ s.1 = cs.foldl (fun a c => act a c.toNat) a) ?_ ?_ ⟨[], by simp⟩ h
  · rintro ⟨b, buf1⟩ s' ⟨cs, htext, hcs, hb⟩ hstep
    simp only [some.injEq] at hstep
    split at hstep
    · next hp1 =>
      obtain rfl := Sum.inl.inj hstep
      have hne : buf1.val ≠ EOF := by
        rintro heof
        simp [heof, hp] at hp1
      obtain ⟨c, hval, hcons⟩ := stream_buffer.text_eq_cons hne
      exact ⟨cs ++ [c], by rw [htext, hcons]; simp, Lists.forall_mem_concat hcs (hval ▸ hp1), by simp [← hb, hval]⟩
    · cases hstep
  · rintro ⟨b, buf1⟩ s' ⟨cs, htext, hcs, hb⟩ hexit
    simp only [some.injEq] at hexit
    split at hexit
    · cases hexit
    · next hp1 =>
      obtain rfl := Sum.inr.inj hexit
      exact ⟨cs, htext, hcs, by simpa using hp1, hb⟩

/-- A scan returns when it stops at the end of the input or at a character of the text. -/
theorem scan_while_returns (act : α → Int → α) (a : α) (hstop : p EOF = false ∨ ∃ c ∈ buf.m_text, p c.toNat = false)
    (hfuel : buf.m_text.length < fuel) : ∃ r, scan_while p act fuel a buf = some r ∧ r.2.m_text <:+ buf.m_text := by
  refine Loop.run_returns (I := fun s : α × stream_buffer => s.2.m_text <:+ buf.m_text ∧
      (p EOF = false ∨ ∃ c ∈ s.2.m_text, p c.toNat = false))
    (fun s => s.2.m_text.length) ?_ ⟨List.suffix_refl _, hstop⟩ hfuel
  rintro ⟨b, buf1⟩ ⟨hsuffix, hstop1⟩
  cases hp1 : p buf1.val with
  | false => exact .inl ⟨(b, buf1), by simp, hsuffix⟩
  | true =>
    have hne : buf1.val ≠ EOF := by
      intro heof
      rcases hstop1 with hp | ⟨c, hc, -⟩
      · simp [heof, hp] at hp1
      · simp [stream_buffer.val_eq_EOF.mp heof] at hc
    obtain ⟨c, hval, hcons⟩ := stream_buffer.text_eq_cons hne
    refine .inr ⟨(act b buf1.val, buf1.next), by simp, ⟨(List.tail_suffix _).trans hsuffix, ?_⟩, by simp [hcons]⟩
    refine hstop1.imp_right fun ⟨c', hc', hp'⟩ => ⟨c', ?_, hp'⟩
    rw [hcons] at hc'
    rcases List.mem_cons.mp hc' with rfl | hc'
    · simp [← hval, hp1] at hp'
    · exact hc'

end Scanning

def is_whitespace (c : Int) : Bool := (9 ≤ c && c ≤ 13) || c == 32
def is_digit (c : Int) : Bool := '0'.toNat ≤ c && c ≤ '9'.toNat

def skip_whitespace (fuel : Nat) (buf : stream_buffer) : Option stream_buffer :=
  (scan_while is_whitespace (fun _ _ => ()) fuel () buf).map Prod.snd

theorem skip_whitespace_spec {fuel : Nat} {buf buf' : stream_buffer} (h : skip_whitespace fuel buf = some buf') :
    ∃ ws : List UInt8, buf.m_text = ws ++ buf'.m_text ∧ (∀ c ∈ ws, is_whitespace c.toNat) ∧
      is_whitespace buf'.val = false := by
  obtain ⟨⟨_, buf1⟩, hscan, rfl⟩ := map_eq_some_iff.mp h
  obtain ⟨ws, htext, hws, hstop, -⟩ := scan_while_spec rfl hscan
  exact ⟨ws, htext, hws, hstop⟩

/-- Skips to the character behind the next line break, or to the end of the input. -/
def skip_line : Nat → stream_buffer → Option stream_buffer :=
  Loop.run fun buf => some <|
    if buf.val = EOF then .inr buf
    else if buf.val = '\n'.toNat then .inr buf.next
    else .inl buf.next

/-- A line is skipped with its line break, which only the last line may lack. -/
theorem skip_line_spec {fuel : Nat} {buf buf' : stream_buffer} (h : skip_line fuel buf = some buf') :
    ∃ line : List UInt8, buf.m_text = line ++ buf'.m_text ∧
      ((10 ∉ line ∧ buf'.m_text = []) ∨ ∃ body, line = body ++ [10] ∧ 10 ∉ body) := by
  refine Loop.run_invariant
    (I := fun b : stream_buffer => ∃ line : List UInt8, buf.m_text = line ++ b.m_text ∧ 10 ∉ line)
    (Q := fun b : stream_buffer => ∃ line : List UInt8, buf.m_text = line ++ b.m_text ∧
      ((10 ∉ line ∧ b.m_text = []) ∨ ∃ body, line = body ++ [10] ∧ 10 ∉ body)) ?_ ?_ ⟨[], by simp⟩ h
  · rintro buf1 buf2 ⟨line, htext, hline⟩ hstep
    simp only [some.injEq] at hstep
    split_ifs at hstep with heof hbreak
    obtain rfl := Sum.inl.inj hstep
    obtain ⟨c, hval, hcons⟩ := stream_buffer.text_eq_cons heof
    have hc : 10 ≠ c := by
      rintro rfl
      exact hbreak hval
    exact ⟨line ++ [c], by rw [htext, hcons]; simp, by simp [hline, hc]⟩
  · rintro buf1 buf2 ⟨line, htext, hline⟩ hexit
    simp only [some.injEq] at hexit
    split_ifs at hexit with heof hbreak
    · obtain rfl := Sum.inr.inj hexit
      exact ⟨line, htext, .inl ⟨hline, stream_buffer.val_eq_EOF.mp heof⟩⟩
    · obtain rfl := Sum.inr.inj hexit
      obtain ⟨c, hval, hcons⟩ := stream_buffer.text_eq_cons heof
      obtain rfl : c = 10 := by
        apply UInt8.toNat_inj.mp
        exact Int.natCast_inj.mp (hval.symm.trans hbreak)
      exact ⟨line ++ [10], by rw [htext, hcons]; simp, .inr ⟨line, rfl, hline⟩⟩

/-- Arithmetic on `int`. -/
def int32 (x : Int) : Int := x.bmod (2 ^ 32)

/-- The report of `parse_int`: the character, or its number where it cannot be printed. -/
def unexpected_char (buf : stream_buffer) : lex_error :=
  let shown := if 20 ≤ buf.val ∧ buf.val < 128 then (Char.ofNat buf.val.toNat).toString else toString buf.val
  ⟨"(error, \"unexpected char: " ++ shown ++ " line: " ++ toString buf.m_line ++ "\")\n"⟩

/-- The optional sign of `parse_int`, with the flag `neg`. -/
def parse_sign (buf : stream_buffer) : Bool × stream_buffer :=
  if buf.val = '-'.toNat then (true, buf.next)
  else if buf.val = '+'.toNat then (false, buf.next)
  else (false, buf)

def parse_int (fuel : Nat) (buf : stream_buffer) : Option (Except lex_error Int × stream_buffer) := do
  let buf ← skip_whitespace fuel buf
  let (neg, buf) := parse_sign buf
  if is_digit buf.val then
    let (val, buf) ← scan_while is_digit (fun val c => int32 (val * 10 + (c - '0'.toNat))) fuel 0 buf
    some (.ok (if neg then int32 (-val) else val), buf)
  else
    some (.error (unexpected_char buf), buf)

/-- The constructor of `sat::literal`, which keeps `2*var + sign` in 32 bits. -/
def mk_literal (var : Nat) (sign : Bool) : sat.literal := ⟨var % 2 ^ 31, sign⟩

/-- `abs` on `int`, read as an `unsigned`: the least `int` has no negation. -/
def parsed_var (parsed_lit : Int) : Nat := (int32 parsed_lit.natAbs % 2 ^ 32).toNat

/-- The loop of both `read_clause` overloads; `grow` is what is done with each variable that is named. -/
def read_lits {S : Type} (grow : S → Nat → S) (fuel : Nat) (s : S) (buf : stream_buffer) :
    Option (S × Except lex_error (List sat.literal) × stream_buffer) :=
  Loop.run (fun (s, lits, buf) => do
      let (parsed_lit, buf) ← parse_int fuel buf
      match parsed_lit with
      | .error e => some (.inr (s, .error e, buf))
      | .ok parsed_lit =>
        if parsed_lit = 0 then some (.inr (s, .ok lits, buf))
        else
          let var := parsed_var parsed_lit
          some (.inl (grow s var, lits ++ [mk_literal var (parsed_lit < 0)], buf)))
    fuel (s, [], buf)

/-- What the reader asks of the solver: variables to be made and clauses to be added. -/
structure clause_sink where
  num_vars : Nat
  clauses : List (List sat.literal)
deriving DecidableEq, Repr

/-- `while (var >= solver.num_vars()) solver.mk_var();` -/
def clause_sink.mk_vars (solver : clause_sink) (var : Nat) : clause_sink :=
  { solver with num_vars := max solver.num_vars (var + 1) }

def clause_sink.mk_clause (solver : clause_sink) (lits : List sat.literal) : clause_sink :=
  { solver with clauses := solver.clauses ++ [lits] }

def read_clause (fuel : Nat) (solver : clause_sink) (buf : stream_buffer) :
    Option (clause_sink × Except lex_error (List sat.literal) × stream_buffer) :=
  read_lits clause_sink.mk_vars fuel solver buf

/-- The answer, what was written to `err`, and the solver. -/
structure parse_result where
  answer : Bool
  err : String
  solver : clause_sink
deriving DecidableEq, Repr

def parse_dimacs_core (fuel : Nat) (solver : clause_sink) (buf : stream_buffer) : Option parse_result :=
  Loop.run (fun (solver, buf) => do
      let buf ← skip_whitespace fuel buf
      if buf.val = EOF then some (.inr ⟨true, "", solver⟩)
      else if buf.val = 'c'.toNat ∨ buf.val = 'p'.toNat then
        let buf ← skip_line fuel buf
        some (.inl (solver, buf))
      else
        let (solver, lits, buf) ← read_clause fuel solver buf
        match lits with
        | .error e => some (.inr ⟨false, e.err, solver⟩)
        | .ok lits => some (.inl (solver.mk_clause lits, buf)))
    fuel (solver, buf)

def parse_dimacs (fuel : Nat) (text : List UInt8) (solver : clause_sink) : Option parse_result :=
  parse_dimacs_core fuel solver (.open text)

end dimacs
