import BooledASS.Sat.Dimacs.Exact

open List Option

namespace dimacs

inductive status.st where
  | input
  | asserted
  | redundant
  | deleted
deriving DecidableEq, Repr

structure status where
  m_st : status.st
  m_orig : Int
deriving DecidableEq, Repr

def status.input : status := ⟨.input, -1⟩
def status.redundant : status := ⟨.redundant, -1⟩
def status.deleted : status := ⟨.deleted, -1⟩
def status.th (redundant : Bool) (id : Int) : status := ⟨if redundant then .redundant else .asserted, id⟩

structure drat_record where
  m_lits : List sat.literal
  m_status : status
deriving DecidableEq, Repr

/-- `m_read_theory_id` is the function that `set_read_theory` installs, applied to the characters
of the identifier. -/
structure drat_parser_state where
  buf : stream_buffer
  m_record : drat_record
  m_read_theory_id : Option (List Int → Int)
  m_buffer : List Int

/-- The loop has no test for the end of the input. The buffer has no bound here; the vector of the code throws an
exception that `next` does not catch once it cannot grow any more. -/
def drat_parser_state.parse_identifier (fuel : Nat) (p : drat_parser_state) : Option drat_parser_state :=
  (scan_while (fun c => !is_whitespace c) (fun cs c => cs ++ [c]) fuel [] p.buf).map fun (cs, buf) =>
    { p with buf, m_buffer := cs ++ [0] }

def drat_parser_state.read_theory_id (fuel : Nat) (p : drat_parser_state) :
    Option (Except lex_error Int × drat_parser_state) := do
  let buf ← skip_whitespace fuel p.buf
  let p := { p with buf }
  if 'a'.toNat ≤ buf.val ∧ buf.val ≤ 'z'.toNat then
    match p.m_read_theory_id with
    | none => some (.error ⟨""⟩, p)
    | some f =>
      let p ← p.parse_identifier fuel
      some (.ok (f p.m_buffer), p)
  else
    some (.ok (-1), p)

/-- `read_clause(in, err, m_record.m_lits)`, after which the status of the record is set. -/
def drat_parser_state.read_record (fuel : Nat) (st : status) (p : drat_parser_state) :
    Option (Except lex_error Bool × drat_parser_state) := do
  let (_, lits, buf) ← read_lits (fun _ _ => ()) fuel () p.buf
  match lits with
  | .error e => some (.error e, { p with buf })
  | .ok lits => some (.ok true, { p with buf, m_record := ⟨lits, st⟩ })

/-- The `a` and `r` records, behind the letter. The parser skips whitespace behind the identifier
of an `a` record only. -/
def drat_parser_state.theory_record (fuel : Nat) (redundant : Bool) (p : drat_parser_state) :
    Option (Except lex_error Bool × drat_parser_state) := do
  let buf ← skip_whitespace fuel p.buf
  let (theory_id, p) ← { p with buf }.read_theory_id fuel
  match theory_id with
  | .error e => some (.error e, p)
  | .ok theory_id =>
    let buf ← if redundant then some p.buf else skip_whitespace fuel p.buf
    { p with buf }.read_record fuel (.th redundant theory_id)

/-- The `i` and `d` records, behind the letter. -/
def drat_parser_state.plain_record (fuel : Nat) (st : status) (p : drat_parser_state) :
    Option (Except lex_error Bool × drat_parser_state) := do
  let buf ← skip_whitespace fuel p.buf
  { p with buf }.read_record fuel st

/-- The cases of `next` that read a record. -/
def drat_parser_state.dispatch (fuel : Nat) (p : drat_parser_state) :
    Option (Except lex_error Bool × drat_parser_state) :=
  if p.buf.val = 'i'.toNat then plain_record fuel .input { p with buf := p.buf.next }
  else if p.buf.val = 'a'.toNat then theory_record fuel false { p with buf := p.buf.next }
  else if p.buf.val = 'd'.toNat then plain_record fuel .deleted { p with buf := p.buf.next }
  else if p.buf.val = 'r'.toNat then theory_record fuel true { p with buf := p.buf.next }
  else p.read_record fuel .redundant

/-- The body of the `try` in `next`. -/
def drat_parser_state.next_core (fuel : Nat) (p : drat_parser_state) :
    Option (Except lex_error Bool × drat_parser_state) :=
  Loop.run
    (fun p => do
      let buf ← skip_whitespace fuel p.buf
      if buf.val = EOF then some (.inr (.ok false, { p with buf }))
      else if buf.val = 'c'.toNat ∨ buf.val = 'p'.toNat then
        let buf ← skip_line fuel buf
        some (.inl { p with buf })
      else
        (drat_parser_state.dispatch fuel { p with buf }).map .inr)
    fuel p

/-- A `lex_error` is caught, and the answer is then `false`. -/
def drat_parser_state.next (fuel : Nat) (p : drat_parser_state) : Option (Bool × drat_parser_state) :=
  (p.next_core fuel).map fun (r, p) => (r.toOption.getD false, p)

/-- The records of a proof, as the iterator gives them. -/
def drat_parser_state.records (fuel : Nat) (p : drat_parser_state) : Option (List drat_record × drat_parser_state) :=
  Loop.run
    (fun (records, p) => do
      let (more, p) ← drat_parser_state.next fuel p
      some (if more then .inl (records ++ [p.m_record], p) else .inr (records, p)))
    fuel ([], p)

section Returns

variable {fuel : Nat} {buf buf' : stream_buffer}

theorem skip_whitespace_returns (hfuel : buf.m_text.length < fuel) :
    ∃ buf', skip_whitespace fuel buf = some buf' ∧ buf'.m_text <:+ buf.m_text := by
  obtain ⟨⟨_, buf'⟩, hscan, hsuffix⟩ := scan_while_returns (p := is_whitespace) (fun _ _ => ()) () (.inl rfl) hfuel
  exact ⟨buf', by simp [skip_whitespace, hscan], hsuffix⟩

/-- Behind a comment or a problem line there is less text. -/
theorem skip_line_returns (heof : buf.val ≠ EOF) (hfuel : buf.m_text.length < fuel) :
    ∃ buf', skip_line fuel buf = some buf' ∧ buf'.m_text <:+ buf.m_text ∧ buf'.m_text.length < buf.m_text.length := by
  obtain ⟨buf', hskip, -⟩ : ∃ buf', skip_line fuel buf = some buf' ∧ True := by
    refine Loop.run_returns (I := fun _ => True) (fun b => b.m_text.length) ?_ trivial hfuel
    rintro buf1 -
    split_ifs with heof hbreak
    · exact .inl ⟨_, rfl, trivial⟩
    · exact .inl ⟨_, rfl, trivial⟩
    · obtain ⟨c, -, hcons⟩ := stream_buffer.text_eq_cons heof
      exact .inr ⟨_, rfl, trivial, by simp [hcons]⟩
  obtain ⟨line, htext, hline⟩ := skip_line_spec hskip
  have hne : line ≠ [] := by
    rintro rfl
    rcases hline with ⟨-, hnil⟩ | ⟨body, hbody, -⟩
    · exact heof (stream_buffer.val_eq_EOF.mpr (htext.trans hnil))
    · simp at hbody
  refine ⟨buf', hskip, ⟨line, htext.symm⟩, ?_⟩
  have := length_pos_iff.mpr hne
  rw [htext, length_append]
  omega

theorem Integer.shorter {text rest : List UInt8} {n : Int} (h : Integer text n rest) : rest.length < text.length := by
  obtain ⟨ws, sign, ds, rfl, -, hne, -⟩ := h
  have := length_pos_iff.mpr hne
  simp only [length_append]
  omega

/-- The number ends with the text at the latest. A number that is read has a digit, so that the text becomes shorter.
-/
theorem parse_int_returns (hfuel : buf.m_text.length < fuel) : ∃ r buf', parse_int fuel buf = some (r, buf') ∧
    buf'.m_text <:+ buf.m_text ∧ (∀ n, r = .ok n → buf'.m_text.length < buf.m_text.length) := by
  obtain ⟨buf1, hskip, hsuffix⟩ := skip_whitespace_returns hfuel
  obtain ⟨sign, hsign, -⟩ := parse_sign_spec buf1
  have hsuffix : (parse_sign buf1).2.m_text <:+ buf.m_text := .trans ⟨sign, hsign.symm⟩ hsuffix
  cases hdigit : is_digit (parse_sign buf1).2.val with
  | false =>
    exact ⟨.error (unexpected_char (parse_sign buf1).2), (parse_sign buf1).2,
      by simp [parse_int, hskip, hdigit], hsuffix, by simp⟩
  | true =>
    obtain ⟨⟨val, buf2⟩, hscan, hsuffix2⟩ := scan_while_returns (p := is_digit)
      (fun val c => int32 (val * 10 + (c - '0'.toNat))) 0 (.inl rfl) (hsuffix.length_le.trans_lt hfuel)
    have hparse : parse_int fuel buf = some (.ok (if (parse_sign buf1).1 then int32 (-val) else val), buf2) := by
      simp only [parse_int, hskip, hdigit, hscan, bind_eq_bind, bind_some, if_true]
    refine ⟨_, _, hparse, hsuffix2.trans hsuffix, fun _ _ => ?_⟩
    obtain ⟨m, hm, -⟩ := parse_int_spec hparse
    exact hm.shorter

/-- Both loops that read a clause return, and have consumed something when no error is thrown. -/
theorem read_lits_returns {S : Type} (grow : S → Nat → S) (s : S) (hfuel : buf.m_text.length < fuel) :
    ∃ s' r buf', read_lits grow fuel s buf = some (s', r, buf') ∧ buf'.m_text <:+ buf.m_text ∧
      (∀ lits, r = .ok lits → buf'.m_text.length < buf.m_text.length) := by
  obtain ⟨⟨s', r, buf'⟩, hrun, h⟩ : ∃ r, read_lits grow fuel s buf = some r ∧ r.2.2.m_text <:+ buf.m_text ∧
      (∀ lits, r.2.1 = .ok lits → r.2.2.m_text.length < buf.m_text.length) := by
    refine Loop.run_returns (I := fun s => s.2.2.m_text <:+ buf.m_text)
      (fun s => s.2.2.m_text.length) ?_ (suffix_refl _) hfuel
    rintro ⟨s1, lits1, buf1⟩ hsuffix
    obtain ⟨r, buf2, hparse, hsuffix2, hshorter⟩ := parse_int_returns (hsuffix.length_le.trans_lt hfuel)
    have hsuffix2 : buf2.m_text <:+ buf.m_text := hsuffix2.trans hsuffix
    cases r with
    | error e => exact .inl ⟨(s1, .error e, buf2), by simp [hparse], hsuffix2, by simp⟩
    | ok n =>
      have hlt : buf2.m_text.length < buf1.m_text.length := hshorter n rfl
      by_cases hzero : n = 0
      · exact .inl ⟨(s1, .ok lits1, buf2), by simp [hparse, hzero], hsuffix2,
          fun _ _ => hlt.trans_le hsuffix.length_le⟩
      · exact .inr ⟨_, by simp [hparse, hzero]; rfl, hsuffix2, hlt⟩
  exact ⟨s', r, buf', hrun, h⟩

/-- The DIMACS reader returns on every text. -/
theorem parse_dimacs_core_returns (solver : clause_sink) (hfuel : buf.m_text.length < fuel) :
    ∃ r, parse_dimacs_core fuel solver buf = some r := by
  suffices h : ∃ r, parse_dimacs_core fuel solver buf = some r ∧ True by
    exact h.imp fun r hr => hr.1
  refine Loop.run_returns (I := fun s => s.2.m_text.length < fuel) (fun s => s.2.m_text.length) ?_ hfuel hfuel
  rintro ⟨s1, buf1⟩ hfuel1
  obtain ⟨buf2, hskip, hsuffix⟩ := skip_whitespace_returns hfuel1
  have hle2 : buf2.m_text.length ≤ buf1.m_text.length := hsuffix.length_le
  have hfuel2 : buf2.m_text.length < fuel := hle2.trans_lt hfuel1
  by_cases heof : buf2.val = EOF
  · exact .inl ⟨⟨true, "", s1⟩, by simp [hskip, heof], trivial⟩
  by_cases hline : buf2.val = 'c'.toNat ∨ buf2.val = 'p'.toNat
  · obtain ⟨buf3, hskip3, -, hlt3⟩ := skip_line_returns heof hfuel2
    have hlt : buf3.m_text.length < buf1.m_text.length := hlt3.trans_le hle2
    exact .inr ⟨(s1, buf3), by simp only [hskip, heof, hline, hskip3, bind_eq_bind, bind_some,
      if_true, if_false], hlt.trans hfuel1, hlt⟩
  · obtain ⟨s3, r, buf3, hread, -, hshorter⟩ := read_lits_returns clause_sink.mk_vars s1 hfuel2
    cases r with
    | error e =>
      exact .inl ⟨⟨false, e.err, s3⟩, by simp only [hskip, heof, hline, read_clause, hread, bind_eq_bind,
        bind_some, if_false], trivial⟩
    | ok lits =>
      have hlt : buf3.m_text.length < buf1.m_text.length := (hshorter lits rfl).trans_le hle2
      exact .inr ⟨(s3.mk_clause lits, buf3), by simp only [hskip, heof, hline, read_clause, hread,
        bind_eq_bind, bind_some, if_false], hlt.trans hfuel1, hlt⟩

end Returns

end dimacs
