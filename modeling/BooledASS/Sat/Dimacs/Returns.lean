import BooledASS.Sat.Dimacs.DratParser

open List Option

namespace dimacs

variable {fuel : Nat} {p p' p'' : drat_parser_state}

/-- Behind whitespace, comments and problem lines the text goes on with an `a` or `r` record, and ends inside the
theory identifier of that record. -/
def CutOff (text : List UInt8) : Prop :=
  ∃ (ws id : List UInt8) (k : UInt8), Clauses text [] (k :: ws ++ id) ∧ (k = 'a'.toUInt8 ∨ k = 'r'.toUInt8) ∧
    (∀ c ∈ ws, is_whitespace c.toNat) ∧ (∃ c ∈ id.head?, 97 ≤ c.toNat ∧ c.toNat ≤ 122) ∧
    ∀ c ∈ id, is_whitespace c.toNat = false

/-- A text that ends with a whitespace is not cut off. -/
theorem not_cutOff_concat (text : List UInt8) {c : UInt8} (hc : is_whitespace c.toNat) : ¬ CutOff (text ++ [c]) := by
  rintro ⟨ws, id, k, hskip, -, -, ⟨c', hhead, -⟩, hid⟩
  obtain ⟨pre, htext⟩ := hskip.suffix
  rcases eq_nil_or_concat id with rfl | ⟨id', c'', rfl⟩
  · simp at hhead
  · have hlast : c'' = c := by
      rw [concat_eq_append, ← append_assoc, ← append_assoc] at htext
      simpa using (append_inj' htext rfl).2
    have := hid c'' (by simp)
    simp [hlast, hc] at this

theorem CutOff.behind {text mid : List UInt8} (h : CutOff text) (hskip : Clauses text [] mid) : CutOff mid := by
  obtain ⟨ws, id, k, hclauses, hk, hid⟩ := h
  have hstops : Stops (k :: ws ++ id) := by
    rintro c hc
    obtain rfl : k = c := by simpa using hc
    rcases hk with rfl | rfl
    · decide
    · decide
  obtain ⟨css, hnil, hmid⟩ := hclauses.behind hstops hskip
  obtain rfl : css = [] := hnil.symm
  exact ⟨ws, id, k, hmid, hk, hid⟩

/-- Where nothing is skipped, a text that is cut off starts with the record. -/
theorem CutOff.at_record {text : List UInt8} (h : CutOff text)
    (hspace : ∀ c ∈ text.head?, is_whitespace c.toNat = false)
    (hline : ∀ c ∈ text.head?, ¬(c = 'c'.toUInt8 ∨ c = 'p'.toUInt8)) :
    ∃ (ws id : List UInt8) (k : UInt8), text = k :: ws ++ id ∧ (k = 'a'.toUInt8 ∨ k = 'r'.toUInt8) ∧
      (∀ c ∈ ws, is_whitespace c.toNat) ∧ (∃ c ∈ id.head?, 97 ≤ c.toNat ∧ c.toNat ≤ 122) ∧
      ∀ c ∈ id, is_whitespace c.toNat = false := by
  obtain ⟨ws, id, k, hskip, hid⟩ := h
  rcases hskip.front with ⟨-, rfl⟩ | ⟨cs, css, mid, hnil, hitem, -⟩
  · exact ⟨ws, id, k, rfl, hid⟩
  obtain ⟨rfl, rfl⟩ : cs = [] ∧ css = [] := by simpa using hnil.symm
  cases hitem with
  | space htext hc => simp [hspace _ (by rw [htext]; rfl)] at hc
  | line htext hc _ => exact absurd hc (hline _ (by rw [htext]; rfl))

namespace drat_parser_state

/-- What every function of the parser keeps: it only moves forward in the text. -/
structure Moves (p p' : drat_parser_state) : Prop where
  suffix : p'.buf.m_text <:+ p.buf.m_text
  reader : p'.m_read_theory_id = p.m_read_theory_id

theorem Moves.trans (h : Moves p p') (h' : Moves p' p'') : Moves p p'' :=
  ⟨h'.suffix.trans h.suffix, h'.reader.trans h.reader⟩

theorem Moves.length_lt (h : Moves p p') (hfuel : p.buf.m_text.length < fuel) : p'.buf.m_text.length < fuel :=
  h.suffix.length_le.trans_lt hfuel

theorem parse_identifier_returns (hspace : ∃ c ∈ p.buf.m_text, is_whitespace c.toNat)
    (hfuel : p.buf.m_text.length < fuel) : ∃ p', p.parse_identifier fuel = some p' ∧ Moves p p' := by
  obtain ⟨c, hc, hspace⟩ := hspace
  obtain ⟨⟨cs, buf'⟩, hscan, hsuffix⟩ := scan_while_returns (p := fun c => !is_whitespace c)
    (fun cs c => cs ++ [c]) ([]) (.inr ⟨c, hc, by simp [hspace]⟩) hfuel
  exact ⟨{ p with buf := buf', m_buffer := cs ++ [0] }, by simp [parse_identifier, hscan], hsuffix, rfl⟩

/-- Behind whitespace, the parser is at the end of the text or at no identifier, or there is a
whitespace at which the identifier ends. -/
def Closed (p : drat_parser_state) : Prop :=
  ∀ ws id : List UInt8, p.buf.m_text = ws ++ id → (∀ c ∈ ws, is_whitespace c.toNat) →
    (∃ c ∈ id.head?, 97 ≤ c.toNat ∧ c.toNat ≤ 122) → ∃ c ∈ id, is_whitespace c.toNat

theorem Closed.skip_whitespace {buf' : stream_buffer} (h : Closed p)
    (hskip : dimacs.skip_whitespace fuel p.buf = some buf') : Closed { p with buf := buf' } := by
  obtain ⟨ws, htext, hws, -⟩ := skip_whitespace_spec hskip
  intro ws' id htext' hws' hhead
  refine h (ws ++ ws') id (by simpa [htext] using htext') ?_ hhead
  intro c hc
  exact (mem_append.mp hc).elim (hws c) (hws' c)

/-- The identifier ends before the text does, or there is nothing to read identifiers with. -/
theorem read_theory_id_returns (hid : p.m_read_theory_id = none ∨ Closed p) (hfuel : p.buf.m_text.length < fuel) :
    ∃ r p', p.read_theory_id fuel = some (r, p') ∧ Moves p p' := by
  obtain ⟨buf1, hskip, hsuffix⟩ := skip_whitespace_returns hfuel
  have hmoves : Moves p { p with buf := buf1 } := ⟨hsuffix, rfl⟩
  by_cases hletter : 'a'.toNat ≤ buf1.val ∧ buf1.val ≤ 'z'.toNat
  · cases hreader : p.m_read_theory_id with
    | none =>
      exact ⟨.error ⟨""⟩, _, by simp only [read_theory_id, hskip, hletter, hreader, bind_eq_bind,
        bind_some, and_self, if_true], hmoves⟩
    | some f =>
      have hclosed : Closed { p with buf := buf1 } := (hid.resolve_left (by simp [hreader])).skip_whitespace hskip
      have hne : buf1.val ≠ EOF := by
        intro heof
        simp [heof, EOF] at hletter
      obtain ⟨c, hval, hcons⟩ := stream_buffer.text_eq_cons hne
      have hlower : 97 ≤ c.toNat ∧ c.toNat ≤ 122 := by
        rw [hval] at hletter
        exact ⟨Int.ofNat_le.mp hletter.1, Int.ofNat_le.mp hletter.2⟩
      obtain ⟨p', hparse, hmoves'⟩ := parse_identifier_returns
        (hclosed [] buf1.m_text rfl (by simp) ⟨c, by simp [hcons], hlower⟩) (hmoves.length_lt hfuel)
      refine ⟨.ok (f p'.m_buffer), p', ?_, hmoves.trans hmoves'⟩
      simp only [read_theory_id, hskip, hletter, hreader, bind_eq_bind, bind_some]
      rw [← hreader, hparse]
      rfl
  · exact ⟨.ok (-1), _, by simp only [read_theory_id, hskip, hletter, bind_eq_bind, bind_some, if_false], hmoves⟩

/-- What reading a record comes to: an error, or a record for which text was consumed. -/
structure Record (p : drat_parser_state) (r : Except lex_error Bool) (p' : drat_parser_state) : Prop where
  moves : Moves p p'
  not_end : r ≠ .ok false
  shorter : r = .ok true → p'.buf.m_text.length < p.buf.m_text.length

theorem Record.of_moves {r : Except lex_error Bool} (hmoves : Moves p p') (h : Record p' r p'') : Record p r p'' :=
  ⟨hmoves.trans h.moves, h.not_end, fun hr => (h.shorter hr).trans_le hmoves.suffix.length_le⟩

theorem read_record_returns (st : status) (hfuel : p.buf.m_text.length < fuel) :
    ∃ r p', p.read_record fuel st = some (r, p') ∧ Record p r p' := by
  obtain ⟨_, r, buf', hread, hsuffix, hshorter⟩ := read_lits_returns (fun _ _ => ()) () hfuel
  cases r with
  | error e =>
    exact ⟨.error e, { p with buf := buf' }, by simp [read_record, hread], ⟨hsuffix, rfl⟩, by simp, by simp⟩
  | ok lits =>
    exact ⟨.ok true, { p with buf := buf', m_record := ⟨lits, st⟩ }, by simp [read_record, hread], ⟨hsuffix, rfl⟩,
      by simp, fun _ => hshorter lits rfl⟩

theorem plain_record_returns (st : status) (hfuel : p.buf.m_text.length < fuel) :
    ∃ r p', p.plain_record fuel st = some (r, p') ∧ Record p r p' := by
  obtain ⟨buf1, hskip, hsuffix⟩ := skip_whitespace_returns hfuel
  have hmoves : Moves p { p with buf := buf1 } := ⟨hsuffix, rfl⟩
  obtain ⟨r, p', hread, hrecord⟩ := read_record_returns st (hmoves.length_lt hfuel)
  exact ⟨r, p', by simp [plain_record, hskip, hread], hrecord.of_moves hmoves⟩

/-- A record with a theory identifier: the letter in front of it is consumed, so that the text becomes shorter. -/
theorem theory_record_returns (redundant : Bool) (hid : p.m_read_theory_id = none ∨ Closed p)
    (hfuel : p.buf.m_text.length < fuel) : ∃ r p', p.theory_record fuel redundant = some (r, p') ∧ Record p r p' := by
  obtain ⟨buf1, hskip, hsuffix⟩ := skip_whitespace_returns hfuel
  have hmoves : Moves p { p with buf := buf1 } := ⟨hsuffix, rfl⟩
  obtain ⟨theory_id, p2, hread, hmoves2⟩ := read_theory_id_returns (p := { p with buf := buf1 })
    (hid.imp_right fun h => h.skip_whitespace hskip) (hmoves.length_lt hfuel)
  have hmoves2 : Moves p p2 := hmoves.trans hmoves2
  cases theory_id with
  | error e => exact ⟨.error e, p2, by simp [theory_record, hskip, hread], hmoves2, by simp, by simp⟩
  | ok theory_id =>
    cases redundant with
    | true =>
      obtain ⟨r, p', hread3, hrecord⟩ := read_record_returns (.th true theory_id) (hmoves2.length_lt hfuel)
      exact ⟨r, p', by simp [theory_record, hskip, hread, hread3], hrecord.of_moves hmoves2⟩
    | false =>
      obtain ⟨buf3, hskip3, hsuffix3⟩ := skip_whitespace_returns (hmoves2.length_lt hfuel)
      have hmoves3 : Moves p { p2 with buf := buf3 } := hmoves2.trans ⟨hsuffix3, rfl⟩
      obtain ⟨r, p', hread3, hrecord⟩ := read_record_returns (.th false theory_id) (hmoves3.length_lt hfuel)
      exact ⟨r, p', by simp [theory_record, hskip, hread, hskip3, hread3], hrecord.of_moves hmoves3⟩

/-- Behind the letter of a record the parser is closed, unless the text is cut off there. -/
theorem closed_of_not_cutOff {k : UInt8} {text rest : List UInt8} (hcut : ¬ CutOff text)
    (hskip : Clauses text [] (k :: rest)) (hk : k = 'a'.toUInt8 ∨ k = 'r'.toUInt8) (hrest : p.buf.m_text = rest) :
    Closed p := by
  intro ws id hsplit hws hhead
  by_contra hnone
  refine hcut ⟨ws, id, k, ?_, hk, hws, hhead, fun c hc => ?_⟩
  · rwa [cons_append, ← hsplit, hrest]
  · by_contra hspace
    exact hnone ⟨c, hc, by simpa using hspace⟩

/-- Every kind of record is read to its end, or to an error. The records `a` and `r` are those with an identifier. -/
theorem dispatch_returns {text : List UInt8} (hid : p.m_read_theory_id = none ∨ ¬ CutOff text)
    (hskip : Clauses text [] p.buf.m_text) (hfuel : p.buf.m_text.length < fuel) :
    ∃ r p', p.dispatch fuel = some (r, p') ∧ Record p r p' := by
  have hmoves : Moves p { p with buf := p.buf.next } := ⟨tail_suffix _, rfl⟩
  have hfuel1 := hmoves.length_lt hfuel
  -- behind the letter of a theory record an identifier may be cut off
  have hclosed : ∀ k : UInt8, p.buf.val = k.toNat → (k = 'a'.toUInt8 ∨ k = 'r'.toUInt8) →
      p.m_read_theory_id = none ∨ Closed { p with buf := p.buf.next } := fun k hval hk =>
    hid.imp_right fun hcut => closed_of_not_cutOff hcut (stream_buffer.text_eq_of_val hval ▸ hskip) hk rfl
  unfold dispatch
  split
  · obtain ⟨r, p', h, hrecord⟩ := plain_record_returns .input hfuel1
    exact ⟨r, p', h, hrecord.of_moves hmoves⟩
  split
  · next hval =>
    obtain ⟨r, p', h, hrecord⟩ := theory_record_returns false (hclosed 'a'.toUInt8 hval (.inl rfl)) hfuel1
    exact ⟨r, p', h, hrecord.of_moves hmoves⟩
  split
  · obtain ⟨r, p', h, hrecord⟩ := plain_record_returns .deleted hfuel1
    exact ⟨r, p', h, hrecord.of_moves hmoves⟩
  split
  · next hval =>
    obtain ⟨r, p', h, hrecord⟩ := theory_record_returns true (hclosed 'r'.toUInt8 hval (.inr rfl)) hfuel1
    exact ⟨r, p', h, hrecord.of_moves hmoves⟩
  · exact read_record_returns .redundant hfuel

/-- Identifiers are read, and the text ends inside the one of the next record. -/
def Hangs (p : drat_parser_state) : Prop := p.m_read_theory_id ≠ none ∧ CutOff p.buf.m_text

/-- A call of `next` returns: with a record, for which it consumed text; at the end of the text;
or with an error. -/
theorem next_core_returns (hid : ¬Hangs p) (hfuel : p.buf.m_text.length < fuel) :
    ∃ r p', p.next_core fuel = some (r, p') ∧ Moves p p' ∧
      (r = .ok true → p'.buf.m_text.length < p.buf.m_text.length) ∧ (r = .ok false → p'.buf.m_text = []) := by
  obtain ⟨⟨r, p'⟩, hrun, h⟩ : ∃ r, p.next_core fuel = some r ∧ Moves p r.2 ∧
      (r.1 = .ok true → r.2.buf.m_text.length < p.buf.m_text.length) ∧ (r.1 = .ok false → r.2.buf.m_text = []) := by
    refine Loop.run_returns (I := fun p1 => Moves p p1 ∧ Clauses p.buf.m_text [] p1.buf.m_text)
      (fun p1 => p1.buf.m_text.length) ?_ ⟨⟨suffix_refl _, rfl⟩, .nil⟩ hfuel
    rintro p1 ⟨hmoves1, hskips1⟩
    obtain ⟨buf2, hskip, hsuffix2⟩ := skip_whitespace_returns (hmoves1.length_lt hfuel)
    have hmoves2 : Moves p { p1 with buf := buf2 } := hmoves1.trans ⟨hsuffix2, rfl⟩
    obtain ⟨ws, htext, hws, -⟩ := skip_whitespace_spec hskip
    have hskips2 : Clauses p.buf.m_text [] buf2.m_text := .spaces (htext ▸ hskips1) hws
    by_cases heof : buf2.val = EOF
    · exact .inl ⟨(.ok false, { p1 with buf := buf2 }), by simp [hskip, heof], hmoves2, by simp,
        fun _ => stream_buffer.val_eq_EOF.mp heof⟩
    by_cases hline : buf2.val = 'c'.toNat ∨ buf2.val = 'p'.toNat
    · obtain ⟨buf3, hskip3, hsuffix3, hlt3⟩ := skip_line_returns heof (hmoves2.length_lt hfuel)
      refine .inr ⟨{ p1 with buf := buf3 }, ?_, ⟨hmoves2.trans ⟨hsuffix3, rfl⟩, hskips2.skip_line hline hskip3⟩,
        hlt3.trans_le hsuffix2.length_le⟩
      simp only [hskip, heof, hline, hskip3, bind_eq_bind, bind_some, if_true, if_false]
    · have hid2 : p1.m_read_theory_id = none ∨ ¬CutOff p.buf.m_text := by
        rw [hmoves1.reader]
        exact or_iff_not_imp_left.mpr fun hreader hcut => hid ⟨hreader, hcut⟩
      obtain ⟨r, p3, hdispatch, hrecord⟩ := dispatch_returns (p := { p1 with buf := buf2 }) hid2 hskips2
        (hmoves2.length_lt hfuel)
      have hrecord : Record p r p3 := hrecord.of_moves hmoves2
      refine .inl ⟨(r, p3), ?_, hrecord.moves, hrecord.shorter, fun h => absurd h hrecord.not_end⟩
      simp only [hskip, heof, hline, hdispatch, bind_eq_bind, bind_some, if_false, map_some]
  exact ⟨r, p', hrun, h⟩

/-- Without a whitespace the loop goes on at the end of the text. -/
theorem parse_identifier_diverges (hspace : ∀ c ∈ p.buf.m_text, is_whitespace c.toNat = false) :
    p.parse_identifier fuel = none := by
  have hscan : scan_while (fun c => !is_whitespace c) (fun cs c => cs ++ [c]) fuel ([]) p.buf = none := by
    refine Loop.run_diverges
      (I := fun s : List Int × stream_buffer => ∀ c ∈ s.2.m_text, is_whitespace c.toNat = false) ?_ hspace
    rintro ⟨cs, buf1⟩ hbuf1
    have hval : is_whitespace buf1.val = false := by
      by_cases heof : buf1.val = EOF
      · rw [heof]
        rfl
      · obtain ⟨c, hval, hcons⟩ := stream_buffer.text_eq_cons heof
        rw [hval]
        exact hbuf1 c (by simp [hcons])
    exact .inr ⟨_, by simp [hval]; rfl, fun c hc => hbuf1 c (mem_of_mem_tail hc)⟩
  simp [parse_identifier, hscan]

/-- What is left behind whitespace does not depend on how the text is split. -/
theorem skip_whitespace_text {buf buf' : stream_buffer} {ws id : List UInt8} (htext : buf.m_text = ws ++ id)
    (hws : ∀ c ∈ ws, is_whitespace c.toNat) (hid : ∀ c ∈ id.head?, is_whitespace c.toNat = false)
    (h : skip_whitespace fuel buf = some buf') : buf'.m_text = id := by
  obtain ⟨ws', htext', hws', hstop⟩ := skip_whitespace_spec h
  have hdrop : ∀ ws id : List UInt8, (∀ c ∈ ws, is_whitespace c.toNat) →
      (∀ c ∈ id.head?, is_whitespace c.toNat = false) →
      (ws ++ id).dropWhile (fun c => is_whitespace c.toNat) = id := by
    intro ws id hws hid
    rw [dropWhile_append_of_pos hws]
    cases id with
    | nil => rfl
    | cons c id => simp [hid c (by simp)]
  rw [← hdrop ws' buf'.m_text hws' (stream_buffer.head_of_val hstop), ← htext', htext, hdrop ws id hws hid]

/-- A theory record whose identifier runs to the end of the text is never read to its end. -/
theorem theory_record_diverges {f : List Int → Int} (ws id : List UInt8) (c : UInt8) (redundant : Bool)
    (hreader : p.m_read_theory_id = some f) (htext : p.buf.m_text = ws ++ c :: id)
    (hws : ∀ c ∈ ws, is_whitespace c.toNat) (hc : 97 ≤ c.toNat ∧ c.toNat ≤ 122)
    (hid : ∀ x ∈ c :: id, is_whitespace x.toNat = false) : p.theory_record fuel redundant = none := by
  have hhead : ∀ x ∈ (c :: id).head?, is_whitespace x.toNat = false := by simpa using hid c (by simp)
  cases hskip : skip_whitespace fuel p.buf with
  | none => simp [theory_record, hskip]
  | some buf1 =>
    have htext1 : buf1.m_text = [] ++ c :: id := skip_whitespace_text htext hws hhead hskip
    have hread : read_theory_id fuel { p with buf := buf1 } = none := by
      cases hskip2 : skip_whitespace fuel buf1 with
      | none => simp [read_theory_id, hskip2]
      | some buf2 =>
        have htext2 : buf2.m_text = c :: id := skip_whitespace_text htext1 (by simp) hhead hskip2
        have hval : buf2.val = c.toNat := by simp [stream_buffer.val, htext2]
        have hletter : 'a'.toNat ≤ buf2.val ∧ buf2.val ≤ 'z'.toNat := by
          rw [hval]
          exact ⟨Int.ofNat_le.mpr hc.1, Int.ofNat_le.mpr hc.2⟩
        have hparse : parse_identifier fuel { p with buf := buf2 } = none :=
          parse_identifier_diverges (by simpa [htext2] using hid)
        simp only [read_theory_id, hskip2, hletter, hreader, bind_eq_bind, bind_some]
        rw [← hreader, hparse]
        rfl
    simp [theory_record, hskip, hread]

/-- A record `a` or `r` whose identifier is not ended by a whitespace is never read to its end. -/
theorem dispatch_hangs {ws id : List UInt8} {k c : UInt8} (hreader : p.m_read_theory_id ≠ none)
    (htext : p.buf.m_text = k :: ws ++ c :: id) (hk : k = 'a'.toUInt8 ∨ k = 'r'.toUInt8)
    (hws : ∀ c ∈ ws, is_whitespace c.toNat) (hc : 97 ≤ c.toNat ∧ c.toNat ≤ 122)
    (hid : ∀ x ∈ c :: id, is_whitespace x.toNat = false) : p.dispatch fuel = none := by
  obtain ⟨f, hf⟩ := ne_none_iff_exists'.mp hreader
  have hrecord (redundant : Bool) : theory_record fuel redundant { p with buf := p.buf.next } = none := by
    have hrest : p.buf.next.m_text = ws ++ c :: id := by simp [stream_buffer.next, htext]
    exact theory_record_diverges ws id c redundant hf hrest hws hc hid
  have hval : p.buf.val = k.toNat := by simp [stream_buffer.val, htext]
  unfold dispatch
  rcases hk with rfl | rfl
  · rw [if_neg (by rw [hval]; decide), if_pos (by rw [hval]; decide), hrecord]
  · rw [if_neg (by rw [hval]; decide), if_neg (by rw [hval]; decide), if_neg (by rw [hval]; decide),
      if_pos (by rw [hval]; decide), hrecord]

/-- Where the parser hangs, `next` comes to the loop that reads the identifier and does not leave it. -/
theorem next_core_hangs (h : Hangs p) : p.next_core fuel = none := by
  refine Loop.run_diverges (I := Hangs) ?_ h
  rintro p1 ⟨hreader, hcut⟩
  cases hskip : dimacs.skip_whitespace fuel p1.buf with
  | none => exact .inl rfl
  | some buf2 =>
    obtain ⟨ws, htext, hws, hspace⟩ := skip_whitespace_spec hskip
    have hcut2 : CutOff buf2.m_text := hcut.behind (.spaces (htext ▸ .nil) hws)
    have heof : buf2.val ≠ EOF := by
      intro heof
      obtain ⟨ws, id, k, hsuffix, -⟩ := hcut2
      simpa [stream_buffer.val_eq_EOF.mp heof] using hsuffix.suffix
    by_cases hline : buf2.val = 'c'.toNat ∨ buf2.val = 'p'.toNat
    · cases hskip3 : dimacs.skip_line fuel buf2 with
      | none => exact .inl (by simp only [heof, hline, hskip3, bind_eq_bind, bind_some, bind_none, if_true, if_false])
      | some buf3 =>
        refine .inr ⟨{ p1 with buf := buf3 }, ?_, hreader, hcut2.behind (Clauses.nil.skip_line hline hskip3)⟩
        simp only [heof, hline, hskip3, bind_eq_bind, bind_some, if_true, if_false]
    · refine .inl ?_
      have hhead : ∀ c ∈ buf2.m_text.head?, ¬(c = 'c'.toUInt8 ∨ c = 'p'.toUInt8) := by
        intro c hc hor
        have hval : buf2.val = c.toNat := by
          obtain ⟨rest, hrest⟩ := head?_eq_some_iff.mp hc
          simp [stream_buffer.val, hrest]
        rw [hval] at hline
        rcases hor with rfl | rfl
        · exact hline (.inl rfl)
        · exact hline (.inr rfl)
      obtain ⟨ws, id, k, htext2, hk, hws, ⟨c, hc, hlower⟩, hid⟩ :=
        hcut2.at_record (stream_buffer.head_of_val hspace) hhead
      obtain ⟨id, rfl⟩ := head?_eq_some_iff.mp hc
      simp only [heof, hline, bind_eq_bind, bind_some, if_false]
      rw [dispatch_hangs (p := { p1 with buf := buf2 }) hreader htext2 hk hws hlower hid]
      rfl

/-- The records of a proof are read in finitely many calls, unless one of the calls hangs. -/
theorem records_returns (hfuel : p.buf.m_text.length < fuel)
    (hid : ∀ p', Relation.ReflTransGen (fun p p' => p.next fuel = some (true, p')) p p' → ¬Hangs p') :
    ∃ r, p.records fuel = some r := by
  suffices h : ∃ r, p.records fuel = some r ∧ True by exact h.imp fun r hr => hr.1
  refine Loop.run_returns (I := fun s : List drat_record × drat_parser_state => Moves p s.2 ∧
      Relation.ReflTransGen (fun p p' => p.next fuel = some (true, p')) p s.2)
    (fun s => s.2.buf.m_text.length) ?_ ⟨⟨suffix_refl _, rfl⟩, .refl⟩ hfuel
  rintro ⟨records, p1⟩ ⟨hmoves1, hcalls⟩
  obtain ⟨r, p2, hnext, hmoves2, hlt, -⟩ := next_core_returns (hid p1 hcalls) (hmoves1.length_lt hfuel)
  have hmoves2 : Moves p p2 := hmoves1.trans hmoves2
  match r, hnext, hlt with
  | .error e, hnext, _ => exact .inl ⟨(records, p2), by simp [drat_parser_state.next, hnext, Except.toOption], trivial⟩
  | .ok false, hnext, _ => exact .inl ⟨(records, p2), by simp [drat_parser_state.next, hnext, Except.toOption], trivial⟩
  | .ok true, hnext, hlt =>
    have hcall : p1.next fuel = some (true, p2) := by simp [drat_parser_state.next, hnext, Except.toOption]
    exact .inr ⟨(records ++ [p2.m_record], p2), by simp [hcall], ⟨hmoves2, hcalls.tail hcall⟩, hlt rfl⟩

theorem records_hangs (hcalls : Relation.ReflTransGen (fun p p' => p.next fuel = some (true, p')) p p')
    (h : Hangs p') : p.records fuel = none := by
  refine Loop.run_diverges (I := fun s : List drat_record × drat_parser_state =>
    Relation.ReflTransGen (fun p p' => p.next fuel = some (true, p')) s.2 p') ?_ hcalls
  rintro ⟨records, p1⟩ hcalls1
  rcases hcalls1.cases_head with rfl | ⟨p2, hnext, hcalls2⟩
  · exact .inl (by simp [next, next_core_hangs h])
  · exact .inr ⟨(records ++ [p2.m_record], p2), by simp [hnext], hcalls2⟩

end drat_parser_state

open drat_parser_state in
/-- On every text the DIMACS reader returns. A call of the proof reader returns, with a record, at the end of
the text or because of an error, exactly if it does not hang in the identifier of the next record, at which
the text ends. The loop that reads all records returns exactly if no call that it comes to hangs. -/
theorem readers_return (text : List UInt8) (fuel : Nat) (hfuel : text.length < fuel) :
    (∀ solver, ∃ r, parse_dimacs fuel text solver = some r) ∧
    ∀ p : drat_parser_state, p.buf.m_text = text →
      ((∃ answer p', p.next fuel = some (answer, p') ∧
        (answer ∨ p'.buf.m_text = [] ∨ ∃ e, p.next_core fuel = some (.error e, p'))) ↔ ¬Hangs p) ∧
      ((∃ r, p.records fuel = some r) ↔
        ∀ p', Relation.ReflTransGen (fun p p' => p.next fuel = some (true, p')) p p' → ¬Hangs p') := by
  refine ⟨fun solver => parse_dimacs_core_returns solver hfuel, ?_⟩
  rintro p rfl
  refine ⟨⟨?_, fun hid => ?_⟩, ?_, records_returns hfuel⟩
  · rintro ⟨answer, p', hnext, -⟩ hangs
    simp [drat_parser_state.next, next_core_hangs hangs] at hnext
  · obtain ⟨r, p', hnext, -, -, hend⟩ := next_core_returns hid hfuel
    match r, hnext, hend with
    | .error e, hnext, _ =>
      exact ⟨false, p', by simp [drat_parser_state.next, hnext, Except.toOption], .inr (.inr ⟨e, hnext⟩)⟩
    | .ok false, hnext, hend =>
      exact ⟨false, p', by simp [drat_parser_state.next, hnext, Except.toOption], .inr (.inl (hend rfl))⟩
    | .ok true, hnext, _ => exact ⟨true, p', by simp [drat_parser_state.next, hnext, Except.toOption], .inl rfl⟩
  · rintro ⟨r, hr⟩ p' hcalls hangs
    cases (records_hangs hcalls hangs).symm.trans hr

/-- The record `a e 1 0` with its line break, read by a parser for theory identifiers. -/
def closed_record : drat_parser_state where
  buf := .open (['a', ' ', 'e', ' ', '1', ' ', '0', '\n'].map Char.toUInt8)
  m_record := ⟨[], .redundant⟩
  m_read_theory_id := some fun _ => 7
  m_buffer := []

/-- The identifier ends at a space. The record is returned with the number that the reader gives for it. -/
theorem readers_return_sample : ¬closed_record.Hangs ∧ (∃ r, closed_record.next 9 = some r) ∧
    (closed_record.next 9).map (fun r => (r.1, r.2.m_record)) = some (true, ⟨[⟨1, false⟩], ⟨.asserted, 7⟩⟩) := by
  have hid : ¬closed_record.Hangs := fun h =>
    not_cutOff_concat (['a', ' ', 'e', ' ', '1', ' ', '0'].map Char.toUInt8) (c := '\n'.toUInt8) (by decide) h.2
  have h := ((readers_return closed_record.buf.m_text 9 (by decide)).2 closed_record rfl).1
  obtain ⟨answer, p', hnext, -⟩ := h.mpr hid
  exact ⟨hid, ⟨(answer, p'), hnext⟩, by decide⟩

/-- The record of `closed_record`, cut off behind the first letter of its identifier. -/
def cut_record : drat_parser_state := { closed_record with buf := .open (['a', ' ', 'e'].map Char.toUInt8) }

/-- The loop over the identifier goes on at the end of the text, which is no whitespace, so that no fuel is enough. -/
theorem next_hangs_in_identifier : cut_record.Hangs ∧ ∀ fuel, cut_record.next fuel = none := by
  have hangs : cut_record.Hangs := ⟨by simp [cut_record, closed_record],
    [32], [101], 97, .nil, .inl rfl, by simp [is_whitespace], ⟨101, rfl, by decide⟩, by simp [is_whitespace]⟩
  exact ⟨hangs, fun fuel => by simp [drat_parser_state.next, drat_parser_state.next_core_hangs hangs]⟩

end dimacs
