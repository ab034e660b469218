import BooledASS.Sat.Dimacs.Grammar

open List Option

namespace dimacs

variable {n : Int} {rest text : List UInt8} {css : List (List Int)}

/-- The literal that an integer of the text stands for. -/
def written_literal (n : Int) : sat.literal := ⟨n.natAbs, n < 0⟩

theorem int32_digit (val d : Int) : int32 (int32 val * 10 + d) = int32 (val * 10 + d) := by
  simp only [int32, Int.bmod_def]
  omega

theorem int32_neg (val : Int) : int32 (-int32 val) = int32 (-val) := by
  simp only [int32, Int.bmod_def]
  omega

theorem int32_of_natAbs_lt (h : n.natAbs < 2 ^ 31) : int32 n = n := by
  simp only [int32, Int.bmod_def]
  omega

/-- The digits are accumulated modulo `2^32`. -/
theorem foldl_int32 (ds : List UInt8) (val : Int) :
    ds.foldl (fun val c => int32 (val * 10 + ((c.toNat : Int) - '0'.toNat))) (int32 val) =
      int32 (ds.foldl (fun val c => val * 10 + ((c.toNat : Int) - '0'.toNat)) val) := by
  induction ds generalizing val with
  | nil => rfl
  | cons c ds ih => rw [foldl_cons, foldl_cons, ← ih, int32_digit]

variable {fuel : Nat} {buf buf' : stream_buffer}

/-- A character of the lookahead is one of the text. -/
theorem stream_buffer.text_eq_of_val {c : UInt8} (h : buf.val = c.toNat) : buf.m_text = c :: buf.next.m_text := by
  have hne : buf.val ≠ EOF := by
    rw [h]
    simp [EOF]
  obtain ⟨c', hval, hcons⟩ := stream_buffer.text_eq_cons hne
  obtain rfl : c' = c := UInt8.toNat_inj.mp (Int.natCast_inj.mp (hval.symm.trans h))
  exact hcons

theorem stream_buffer.head_of_val {p : Int → Bool} (h : p buf.val = false) :
    ∀ c ∈ buf.m_text.head?, p c.toNat = false := by
  intro c hc
  obtain ⟨rest, hrest⟩ := head?_eq_some_iff.mp hc
  simpa only [stream_buffer.val, hrest] using h

/-- What the sign of an integer is, and that of its value. -/
theorem parse_sign_spec (buf : stream_buffer) : ∃ sign, buf.m_text = sign ++ (parse_sign buf).2.m_text ∧
    ((parse_sign buf).1 = false ∧ (sign = [] ∨ sign = ['+'.toUInt8]) ∨ (parse_sign buf).1 ∧ sign = ['-'.toUInt8]) := by
  unfold parse_sign
  split
  · next h => exact ⟨['-'.toUInt8], stream_buffer.text_eq_of_val h, .inr ⟨rfl, rfl⟩⟩
  split
  · next h => exact ⟨['+'.toUInt8], stream_buffer.text_eq_of_val h, .inl ⟨rfl, .inr rfl⟩⟩
  · exact ⟨[], rfl, .inl ⟨rfl, .inl rfl⟩⟩

/-- `parse_int` reads the integer that is written, modulo `2^32`. -/
theorem parse_int_spec (h : parse_int fuel buf = some (.ok n, buf')) :
    ∃ m, Integer buf.m_text m buf'.m_text ∧ n = int32 m := by
  simp only [parse_int, bind_eq_bind, bind_eq_some_iff] at h
  obtain ⟨buf1, hskip, h⟩ := h
  obtain ⟨ws, htext, hws, -⟩ := skip_whitespace_spec hskip
  obtain ⟨sign, hsign, hneg⟩ := parse_sign_spec buf1
  split at h
  · next hdigit =>
    obtain ⟨⟨val, buf2⟩, hscan, h⟩ := bind_eq_some_iff.mp h
    obtain ⟨rfl, rfl⟩ : (if (parse_sign buf1).1 then int32 (-val) else val) = n ∧ buf2 = buf' := by simpa using h
    obtain ⟨ds, hds, hdigits, hstop, hval⟩ := scan_while_spec rfl hscan
    have hval : val = int32 (decimal ds) := hval.trans (foldl_int32 ds 0)
    have hne : ds ≠ [] := by
      rintro rfl
      have heq : (parse_sign buf1).2.val = buf2.val := by simp [stream_buffer.val, hds]
      simp [heq, hstop] at hdigit
    have hread : buf.m_text = ws ++ sign ++ ds ++ buf2.m_text := by
      rw [htext, hsign, hds]
      simp
    rcases hneg with ⟨hneg, hs⟩ | ⟨hneg, hs⟩
    · exact ⟨decimal ds, ⟨ws, sign, ds, hread, hws, hne, hdigits, stream_buffer.head_of_val hstop,
        .inl ⟨hs, rfl⟩⟩, by simp [hneg, hval]⟩
    · exact ⟨-decimal ds, ⟨ws, sign, ds, hread, hws, hne, hdigits, stream_buffer.head_of_val hstop,
        .inr ⟨hs, rfl⟩⟩, by simp [hneg, hval, int32_neg]⟩
  · cases h

theorem mk_literal_parsed_var (h : n.natAbs < 2 ^ 31) : mk_literal (parsed_var n) (n < 0) = written_literal n := by
  have hvar : parsed_var n = n.natAbs := by
    rw [parsed_var, int32_of_natAbs_lt (by rwa [Int.natAbs_natCast])]
    omega
  rw [mk_literal, written_literal, hvar, Nat.mod_eq_of_lt h]

theorem mk_literal_var_lt (var : Nat) (sign : Bool) : (mk_literal var sign).var < 2 ^ 31 :=
  Nat.mod_lt _ (by decide)

/-- A clause that is read names variables below `2^31`. It is the sequence of integers up to the next zero when
these integers are in range. What `grow` keeps is kept. -/
theorem read_lits_spec {S : Type} {grow : S → Nat → S} {P : S → Prop} {s s' : S} {lits : List sat.literal}
    (hgrow : ∀ s v, P s → P (grow s v)) (hP : P s) (h : read_lits grow fuel s buf = some (s', .ok lits, buf')) :
    P s' ∧ (∀ l ∈ lits, l.var < 2 ^ 31) ∧
      ((∀ ns mid n rest, Integers buf.m_text ns mid → Integer mid n rest → n.natAbs < 2 ^ 31) →
        ∃ ns mid, Integers buf.m_text ns mid ∧ Integer mid 0 buf'.m_text ∧ lits = ns.map written_literal) := by
  have hrun := Loop.run_invariant (I := fun s : S × List sat.literal × stream_buffer => P s.1 ∧
      (∀ l ∈ s.2.1, l.var < 2 ^ 31) ∧
      ((∀ ns mid n rest, Integers buf.m_text ns mid → Integer mid n rest → n.natAbs < 2 ^ 31) →
        ∃ ns, Integers buf.m_text ns s.2.2.m_text ∧ s.2.1 = ns.map written_literal))
    (Q := fun r : S × Except lex_error (List sat.literal) × stream_buffer => ∀ lits, r.2.1 = .ok lits → P r.1 ∧
      (∀ l ∈ lits, l.var < 2 ^ 31) ∧
      ((∀ ns mid n rest, Integers buf.m_text ns mid → Integer mid n rest → n.natAbs < 2 ^ 31) →
        ∃ ns mid, Integers buf.m_text ns mid ∧ Integer mid 0 r.2.2.m_text ∧ lits = ns.map written_literal))
    ?_ ?_ ⟨hP, by simp, fun _ => ⟨[], .nil, rfl⟩⟩ h
  · exact hrun lits rfl
  · rintro ⟨s1, lits1, buf1⟩ s2 ⟨hP1, hvars, hexact⟩ hstep
    obtain ⟨⟨parsed, buf2⟩, hparse, hstep⟩ := bind_eq_some_iff.mp hstep
    cases parsed with
    | error e => simp at hstep
    | ok n =>
      obtain ⟨m, hm, rfl⟩ := parse_int_spec hparse
      dsimp only at hstep
      split at hstep
      · simp at hstep
      · next hne =>
        obtain rfl := Sum.inl.inj (some.inj hstep)
        refine ⟨hgrow _ _ hP1, Lists.forall_mem_concat hvars (mk_literal_var_lt _ _), fun hrange => ?_⟩
        obtain ⟨ns, hns, hlits⟩ := hexact hrange
        have hsmall := hrange ns _ m _ hns hm
        rw [int32_of_natAbs_lt hsmall] at hne ⊢
        refine ⟨ns ++ [m], .snoc hns hm hne, ?_⟩
        simp [← hlits, mk_literal_parsed_var hsmall]
  · rintro ⟨s1, lits1, buf1⟩ s2 ⟨hP1, hvars, hexact⟩ hexit lits hok
    obtain ⟨⟨parsed, buf2⟩, hparse, hexit⟩ := bind_eq_some_iff.mp hexit
    cases parsed with
    | error e =>
      obtain rfl := Sum.inr.inj (some.inj hexit)
      cases hok
    | ok n =>
      obtain ⟨m, hm, rfl⟩ := parse_int_spec hparse
      dsimp only at hexit
      split at hexit
      · next hzero =>
        obtain rfl := Sum.inr.inj (some.inj hexit)
        obtain rfl := Except.ok.inj hok
        refine ⟨hP1, hvars, fun hrange => ?_⟩
        obtain ⟨ns, hns, hlits⟩ := hexact hrange
        rw [int32_of_natAbs_lt (hrange ns _ m _ hns hm)] at hzero
        exact ⟨ns, _, hns, hzero ▸ hm, hlits⟩
      · simp at hexit

theorem Clauses.spaces {ws : List UInt8}
    (h : Clauses text css (ws ++ rest)) (hws : ∀ c ∈ ws, is_whitespace c.toNat) : Clauses text css rest := by
  induction ws with
  | nil => exact h
  | cons c ws ih =>
    have hspace : Clauses text css (ws ++ rest) := by simpa using h.snoc (.space rfl (hws c (by simp)))
    exact ih hspace fun c' hc' => hws c' (by simp [hc'])

/-- A comment or a problem line is an item without clauses, also where it ends with the text. -/
theorem Clauses.skip_line (h : Clauses text css buf.m_text) (hval : buf.val = 'c'.toNat ∨ buf.val = 'p'.toNat)
    (hskip : dimacs.skip_line fuel buf = some buf') : Clauses text css buf'.m_text := by
  obtain ⟨c, hcons, hc⟩ : ∃ c, buf.m_text = c :: buf.next.m_text ∧ (c = 'c'.toUInt8 ∨ c = 'p'.toUInt8) := by
    rcases hval with hval | hval
    · exact ⟨'c'.toUInt8, stream_buffer.text_eq_of_val hval, .inl rfl⟩
    · exact ⟨'p'.toUInt8, stream_buffer.text_eq_of_val hval, .inr rfl⟩
  have hbreak : c ≠ 10 := by rcases hc with rfl | rfl <;> decide
  obtain ⟨line, htext, hline⟩ := skip_line_spec hskip
  cases line with
  | nil =>
    rcases hline with ⟨-, hnil⟩ | ⟨body, hbody, -⟩
    · simp [hnil, hcons] at htext
    · simp at hbody
  | cons c' body =>
    obtain ⟨rfl, -⟩ : c = c' ∧ buf.next.m_text = body ++ buf'.m_text := by simpa [hcons] using htext
    refine append_nil css ▸ h.snoc (.line htext hc (hline.imp ?_ ?_))
    · exact fun ⟨hbody, hnil⟩ => ⟨fun h10 => hbody (.tail _ h10), hnil⟩
    · rintro ⟨body', hbody', h10⟩
      cases body' with
      | nil => exact absurd (cons.inj hbody').1 hbreak
      | cons c'' body' =>
        exact ⟨body', (cons.inj hbody').2, fun h => h10 (.tail _ h)⟩

/-- What a run that answers true has given to the solver. -/
theorem parse_dimacs_spec {solver : clause_sink} {r : parse_result}
    (h : parse_dimacs fuel text solver = some r) (htrue : r.answer) :
    ∃ clauses, r.solver.clauses = solver.clauses ++ clauses ∧ (∀ lits ∈ clauses, ∀ l ∈ lits, l.var < 2 ^ 31) ∧
      (InRange text → ∃ css, Clauses text css [] ∧ clauses = css.map (map written_literal)) := by
  have hrun := Loop.run_invariant (I := fun s : clause_sink × stream_buffer => ∃ clauses,
      s.1.clauses = solver.clauses ++ clauses ∧ (∀ lits ∈ clauses, ∀ l ∈ lits, l.var < 2 ^ 31) ∧
      (InRange text → ∃ css, Clauses text css s.2.m_text ∧ clauses = css.map (map written_literal)))
    (Q := fun r : parse_result => r.answer → ∃ clauses,
      r.solver.clauses = solver.clauses ++ clauses ∧ (∀ lits ∈ clauses, ∀ l ∈ lits, l.var < 2 ^ 31) ∧
      (InRange text → ∃ css, Clauses text css [] ∧ clauses = css.map (map written_literal)))
    ?_ ?_ ⟨[], by simp, by simp, fun _ => ⟨[], .nil, rfl⟩⟩ h
  · exact hrun htrue
  · rintro ⟨s1, buf1⟩ s2 ⟨clauses, hs1, hvars, hexact⟩ hstep
    obtain ⟨buf2, hskip, hstep⟩ := bind_eq_some_iff.mp hstep
    obtain ⟨ws, htext, hws, -⟩ := skip_whitespace_spec hskip
    replace hexact := fun hrange => (hexact hrange).imp fun css ⟨hcss, heq⟩ =>
      And.intro (Clauses.spaces (show Clauses text css (ws ++ buf2.m_text) from htext ▸ hcss) hws) heq
    split_ifs at hstep with heof hline
    · simp at hstep
    · obtain ⟨buf3, hskip3, hstep⟩ := bind_eq_some_iff.mp hstep
      obtain rfl := Sum.inl.inj (some.inj hstep)
      exact ⟨clauses, hs1, hvars, fun hrange => (hexact hrange).imp fun css ⟨hcss, heq⟩ =>
        ⟨hcss.skip_line hline hskip3, heq⟩⟩
    · obtain ⟨⟨s3, lits, buf3⟩, hread, hstep⟩ := bind_eq_some_iff.mp hstep
      cases lits with
      | error e => simp at hstep
      | ok lits =>
        obtain rfl := Sum.inl.inj (some.inj hstep)
        have hgrow : ∀ (s : clause_sink) v, s.clauses = s1.clauses → (s.mk_vars v).clauses = s1.clauses :=
          fun _ _ hs => hs
        obtain ⟨hs3, hlits, hread⟩ :=
          read_lits_spec (P := fun s : clause_sink => s.clauses = s1.clauses) hgrow rfl hread
        refine ⟨clauses ++ [lits], ?_, Lists.forall_mem_concat hvars hlits, fun hrange => ?_⟩
        · rw [show s1.clauses = _ from hs1] at hs3
          simp [clause_sink.mk_clause, hs3]
        · obtain ⟨css, hcss, rfl⟩ := hexact hrange
          obtain ⟨ns, mid, hns, hzero, rfl⟩ := hread fun ns mid n rest => hrange css ns _ mid n rest hcss
          exact ⟨css ++ [ns], hcss.snoc (.clause hns hzero), by simp⟩
  · rintro ⟨s1, buf1⟩ r ⟨clauses, hs1, hvars, hexact⟩ hexit htrue
    obtain ⟨buf2, hskip, hexit⟩ := bind_eq_some_iff.mp hexit
    obtain ⟨ws, htext, hws, -⟩ := skip_whitespace_spec hskip
    split_ifs at hexit with heof hline
    · obtain rfl := Sum.inr.inj (some.inj hexit)
      refine ⟨clauses, hs1, hvars, fun hrange => ?_⟩
      obtain ⟨css, hcss, heq⟩ := hexact hrange
      have hend : buf1.m_text = ws ++ [] := stream_buffer.val_eq_EOF.mp heof ▸ htext
      exact ⟨css, Clauses.spaces (hend ▸ hcss) hws, heq⟩
    · obtain ⟨buf3, hskip3, hexit⟩ := bind_eq_some_iff.mp hexit
      simp at hexit
    · obtain ⟨⟨s3, lits, buf3⟩, hread, hexit⟩ := bind_eq_some_iff.mp hexit
      cases lits with
      | error e =>
        obtain rfl := Sum.inr.inj (some.inj hexit)
        cases htrue
      | ok lits => simp at hexit

/-- The clauses that the solver is given are those of the text exactly if no integer that is met is out of
the range of `int`. Each zero-terminated sequence of integers then becomes one clause and each integer the
literal of its variable and sign; an integer out of range would need a variable that no literal can hold. -/
theorem parse_dimacs_exact (text : List UInt8) (fuel : Nat) (solver : clause_sink) (r : parse_result)
    (h : parse_dimacs fuel text solver = some r) (htrue : r.answer) :
    (∃ css, Clauses text css [] ∧ r.solver.clauses = solver.clauses ++ css.map (map written_literal)) ↔
      InRange text := by
  obtain ⟨clauses, hr, hvars, hexact⟩ := parse_dimacs_spec h htrue
  constructor
  · rintro ⟨css, hcss, heq⟩
    obtain rfl := append_cancel_left (hr.symm.trans heq)
    refine hcss.inRange fun ns hns n hn => ?_
    exact hvars (ns.map written_literal) (mem_map_of_mem hns) (written_literal n) (mem_map_of_mem hn)
  · intro hrange
    obtain ⟨css, hcss, rfl⟩ := hexact hrange
    exact ⟨css, hcss, hr⟩

/-- A comment line, then the clause `1 -2 0`. -/
def sample_text : List UInt8 := ['c', '\n', '1', ' ', '-', '2', ' ', '0'].map Char.toUInt8

/-- The clause is read with its signs, and the text has exactly that clause by the grammar. -/
theorem parse_dimacs_exact_sample :
    InRange sample_text ∧
    parse_dimacs 10 sample_text ⟨0, []⟩ = some ⟨true, "", ⟨3, [[⟨1, false⟩, ⟨2, true⟩]]⟩⟩ ∧
    ∃ css, Clauses sample_text css [] ∧ css.map (map written_literal) = [[⟨1, false⟩, ⟨2, true⟩]] := by
  have hrange : InRange sample_text := inRange_of_short_runs fun ds hds _ => hds.length_le.trans (by decide)
  have hparse : parse_dimacs 10 sample_text ⟨0, []⟩ = some ⟨true, "", ⟨3, [[⟨1, false⟩, ⟨2, true⟩]]⟩⟩ := by
    decide +kernel
  obtain ⟨css, hcss, hclauses⟩ := (parse_dimacs_exact sample_text 10 ⟨0, []⟩ _ hparse rfl).mpr hrange
  exact ⟨hrange, hparse, css, hcss, hclauses.symm⟩

/-- The text `4294967297 0`. -/
def long_text : List UInt8 := ['4', '2', '9', '4', '9', '6', '7', '2', '9', '7', ' ', '0'].map Char.toUInt8

theorem long_text_clauses : Clauses long_text [[4294967297]] [] := by
  have hint : Integer long_text 4294967297 [32, 48] :=
    ⟨[], [], [52, 50, 57, 52, 57, 54, 55, 50, 57, 55], rfl, by simp, by simp,
      by simp [is_digit], by simp [is_digit], .inl ⟨.inl rfl, by decide⟩⟩
  have hzero : Integer [32, 48] 0 [] :=
    ⟨[32], [], [48], rfl, by simp [is_whitespace], by simp, by simp [is_digit], by simp, .inl ⟨.inl rfl, by decide⟩⟩
  exact Clauses.nil.snoc (.clause (.snoc .nil hint (by decide)) hzero)

/-- A variable that no `int` can hold: the reader accepts the text and names variable 1. -/
theorem parse_dimacs_names_another_variable :
    Clauses long_text [[4294967297]] [] ∧
    parse_dimacs 20 long_text ⟨0, []⟩ = some ⟨true, "", ⟨2, [[⟨1, false⟩]]⟩⟩ ∧
    [[written_literal 4294967297]] ≠ [[⟨1, false⟩]] := by
  exact ⟨long_text_clauses, by decide +kernel, by decide⟩

end dimacs
