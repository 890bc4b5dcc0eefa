import UvaAnalysis.Proofs.Text.Encoding
import UvaAnalysis.Proofs.Token.Lossless

/-!
# What positions count

The position of a token, and that of a fault of the lexer, tells how many lines end before a byte of
the source and how many characters of its own line stand before it (`tokenize_positions`), counted
without going through the source.

In a well-formed source a character begins at each of these positions.  The lexer goes by bytes and
does not see to that, but every piece that it reads ends after an ASCII byte or before one.  So it
only ever begins a piece at a mark (`Run.isMark`), and no mark is inside a character.
-/

namespace UvaAnalysis

open Token (slice slice_middle)

namespace Position

/-- The offset at which the line of another offset begins: right after the last line feed before
that, or at the beginning of the source. -/
structure LineStart (source : List UInt8) (offset start : ℕ) : Prop where
  start_le : start ≤ offset
  feed_before : 0 < start → source[start - 1]? = some 0x0A
  no_feed : 0x0A ∉ slice source start offset

/-- A position tells what stands before a byte of a source, or before its end: line feeds for the
line, and for the column the bytes of the line that begin a character.  In a well-formed source
these are the characters of the line, and the position is between characters. -/
structure CountsIn (source : List UInt8) (p : Position) : Prop where
  offset_le : p.offset ≤ source.length
  line_eq : p.line = 1 + (source.take p.offset).count 0x0A
  column_eq : ∃ start, LineStart source p.offset start ∧
    p.column = 1 + (slice source start p.offset).countP (fun byte => !Utf8.isContinuation byte) ∧
    (Utf8.isWellFormed source = true →
      ∃ text, Utf8.text? (slice source start p.offset) = some text ∧ p.column = 1 + text.length)
  isBoundary : Utf8.isWellFormed source = true → Utf8.IsBoundary source p.offset

/-- A point of a source between two pieces of it: its position tells what stands before it, and an
ASCII byte stands on one side. -/
def IsMark (source : List UInt8) (p : Position) : Prop :=
  ∃ before following, source = before ++ following ∧ p = after before ∧
    Utf8.CutAtAscii before following

/-- What is before a position ends with an unfinished line, and that is what the column counts. -/
lemma exists_line (before : List UInt8) :
    ∃ finished line, before = finished ++ line ∧ 0x0A ∉ line ∧
      (∀ byte ∈ finished.getLast?, byte = 0x0A) ∧
      (after before).column = 1 + line.countP fun byte => !Utf8.isContinuation byte := by
  refine ⟨(before.reverse.dropWhile (· ≠ 0x0A)).reverse, (unfinishedLine before).reverse,
    ?_, ?_, ?_, ?_⟩
  · rw [unfinishedLine, ← List.reverse_append, List.takeWhile_append_dropWhile,
      List.reverse_reverse]
  · rw [List.mem_reverse, unfinishedLine]
    intro hfeed
    have hne := List.mem_takeWhile_imp hfeed
    simp at hne
  · intro byte hbyte
    rw [List.getLast?_reverse] at hbyte
    have hstops := Token.stops_dropWhile (fun b : UInt8 => decide (b ≠ 0x0A)) before.reverse
    have hbyte := hstops byte hbyte
    simpa using hbyte
  · rw [List.countP_reverse]
    rfl

/-- The text of an unfinished line that ends at a mark. -/
lemma exists_text_of_line {finished line following : List UInt8}
    (hformed : Utf8.isWellFormed (finished ++ line ++ following) = true)
    (hcut : Utf8.CutAtAscii (finished ++ line) following)
    (hlast : ∀ byte ∈ finished.getLast?, byte = 0x0A) : ∃ text, line = Utf8.encode text := by
  have hbefore := (Utf8.isWellFormed_of_append hformed hcut).1
  have hfeed : Utf8.CutAtAscii finished line := by
    left
    intro byte hbyte
    rw [hlast byte hbyte]
    decide
  exact Utf8.isWellFormed_iff.mp (Utf8.isWellFormed_of_append hbefore hfeed).2

/-- The position of a mark counts what stands before it. -/
lemma IsMark.countsIn {source : List UInt8} {p : Position} (h : IsMark source p) :
    CountsIn source p := by
  obtain ⟨before, following, rfl, rfl, hcut⟩ := h
  obtain ⟨finished, line, rfl, hfeed, hlast, hcolumn⟩ := exists_line before
  have htake : (finished ++ line ++ following).take (after (finished ++ line)).offset =
      finished ++ line := by
    rw [after_offset, List.take_left]
  have hslice : slice (finished ++ line ++ following) finished.length
      (after (finished ++ line)).offset = line := by
    rw [after_offset, List.append_assoc, List.length_append, slice_middle]
  have hstart : LineStart (finished ++ line ++ following) (after (finished ++ line)).offset
      finished.length := by
    refine ⟨?_, fun hpos => ?_, ?_⟩
    · rw [after_offset]
      exact (List.prefix_append _ _).length_le
    · have hne : finished ≠ [] := List.ne_nil_of_length_pos hpos
      have hfinished := List.getLast?_eq_some_getLast hne
      rw [hlast _ hfinished, List.getLast?_eq_getElem?] at hfinished
      rw [List.append_assoc, List.getElem?_append_left (Nat.sub_one_lt_of_lt hpos), hfinished]
    · rw [hslice]
      exact hfeed
  -- The line of the mark begins right behind the lines that are finished.
  refine ⟨?_, ?_, ⟨finished.length, hstart, ?_, fun hformed => ?_⟩, fun hformed => ?_⟩
  · rw [after_offset]
    exact (List.prefix_append _ _).length_le
  · rw [htake]
    rfl
  · rw [hslice]
    exact hcolumn
  · obtain ⟨text, rfl⟩ := exists_text_of_line hformed hcut hlast
    rw [Utf8.countP_encode] at hcolumn
    rw [hslice]
    exact ⟨text, Utf8.text?_encode text, hcolumn⟩
  · rw [Utf8.IsBoundary, htake, after_offset, List.drop_left]
    exact Utf8.isWellFormed_of_append hformed hcut

end Position

namespace Token

/-- A blank ends after an ASCII byte or before one. -/
lemma Blank.cutAtAscii {bytes following : List UInt8} (h : Blank bytes following)
    (before : List UInt8) : Utf8.CutAtAscii (before ++ bytes) following := by
  cases h with
  | space h => exact Utf8.cutAtAscii_of_getLast? (ascii_of_mem (by decide) h) rfl before following
  | lineComment _ _ _ hend =>
    right
    intro byte hbyte
    have hfeed : asChar byte = '\n' := by simpa using hend byte hbyte
    exact ascii_of_eq (by decide) hfeed
  | @blockComment slash second star last body _ _ _ _ hlast =>
    have hbytes : slash :: second :: (body ++ [star, last]) =
        slash :: second :: (body ++ [star]) ++ [last] := by
      simp
    rw [hbytes]
    exact Utf8.cutAtAscii_of_getLast? (ascii_of_eq (by decide) hlast) List.getLast?_concat before
      following

/-- A lexeme ends with an ASCII byte. -/
lemma Lexeme.cutAtAscii {category : Category} {kind : Kind} {text : String}
    {bytes following : List UInt8} (h : Lexeme category kind text bytes following)
    (before : List UInt8) : Utf8.CutAtAscii (before ++ bytes) following := by
  by_cases hkind : kind = .string
  · subst hkind
    obtain ⟨quote, body, hquote, _, rfl, _⟩ := h.exists_of_string
    have hlast : (quote :: body ++ [quote]).getLast? = some quote := List.getLast?_concat
    exact Utf8.cutAtAscii_of_getLast? (ascii_of_mem (by decide) hquote) hlast before following
  · obtain ⟨byte, others, rfl⟩ := h.exists_cons
    have hlast := List.getLast?_eq_some_getLast (List.cons_ne_nil byte others)
    exact Utf8.cutAtAscii_of_getLast? (h.ascii hkind _ (List.getLast_mem _)) hlast before following

/-- A run begins its pieces at marks, if it begins at one. -/
lemma Run.isMark {origin : Path} {position : Position} {remaining : List UInt8}
    {tokens : List Token} {faults : List Fault} (h : Run origin position remaining tokens faults)
    (before : List UInt8) (hposition : position = Position.after before)
    (hcut : Utf8.CutAtAscii before remaining) :
    (∀ t ∈ tokens, Position.IsMark (before ++ remaining) t.position) ∧
      ∀ fault ∈ faults, ∃ p cause, fault = .lexical origin p cause ∧
        Position.IsMark (before ++ remaining) p := by
  -- A piece ends at an ASCII byte or before one, so the next piece begins at a mark too.
  induction h generalizing before with
  | done => simp
  | @blank position bytes following tokens faults hblank _ ih =>
    subst hposition
    have hrest := ih (before ++ bytes) (Position.after_advanceBy ..) (hblank.cutAtAscii before)
    rwa [List.append_assoc] at hrest
  | @lexeme position category kind text bytes following tokens faults hlexeme _ ih =>
    have hmark : Position.IsMark (before ++ (bytes ++ following)) position :=
      ⟨before, bytes ++ following, rfl, hposition, hcut⟩
    subst hposition
    have hrest := ih (before ++ bytes) (Position.after_advanceBy ..) (hlexeme.cutAtAscii before)
    rw [List.append_assoc] at hrest
    exact ⟨List.forall_mem_cons.mpr ⟨hmark, hrest.1⟩, hrest.2⟩
  | @malformed position byte rest cause _ =>
    have hmark : Position.IsMark (before ++ byte :: rest) position :=
      ⟨before, byte :: rest, rfl, hposition, hcut⟩
    exact ⟨by simp, List.forall_mem_singleton.mpr ⟨position, cause, rfl, hmark⟩⟩

/-- The position of every token and of every fault counts what stands before it in the source. -/
theorem tokenize_positions (origin : Path) (source : List UInt8) :
    (∀ t ∈ (tokenize origin source).value, t.position.CountsIn source) ∧
      ∀ fault ∈ (tokenize origin source).faults, ∃ position cause,
        fault = .lexical origin position cause ∧ position.CountsIn source := by
  have hrun := scan_run origin .start source
  have hcut : Utf8.CutAtAscii [] source := .inl fun byte hbyte => by cases hbyte
  obtain ⟨htokens, hfaults⟩ := hrun.isMark [] rfl hcut
  constructor
  · intro t ht
    exact (htokens t ht).countsIn
  · intro fault hfault
    obtain ⟨position, cause, rfl, hmark⟩ := hfaults fault hfault
    exact ⟨position, cause, rfl, hmark.countsIn⟩

/-- A token after a string literal that runs over a line break and has a backslash before a
character of two bytes. -/
theorem tokenize_positions_accents :
    let source := Utf8.encode "'é\n\\é' x"
    let t : Token := ⟨⟨"m"⟩, ⟨2, 5, 9⟩, .identifier, .plain, "x", 1⟩
    Utf8.isWellFormed source = true ∧ t ∈ (tokenize ⟨"m"⟩ source).value ∧
      Utf8.IsBoundary source t.position.offset ∧
      ∃ start text, Position.LineStart source t.position.offset start ∧
        Utf8.text? (slice source start t.position.offset) = some text ∧
        t.position.column = 1 + text.length := by
  intro source t
  have hformed : Utf8.isWellFormed source = true := by decide +kernel
  have hmem : t ∈ (tokenize ⟨"m"⟩ source).value := by decide +kernel
  have hcounts := (tokenize_positions ⟨"m"⟩ source).1 t hmem
  obtain ⟨start, hstart, -, htext⟩ := hcounts.column_eq
  obtain ⟨text, htext, hcolumn⟩ := htext hformed
  exact ⟨hformed, hmem, hcounts.isBoundary hformed, start, text, hstart, htext, hcolumn⟩

end Token

end UvaAnalysis
