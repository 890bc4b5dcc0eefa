import UvaAnalysis.Proofs.Token.LineBreaks

/-!
# What stops the lexer

The lexer stops at most once, and `Malformed cause bytes` says of the bytes it stops at, without
reading them, what is wrong: a string literal or a block comment that nothing ends, a `#` without a
name, half of a connective, or a byte that begins nothing.  The reader of single pieces finds
something malformed just there, and for that cause (`ofBytes_eq_malformed_iff`).

What was read before does not depend on the bytes that stop the lexer: the source up to them is
complete and has the same tokens (`tokenize_fault`).
-/

namespace UvaAnalysis.Token

/-! ### Malformed pieces -/

/-- The byte after these bytes is escaped: an odd number of backslashes stands right before it. -/
def EscapesNext (bytes : List UInt8) : Prop :=
  (bytes.reverse.takeWhile (asChar · = '\\')).length % 2 = 1

instance : DecidablePred EscapesNext :=
  fun bytes =>
    inferInstanceAs (Decidable ((bytes.reverse.takeWhile (asChar · = '\\')).length % 2 = 1))

/-- Bytes at which nothing of the grammar begins, and what is wrong with them. -/
inductive Malformed : LexicalError → List UInt8 → Prop
  | string {quote : UInt8} {rest : List UInt8} (h : asChar quote ∈ quotes)
    (hopen : ∀ body following, rest = body ++ quote :: following → EscapesNext body) :
    Malformed .unterminatedString (quote :: rest)
  | comment {slash star : UInt8} {rest : List UInt8} (hslash : asChar slash = '/')
    (hstar : asChar star = '*') (hopen : ¬ ['*', '/'] <:+: rest.map asChar) :
    Malformed .unterminatedComment (slash :: star :: rest)
  | directive {hash : UInt8} {rest : List UInt8} (hhash : asChar hash = '#')
    (hname : Stops startsWord rest) :
    Malformed .namelessDirective (hash :: rest)
  | connective {byte : UInt8} {rest : List UInt8} {c : Char} (h : asChar byte ∈ connectives)
    (hnext : rest.head? ≠ some byte) (hc : (Utf8.lossyChars (byte :: rest)).head? = some c) :
    Malformed (.unexpectedCharacter c) (byte :: rest)
  | stray {byte : UInt8} {rest : List UInt8} {c : Char} (hmarks : asChar byte ∉ marks)
    (hdigit : isDigit byte = false) (hword : startsWord byte = false)
    (hc : (Utf8.lossyChars (byte :: rest)).head? = some c) :
    Malformed (.unexpectedCharacter c) (byte :: rest)

/-! ### String literals that nothing ends -/

/-- Bytes in front that end with an even number of backslashes escape nothing. -/
lemma escapesNext_append_iff {front : List UInt8} (bytes : List UInt8)
    (h : (front.reverse.takeWhile (asChar · = '\\')).length % 2 = 0) :
    EscapesNext (front ++ bytes) ↔ EscapesNext bytes := by
  unfold EscapesNext
  rw [List.reverse_append, List.takeWhile_append]
  split_ifs with hall
  · rw [List.length_append, hall]
    omega
  · rfl

/-- Bytes in front that escape nothing, and in which every quote is escaped, do not matter for
whether all quotes are. -/
lemma forall_escapesNext_append_iff {front rest : List UInt8} {quote : UInt8}
    (heven : (front.reverse.takeWhile (asChar · = '\\')).length % 2 = 0)
    (hinside : ∀ body more, front = body ++ quote :: more → EscapesNext body) :
    (∀ body following, front ++ rest = body ++ quote :: following → EscapesNext body) ↔
      ∀ body following, rest = body ++ quote :: following → EscapesNext body := by
  constructor
  · rintro h body following rfl
    have hfront := h (front ++ body) following (List.append_assoc ..).symm
    exact (escapesNext_append_iff body heven).mp hfront
  · intro h body following heq
    rcases List.append_eq_append_iff.mp heq with ⟨more, rfl, hrest⟩ | ⟨more, hfront, hmore⟩
    · exact (escapesNext_append_iff more heven).mpr (h more following hrest)
    · cases more with
      | nil => exact absurd (h [] following hmore.symm) (by decide)
      | cons b more =>
        obtain ⟨rfl, -⟩ := List.cons.inj hmore
        exact hinside body more hfront

/-- The closing quote of a string literal is missed just where every quote is escaped. -/
lemma stringLength_eq_none_iff {quote : UInt8} {count : ℕ} {bytes : List UInt8} :
    stringLength quote count bytes = none ↔
      ∀ body following, bytes = body ++ quote :: following → EscapesNext body := by
  have hclosed (rest : List UInt8) :
      ¬ ∀ body following, quote :: rest = body ++ quote :: following → EscapesNext body :=
    fun h => absurd (h [] rest rfl) (by decide)
  -- A step takes one plain byte or an escape, and neither changes what is escaped later.
  fun_induction stringLength quote count bytes with
  | case1 => simp
  | case2 => simp [hclosed]
  | case3 count byte hbyte =>
    refine iff_of_true rfl fun body following heq => ?_
    cases body with
    | nil => exact absurd (List.cons.inj heq).1 hbyte
    | cons b body => simp at heq
  | case4 => simp [hclosed]
  | case5 count byte next rest hbyte hescape ih =>
    have heven : ([byte, next].reverse.takeWhile (asChar · = '\\')).length % 2 = 0 := by
      by_cases hnext : asChar next = '\\' <;> simp [hescape, hnext]
    refine ih.trans (forall_escapesNext_append_iff heven fun body more heq => ?_).symm
    rcases body with _ | ⟨b, _ | ⟨c, body⟩⟩
    · exact absurd (List.cons.inj heq).1 hbyte
    · obtain ⟨rfl, -⟩ := List.cons.inj heq
      simp [EscapesNext, hescape]
    · simp at heq
  | case6 count byte next rest hbyte hplain ih =>
    have heven : ([byte].reverse.takeWhile (asChar · = '\\')).length % 2 = 0 := by
      simp [hplain]
    refine ih.trans (forall_escapesNext_append_iff heven fun body more heq => ?_).symm
    cases body with
    | nil => exact absurd (List.cons.inj heq).1 hbyte
    | cons b body => simp at heq

/-! ### Block comments that nothing ends -/

/-- The end of a block comment is missed just where there is none. -/
lemma commentLength_eq_none_iff {count : ℕ} {bytes : List UInt8} :
    commentLength count bytes = none ↔ ¬ ['*', '/'] <:+: bytes.map asChar := by
  induction bytes generalizing count with
  | nil => simp [commentLength]
  | cons byte rest ih =>
    rw [commentLength, List.map_cons, List.infix_cons_iff, ← List.map_cons, pair_prefix_map_iff]
    by_cases hend : asChar byte = '*' ∧ rest.head?.map asChar = some '/'
    · simp [hend]
    · rw [if_neg hend, ih, or_iff_right hend]

/-! ### The reader of pieces -/

/-- The character that a message names is the first one of all that follows. -/
lemma firstCharacter_eq_iff {byte : UInt8} {rest : List UInt8} {c : Char} :
    firstCharacter (byte :: rest) = c ↔ (Utf8.lossyChars (byte :: rest)).head? = some c := by
  rw [firstCharacter, Utf8.head?_lossyChars_take_four]
  cases hchars : Utf8.lossyChars (byte :: rest) with
  | nil =>
    rw [Utf8.lossyChars, List.map_eq_nil_iff, Utf8.decode_eq_nil_iff] at hchars
    cases hchars
  | cons d chars => simp

section

variable {byte : UInt8} {rest : List UInt8} {cause : LexicalError}

/-- After a slash only a block comment without its end is malformed. -/
lemma malformed_of_ofSlash (h : asChar byte = '/')
    (hpiece : Piece.ofSlash byte rest = .malformed cause) : Malformed cause (byte :: rest) := by
  unfold Piece.ofSlash at hpiece
  split at hpiece
  · cases hpiece
  · rename_i hhead
    obtain ⟨star, hstar, hchar⟩ := Option.map_eq_some_iff.mp hhead
    obtain ⟨following, rfl⟩ := List.head?_eq_some_iff.mp hstar
    rw [List.tail_cons] at hpiece
    cases hlength : commentLength 0 following with
    | some length =>
      rw [hlength] at hpiece
      cases hpiece
    | none =>
      rw [hlength] at hpiece
      cases hpiece
      exact .comment h hchar (commentLength_eq_none_iff.mp hlength)
  · cases hpiece

/-- After a quote only a string without its end is malformed. -/
lemma malformed_of_ofQuote (h : asChar byte ∈ quotes)
    (hpiece : Piece.ofQuote byte rest = .malformed cause) : Malformed cause (byte :: rest) := by
  unfold Piece.ofQuote at hpiece
  cases hlength : stringLength byte 0 rest with
  | some length =>
    rw [hlength] at hpiece
    cases hpiece
  | none =>
    rw [hlength] at hpiece
    cases hpiece
    exact .string h (stringLength_eq_none_iff.mp hlength)

/-- A name begins after a byte just where the bytes do not stop. -/
lemma stops_iff_head?_any {p : UInt8 → Bool} : Stops p rest ↔ ¬ rest.head?.any p = true := by
  cases rest <;> simp

/-- After `#` the fault is that no name follows. -/
lemma malformed_of_ofHash (h : asChar byte = '#')
    (hpiece : Piece.ofHash rest = .malformed cause) : Malformed cause (byte :: rest) := by
  unfold Piece.ofHash at hpiece
  split at hpiece
  · cases hpiece
  · rename_i hhead
    cases hpiece
    exact .directive h (stops_iff_head?_any.mpr hhead)

/-- What the reader finds malformed is. -/
lemma malformed_of_ofBytes (hpiece : Piece.ofBytes byte rest = .malformed cause) :
    Malformed cause (byte :: rest) := by
  by_cases hmarks : asChar byte ∈ marks
  · simp only [marks, List.mem_append, List.mem_singleton] at hmarks
    obtain ((((((h | h) | h) | h) | h) | h) | h) | h := hmarks
    · rw [Piece.ofBytes_eq, if_pos h] at hpiece
      cases hpiece
    · rw [ofBytes_of_slash h] at hpiece
      exact malformed_of_ofSlash h hpiece
    · rw [ofBytes_of_delimiter h] at hpiece
      cases hpiece
    · rw [ofBytes_of_comparison h] at hpiece
      cases hpiece
    · rw [ofBytes_of_connective h] at hpiece
      split_ifs at hpiece with hnext
      · cases hpiece
      · cases hpiece
        exact .connective h hnext (firstCharacter_eq_iff.mp rfl)
    · rw [ofBytes_of_sign h] at hpiece
      cases hpiece
    · rw [ofBytes_of_quote h] at hpiece
      exact malformed_of_ofQuote h hpiece
    · rw [ofBytes_of_hash h] at hpiece
      exact malformed_of_ofHash h hpiece
  · rw [ofBytes_of_notMem_marks hmarks] at hpiece
    split_ifs at hpiece with hdigit hword
    · cases hpiece
    · cases hpiece
    · cases hpiece
      exact .stray hmarks (Bool.eq_false_iff.mpr hdigit) (Bool.eq_false_iff.mpr hword)
        (firstCharacter_eq_iff.mp rfl)

/-- What is malformed the reader finds malformed. -/
lemma Malformed.ofBytes_eq (h : Malformed cause (byte :: rest)) :
    Piece.ofBytes byte rest = .malformed cause := by
  cases h with
  | string h hopen =>
    rw [ofBytes_of_quote h, Piece.ofQuote, stringLength_eq_none_iff.mpr hopen]
  | @comment _ star rest hslash hstar hopen =>
    have hlength : commentLength 0 rest = none := commentLength_eq_none_iff.mpr hopen
    rw [ofBytes_of_slash hslash, Piece.ofSlash]
    simp [hstar, hlength]
  | directive hhash hname =>
    rw [ofBytes_of_hash hhash, Piece.ofHash, if_neg (stops_iff_head?_any.mp hname)]
  | connective h hnext hc =>
    rw [ofBytes_of_connective h, if_neg hnext, firstCharacter_eq_iff.mpr hc]
  | stray hmarks hdigit hword hc =>
    rw [ofBytes_of_notMem_marks hmarks, hdigit, hword, firstCharacter_eq_iff.mpr hc]
    rfl

/-- A piece is malformed, for some cause, just where the grammar says so. -/
theorem ofBytes_eq_malformed_iff :
    Piece.ofBytes byte rest = .malformed cause ↔ Malformed cause (byte :: rest) :=
  ⟨malformed_of_ofBytes, Malformed.ofBytes_eq⟩

end

/-! ### Where a run stops -/

/-- A run with a fault is the run of what stands before the fault, and it stops there. -/
lemma Run.exists_before {origin : Path} {position : Position} {source : List UInt8}
    {tokens : List Token} {faults : List Fault} (h : Run origin position source tokens faults)
    (hfaults : faults ≠ []) :
    ∃ before rest cause, source = before ++ rest ∧ Malformed cause rest ∧
      faults = [.lexical origin (position.advanceBy before) cause] ∧
      Run origin position before tokens [] := by
  induction h with
  | done => exact absurd rfl hfaults
  | @blank position bytes following tokens faults hblank _ ih =>
    obtain ⟨before, rest, cause, rfl, hrest, rfl, hrun⟩ := ih hfaults
    refine ⟨bytes ++ before, rest, cause, (List.append_assoc ..).symm, hrest, ?_, ?_⟩
    · rw [Position.advanceBy_append]
    · exact .blank (hblank.before (keepsEnds_of_append before rest)) hrun
  | @lexeme position category kind text bytes following tokens faults hlexeme _ ih =>
    obtain ⟨before, rest, cause, rfl, hrest, rfl, hrun⟩ := ih hfaults
    refine ⟨bytes ++ before, rest, cause, (List.append_assoc ..).symm, hrest, ?_, ?_⟩
    · rw [Position.advanceBy_append]
    · exact .lexeme (hlexeme.before (keepsEnds_of_append before rest)) hrun
  | @malformed position byte rest cause hpiece =>
    exact ⟨[], byte :: rest, cause, rfl, malformed_of_ofBytes hpiece, rfl, .done⟩

/-- A source has one fault at most.  The source up to it is complete and has the same tokens, and
the bytes from there on are malformed for the cause that the fault tells.  If that is an unexpected
character, the message names the first character of all these bytes. -/
theorem tokenize_fault (origin : Path) (source : List UInt8) :
    let lexed := tokenize origin source
    lexed.faults = [] ∨
      ∃ position cause, lexed.faults = [.lexical origin position cause] ∧
        tokenize origin (source.take position.offset) = ⟨lexed.value, []⟩ ∧
        Malformed cause (source.drop position.offset) ∧
        ∀ c, cause = .unexpectedCharacter c →
          (Utf8.lossyChars (source.drop position.offset)).head? = some c ∧
            Fault.message (.lexical origin position cause) =
              Fault.located "lex error" origin position
                ("unexpected character " ++ Text.quoted c) := by
  intro lexed
  by_cases hfaults : lexed.faults = []
  · exact .inl hfaults
  · right
    obtain ⟨before, rest, cause, hsource, hrest, hfault, hrun⟩ :=
      (scan_run origin .start source).exists_before hfaults
    have hoffset : (Position.start.advanceBy before).offset = before.length := by
      rw [Position.advanceBy_offset]
      exact Nat.zero_add _
    refine ⟨_, cause, hfault, ?_, ?_, ?_⟩
    · rw [hoffset, hsource, List.take_left]
      exact hrun.scan_eq
    · rw [hoffset, hsource, List.drop_left]
      exact hrest
    · rintro c rfl
      rw [hoffset, hsource, List.drop_left]
      refine ⟨?_, rfl⟩
      cases hrest with
      | connective _ _ hc => exact hc
      | stray _ _ _ hc => exact hc

/-- A string literal with an escaped quote, and a character that breaks off before the end. -/
theorem tokenize_fault_truncated :
    let source := Utf8.encode "a '\\'' " ++ [0xE2, 0x82]
    ∃ position c, (tokenize ⟨"m"⟩ source).faults =
        [.lexical ⟨"m"⟩ position (.unexpectedCharacter c)] ∧
      tokenize ⟨"m"⟩ (source.take position.offset) = ⟨(tokenize ⟨"m"⟩ source).value, []⟩ ∧
      (Utf8.lossyChars (source.drop position.offset)).head? = some c ∧ c = Utf8.replacement := by
  intro source
  have hfault : (tokenize ⟨"m"⟩ source).faults =
      [.lexical ⟨"m"⟩ ⟨1, 8, 7⟩ (.unexpectedCharacter Utf8.replacement)] := by
    decide +kernel
  rcases tokenize_fault ⟨"m"⟩ source with hnone | ⟨position, cause, hsome, hbefore, -, hnamed⟩
  · rw [hfault] at hnone
    cases hnone
  · rw [hfault] at hsome
    cases hsome
    exact ⟨_, _, hfault, hbefore, (hnamed _ rfl).1, rfl⟩

end UvaAnalysis.Token
