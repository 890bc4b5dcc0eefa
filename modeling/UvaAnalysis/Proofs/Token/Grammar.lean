import Mathlib.Data.List.TakeWhile
import Mathlib.Order.Nat
import UvaAnalysis.Proofs.Text.Decoding
import UvaAnalysis.Token.Lexer

/-!
# The lexical grammar

The bytes of a source are described without going through them: `Blank bytes following` says that
`bytes` are one blank, a comment or a single byte, when `following` comes next, and `Lexeme category
kind text bytes following` that they are one token.  What comes next matters where a piece is to be
as long as possible: a line comment runs to the end of its line, a word or a number to the last byte
that continues it, and an operator takes an equals sign along.

The reader of single pieces, `Piece.ofBytes`, decides exactly this grammar: it finds a blank or a
lexeme just where the grammar has one (`ofBytes_eq_blank_iff`, `ofBytes_eq_lexeme_iff`), and a
malformed piece just where neither begins (`exists_ofBytes_eq_malformed_iff`).
-/

namespace UvaAnalysis.Token

/-! ### Runs of bytes -/

/-- No byte with a given property comes next. -/
def Stops (p : UInt8 → Bool) (following : List UInt8) : Prop :=
  ∀ byte ∈ following.head?, p byte = false

/-- A run of bytes stops at the end of the source, whatever is asked of its bytes. -/
@[simp] lemma stops_nil (p : UInt8 → Bool) : Stops p [] := by
  simp [Stops]

/-- A run of bytes stops before the first byte that does not belong to it. -/
@[simp] lemma stops_cons (p : UInt8 → Bool) (byte : UInt8) (following : List UInt8) :
    Stops p (byte :: following) ↔ p byte = false := by
  simp [Stops]

/-- The bytes after the longest run with a property do not go on with it. -/
lemma stops_dropWhile (p : UInt8 → Bool) (bytes : List UInt8) : Stops p (bytes.dropWhile p) := by
  induction bytes with
  | nil => exact stops_nil p
  | cons byte bytes ih =>
    rw [List.dropWhile_cons]
    split
    · exact ih
    · rename_i h
      exact (stops_cons ..).mpr (by simpa using h)

/-- A run that what follows does not go on with is the longest one. -/
lemma takeWhile_append_of_stops {p : UInt8 → Bool} {run following : List UInt8}
    (hrun : ∀ byte ∈ run, p byte = true) (hstop : Stops p following) :
    (run ++ following).takeWhile p = run := by
  rw [List.takeWhile_append_of_pos hrun]
  cases following with
  | nil => simp
  | cons byte following =>
    rw [stops_cons] at hstop
    simp [hstop]

/-! ### The grammar -/

/-- The blank characters. -/
def blanks : List Char := [' ', '\t', '\n', '\r']

/-- The characters that are delimiters. -/
def delimiters : List Char := ['(', ')', '[', ']', '\x7b', '\x7d', ',', ';', ':']

/-- The operators that an equals sign may follow. -/
def comparisons : List Char := ['=', '!', '<', '>']

/-- The characters that make an operator when they stand twice, and none alone. -/
def connectives : List Char := ['&', '|']

/-- The operators that are always by themselves. -/
def signs : List Char := ['+', '-', '*', '%', '.']

/-- The characters around a string literal. -/
def quotes : List Char := ['\'', '"']

/-- A dot and a digit: what makes a fraction after the digits of a number. -/
def BeginsFraction (bytes : List UInt8) : Prop :=
  ∃ dot digit rest, bytes = dot :: digit :: rest ∧ asChar dot = '.' ∧ isDigit digit = true

/-- The bytes between the quotes of a string literal: a backslash takes the next byte along, and the
quote stands nowhere else. -/
inductive StringBody (quote : UInt8) : List UInt8 → Prop
  | nil : StringBody quote []
  | byte {b : UInt8} {body : List UInt8} (hquote : b ≠ quote) (hplain : asChar b ≠ '\\')
    (rest : StringBody quote body) : StringBody quote (b :: body)
  | escape {backslash b : UInt8} {body : List UInt8} (h : asChar backslash = '\\')
    (rest : StringBody quote body) : StringBody quote (backslash :: b :: body)

/-- The bytes inside a block comment up to and including the star of its end: no end comes before
that. -/
def CommentBody (body : List UInt8) (star : UInt8) : Prop :=
  asChar star = '*' ∧ ¬ ['*', '/'] <:+: (body ++ [star]).map asChar

/-- One blank, and the bytes that follow it. -/
inductive Blank : List UInt8 → List UInt8 → Prop
  | space {byte : UInt8} {following : List UInt8} (h : asChar byte ∈ blanks) :
    Blank [byte] following
  | lineComment {slash second : UInt8} {body following : List UInt8} (hslash : asChar slash = '/')
    (hsecond : asChar second = '/') (hbody : ∀ byte ∈ body, asChar byte ≠ '\n')
    (hend : Stops (asChar · ≠ '\n') following) :
    Blank (slash :: second :: body) following
  | blockComment {slash second star last : UInt8} {body following : List UInt8}
    (hslash : asChar slash = '/') (hsecond : asChar second = '*') (hbody : CommentBody body star)
    (hlast : asChar last = '/') :
    Blank (slash :: second :: (body ++ [star, last])) following

/-- One token, its category, kind and text, and the bytes that follow it. -/
inductive Lexeme : Category → Kind → String → List UInt8 → List UInt8 → Prop
  | delimiter {byte : UInt8} {following : List UInt8} (h : asChar byte ∈ delimiters) :
    Lexeme .delimiter .plain (Utf8.lossy [byte]) [byte] following
  | sign {byte : UInt8} {following : List UInt8} (h : asChar byte ∈ signs) :
    Lexeme .operator .plain (Utf8.lossy [byte]) [byte] following
  | slash {byte : UInt8} {following : List UInt8} (h : asChar byte = '/')
    (hnext : Stops (asChar · ∈ ['/', '*']) following) :
    Lexeme .operator .plain (Utf8.lossy [byte]) [byte] following
  | comparison {byte : UInt8} {following : List UInt8} (h : asChar byte ∈ comparisons)
    (hnext : Stops (asChar · = '=') following) :
    Lexeme .operator .plain (Utf8.lossy [byte]) [byte] following
  | comparisonEqual {byte equals : UInt8} {following : List UInt8} (h : asChar byte ∈ comparisons)
    (hequals : asChar equals = '=') :
    Lexeme .operator .plain (Utf8.lossy [byte, equals]) [byte, equals] following
  | connective {byte : UInt8} {following : List UInt8} (h : asChar byte ∈ connectives) :
    Lexeme .operator .plain (Utf8.lossy [byte, byte]) [byte, byte] following
  | string {quote : UInt8} {body following : List UInt8} (h : asChar quote ∈ quotes)
    (hbody : StringBody quote body) :
    Lexeme .literal .string (Utf8.lossy body) (quote :: (body ++ [quote])) following
  | directive {hash first : UInt8} {others following : List UInt8} (hhash : asChar hash = '#')
    (hfirst : startsWord first = true) (hothers : ∀ byte ∈ others, continuesWord byte = true)
    (hnext : Stops continuesWord following) :
    Lexeme .directive .plain (Utf8.lossy (first :: others)) (hash :: first :: others) following
  | integer {first : UInt8} {others following : List UInt8} (hfirst : isDigit first = true)
    (hothers : ∀ byte ∈ others, isDigit byte = true) (hnext : Stops isDigit following)
    (hfraction : ¬ BeginsFraction following) :
    Lexeme .literal .integer (Utf8.lossy (first :: others)) (first :: others) following
  | float {first dot digit : UInt8} {whole fraction following : List UInt8}
    (hfirst : isDigit first = true) (hwhole : ∀ byte ∈ whole, isDigit byte = true)
    (hdot : asChar dot = '.') (hdigit : isDigit digit = true)
    (hfraction : ∀ byte ∈ fraction, isDigit byte = true) (hnext : Stops isDigit following) :
    Lexeme .literal .float (Utf8.lossy (first :: (whole ++ dot :: digit :: fraction)))
      (first :: (whole ++ dot :: digit :: fraction)) following
  | word {first : UInt8} {others following : List UInt8} {category : Category} {kind : Kind}
    (hfirst : startsWord first = true) (hothers : ∀ byte ∈ others, continuesWord byte = true)
    (hnext : Stops continuesWord following)
    (hclass : classifyWord (Utf8.lossy (first :: others)) = (category, kind)) :
    Lexeme category kind (Utf8.lossy (first :: others)) (first :: others) following

/-- Neither a blank nor a token begins here. -/
def NothingBegins (source : List UInt8) : Prop :=
  ∀ bytes following, source = bytes ++ following →
    ¬ Blank bytes following ∧ ∀ category kind text, ¬ Lexeme category kind text bytes following

/-! ### The reader of pieces, by the class of the first byte -/

/-- The reader of pieces as a choice between classes of characters. -/
lemma Piece.ofBytes_eq (byte : UInt8) (rest : List UInt8) :
    Piece.ofBytes byte rest =
      if asChar byte ∈ blanks then .blank 0
      else if asChar byte = '/' then .ofSlash byte rest
      else if asChar byte ∈ delimiters then .whole .delimiter .plain byte rest 0
      else if asChar byte ∈ comparisons then
        .whole .operator .plain byte rest (if rest.head?.map asChar = some '=' then 1 else 0)
      else if asChar byte ∈ connectives then
        if rest.head? = some byte then .whole .operator .plain byte rest 1
        else .malformed (.unexpectedCharacter (firstCharacter (byte :: rest)))
      else if asChar byte ∈ signs then .whole .operator .plain byte rest 0
      else if asChar byte ∈ quotes then .ofQuote byte rest
      else if asChar byte = '#' then .ofHash rest
      else if isDigit byte then .ofDigit byte rest
      else if startsWord byte then .ofWord byte rest
      else .malformed (.unexpectedCharacter (firstCharacter (byte :: rest))) := by
  unfold Piece.ofBytes
  split
  -- A character that the reader names settles every membership.
  all_goals try (rename_i h; rw [h]; rfl)
  simp_all only [blanks, delimiters, comparisons, connectives, signs, quotes, imp_false,
    List.mem_cons, List.not_mem_nil, or_false, if_false]

/-! ### The readers of runs -/

/-- Two characters come first exactly when they are the first byte and the next one. -/
lemma pair_prefix_map_iff {x y : Char} {byte : UInt8} {bytes : List UInt8} :
    [x, y] <+: (byte :: bytes).map asChar ↔ asChar byte = x ∧ bytes.head?.map asChar = some y := by
  cases bytes with
  | nil => simp
  | cons b bytes => simp [List.cons_prefix_cons, eq_comm]

/-- A comment body with nothing before its star. -/
lemma commentBody_nil {star : UInt8} : CommentBody [] star ↔ asChar star = '*' := by
  simp [CommentBody, List.infix_cons_iff]

/-- A comment body with one more byte in front. -/
lemma commentBody_cons {b star : UInt8} {body : List UInt8} :
    CommentBody (b :: body) star ↔
      ¬ (asChar b = '*' ∧ (body ++ [star]).head?.map asChar = some '/') ∧
        CommentBody body star := by
  have hcons : (b :: body ++ [star]).map asChar = asChar b :: (body ++ [star]).map asChar := rfl
  rw [CommentBody, hcons, List.infix_cons_iff, ← List.map_cons, pair_prefix_map_iff, not_or,
    CommentBody]
  exact and_left_comm

/-- The byte after a comment body's first one, or its star, comes next in the source too. -/
lemma head?_append_star (body : List UInt8) (star : UInt8) (following : List UInt8) :
    (body ++ star :: following).head? = (body ++ [star]).head? := by
  cases body <;> rfl

/-- The end of a block comment is found where the comment ends. -/
lemma commentLength_eq_some_iff {bytes : List UInt8} {count n : ℕ} :
    commentLength count bytes = some n ↔
      ∃ body star last following, bytes = body ++ star :: last :: following ∧
        CommentBody body star ∧ asChar last = '/' ∧ n = count + body.length + 2 := by
  induction bytes generalizing count with
  | nil => simp [commentLength]
  | cons byte rest ih =>
    by_cases hend : asChar byte = '*' ∧ rest.head?.map asChar = some '/'
    · rw [commentLength, if_pos hend]
      constructor
      · intro h
        obtain ⟨last, hlast, hchar⟩ := Option.map_eq_some_iff.mp hend.2
        obtain ⟨following, rfl⟩ := List.head?_eq_some_iff.mp hlast
        exact ⟨[], byte, last, following, rfl, commentBody_nil.mpr hend.1, hchar,
          (Option.some.inj h).symm⟩
      · rintro ⟨body, star, last, following, heq, hbody, _, rfl⟩
        cases body with
        | nil => rfl
        | cons b body =>
          -- An end right here would be an end inside the body.
          rw [List.cons_append, List.cons.injEq] at heq
          rw [heq.1, heq.2, head?_append_star] at hend
          exact absurd hend (commentBody_cons.mp hbody).1
    · rw [commentLength, if_neg hend, ih]
      constructor
      · rintro ⟨body, star, last, following, rfl, hbody, hlast, rfl⟩
        rw [head?_append_star] at hend
        refine ⟨byte :: body, star, last, following, rfl, commentBody_cons.mpr ⟨hend, hbody⟩,
          hlast, ?_⟩
        rw [List.length_cons]
        omega
      · rintro ⟨body, star, last, following, heq, hbody, hlast, rfl⟩
        cases body with
        | nil =>
          obtain ⟨rfl, rfl⟩ := List.cons.inj heq
          exact absurd ⟨commentBody_nil.mp hbody, by simp [hlast]⟩ hend
        | cons b body =>
          obtain ⟨_, rfl⟩ := List.cons.inj heq
          refine ⟨body, star, last, following, rfl, (commentBody_cons.mp hbody).2, hlast, ?_⟩
          rw [List.length_cons]
          omega

/-- No quote is a backslash. -/
lemma ne_backslash_of_mem_quotes {quote : UInt8} (h : asChar quote ∈ quotes) :
    asChar quote ≠ '\\' := by
  intro heq
  rw [heq] at h
  exact absurd h (by decide)

/-- A string literal ends at the closing quote that was found. -/
lemma stringBody_of_stringLength {quote : UInt8} {bytes : List UInt8} {count n : ℕ}
    (h : stringLength quote count bytes = some n) :
    ∃ body following, bytes = body ++ quote :: following ∧ StringBody quote body ∧
      n = count + body.length := by
  fun_induction stringLength quote count bytes with
  | case1 => cases h
  | case2 count => exact ⟨[], [], rfl, .nil, (Option.some.inj h).symm⟩
  | case3 => cases h
  | case4 count next rest => exact ⟨[], next :: rest, rfl, .nil, (Option.some.inj h).symm⟩
  | case5 count byte next rest hquote hescape ih =>
    obtain ⟨body, following, rfl, hbody, rfl⟩ := ih h
    refine ⟨byte :: next :: body, following, rfl, .escape hescape hbody, ?_⟩
    rw [List.length_cons, List.length_cons]
    omega
  | case6 count byte next rest hquote hescape ih =>
    obtain ⟨body, following, heq, hbody, rfl⟩ := ih h
    refine ⟨byte :: body, following, ?_, .byte hquote hescape hbody, ?_⟩
    · rw [heq]
      rfl
    · rw [List.length_cons]
      omega

/-- The closing quote of a string literal is found. -/
lemma stringLength_of_stringBody {quote : UInt8} (hquote : asChar quote ∈ quotes)
    {body : List UInt8} (h : StringBody quote body) (count : ℕ) (following : List UInt8) :
    stringLength quote count (body ++ quote :: following) = some (count + body.length) := by
  induction h generalizing count with
  | nil => cases following <;> simp [stringLength]
  | @byte b body hb hplain _ ih =>
    obtain ⟨next, rest, heq⟩ : ∃ next rest, body ++ quote :: following = next :: rest := by
      cases body with
      | nil => exact ⟨quote, following, rfl⟩
      | cons c body => exact ⟨c, body ++ quote :: following, rfl⟩
    rw [List.cons_append, heq, stringLength, if_neg hb, if_neg hplain, ← heq, ih, List.length_cons]
    congr 1
    omega
  | @escape backslash b body hescape _ ih =>
    have hne : backslash ≠ quote := by
      rintro rfl
      exact ne_backslash_of_mem_quotes hquote hescape
    rw [List.cons_append, List.cons_append, stringLength, if_neg hne, if_pos hescape, ih,
      List.length_cons, List.length_cons]
    congr 1
    omega

/-- The digits of a number without a fraction. -/
lemma numberLength_integer {digits following : List UInt8}
    (hdigits : ∀ byte ∈ digits, isDigit byte = true) (hnext : Stops isDigit following)
    (hfraction : ¬ BeginsFraction following) :
    numberLength (digits ++ following) = (.integer, digits.length) := by
  rw [numberLength]
  simp only [takeWhile_append_of_stops hdigits hnext, List.drop_left]
  split
  · rename_i dot digit rest
    rw [if_neg fun h => hfraction ⟨dot, digit, rest, rfl, h⟩]
  · rfl

/-- The digits of a number with a fraction. -/
lemma numberLength_float {whole fraction following : List UInt8} {dot digit : UInt8}
    (hwhole : ∀ byte ∈ whole, isDigit byte = true) (hdot : asChar dot = '.')
    (hdigit : isDigit digit = true) (hfraction : ∀ byte ∈ fraction, isDigit byte = true)
    (hnext : Stops isDigit following) :
    numberLength (whole ++ dot :: digit :: (fraction ++ following)) =
      (.float, whole.length + 2 + fraction.length) := by
  have hstop : Stops isDigit (dot :: digit :: (fraction ++ following)) := by
    rw [stops_cons, isDigit, hdot]
    decide
  rw [numberLength]
  simp only [takeWhile_append_of_stops hwhole hstop, List.drop_left, hdot, hdigit, and_self,
    if_true, takeWhile_append_of_stops hfraction hnext]

/-! ### Where the grammar has a piece, the reader finds it -/

/-- What can be checked character by character.  Deciding it as it stands would go through all
characters. -/
lemma forall_mem_of_all {p : Char → Prop} [DecidablePred p] {chars : List Char}
    (h : chars.all (fun c => decide (p c)) = true) : ∀ c ∈ chars, p c :=
  fun c hc => of_decide_eq_true (List.all_eq_true.mp h c hc)

/-- A slash begins a comment or is an operator, which the byte behind it decides. -/
lemma ofBytes_of_slash {byte : UInt8} (h : asChar byte = '/') (rest : List UInt8) :
    Piece.ofBytes byte rest = .ofSlash byte rest := by
  rw [Piece.ofBytes_eq, if_neg (by rw [h]; decide), if_pos h]

/-- A delimiter is a token by itself. -/
lemma ofBytes_of_delimiter {byte : UInt8} (h : asChar byte ∈ delimiters) (rest : List UInt8) :
    Piece.ofBytes byte rest = .whole .delimiter .plain byte rest 0 := by
  have hother : ∀ c ∈ delimiters, c ∉ blanks ∧ c ≠ '/' := forall_mem_of_all (by decide)
  obtain ⟨h₁, h₂⟩ := hother _ h
  rw [Piece.ofBytes_eq, if_neg h₁, if_neg h₂, if_pos h]

/-- A comparison takes one `=` with it, and no other byte. -/
lemma ofBytes_of_comparison {byte : UInt8} (h : asChar byte ∈ comparisons) (rest : List UInt8) :
    Piece.ofBytes byte rest = .whole .operator .plain byte rest
      (if rest.head?.map asChar = some '=' then 1 else 0) := by
  have hother : ∀ c ∈ comparisons, c ∉ blanks ∧ c ≠ '/' ∧ c ∉ delimiters :=
    forall_mem_of_all (by decide)
  obtain ⟨h₁, h₂, h₃⟩ := hother _ h
  rw [Piece.ofBytes_eq, if_neg h₁, if_neg h₂, if_neg h₃, if_pos h]

/-- A connective is written twice; a single one is malformed. -/
lemma ofBytes_of_connective {byte : UInt8} (h : asChar byte ∈ connectives) (rest : List UInt8) :
    Piece.ofBytes byte rest =
      if rest.head? = some byte then .whole .operator .plain byte rest 1
      else .malformed (.unexpectedCharacter (firstCharacter (byte :: rest))) := by
  have hother : ∀ c ∈ connectives, c ∉ blanks ∧ c ≠ '/' ∧ c ∉ delimiters ∧ c ∉ comparisons :=
    forall_mem_of_all (by decide)
  obtain ⟨h₁, h₂, h₃, h₄⟩ := hother _ h
  rw [Piece.ofBytes_eq, if_neg h₁, if_neg h₂, if_neg h₃, if_neg h₄, if_pos h]

/-- A sign is a token by itself. -/
lemma ofBytes_of_sign {byte : UInt8} (h : asChar byte ∈ signs) (rest : List UInt8) :
    Piece.ofBytes byte rest = .whole .operator .plain byte rest 0 := by
  have hother : ∀ c ∈ signs, c ∉ blanks ∧ c ≠ '/' ∧ c ∉ delimiters ∧ c ∉ comparisons ∧
      c ∉ connectives :=
    forall_mem_of_all (by decide)
  obtain ⟨h₁, h₂, h₃, h₄, h₅⟩ := hother _ h
  rw [Piece.ofBytes_eq, if_neg h₁, if_neg h₂, if_neg h₃, if_neg h₄, if_neg h₅, if_pos h]

/-- A quote begins a string. -/
lemma ofBytes_of_quote {byte : UInt8} (h : asChar byte ∈ quotes) (rest : List UInt8) :
    Piece.ofBytes byte rest = .ofQuote byte rest := by
  have hother : ∀ c ∈ quotes, c ∉ blanks ∧ c ≠ '/' ∧ c ∉ delimiters ∧ c ∉ comparisons ∧
      c ∉ connectives ∧ c ∉ signs :=
    forall_mem_of_all (by decide)
  obtain ⟨h₁, h₂, h₃, h₄, h₅, h₆⟩ := hother _ h
  rw [Piece.ofBytes_eq, if_neg h₁, if_neg h₂, if_neg h₃, if_neg h₄, if_neg h₅, if_neg h₆, if_pos h]

/-- A `#` begins a directive. -/
lemma ofBytes_of_hash {byte : UInt8} (h : asChar byte = '#') (rest : List UInt8) :
    Piece.ofBytes byte rest = .ofHash rest := by
  rw [Piece.ofBytes_eq, h]
  rfl

/-- The characters that begin neither a number nor a word. -/
def marks : List Char :=
  blanks ++ ['/'] ++ delimiters ++ comparisons ++ connectives ++ signs ++ quotes ++ ['#']

/-- A byte that is none of the marks begins a number, a word or nothing. -/
lemma ofBytes_of_notMem_marks {byte : UInt8} (h : asChar byte ∉ marks) (rest : List UInt8) :
    Piece.ofBytes byte rest =
      if isDigit byte then .ofDigit byte rest
      else if startsWord byte then .ofWord byte rest
      else .malformed (.unexpectedCharacter (firstCharacter (byte :: rest))) := by
  simp only [marks, List.mem_append, List.mem_singleton, not_or] at h
  obtain ⟨⟨⟨⟨⟨⟨⟨h₁, h₂⟩, h₃⟩, h₄⟩, h₅⟩, h₆⟩, h₇⟩, h₈⟩ := h
  rw [Piece.ofBytes_eq, if_neg h₁, if_neg h₂, if_neg h₃, if_neg h₄, if_neg h₅, if_neg h₆,
    if_neg h₇, if_neg h₈]

/-- A digit begins a number, since it is none of the marks. -/
lemma ofBytes_of_isDigit {byte : UInt8} (h : isDigit byte = true) (rest : List UInt8) :
    Piece.ofBytes byte rest = .ofDigit byte rest := by
  have hmarks : ∀ c ∈ marks, c.isDigit = false :=
    forall_mem_of_all (by decide)
  have hmem : asChar byte ∉ marks := fun hmem => by
    have := hmarks _ hmem
    rw [isDigit, this] at h
    cases h
  rw [ofBytes_of_notMem_marks hmem, if_pos h]

/-- The letters of ASCII by their numbers. -/
lemma isAlpha_iff (c : Char) : c.isAlpha = true ↔
    (65 ≤ c.val.toNat ∧ c.val.toNat ≤ 90) ∨ (97 ≤ c.val.toNat ∧ c.val.toNat ≤ 122) := by
  change (decide (65 ≤ c.val ∧ c.val ≤ 90) ||
    (decide (97 ≤ c.val) && decide (c.val ≤ 122))) = true ↔ _
  simp only [Bool.or_eq_true, Bool.and_eq_true, decide_eq_true_eq, UInt32.le_iff_toNat_le]
  rfl

/-- The digits of ASCII by their numbers. -/
lemma isDigit_iff (c : Char) : c.isDigit = true ↔ 48 ≤ c.val.toNat ∧ c.val.toNat ≤ 57 := by
  change (decide (48 ≤ c.val) && decide (c.val ≤ 57)) = true ↔ _
  simp only [Bool.and_eq_true, decide_eq_true_eq, UInt32.le_iff_toNat_le]
  rfl

/-- A letter is no digit. -/
lemma isDigit_eq_false_of_startsWord {byte : UInt8} (h : startsWord byte = true) :
    isDigit byte = false := by
  rw [startsWord, Bool.or_eq_true, decide_eq_true_eq] at h
  rcases h with h | h
  · rw [isAlpha_iff] at h
    rw [isDigit, Bool.eq_false_iff, ne_eq, isDigit_iff]
    omega
  · rw [isDigit, h]
    decide

/-- A letter or an underscore begins a word, since it is none of the marks. -/
lemma ofBytes_of_startsWord {byte : UInt8} (h : startsWord byte = true) (rest : List UInt8) :
    Piece.ofBytes byte rest = .ofWord byte rest := by
  have hmarks : ∀ c ∈ marks, (c.isAlpha || c = '_') = false :=
    forall_mem_of_all (by decide)
  have hmem : asChar byte ∉ marks := fun hmem => by
    have := hmarks _ hmem
    rw [startsWord, this] at h
    cases h
  have hdigit : ¬ isDigit byte = true := by
    rw [isDigit_eq_false_of_startsWord h]
    exact Bool.false_ne_true
  rw [ofBytes_of_notMem_marks hmem, if_neg hdigit, if_pos h]

/-- Where a blank begins, the reader finds it. -/
theorem Blank.ofBytes_eq {bytes following rest : List UInt8} {byte : UInt8}
    (h : Blank bytes following) (heq : byte :: rest = bytes ++ following) :
    Piece.ofBytes byte rest = .blank (bytes.length - 1) := by
  cases h with
  | space h =>
    obtain ⟨rfl, rfl⟩ := List.cons.inj heq
    rw [Piece.ofBytes_eq, if_pos h]
    rfl
  | @lineComment slash second body _ hslash hsecond hbody hend =>
    obtain ⟨rfl, rfl⟩ := List.cons.inj heq
    have hrun : ∀ b ∈ second :: body, decide (asChar b ≠ '\n') = true := by
      intro b hb
      rcases List.mem_cons.mp hb with rfl | hb
      · rw [hsecond]
        decide
      · exact decide_eq_true (hbody b hb)
    have htake : ((second :: body) ++ following).takeWhile (asChar · ≠ '\n') = second :: body :=
      takeWhile_append_of_stops hrun hend
    rw [ofBytes_of_slash hslash, Piece.ofSlash]
    simp only [List.append_eq, List.cons_append, List.head?_cons, Option.map_some, hsecond]
    rw [← List.cons_append, htake]
    rfl
  | @blockComment slash second star last body _ hslash hsecond hbody hlast =>
    obtain ⟨rfl, rfl⟩ := List.cons.inj heq
    have hlength : commentLength 0 (body ++ star :: last :: following) = some (body.length + 2) :=
      commentLength_eq_some_iff.mpr ⟨body, star, last, following, rfl, hbody, hlast, by omega⟩
    rw [ofBytes_of_slash hslash, Piece.ofSlash]
    simp [hsecond, hlength]

/-- Where a token begins, the reader finds it. -/
theorem Lexeme.ofBytes_eq {category : Category} {kind : Kind} {text : String}
    {bytes following rest : List UInt8} {byte : UInt8}
    (h : Lexeme category kind text bytes following) (heq : byte :: rest = bytes ++ following) :
    Piece.ofBytes byte rest = .lexeme category kind text (bytes.length - 1) := by
  cases h with
  | delimiter h =>
    obtain ⟨rfl, rfl⟩ := List.cons.inj heq
    exact ofBytes_of_delimiter h _
  | sign h =>
    obtain ⟨rfl, rfl⟩ := List.cons.inj heq
    exact ofBytes_of_sign h _
  | slash h hnext =>
    obtain ⟨rfl, rfl⟩ := List.cons.inj heq
    rw [ofBytes_of_slash h, Piece.ofSlash]
    cases rest with
    | nil => rfl
    | cons b rest =>
      have hb : asChar b ≠ '/' ∧ asChar b ≠ '*' := by
        simpa using hnext
      simp only [List.head?_cons, Option.map_some]
      split
      · rename_i hslash
        exact absurd (Option.some.inj hslash) hb.1
      · rename_i hstar
        exact absurd (Option.some.inj hstar) hb.2
      · rfl
  | comparison h hnext =>
    obtain ⟨rfl, rfl⟩ := List.cons.inj heq
    have hhead : rest.head?.map asChar ≠ some '=' := by
      cases rest with
      | nil => simp
      | cons b rest => simpa using hnext
    rw [ofBytes_of_comparison h, if_neg hhead]
    rfl
  | comparisonEqual h hequals =>
    obtain ⟨rfl, rfl⟩ := List.cons.inj heq
    rw [ofBytes_of_comparison h, if_pos (by simp [hequals])]
    rfl
  | connective h =>
    obtain ⟨rfl, rfl⟩ := List.cons.inj heq
    rw [ofBytes_of_connective h, if_pos (by simp)]
    rfl
  | @string quote body _ h hbody =>
    obtain ⟨rfl, rfl⟩ := List.cons.inj heq
    have hlength : stringLength byte 0 (body ++ byte :: following) = some (0 + body.length) :=
      stringLength_of_stringBody h hbody 0 following
    rw [ofBytes_of_quote h, Piece.ofQuote, List.append_eq, List.append_assoc, List.singleton_append,
      hlength]
    simp
  | @directive hash first others _ hhash hfirst hothers hnext =>
    obtain ⟨rfl, rfl⟩ := List.cons.inj heq
    -- The first letter continues a word as well, so one run is the whole name.
    have hrun : ∀ b ∈ first :: others, continuesWord b = true := by
      intro b hb
      rcases List.mem_cons.mp hb with rfl | hb
      · rw [continuesWord, hfirst, Bool.true_or]
      · exact hothers b hb
    have htake : ((first :: others) ++ following).takeWhile continuesWord = first :: others :=
      takeWhile_append_of_stops hrun hnext
    rw [ofBytes_of_hash hhash, Piece.ofHash]
    simp only [List.append_eq]
    rw [htake, if_pos (by simp [hfirst])]
    rfl
  | @integer first others _ hfirst hothers hnext hfraction =>
    obtain ⟨rfl, rfl⟩ := List.cons.inj heq
    rw [ofBytes_of_isDigit hfirst, Piece.ofDigit, List.append_eq,
      numberLength_integer hothers hnext hfraction]
    simp [Piece.whole]
  | @float first dot digit whole fraction _ hfirst hwhole hdot hdigit hfraction hnext =>
    obtain ⟨rfl, rfl⟩ := List.cons.inj heq
    have hassoc : (whole ++ dot :: digit :: fraction).append following =
        whole ++ dot :: digit :: (fraction ++ following) := by
      simp
    -- The text is cut to the length of the number, which leaves out what follows it.
    have htake : (whole ++ dot :: digit :: (fraction ++ following)).take
        (whole.length + 2 + fraction.length) = whole ++ dot :: digit :: fraction := by
      rw [← hassoc]
      exact List.take_left' (by simp; omega)
    rw [ofBytes_of_isDigit hfirst, Piece.ofDigit, hassoc,
      numberLength_float hwhole hdot hdigit hfraction hnext]
    simp only [Piece.whole, htake, List.length_cons, List.length_append]
    congr 1
    omega
  | @word first others _ _ _ hfirst hothers hnext hclass =>
    obtain ⟨rfl, rfl⟩ := List.cons.inj heq
    rw [ofBytes_of_startsWord hfirst, Piece.ofWord]
    simp only [List.append_eq, takeWhile_append_of_stops hothers hnext, List.take_left, hclass]
    rfl

/-! ### What the reader finds is in the grammar -/

/-- A piece that was read is one that the grammar has at the beginning of a source. -/
def Piece.Begins (source : List UInt8) : Piece → Prop
  | .blank more =>
    ∃ bytes following, source = bytes ++ following ∧ bytes.length = more + 1 ∧
      Blank bytes following
  | .lexeme category kind text more =>
    ∃ bytes following, source = bytes ++ following ∧ bytes.length = more + 1 ∧
      Lexeme category kind text bytes following
  | .malformed _ => True

/-- A slash begins a comment of either kind or is the operator, unless a block comment does not end.
-/
lemma begins_ofSlash {byte : UInt8} (h : asChar byte = '/') (rest : List UInt8) :
    (Piece.ofSlash byte rest).Begins (byte :: rest) := by
  cases rest with
  | nil => exact ⟨[byte], [], rfl, rfl, .slash h (stops_nil _)⟩
  | cons second rest =>
    rw [Piece.ofSlash]
    simp only [List.head?_cons, Option.map_some]
    split
    · rename_i hsecond
      replace hsecond : asChar second = '/' := Option.some.inj hsecond
      have htake : (second :: rest).takeWhile (asChar · ≠ '\n') =
          second :: rest.takeWhile (asChar · ≠ '\n') := by
        rw [List.takeWhile_cons_of_pos]
        rw [hsecond]
        decide
      refine ⟨byte :: second :: rest.takeWhile (asChar · ≠ '\n'),
        rest.dropWhile (asChar · ≠ '\n'), ?_, ?_, ?_⟩
      · simp
      · rw [htake]
        rfl
      · refine .lineComment h hsecond (fun b hb => ?_) (stops_dropWhile _ _)
        have hne := List.mem_takeWhile_imp (p := fun x => decide (asChar x ≠ '\n')) hb
        exact of_decide_eq_true hne
    · rename_i hsecond
      replace hsecond : asChar second = '*' := Option.some.inj hsecond
      cases hlength : commentLength 0 (second :: rest).tail with
      | none => trivial
      | some length =>
        obtain ⟨body, star, last, following, heq, hbody, hlast, rfl⟩ :=
          commentLength_eq_some_iff.mp hlength
        refine ⟨byte :: second :: (body ++ [star, last]), following, ?_, ?_,
          .blockComment h hsecond hbody hlast⟩
        · rw [List.tail_cons] at heq
          simp [heq]
        · simp
    · rename_i hslash hstar
      refine ⟨[byte], second :: rest, rfl, rfl, .slash h ((stops_cons ..).mpr ?_)⟩
      simp only [List.mem_cons, List.not_mem_nil, or_false, decide_eq_false_iff_not, not_or]
      exact ⟨fun h => hslash (congrArg some h), fun h => hstar (congrArg some h)⟩

/-- A quote begins a string, unless no quote ends it. -/
lemma begins_ofQuote {quote : UInt8} (h : asChar quote ∈ quotes) (rest : List UInt8) :
    (Piece.ofQuote quote rest).Begins (quote :: rest) := by
  rw [Piece.ofQuote]
  cases hlength : stringLength quote 0 rest with
  | none => trivial
  | some length =>
    obtain ⟨body, following, rfl, hbody, rfl⟩ := stringBody_of_stringLength hlength
    refine ⟨quote :: (body ++ [quote]), following, by simp, by simp, ?_⟩
    rw [Nat.zero_add, List.take_left]
    exact .string h hbody

/-- A `#` begins a directive with the whole name behind it, unless there is no name. -/
lemma begins_ofHash {byte : UInt8} (h : asChar byte = '#') (rest : List UInt8) :
    (Piece.ofHash rest).Begins (byte :: rest) := by
  rw [Piece.ofHash]
  split
  · rename_i hhead
    obtain ⟨first, rest, rfl, hfirst⟩ :
        ∃ first rest', rest = first :: rest' ∧ startsWord first = true := by
      cases rest with
      | nil => simp at hhead
      | cons first rest => exact ⟨first, rest, rfl, by simpa using hhead⟩
    have hcontinues : continuesWord first = true := by
      rw [continuesWord, hfirst, Bool.true_or]
    rw [List.takeWhile_cons_of_pos hcontinues]
    refine ⟨byte :: first :: rest.takeWhile continuesWord, rest.dropWhile continuesWord, ?_, ?_,
      .directive h hfirst (fun b hb => List.mem_takeWhile_imp hb) (stops_dropWhile _ _)⟩
    · simp
    · simp
  · trivial

/-- A digit begins a number, which has a fraction if a dot and another digit follow. -/
lemma begins_ofDigit {byte : UInt8} (h : isDigit byte = true) (rest : List UInt8) :
    (Piece.ofDigit byte rest).Begins (byte :: rest) := by
  have hdigits : ∀ (bytes : List UInt8), ∀ b ∈ bytes.takeWhile isDigit, isDigit b = true :=
    fun bytes b hb => List.mem_takeWhile_imp hb
  have hsplit (bytes : List UInt8) :
      bytes = bytes.takeWhile isDigit ++ bytes.dropWhile isDigit :=
    List.takeWhile_append_dropWhile.symm
  have hstop := stops_dropWhile isDigit rest
  generalize hwhole : rest.takeWhile isDigit = whole
  generalize hafter : rest.dropWhile isDigit = after at hstop
  have hrest : rest = whole ++ after := by
    rw [hsplit rest, hwhole, hafter]
  have hall : ∀ b ∈ whole, isDigit b = true := hwhole ▸ hdigits rest
  -- The digits and what is after them are lists of their own from here.
  clear hwhole hafter
  by_cases hfraction : BeginsFraction after
  · obtain ⟨dot, digit, tail, rfl, hdot, hdigit⟩ := hfraction
    have hnext := stops_dropWhile isDigit tail
    have hall' := hdigits tail
    rw [hsplit tail] at hrest
    generalize tail.takeWhile isDigit = fraction at hall' hrest
    generalize tail.dropWhile isDigit = following at hnext hrest
    subst hrest
    have hassoc : whole ++ dot :: digit :: (fraction ++ following) =
        (whole ++ dot :: digit :: fraction) ++ following := by
      simp
    rw [Piece.ofDigit, numberLength_float hall hdot hdigit hall' hnext, hassoc]
    have hlength : whole.length + 2 + fraction.length =
        (whole ++ dot :: digit :: fraction).length := by
      simp
      omega
    refine ⟨byte :: (whole ++ dot :: digit :: fraction), following, rfl, ?_, ?_⟩
    · rw [List.length_cons, hlength]
    · rw [hlength, List.take_left]
      exact .float h hall hdot hdigit hall' hnext
  · subst hrest
    rw [Piece.ofDigit, numberLength_integer hall hstop hfraction]
    refine ⟨byte :: whole, after, rfl, rfl, ?_⟩
    rw [List.take_left]
    exact .integer h hall hstop hfraction

/-- A letter begins a word, which is as long as it can be. -/
lemma begins_ofWord {byte : UInt8} (h : startsWord byte = true) (rest : List UInt8) :
    (Piece.ofWord byte rest).Begins (byte :: rest) := by
  have hsplit : byte :: rest =
      (byte :: rest.takeWhile continuesWord) ++ rest.dropWhile continuesWord := by
    simp
  have htake : rest.take (rest.takeWhile continuesWord).length = rest.takeWhile continuesWord := by
    exact List.prefix_iff_eq_take.mp (List.takeWhile_prefix _) |>.symm
  rw [Piece.ofWord]
  simp only [htake]
  rcases hclass : classifyWord (Utf8.lossy (byte :: rest.takeWhile continuesWord))
    with ⟨category, kind⟩
  exact ⟨_, _, hsplit, rfl,
    .word h (fun b hb => List.mem_takeWhile_imp hb) (stops_dropWhile _ _) hclass⟩

/-- A comparison takes an equals sign along. -/
lemma begins_of_comparison {byte : UInt8} (h : asChar byte ∈ comparisons) (rest : List UInt8) :
    (Piece.whole .operator .plain byte rest
      (if rest.head?.map asChar = some '=' then 1 else 0)).Begins (byte :: rest) := by
  by_cases hequals : rest.head?.map asChar = some '='
  · rw [if_pos hequals]
    obtain ⟨equals, hhead, hchar⟩ := Option.map_eq_some_iff.mp hequals
    obtain ⟨following, rfl⟩ := List.head?_eq_some_iff.mp hhead
    exact ⟨[byte, equals], following, rfl, rfl, .comparisonEqual h hchar⟩
  · rw [if_neg hequals]
    refine ⟨[byte], rest, rfl, rfl, .comparison h ?_⟩
    cases rest with
    | nil => exact stops_nil _
    | cons b rest => simpa using hequals

/-- A connective is two characters, both the same. -/
lemma begins_of_connective {byte : UInt8} (h : asChar byte ∈ connectives) (rest : List UInt8) :
    (if rest.head? = some byte then Piece.whole .operator .plain byte rest 1
      else .malformed (.unexpectedCharacter (firstCharacter (byte :: rest)))).Begins
        (byte :: rest) := by
  by_cases htwice : rest.head? = some byte
  · rw [if_pos htwice]
    obtain ⟨following, rfl⟩ := List.head?_eq_some_iff.mp htwice
    exact ⟨[byte, byte], following, rfl, rfl, .connective h⟩
  · rw [if_neg htwice]
    trivial

/-- The reader finds only what the grammar has. -/
theorem begins_ofBytes (byte : UInt8) (rest : List UInt8) :
    (Piece.ofBytes byte rest).Begins (byte :: rest) := by
  rw [Piece.ofBytes_eq]
  by_cases hblank : asChar byte ∈ blanks
  · rw [if_pos hblank]
    exact ⟨[byte], rest, rfl, rfl, .space hblank⟩
  rw [if_neg hblank]
  by_cases hslash : asChar byte = '/'
  · rw [if_pos hslash]
    exact begins_ofSlash hslash rest
  rw [if_neg hslash]
  by_cases hdelimiter : asChar byte ∈ delimiters
  · rw [if_pos hdelimiter]
    exact ⟨[byte], rest, rfl, rfl, .delimiter hdelimiter⟩
  rw [if_neg hdelimiter]
  by_cases hcomparison : asChar byte ∈ comparisons
  · rw [if_pos hcomparison]
    exact begins_of_comparison hcomparison rest
  rw [if_neg hcomparison]
  by_cases hconnective : asChar byte ∈ connectives
  · rw [if_pos hconnective]
    exact begins_of_connective hconnective rest
  rw [if_neg hconnective]
  by_cases hsign : asChar byte ∈ signs
  · rw [if_pos hsign]
    exact ⟨[byte], rest, rfl, rfl, .sign hsign⟩
  rw [if_neg hsign]
  by_cases hquote : asChar byte ∈ quotes
  · rw [if_pos hquote]
    exact begins_ofQuote hquote rest
  rw [if_neg hquote]
  by_cases hhash : asChar byte = '#'
  · rw [if_pos hhash]
    exact begins_ofHash hhash rest
  rw [if_neg hhash]
  by_cases hdigit : isDigit byte = true
  · rw [if_pos hdigit]
    exact begins_ofDigit hdigit rest
  rw [if_neg hdigit]
  by_cases hword : startsWord byte = true
  · rw [if_pos hword]
    exact begins_ofWord hword rest
  rw [if_neg hword]
  trivial

/-! ### The reader decides the grammar -/

/-- A blank is not empty. -/
lemma Blank.exists_cons {bytes following : List UInt8} (h : Blank bytes following) :
    ∃ byte rest, bytes = byte :: rest := by
  cases h <;> exact ⟨_, _, rfl⟩

/-- Nor is a lexeme, so the lexer takes at least one byte for each. -/
lemma Lexeme.exists_cons {category : Category} {kind : Kind} {text : String}
    {bytes following : List UInt8} (h : Lexeme category kind text bytes following) :
    ∃ byte rest, bytes = byte :: rest := by
  cases h <;> exact ⟨_, _, rfl⟩

/-- A blank of a given length is found just where the grammar has one. -/
theorem ofBytes_eq_blank_iff {byte : UInt8} {rest : List UInt8} {more : ℕ} :
    Piece.ofBytes byte rest = .blank more ↔
      ∃ bytes following, byte :: rest = bytes ++ following ∧ bytes.length = more + 1 ∧
        Blank bytes following := by
  constructor
  · intro h
    have hbegins := begins_ofBytes byte rest
    rw [h] at hbegins
    exact hbegins
  · rintro ⟨bytes, following, heq, hlength, hblank⟩
    rw [hblank.ofBytes_eq heq, hlength]
    rfl

/-- A token is found just where the grammar has one, with its category, kind, text and length. -/
theorem ofBytes_eq_lexeme_iff {byte : UInt8} {rest : List UInt8} {category : Category}
    {kind : Kind} {text : String} {more : ℕ} :
    Piece.ofBytes byte rest = .lexeme category kind text more ↔
      ∃ bytes following, byte :: rest = bytes ++ following ∧ bytes.length = more + 1 ∧
        Lexeme category kind text bytes following := by
  constructor
  · intro h
    have hbegins := begins_ofBytes byte rest
    rw [h] at hbegins
    exact hbegins
  · rintro ⟨bytes, following, heq, hlength, hlexeme⟩
    rw [hlexeme.ofBytes_eq heq, hlength]
    rfl

/-- A piece is malformed just where nothing of the grammar begins. -/
theorem exists_ofBytes_eq_malformed_iff {byte : UInt8} {rest : List UInt8} :
    (∃ cause, Piece.ofBytes byte rest = .malformed cause) ↔ NothingBegins (byte :: rest) := by
  constructor
  · rintro ⟨cause, h⟩ bytes following heq
    refine ⟨fun hblank => ?_, fun category kind text hlexeme => ?_⟩
    · rw [hblank.ofBytes_eq heq] at h
      cases h
    · rw [hlexeme.ofBytes_eq heq] at h
      cases h
  · intro hnothing
    cases hpiece : Piece.ofBytes byte rest with
    | blank more =>
      obtain ⟨bytes, following, heq, _, hblank⟩ := ofBytes_eq_blank_iff.mp hpiece
      exact absurd hblank (hnothing _ _ heq).1
    | lexeme category kind text more =>
      obtain ⟨bytes, following, heq, _, hlexeme⟩ := ofBytes_eq_lexeme_iff.mp hpiece
      exact absurd hlexeme ((hnothing _ _ heq).2 _ _ _)
    | malformed cause => exact ⟨cause, rfl⟩

/-! ### The text of a token -/

/-- The bytes whose characters are among a given list of ASCII characters are ASCII bytes. -/
lemma ascii_of_mem {chars : List Char} (hchars : chars.all (·.val.toNat < 0x80) = true)
    {byte : UInt8} (h : asChar byte ∈ chars) : byte.toNat < 0x80 := by
  rw [← Utf8.val_toNat_ofUInt8]
  exact forall_mem_of_all hchars _ h

/-- A byte that is shown as a character of ASCII is a byte of ASCII. -/
lemma ascii_of_eq {c : Char} (hc : c.val.toNat < 0x80) {byte : UInt8} (h : asChar byte = c) :
    byte.toNat < 0x80 := by
  have hchar : Char.ofUInt8 byte = c := h
  rw [← Utf8.val_toNat_ofUInt8, hchar]
  exact hc

/-- A digit is a byte of ASCII. -/
lemma ascii_of_isDigit {byte : UInt8} (h : isDigit byte = true) : byte.toNat < 0x80 := by
  have hval : (asChar byte).val.toNat = byte.toNat := Utf8.val_toNat_ofUInt8 byte
  rw [isDigit, isDigit_iff, hval] at h
  omega

/-- So is what begins a word. -/
lemma ascii_of_startsWord {byte : UInt8} (h : startsWord byte = true) : byte.toNat < 0x80 := by
  rw [startsWord, Bool.or_eq_true, decide_eq_true_eq] at h
  rcases h with h | h
  · have hval : (asChar byte).val.toNat = byte.toNat := Utf8.val_toNat_ofUInt8 byte
    rw [isAlpha_iff, hval] at h
    omega
  · exact ascii_of_eq (by decide) h

/-- So is what continues a word; no byte of a longer character does. -/
lemma ascii_of_continuesWord {byte : UInt8} (h : continuesWord byte = true) :
    byte.toNat < 0x80 := by
  rw [continuesWord, Bool.or_eq_true] at h
  rcases h with h | h
  · exact ascii_of_startsWord h
  · exact ascii_of_isDigit h

/-- No word is a string literal or a directive. -/
lemma classifyWord_ne (text : String) :
    (classifyWord text).1 ≠ .directive ∧ (classifyWord text).2 ≠ .string := by
  unfold classifyWord
  split_ifs <;> exact ⟨by decide, by decide⟩

/-- Only string literals have bytes beyond ASCII. -/
lemma Lexeme.ascii {category : Category} {kind : Kind} {text : String}
    {bytes following : List UInt8} (h : Lexeme category kind text bytes following)
    (hkind : kind ≠ .string) : ∀ b ∈ bytes, b.toNat < 0x80 := by
  have honly {byte : UInt8} (hbyte : byte.toNat < 0x80) : ∀ b ∈ [byte], b.toNat < 0x80 :=
    List.forall_mem_singleton.mpr hbyte
  cases h with
  | delimiter h => exact honly (ascii_of_mem (by decide) h)
  | sign h => exact honly (ascii_of_mem (by decide) h)
  | slash h => exact honly (ascii_of_eq (by decide) h)
  | comparison h => exact honly (ascii_of_mem (by decide) h)
  | comparisonEqual h hequals =>
    refine List.forall_mem_cons.mpr ⟨ascii_of_mem (by decide) h, ?_⟩
    exact honly (ascii_of_eq (by decide) hequals)
  | connective h =>
    have hbyte := ascii_of_mem (by decide) h
    exact List.forall_mem_cons.mpr ⟨hbyte, honly hbyte⟩
  | string => exact absurd rfl hkind
  | directive hhash hfirst hothers =>
    refine List.forall_mem_cons.mpr ⟨ascii_of_eq (by decide) hhash, ?_⟩
    refine List.forall_mem_cons.mpr ⟨ascii_of_startsWord hfirst, ?_⟩
    exact fun b hb => ascii_of_continuesWord (hothers b hb)
  | integer hfirst hothers =>
    refine List.forall_mem_cons.mpr ⟨ascii_of_isDigit hfirst, ?_⟩
    exact fun b hb => ascii_of_isDigit (hothers b hb)
  | float hfirst hwhole hdot hdigit hfraction =>
    refine List.forall_mem_cons.mpr ⟨ascii_of_isDigit hfirst, ?_⟩
    refine List.forall_mem_append.mpr ⟨fun b hb => ascii_of_isDigit (hwhole b hb), ?_⟩
    refine List.forall_mem_cons.mpr ⟨?_, List.forall_mem_cons.mpr ⟨ascii_of_isDigit hdigit, ?_⟩⟩
    · exact ascii_of_eq (by decide) hdot
    · exact fun b hb => ascii_of_isDigit (hfraction b hb)
  | word hfirst hothers =>
    refine List.forall_mem_cons.mpr ⟨ascii_of_startsWord hfirst, ?_⟩
    exact fun b hb => ascii_of_continuesWord (hothers b hb)

/-- A token that is neither a directive nor a string literal has its bytes as its text. -/
lemma Lexeme.encode_text {category : Category} {kind : Kind} {text : String}
    {bytes following : List UInt8} (h : Lexeme category kind text bytes following)
    (hcategory : category ≠ .directive) (hkind : kind ≠ .string) : Utf8.encode text = bytes := by
  have htext : text = Utf8.lossy bytes := by
    cases h with
    | string => exact absurd rfl hkind
    | directive => exact absurd rfl hcategory
    | _ => rfl
  rw [htext, Utf8.encode_lossy_of_ascii (h.ascii hkind)]

/-- A directive has its bytes after the first one as its text. -/
lemma Lexeme.encode_text_of_directive {kind : Kind} {text : String}
    {bytes following : List UInt8} (h : Lexeme .directive kind text bytes following) :
    Utf8.encode text = bytes.tail := by
  cases h with
  | directive hhash hfirst hothers hnext =>
    have hascii := (directive hhash hfirst hothers hnext).ascii (by decide)
    exact Utf8.encode_lossy_of_ascii (List.forall_mem_cons.mp hascii).2
  | word _ _ _ hclass => exact absurd (congrArg Prod.fst hclass) (classifyWord_ne _).1

/-- A string literal stands between quotes, and its text is what it holds between them. -/
lemma Lexeme.exists_of_string {category : Category} {text : String} {bytes following : List UInt8}
    (h : Lexeme category .string text bytes following) :
    ∃ quote body, asChar quote ∈ quotes ∧ StringBody quote body ∧
      bytes = quote :: (body ++ [quote]) ∧ text = Utf8.lossy body := by
  cases h with
  | string h hbody => exact ⟨_, _, h, hbody, rfl, rfl⟩
  | word _ _ _ hclass => exact absurd (congrArg Prod.snd hclass) (classifyWord_ne _).2

/-- An identifier has its bytes as its text, and no byte that continues it comes next. -/
lemma Lexeme.of_identifier {kind : Kind} {text : String} {bytes following : List UInt8}
    (h : Lexeme .identifier kind text bytes following) :
    Utf8.encode text = bytes ∧ Stops continuesWord following := by
  refine ⟨h.encode_text (by decide) ?_, ?_⟩
  · cases h with
    | word _ _ _ hclass =>
      rintro rfl
      exact absurd (congrArg Prod.snd hclass) (classifyWord_ne _).2
  · cases h with
    | word _ _ hnext _ => exact hnext

end UvaAnalysis.Token
