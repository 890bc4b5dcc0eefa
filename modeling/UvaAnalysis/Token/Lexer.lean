import UvaAnalysis.Fault

/-!
# From bytes to tokens

A source is a sequence of pieces: blank space, comments and lexemes.  `Piece.ofBytes` reads the
piece that begins with a given byte, looking only at the bytes that follow, and tells how many of
them belong to it.  `tokenize` goes through a source piece by piece and keeps the lexemes, each with
the position of its first byte.  It stops at the first byte that begins no piece.

Bytes need not be well-formed UTF-8.  Outside comments and string literals only ASCII bytes belong
to a piece; the text of a string literal has the replacement character for what is malformed in it.
-/

namespace UvaAnalysis

namespace Token

/-! ### Classes of bytes -/

/-- A byte as a character of the first block of Unicode; ASCII bytes are the ASCII characters. -/
abbrev asChar (byte : UInt8) : Char :=
  Char.ofUInt8 byte

/-- The byte of an ASCII letter or an underscore. -/
def startsWord (byte : UInt8) : Bool :=
  (asChar byte).isAlpha || asChar byte = '_'

/-- The byte of an ASCII digit. -/
def isDigit (byte : UInt8) : Bool :=
  (asChar byte).isDigit

/-- The byte of an ASCII letter, an underscore or an ASCII digit. -/
def continuesWord (byte : UInt8) : Bool :=
  startsWord byte || isDigit byte

/-- The words with a meaning of their own. -/
def keywords : List String :=
  ["class", "extends", "end", "function", "let", "var", "const", "if", "else", "while",
    "return", "and", "or", "not", "self"]

/-- The category and kind of a word. -/
def classifyWord (text : String) : Category × Kind :=
  if text = "true" ∨ text = "false" then (.literal, .boolean)
  else if text = "null" then (.literal, .null)
  else if text ∈ keywords then (.keyword, .plain)
  else (.identifier, .plain)

/-! ### Pieces -/

/-- What begins with a byte of a source; `more` counts the bytes that belong to it after the
first. -/
inductive Piece where
  /-- Blank space or a comment. -/
  | blank (more : Nat)
  /-- A token. -/
  | lexeme (category : Category) (kind : Kind) (text : String) (more : Nat)
  /-- Nothing. -/
  | malformed (cause : LexicalError)
  deriving DecidableEq, Repr

/-- A lexeme whose text is all of its bytes. -/
def Piece.whole (category : Category) (kind : Kind) (byte : UInt8) (rest : List UInt8)
    (more : Nat) : Piece :=
  .lexeme category kind (Utf8.lossy (byte :: rest.take more)) more

/-- The first character of a text, for a message.  No character has more than four bytes. -/
def firstCharacter (bytes : List UInt8) : Char :=
  (Utf8.lossyChars (bytes.take 4)).head?.getD Utf8.replacement

/-- The number of bytes up to and including the end of a block comment, counting from `count`. -/
def commentLength : (count : Nat) → List UInt8 → Option Nat
  | _, [] => none
  | count, byte :: rest =>
    if asChar byte = '*' ∧ rest.head?.map asChar = some '/' then some (count + 2)
    else commentLength (count + 1) rest

/-- The number of bytes before the closing quote of a string literal, counting from `count`.  A
backslash takes the byte after it along, whatever that is. -/
def stringLength (quote : UInt8) : (count : Nat) → List UInt8 → Option Nat
  | _, [] => none
  | count, [byte] => if byte = quote then some count else none
  | count, byte :: next :: rest =>
    if byte = quote then some count
    else if asChar byte = '\\' then stringLength quote (count + 2) rest
    else stringLength quote (count + 1) (next :: rest)

/-- The number of digits of an integer part and a fraction that follow.  A dot begins a fraction
only before a digit. -/
def numberLength (bytes : List UInt8) : Kind × Nat :=
  let whole := (bytes.takeWhile isDigit).length
  match bytes.drop whole with
  | dot :: digit :: rest =>
    if asChar dot = '.' ∧ isDigit digit then
      (.float, whole + 2 + (rest.takeWhile isDigit).length)
    else (.integer, whole)
  | _ => (.integer, whole)

/-- The piece that begins with a slash. -/
def Piece.ofSlash (byte : UInt8) (rest : List UInt8) : Piece :=
  match rest.head?.map asChar with
  | some '/' => .blank (rest.takeWhile (asChar · ≠ '\n')).length
  | some '*' =>
    match commentLength 0 rest.tail with
    | some length => .blank (length + 1)
    | none => .malformed .unterminatedComment
  | _ => .whole .operator .plain byte rest 0

/-- The piece that begins with a quote. -/
def Piece.ofQuote (quote : UInt8) (rest : List UInt8) : Piece :=
  match stringLength quote 0 rest with
  | some length => .lexeme .literal .string (Utf8.lossy (rest.take length)) (length + 1)
  | none => .malformed .unterminatedString

/-- The piece that begins with `#`. -/
def Piece.ofHash (rest : List UInt8) : Piece :=
  if rest.head?.any startsWord then
    let name := rest.takeWhile continuesWord
    .lexeme .directive .plain (Utf8.lossy name) name.length
  else .malformed .namelessDirective

/-- The piece that begins with a digit. -/
def Piece.ofDigit (byte : UInt8) (rest : List UInt8) : Piece :=
  let (kind, more) := numberLength rest
  .whole .literal kind byte rest more

/-- The piece that begins with a letter or an underscore. -/
def Piece.ofWord (byte : UInt8) (rest : List UInt8) : Piece :=
  let more := (rest.takeWhile continuesWord).length
  let text := Utf8.lossy (byte :: rest.take more)
  let (category, kind) := classifyWord text
  .lexeme category kind text more

/-- The piece that begins with `byte` when `rest` follows. -/
def Piece.ofBytes (byte : UInt8) (rest : List UInt8) : Piece :=
  match asChar byte with
  | ' ' | '\t' | '\n' | '\r' => .blank 0
  | '/' => .ofSlash byte rest
  | '(' | ')' | '[' | ']' | '\x7b' | '\x7d' | ',' | ';' | ':' =>
    .whole .delimiter .plain byte rest 0
  | '=' | '!' | '<' | '>' =>
    .whole .operator .plain byte rest (if rest.head?.map asChar = some '=' then 1 else 0)
  | '&' | '|' =>
    if rest.head? = some byte then .whole .operator .plain byte rest 1
    else .malformed (.unexpectedCharacter (firstCharacter (byte :: rest)))
  | '+' | '-' | '*' | '%' | '.' => .whole .operator .plain byte rest 0
  | '\'' | '"' => .ofQuote byte rest
  | '#' => .ofHash rest
  | _ =>
    if isDigit byte then .ofDigit byte rest
    else if startsWord byte then .ofWord byte rest
    else .malformed (.unexpectedCharacter (firstCharacter (byte :: rest)))

/-- The tokens of a source from some point on: `skip` bytes still belong to a piece that was read,
and `position` is that of the first byte given. -/
def scan (origin : Path) : (skip : Nat) → (position : Position) → List UInt8 →
    Salvage (List Token)
  | _, _, [] => ⟨[], []⟩
  | skip + 1, position, byte :: rest => scan origin skip (position.advance byte) rest
  | 0, position, byte :: rest =>
    match Piece.ofBytes byte rest with
    | .blank more => scan origin more (position.advance byte) rest
    | .lexeme category kind text more =>
      let others := scan origin more (position.advance byte) rest
      ⟨⟨origin, position, category, kind, text, more + 1⟩ :: others.value, others.faults⟩
    | .malformed cause => ⟨[], [.lexical origin position cause]⟩

/-- The tokens of a source up to its first malformed piece, each marked with the file `origin`. -/
def tokenize (origin : Path) (source : List UInt8) : Salvage (List Token) :=
  scan origin 0 .start source

/-- At the end of the source there is nothing left to read, wherever that is. -/
@[simp] theorem scan_nil (origin : Path) (skip : Nat) (position : Position) :
    scan origin skip position [] = ⟨[], []⟩ := by
  cases skip <;> rfl

/-- Skipping is going on after the bytes skipped. -/
theorem scan_skip (origin : Path) (skip : Nat) (position : Position) (source : List UInt8) :
    scan origin skip position source =
      scan origin 0 (position.advanceBy (source.take skip)) (source.drop skip) := by
  induction source generalizing skip position with
  | nil => simp
  | cons byte rest ih =>
    cases skip with
    | zero => rfl
    | succ skip => simp [scan, ih skip]

end Token

end UvaAnalysis
