import UvaAnalysis.Path
import UvaAnalysis.Position

/-!
# Tokens

A token is a lexical unit of a source together with the stretch of bytes that it was read from: the
file, the position of its first byte and the number of its bytes.  Its text is what the parser
compares: the bytes themselves for most tokens, the bytes between the quotes for a string literal,
and the name without its `#` for a directive.
-/

namespace UvaAnalysis

namespace Token

/-- The broad class of a token. -/
inductive Category where
  | identifier
  | keyword
  | literal
  | operator
  | delimiter
  /-- A name after `#`. -/
  | directive
  deriving DecidableEq, Repr

/-- The class of a literal; every other token is plain. -/
inductive Kind where
  | string
  | integer
  | float
  | boolean
  | null
  | plain
  deriving DecidableEq, Repr

end Token

/-- A lexical unit and the stretch of bytes it was read from. -/
structure Token where
  origin : Path
  position : Position
  category : Token.Category
  kind : Token.Kind
  text : String
  /-- The number of bytes, quotes and `#` included. -/
  length : Nat
  deriving DecidableEq, Repr

namespace Token

/-- A token of a given category and text. -/
def is (t : Token) (category : Category) (text : String) : Bool :=
  t.category = category && t.text = text

/-- The keyword of a given text. -/
def isKeyword (t : Token) (text : String) : Bool :=
  t.is .keyword text

/-- A literal of the string kind. -/
def isStringLiteral (t : Token) : Bool :=
  t.category = .literal && t.kind = .string

/-- A token is the one that is asked for when its category and its text are. -/
theorem is_iff {t : Token} {category : Category} {text : String} :
    t.is category text ↔ t.category = category ∧ t.text = text := by
  simp [is]

/-- A string is the only kind of literal with quotes. -/
theorem isStringLiteral_iff {t : Token} :
    t.isStringLiteral ↔ t.category = .literal ∧ t.kind = .string := by
  simp [isStringLiteral]

end Token

end UvaAnalysis
