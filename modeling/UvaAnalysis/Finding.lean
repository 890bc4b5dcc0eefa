import UvaAnalysis.Request

/-!
# Findings

Rules of style are checked token by token.  A rule may look up single bytes of the files that tokens
come from, and where a byte cannot be looked up the rule finds nothing.

The one rule wants single quotes around a string literal that interpolates nothing.  The text of a
token leaves out the quotes, so the rule looks up the byte at which the token begins.
-/

namespace UvaAnalysis

/-- A breach of a rule, and the stretch of bytes where it is. -/
structure Finding where
  rule : String
  message : String
  file : Path
  position : Position
  length : Nat
  deriving DecidableEq, Repr

/-- A way to look up the byte of a file at an offset. -/
abbrev ByteLookup := Path → Nat → Except FileError UInt8

/-- A rule of style. -/
structure Rule where
  name : String
  message : String
  /-- Whether a token breaks the rule. -/
  isBrokenBy : ByteLookup → Token → Bool

namespace Rule

/-- The finding for a token that breaks a rule. -/
def check (rule : Rule) (byteAt : ByteLookup) (t : Token) : Option Finding :=
  if rule.isBrokenBy byteAt t then
    some ⟨rule.name, rule.message, t.origin, t.position, t.length⟩
  else none

/-- A text in which a dollar sign stands right before an opening brace. -/
def hasInterpolation : List Char → Bool
  | [] => false
  | c :: rest => (c = '$' && rest.head? = some '\x7b') || hasInterpolation rest

/-- String literals without interpolation are written in single quotes. -/
def singleQuotes : Rule where
  name := "string-default-single-quotes"
  message := "String literal without interpolation should use single quotes."
  isBrokenBy byteAt t :=
    t.isStringLiteral &&
      match byteAt t.origin t.position.offset with
      | .ok byte => Token.asChar byte = '"' && !hasInterpolation t.text.toList
      | .error _ => false

end Rule

/-- The rules that are checked. -/
def standardRules : List Rule := [.singleQuotes]

/-- The findings for a list of tokens: in the order of the tokens, and for each token in the order
of the rules. -/
def findings (rules : List Rule) (byteAt : ByteLookup) (tokens : List Token) : List Finding :=
  tokens.flatMap fun t => rules.filterMap (·.check byteAt t)

end UvaAnalysis
