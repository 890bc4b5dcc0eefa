/-!
# JSON documents

The JSON values that reports are made of, and their text: one item or field to a line, indented by
one tab for each level, with `[]` and `{}` for what is empty.  In a string the quote, the
backslash and the controls below the space are escaped, five of the controls by a letter of their
own; every other character stands for itself.
-/

namespace UvaAnalysis

/-- A JSON value, as far as reports need them. -/
inductive Json where
  | string (text : String)
  | number (n : Nat)
  | array (items : List Json)
  | object (fields : List (String × Json))
  deriving Repr

namespace Json

/-- Two lower-case hexadecimal digits. -/
def twoHexDigits (n : Nat) : List Char :=
  [Nat.digitChar (n / 16), Nat.digitChar (n % 16)]

/-- A character as it stands in a string. -/
def escape (c : Char) : List Char :=
  match c with
  | '"' => ['\\', '"']
  | '\\' => ['\\', '\\']
  | '\x08' => ['\\', 'b']
  | '\x0C' => ['\\', 'f']
  | '\n' => ['\\', 'n']
  | '\r' => ['\\', 'r']
  | '\t' => ['\\', 't']
  | c => if c.toNat < 0x20 then ['\\', 'u', '0', '0'] ++ twoHexDigits c.toNat else [c]

/-- A text between quotes. -/
def quote (text : String) : List Char :=
  '"' :: text.toList.flatMap escape ++ ['"']

/-- The end of a line and the indentation of the next one. -/
def newline (depth : Nat) : List Char :=
  '\n' :: List.replicate depth '\t'

mutual

/-- The text of a value whose first line is indented by `depth` tabs. -/
def write (depth : Nat) : Json → List Char
  | .string text => quote text
  | .number n => Nat.toDigits 10 n
  | .array [] => ['[', ']']
  | .array (item :: items) =>
    '[' :: newline (depth + 1) ++ write (depth + 1) item ++ writeItems (depth + 1) items ++
      newline depth ++ [']']
  | .object [] => ['\x7b', '\x7d']
  | .object ((key, value) :: fields) =>
    '\x7b' :: newline (depth + 1) ++ quote key ++ [':', ' '] ++ write (depth + 1) value ++
      writeFields (depth + 1) fields ++ newline depth ++ ['\x7d']

/-- The text of the items of an array after the first. -/
def writeItems (depth : Nat) : List Json → List Char
  | [] => []
  | item :: items => ',' :: newline depth ++ write depth item ++ writeItems depth items

/-- The text of the fields of an object after the first. -/
def writeFields (depth : Nat) : List (String × Json) → List Char
  | [] => []
  | (key, value) :: fields =>
    ',' :: newline depth ++ quote key ++ [':', ' '] ++ write depth value ++
      writeFields depth fields

end

/-- The text of a document, without a line feed at its end. -/
def text (document : Json) : String :=
  String.ofList (document.write 0)

end Json

end UvaAnalysis
