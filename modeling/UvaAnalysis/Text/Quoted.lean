import UvaAnalysis.Text.Visible

/-!
# Characters quoted in messages

A message names a character between single quotes.  The quote itself, the backslash and the four
controls that have a letter of their own are written with a backslash; a character without a
visible form of its own is written by its number, as in `\u{300}`; every other character stands for
itself.
-/

namespace UvaAnalysis.Text

/-- The number of a character in lower-case hexadecimal digits, without leading zeros. -/
def hexDigits (c : Char) : String :=
  String.ofList (Nat.toDigits 16 c.toNat)

/-- A character as a message writes it, without the quotes around it. -/
def escaped (c : Char) : String :=
  match c with
  | '\x00' => "\\0"
  | '\t' => "\\t"
  | '\r' => "\\r"
  | '\n' => "\\n"
  | '\\' => "\\\\"
  | '\'' => "\\'"
  | c => if isVisible c then c.toString else "\\u\x7b" ++ hexDigits c ++ "\x7d"

/-- A character as a message names it. -/
def quoted (c : Char) : String :=
  "'" ++ escaped c ++ "'"

end UvaAnalysis.Text
