import UvaAnalysis.Text.Cut

/-!
# Lines

A stream of bytes is read line by line.  A line ends at a line feed, and one carriage return right
before that line feed belongs to the end of the line.  What follows the last line feed is a line of
its own unless it is empty, and it keeps a carriage return at its end.
-/

namespace UvaAnalysis.Text

/-- The byte that ends a line. -/
def lineFeed : UInt8 := 0x0A

/-- The byte that may stand before it. -/
def carriageReturn : UInt8 := 0x0D

/-- A line without one carriage return at its end. -/
def dropReturn (line : List UInt8) : List UInt8 :=
  if line.getLast? = some carriageReturn then line.dropLast else line

/-- The lines among stretches cut at line feeds, the last of which no line feed ends. -/
def linesOfStretches : List (List UInt8) → List (List UInt8)
  | [] => []
  | [last] => if last = [] then [] else [last]
  | line :: others => dropReturn line :: linesOfStretches others

/-- The lines of a stream. -/
def lines (bytes : List UInt8) : List (List UInt8) :=
  linesOfStretches (cut lineFeed bytes)

/-- What stands before the first line feed is the first line. -/
theorem lines_append_lineFeed {line : List UInt8} (h : lineFeed ∉ line) (bytes : List UInt8) :
    lines (line ++ lineFeed :: bytes) = dropReturn line :: lines bytes := by
  obtain ⟨s, others, hcut⟩ : ∃ s others, cut lineFeed bytes = s :: others :=
    List.exists_cons_of_ne_nil (cut_ne_nil bytes)
  rw [lines, lines, cut_append_separator h, hcut, linesOfStretches]
  simp

end UvaAnalysis.Text
