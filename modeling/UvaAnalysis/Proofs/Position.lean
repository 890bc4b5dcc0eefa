import Mathlib.Data.List.Induction
import UvaAnalysis.Position

/-!
# Positions without going through the source

A position is reached byte by byte, and here it is told from the bytes before it as a whole:
`Position.after` counts line feeds for the line, the characters begun since the last line feed for
the column, and bytes for the offset (`start_advanceBy`).
-/

namespace UvaAnalysis.Position

/-- The bytes of the line that is unfinished after some bytes, the last one first. -/
def unfinishedLine (before : List UInt8) : List UInt8 :=
  before.reverse.takeWhile (· ≠ 0x0A)

/-- The position after some bytes of a source. -/
def after (before : List UInt8) : Position where
  line := 1 + before.count 0x0A
  column := 1 + (unfinishedLine before).countP fun byte => !Utf8.isContinuation byte
  offset := before.length

/-- The offset after some bytes is their number. -/
@[simp] lemma after_offset (before : List UInt8) : (after before).offset = before.length := rfl

/-- One more byte moves the position on. -/
lemma after_append_singleton (before : List UInt8) (byte : UInt8) :
    after (before ++ [byte]) = (after before).advance byte := by
  unfold advance after unfinishedLine
  rw [List.reverse_append, List.reverse_singleton, List.singleton_append, List.takeWhile_cons]
  by_cases hfeed : byte = 0x0A
  · subst hfeed
    simp [List.count_append]
    omega
  · cases hcontinuation : Utf8.isContinuation byte <;>
      simp [hfeed, hcontinuation, List.count_append]
    omega

/-- Going through the bytes of a source leads to the position that they tell as a whole. -/
theorem start_advanceBy (before : List UInt8) : start.advanceBy before = after before := by
  induction before using List.reverseRecOn with
  | nil => rfl
  | append_singleton before byte ih =>
    rw [after_append_singleton, ← ih, advanceBy, advanceBy, List.foldl_append]
    rfl

/-- Going through some bytes and then through others. -/
lemma advanceBy_append (p : Position) (bytes others : List UInt8) :
    p.advanceBy (bytes ++ others) = (p.advanceBy bytes).advanceBy others := by
  rw [advanceBy, advanceBy, advanceBy, List.foldl_append]

/-- Going on from a position told as a whole. -/
lemma after_advanceBy (before bytes : List UInt8) :
    (after before).advanceBy bytes = after (before ++ bytes) := by
  rw [← start_advanceBy, ← start_advanceBy, advanceBy_append]

end UvaAnalysis.Position
