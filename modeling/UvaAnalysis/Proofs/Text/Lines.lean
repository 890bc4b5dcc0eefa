import UvaAnalysis.Proofs.Text.Encoding
import UvaAnalysis.Text.Lines

/-!
# Texts on lines

Texts are written one to a line.  A line ends with a line feed, alone or after a carriage return,
each line as it likes, and at the end of the stream a line that is not empty needs no end at all.
Whatever the ends are, the texts come back as the lines of the stream (`Text.Lined.lines_eq`), as
long as each of them fits on a line.
-/

namespace UvaAnalysis.Text

/-- A text that is a line of its own: it has no line feed, and no carriage return that would be
taken for a part of the end of the line. -/
structure FitsLine (text : String) : Prop where
  no_feed : '\n' ∉ text.toList
  no_return : text.toList.getLast? ≠ some '\r'

/-- What a line may end with. -/
inductive LineEnd where
  | feed
  | returnAndFeed
  deriving DecidableEq, Repr

/-- The bytes at the end of a line. -/
def LineEnd.bytes : LineEnd → List UInt8
  | .feed => [lineFeed]
  | .returnAndFeed => [carriageReturn, lineFeed]

/-- The bytes are these texts, one to a line. -/
inductive Lined : List String → List UInt8 → Prop where
  | nil : Lined [] []
  | line {texts : List String} {bytes : List UInt8} (text : String) (lineEnd : LineEnd)
      (h : Lined texts bytes) : Lined (text :: texts) (Utf8.encode text ++ lineEnd.bytes ++ bytes)
  /-- The last text, without an end of its line. -/
  | unended {text : String} (h : text ≠ "") : Lined [text] (Utf8.encode text)

section

variable {text : String} {texts : List String} {stream : List UInt8}

/-- A text that fits on a line is encoded without a line feed. -/
lemma FitsLine.lineFeed_notMem (h : FitsLine text) : lineFeed ∉ Utf8.encode text := by
  intro hmem
  exact h.no_feed ((Utf8.mem_encode_iff (by decide)).mp hmem)

/-- No part of a text that fits on a line is taken for the end of the line. -/
lemma FitsLine.dropReturn_encode (h : FitsLine text) :
    dropReturn (Utf8.encode text) = Utf8.encode text := by
  have hreturn : (Utf8.encode text).getLast? ≠ some carriageReturn := by
    intro hlast
    exact h.no_return (Utf8.getLast?_of_encode (by decide) hlast)
  rw [dropReturn, if_neg hreturn]

/-- A text that fits on a line is read back from it. -/
lemma lines_encode (h : FitsLine text) (bytes : List UInt8) :
    lines (Utf8.encode text ++ lineFeed :: bytes) = Utf8.encode text :: lines bytes := by
  rw [lines_append_lineFeed h.lineFeed_notMem, h.dropReturn_encode]

/-- A text that fits on a line is read back, whatever the line ends with. -/
lemma lines_encode_lineEnd (h : FitsLine text) (lineEnd : LineEnd) (bytes : List UInt8) :
    lines (Utf8.encode text ++ lineEnd.bytes ++ bytes) = Utf8.encode text :: lines bytes := by
  cases lineEnd with
  | feed =>
    rw [List.append_assoc]
    exact lines_encode h bytes
  | returnAndFeed =>
    have hfeed : lineFeed ∉ Utf8.encode text ++ [carriageReturn] :=
      List.not_mem_append h.lineFeed_notMem (by decide)
    have hbytes : Utf8.encode text ++ LineEnd.returnAndFeed.bytes ++ bytes =
        (Utf8.encode text ++ [carriageReturn]) ++ lineFeed :: bytes := by
      simp [LineEnd.bytes]
    rw [hbytes, lines_append_lineFeed hfeed, dropReturn, List.getLast?_concat, if_pos rfl,
      List.dropLast_concat]

/-- The bytes of a text that fits on a line are a line of their own, if there are any. -/
lemma lines_encode_unended (h : FitsLine text) (hne : text ≠ "") :
    lines (Utf8.encode text) = [Utf8.encode text] := by
  rw [lines, cut_of_notMem h.lineFeed_notMem, linesOfStretches, if_neg (Utf8.encode_ne_nil hne)]

/-- Texts that fit on lines are read back from them. -/
theorem Lined.lines_eq (h : Lined texts stream) (hfits : ∀ text ∈ texts, FitsLine text) :
    lines stream = texts.map Utf8.encode := by
  induction h with
  | nil => rfl
  | line text lineEnd _ ih =>
    obtain ⟨htext, htexts⟩ := List.forall_mem_cons.mp hfits
    rw [lines_encode_lineEnd htext, ih htexts, List.map_cons]
  | unended hne => exact lines_encode_unended (hfits _ (List.mem_singleton_self _)) hne

end

end UvaAnalysis.Text
