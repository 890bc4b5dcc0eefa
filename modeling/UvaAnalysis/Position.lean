import UvaAnalysis.Text.Utf8

/-!
# Positions in a source

A position counts three things about the bytes before it: the lines begun, the characters begun in
the current line, and the bytes.  Lines and columns start at one and offsets at zero.  A byte that
continues a UTF-8 sequence begins no character, so a column counts characters wherever the bytes
are well formed, and it is defined for all other bytes too.
-/

namespace UvaAnalysis

/-- A point in a source: line and column from one, byte offset from zero. -/
structure Position where
  line : Nat
  column : Nat
  offset : Nat
  deriving DecidableEq, Repr

namespace Position

/-- The position of the first byte. -/
def start : Position := ⟨1, 1, 0⟩

instance : Inhabited Position := ⟨start⟩

/-- The position after one more byte. -/
def advance (p : Position) (byte : UInt8) : Position :=
  if byte = 0x0A then ⟨p.line + 1, 1, p.offset + 1⟩
  else if Utf8.isContinuation byte then ⟨p.line, p.column, p.offset + 1⟩
  else ⟨p.line, p.column + 1, p.offset + 1⟩

/-- The position after some more bytes. -/
def advanceBy (p : Position) (bytes : List UInt8) : Position :=
  bytes.foldl advance p

/-- Positions are ordered by line, then column, then offset. -/
instance : Ord Position where
  compare p q :=
    (compare p.line q.line).then ((compare p.column q.column).then (compare p.offset q.offset))

/-- Positions in ascending order; equal ones keep the order they came in. -/
def sort (positions : List Position) : List Position :=
  positions.mergeSort fun p q => (compare p q).isLE

/-- A position as messages show it. -/
def text (p : Position) : String :=
  toString p.line ++ ":" ++ toString p.column

/-- The offset counts every byte, line feeds included. -/
@[simp] theorem advance_offset (p : Position) (byte : UInt8) :
    (p.advance byte).offset = p.offset + 1 := by
  unfold advance
  split
  · rfl
  · split <;> rfl

/-- Bytes are passed over from the first to the last. -/
@[simp] theorem advanceBy_cons (p : Position) (byte : UInt8) (bytes : List UInt8) :
    p.advanceBy (byte :: bytes) = (p.advance byte).advanceBy bytes := rfl

/-- The offset counts bytes. -/
theorem advanceBy_offset (p : Position) (bytes : List UInt8) :
    (p.advanceBy bytes).offset = p.offset + bytes.length := by
  induction bytes generalizing p with
  | nil => rfl
  | cons byte bytes ih =>
    rw [advanceBy_cons, ih, advance_offset, List.length_cons]
    omega

end Position

end UvaAnalysis
