/-!
# UTF-8

The encoding of characters as bytes, and the decoding of bytes that need not be well formed.

The decoder reads one byte at a time.  Its state is what an unfinished sequence still owes: how
many continuation bytes, and between which bounds the next one has to lie.  The bounds are narrower
than `0x80` to `0xBF` after the four lead bytes that would otherwise admit an overlong form, a
surrogate or a number beyond `0x10FFFF`.  A sequence that breaks off is one malformed stretch, from
its lead byte to the last byte that could still have belonged to it, and the byte that breaks it
off starts afresh.
-/

namespace UvaAnalysis.Utf8

/-- A sequence under way: the bits read so far, the number of continuation bytes still owed, and
the least and greatest value the next of them may have. -/
structure Pending where
  value : Nat
  owed : Nat
  low : Nat
  high : Nat
  deriving DecidableEq, Repr

/-- What a byte is that stands where a character may begin. -/
inductive Lead where
  /-- A character of its own. -/
  | char (c : Char)
  /-- The first byte of a longer sequence. -/
  | opens (sequence : Pending)
  /-- No character begins with this byte. -/
  | malformed
  deriving DecidableEq, Repr

/-- Classify a byte that stands where a character may begin. -/
def Lead.ofByte (byte : UInt8) : Lead :=
  let n := byte.toNat
  if n < 0x80 then .char (Char.ofNat n)
  else if n < 0xC2 then .malformed
  else if n < 0xE0 then .opens ⟨n - 0xC0, 1, 0x80, 0xBF⟩
  else if n < 0xF0 then
    .opens ⟨n - 0xE0, 2, if n = 0xE0 then 0xA0 else 0x80, if n = 0xED then 0x9F else 0xBF⟩
  else if n < 0xF5 then
    .opens ⟨n - 0xF0, 3, if n = 0xF0 then 0x90 else 0x80, if n = 0xF4 then 0x8F else 0xBF⟩
  else .malformed

/-- A piece of decoded text: a character, or `none` for a malformed stretch. -/
abbrev Decoded := Option Char

/-- Read a byte where a character may begin: what it completes, and what is then under way. -/
def start (byte : UInt8) : List Decoded × Option Pending :=
  match Lead.ofByte byte with
  | .char c => ([some c], none)
  | .opens sequence => ([], some sequence)
  | .malformed => ([none], none)

/-- Read a byte in any state: what it completes, and what is then under way. -/
def step : Option Pending → UInt8 → List Decoded × Option Pending
  | none, byte => start byte
  | some p, byte =>
    let n := byte.toNat
    if p.low ≤ n ∧ n ≤ p.high then
      let value := p.value * 64 + (n - 0x80)
      if p.owed ≤ 1 then ([some (Char.ofNat value)], none)
      else ([], some ⟨value, p.owed - 1, 0x80, 0xBF⟩)
    else
      let (completed, pending) := start byte
      (none :: completed, pending)

/-- Decode bytes from a given state; a sequence under way at the end is malformed. -/
def decodeFrom : Option Pending → List UInt8 → List Decoded
  | none, [] => []
  | some _, [] => [none]
  | state, byte :: bytes =>
    let (completed, next) := step state byte
    completed ++ decodeFrom next bytes

/-- Decode bytes, marking each malformed stretch by `none`. -/
def decode (bytes : List UInt8) : List Decoded :=
  decodeFrom none bytes

/-- The character that stands for a malformed stretch. -/
def replacement : Char := '\uFFFD'

/-- The characters of the text, with the replacement character for each malformed stretch. -/
def lossyChars (bytes : List UInt8) : List Char :=
  (decode bytes).map (·.getD replacement)

/-- The text, with the replacement character for each malformed stretch. -/
def lossy (bytes : List UInt8) : String :=
  String.ofList (lossyChars bytes)

/-- Bytes without a malformed stretch. -/
def isWellFormed (bytes : List UInt8) : Bool :=
  (decode bytes).all Option.isSome

/-- The text that well-formed bytes spell. -/
def text? (bytes : List UInt8) : Option String :=
  if isWellFormed bytes then some (lossy bytes) else none

/-- The bytes that spell a text. -/
def encode (text : String) : List UInt8 :=
  text.toList.flatMap String.utf8EncodeChar

/-- A byte that continues a sequence and begins no character. -/
def isContinuation (byte : UInt8) : Bool :=
  byte &&& 0xC0 == 0x80

/-- The empty text takes no bytes. -/
@[simp] theorem encode_empty : encode "" = [] := rfl

/-- An ASCII byte is a character of its own wherever a character may begin. -/
theorem start_ascii {byte : UInt8} (h : byte.toNat < 0x80) :
    start byte = ([some (Char.ofNat byte.toNat)], none) := by
  simp [start, Lead.ofByte, h]

end UvaAnalysis.Utf8
