import Mathlib.Algebra.Field.Rat

/-!
# The grammar of JSON

Which texts are JSON texts, and the value of each: `Spells text value`.  This is all of standard
JSON, not only the part of it that reports are written in.  Blanks may stand around every value,
comma and colon; a number may have a fraction and an exponent; and a string may have any of its
characters escaped, those beyond sixteen bits as a pair of surrogates.  A surrogate that is not one
of a pair is no character, and a string with one has no value.

A stream is JSON texts one after the other (`Stream`).  Nothing has to stand between them, except
that a number at the end of a text is as long as it can be.
-/

namespace UvaAnalysis.Json

/-- The values of JSON texts.  Numbers are exact, and an object has its members in the order of the
text. -/
inductive Value where
  | null
  | boolean (b : Bool)
  | number (q : ℚ)
  | string (text : String)
  | array (items : List Value)
  | object (members : List (String × Value))

/-- A number, whose text does not show by itself where it ends. -/
def Value.isNumber : Value → Bool
  | .number _ => true
  | _ => false

/-! ### Blanks and lists -/

/-- A character without meaning around values, commas and colons. -/
def isBlank (c : Char) : Bool :=
  c = ' ' || c = '\t' || c = '\n' || c = '\r'

/-- Blanks, or nothing. -/
def Blank (text : List Char) : Prop :=
  ∀ c ∈ text, isBlank c = true

/-- Items with blanks around them and a comma between each and the next.  Which texts are items, and
what they stand for, says `Item`. -/
inductive Listed {α : Type} (Item : List Char → α → Prop) : List Char → List α → Prop where
  | nil {blank : List Char} (h : Blank blank) : Listed Item blank []
  | singleton {before text after : List Char} {a : α} (hbefore : Blank before) (h : Item text a)
      (hafter : Blank after) : Listed Item (before ++ (text ++ after)) [a]
  | cons {before text after rest : List Char} {a b : α} {others : List α} (hbefore : Blank before)
      (h : Item text a) (hafter : Blank after) (hrest : Listed Item rest (b :: others)) :
      Listed Item (before ++ (text ++ (after ++ ',' :: rest))) (a :: b :: others)

/-! ### Strings -/

/-- What a backslash and a letter stand for. -/
def shorthand? (letter : Char) : Option Char :=
  match letter with
  | '"' => some '"'
  | '\\' => some '\\'
  | '/' => some '/'
  | 'b' => some '\x08'
  | 'f' => some '\x0C'
  | 'n' => some '\n'
  | 'r' => some '\r'
  | 't' => some '\t'
  | _ => none

/-- The value of a hexadecimal digit in either case. -/
def hexDigit? (c : Char) : Option ℕ :=
  if '0' ≤ c ∧ c ≤ '9' then some (c.toNat - '0'.toNat)
  else if 'a' ≤ c ∧ c ≤ 'f' then some (c.toNat - 'a'.toNat + 10)
  else if 'A' ≤ c ∧ c ≤ 'F' then some (c.toNat - 'A'.toNat + 10)
  else none

/-- The number that four hexadecimal digits spell. -/
def unit? (a b c d : Char) : Option ℕ := do
  let a ← hexDigit? a
  let b ← hexDigit? b
  let c ← hexDigit? c
  let d ← hexDigit? d
  return ((a * 16 + b) * 16 + c) * 16 + d

/-- The first of a pair of surrogates. -/
def IsHigh (n : ℕ) : Prop := 0xD800 ≤ n ∧ n < 0xDC00

/-- The second of a pair of surrogates. -/
def IsLow (n : ℕ) : Prop := 0xDC00 ≤ n ∧ n < 0xE000

instance (n : ℕ) : Decidable (IsHigh n) := inferInstanceAs (Decidable (_ ∧ _))

instance (n : ℕ) : Decidable (IsLow n) := inferInstanceAs (Decidable (_ ∧ _))

/-- The character of a pair of surrogates. -/
def pairChar (high low : ℕ) : Char :=
  Char.ofNat (0x10000 + (high - 0xD800) * 0x400 + (low - 0xDC00))

/-- One character of a string, as it may be written. -/
inductive Character : List Char → Char → Prop where
  | plain {c : Char} (hquote : c ≠ '"') (hbackslash : c ≠ '\\') (hcontrol : 0x20 ≤ c.toNat) :
      Character [c] c
  | shorthand {letter c : Char} (h : shorthand? letter = some c) : Character ['\\', letter] c
  | unit {a b c d : Char} {n : ℕ} (h : unit? a b c d = some n) (hhigh : ¬ IsHigh n)
      (hlow : ¬ IsLow n) : Character ['\\', 'u', a, b, c, d] (Char.ofNat n)
  | pair {a b c d a' b' c' d' : Char} {high low : ℕ} (hunit : unit? a b c d = some high)
      (hhigh : IsHigh high) (hunit' : unit? a' b' c' d' = some low) (hlow : IsLow low) :
      Character ['\\', 'u', a, b, c, d, '\\', 'u', a', b', c', d'] (pairChar high low)

/-- The inside of a string. -/
inductive Characters : List Char → List Char → Prop where
  | nil : Characters [] []
  | cons {spelling body text : List Char} {c : Char} (h : Character spelling c)
      (rest : Characters body text) : Characters (spelling ++ body) (c :: text)

/-- A string between its quotes. -/
def Quoted (text : List Char) (s : String) : Prop :=
  ∃ body, text = '"' :: (body ++ ['"']) ∧ Characters body s.toList

/-! ### Numbers -/

/-- Digits, at least one. -/
def IsDigits (digits : List Char) : Prop :=
  digits ≠ [] ∧ ∀ d ∈ digits, d.isDigit = true

/-- The digits of a whole number: the first is zero only if it is the only one. -/
def IsWhole (digits : List Char) : Prop :=
  IsDigits digits ∧ (digits.head? = some '0' → digits = ['0'])

instance (digits : List Char) : Decidable (IsDigits digits) := inferInstanceAs (Decidable (_ ∧ _))

instance (digits : List Char) : Decidable (IsWhole digits) := inferInstanceAs (Decidable (_ ∧ _))

/-- The number that decimal digits spell. -/
def digitsValue (digits : List Char) : ℕ :=
  Nat.ofDigitChars 10 digits 0

/-- The digits after the point, if there are any. -/
inductive Fraction : List Char → List Char → Prop where
  | none : Fraction [] []
  | point {digits : List Char} (h : IsDigits digits) : Fraction ('.' :: digits) digits

/-- Digits with a sign before them, or none. -/
inductive Signed : List Char → ℤ → Prop where
  | unsigned {digits : List Char} (h : IsDigits digits) : Signed digits (digitsValue digits)
  | plus {digits : List Char} (h : IsDigits digits) : Signed ('+' :: digits) (digitsValue digits)
  | minus {digits : List Char} (h : IsDigits digits) :
      Signed ('-' :: digits) (-(digitsValue digits : ℤ))

/-- The power of ten, if there is one. -/
inductive Exponent : List Char → ℤ → Prop where
  | none : Exponent [] 0
  | power {e : Char} {text : List Char} {n : ℤ} (he : e = 'e' ∨ e = 'E') (h : Signed text n) :
      Exponent (e :: text) n

/-- The number with these digits before and after the point, and this exponent. -/
def decimal (whole fraction : List Char) (exponent : ℤ) : ℚ :=
  digitsValue (whole ++ fraction) * 10 ^ (exponent - fraction.length)

/-- A number without a sign. -/
inductive Unsigned : List Char → ℚ → Prop where
  | mk {whole point fraction power : List Char} {exponent : ℤ} (hwhole : IsWhole whole)
      (hfraction : Fraction point fraction) (hexponent : Exponent power exponent) :
      Unsigned (whole ++ (point ++ power)) (decimal whole fraction exponent)

/-- A number. -/
inductive Number : List Char → ℚ → Prop where
  | unsigned {text : List Char} {q : ℚ} (h : Unsigned text q) : Number text q
  | minus {text : List Char} {q : ℚ} (h : Unsigned text q) : Number ('-' :: text) (-q)

/-- A character that a number may have. -/
def isNumberChar (c : Char) : Bool :=
  c.isDigit || c = '-' || c = '+' || c = '.' || c = 'e' || c = 'E'

/-- No character that a number may have comes next. -/
def EndsNumber (rest : List Char) : Prop :=
  ∀ c ∈ rest.head?, isNumberChar c = false

/-! ### Values -/

/-- A member of an object: its key, a colon and its value, which is spelled as `Item` says. -/
inductive Member (Item : List Char → Value → Prop) : List Char → String × Value → Prop where
  | mk {name before after text : List Char} {key : String} {value : Value}
      (hname : Quoted name key) (hbefore : Blank before) (hafter : Blank after)
      (h : Item text value) :
      Member Item (name ++ (before ++ ':' :: (after ++ text))) (key, value)

/-- The text is a JSON text, without blanks around it, and this is its value. -/
inductive Spells : List Char → Value → Prop where
  | null : Spells ['n', 'u', 'l', 'l'] .null
  | true : Spells ['t', 'r', 'u', 'e'] (.boolean true)
  | false : Spells ['f', 'a', 'l', 's', 'e'] (.boolean false)
  | number {text : List Char} {q : ℚ} (h : Number text q) : Spells text (.number q)
  | string {text : List Char} {s : String} (h : Quoted text s) : Spells text (.string s)
  | array {body : List Char} {items : List Value} (h : Listed Spells body items) :
      Spells ('[' :: (body ++ [']'])) (.array items)
  | object {body : List Char} {members : List (String × Value)}
      (h : Listed (Member Spells) body members) :
      Spells ('\x7b' :: (body ++ ['\x7d'])) (.object members)

/-- JSON texts one after the other, with blanks around them or without. -/
inductive Stream : List Char → List Value → Prop where
  | nil {blank : List Char} (h : Blank blank) : Stream blank []
  | cons {before text rest : List Char} {value : Value} {values : List Value}
      (hbefore : Blank before) (h : Spells text value)
      (hnumber : value.isNumber = true → EndsNumber rest) (hrest : Stream rest values) :
      Stream (before ++ (text ++ rest)) (value :: values)

end UvaAnalysis.Json
