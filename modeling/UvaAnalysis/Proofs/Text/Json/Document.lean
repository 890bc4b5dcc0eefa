import Mathlib.Data.List.Basic
import UvaAnalysis.Proofs.Text.Json.Grammar
import UvaAnalysis.Text.Json

/-!
# What is written is JSON

The text of a document is a JSON text with the value of the document (`spells_write`): every
character of a string can be read back from how it is escaped, numbers are written without leading
zeros, and the lines of an array or object are its items or members, with blanks around them.

A document that is not a number ends where its text ends, so documents can be written one after the
other with nothing between them (`stream_write`).
-/

namespace UvaAnalysis.Json

/-- Induction on documents: a list has something when its items have, an object when its fields
have. -/
@[elab_as_elim, induction_eliminator]
theorem induction {motive : Json → Prop} (string : ∀ text, motive (.string text))
    (number : ∀ n, motive (.number n))
    (array : ∀ items, (∀ item ∈ items, motive item) → motive (.array items))
    (object : ∀ fields, (∀ field ∈ fields, motive field.2) → motive (.object fields)) :
    ∀ document, motive document
  | .string text => string text
  | .number n => number n
  | .array items => array items fun item _ => induction string number array object item
  | .object fields => object fields fun field _ => induction string number array object field.2
termination_by document => sizeOf document
decreasing_by
  · have hlt := List.sizeOf_lt_of_mem ‹item ∈ items›
    simp only [Json.array.sizeOf_spec]
    omega
  · have hlt := List.sizeOf_lt_of_mem ‹field ∈ fields›
    obtain ⟨key, value⟩ := field
    simp only [Json.object.sizeOf_spec, Prod.mk.sizeOf_spec] at hlt ⊢
    omega

mutual

/-- The value of a document. -/
def toValue : Json → Value
  | .string text => .string text
  | .number n => .number n
  | .array items => .array (toValues items)
  | .object fields => .object (toMembers fields)

/-- The values of the items of an array. -/
def toValues : List Json → List Value
  | [] => []
  | item :: items => toValue item :: toValues items

/-- The members of an object. -/
def toMembers : List (String × Json) → List (String × Value)
  | [] => []
  | (key, value) :: fields => (key, toValue value) :: toMembers fields

end

/-- The value of an array has the values of its items. -/
lemma toValue_array (items : List Json) : toValue (.array items) = .array (items.map toValue) := by
  have h : toValues items = items.map toValue := by
    induction items with
    | nil => rfl
    | cons item items ih => rw [toValues, ih, List.map_cons]
  rw [toValue, h]

/-- The value of an object has the values of its fields. -/
lemma toValue_object (fields : List (String × Json)) :
    toValue (.object fields) = .object (fields.map fun field => (field.1, toValue field.2)) := by
  have h : toMembers fields = fields.map fun field => (field.1, toValue field.2) := by
    induction fields with
    | nil => rfl
    | cons field fields ih => rw [toMembers, ih, List.map_cons]
  rw [toValue, h]

/-! ### Strings -/

/-- The number of a control can be read from the digits that are written for it. -/
lemma unit?_twoHexDigits : ∀ n < 0x20,
    unit? '0' '0' (Nat.digitChar (n / 16)) (Nat.digitChar (n % 16)) = some n := by
  decide

/-- An escaped character stands for the character. -/
lemma character_escape (c : Char) : Character (escape c) c := by
  unfold escape
  split
  · exact .shorthand rfl
  · exact .shorthand rfl
  · exact .shorthand rfl
  · exact .shorthand rfl
  · exact .shorthand rfl
  · exact .shorthand rfl
  · exact .shorthand rfl
  · rename_i hquote hbackslash _ _ _ _ _
    split
    · rename_i hcontrol
      have hunit := Character.unit (unit?_twoHexDigits c.toNat hcontrol)
        (fun h => by unfold IsHigh at h; omega) (fun h => by unfold IsLow at h; omega)
      rw [Char.ofNat_toNat] at hunit
      exact hunit
    · exact .plain hquote hbackslash (by omega)

/-- A quoted text is a string. -/
lemma quoted_quote (text : String) : Quoted (quote text) text := by
  have h (characters : List Char) : Characters (characters.flatMap escape) characters := by
    induction characters with
    | nil => exact .nil
    | cons c characters ih => exact .cons (character_escape c) ih
  exact ⟨_, rfl, h text.toList⟩

/-! ### Numbers -/

/-- The digits of a number begin with zero only if the number is zero. -/
lemma eq_zero_of_head?_toDigits {n : ℕ} (h : (Nat.toDigits 10 n).head? = some '0') : n = 0 := by
  induction n using Nat.strong_induction_on with
  | _ n ih =>
    by_cases hn : n < 10
    · rw [Nat.toDigits_of_lt_base hn] at h
      exact Nat.digitChar_eq_zero.mp (Option.some.inj h)
    · have hten : 10 ≤ n := Nat.not_lt.mp hn
      rw [Nat.toDigits_of_base_le (by decide) hten,
        List.head?_append_of_ne_nil _ Nat.toDigits_ne_nil] at h
      have hzero := ih (n / 10) (by omega) h
      omega

/-- The digits of a number are a whole number. -/
lemma isWhole_toDigits (n : ℕ) : IsWhole (Nat.toDigits 10 n) := by
  refine ⟨⟨Nat.toDigits_ne_nil, fun d hd => Nat.isDigit_of_mem_toDigits (by decide) (by decide) hd⟩,
    fun h => ?_⟩
  rw [eq_zero_of_head?_toDigits h]
  rfl

/-- The digits of a number spell it. -/
lemma digitsValue_toDigits (n : ℕ) : digitsValue (Nat.toDigits 10 n) = n :=
  Nat.ofDigitChars_ten_toDigits

/-- The digits of a number spell it as a JSON text. -/
lemma spells_toDigits (n : ℕ) : Spells (Nat.toDigits 10 n) (.number n) := by
  have h := Unsigned.mk (isWhole_toDigits n) Fraction.none Exponent.none
  have hvalue : decimal (Nat.toDigits 10 n) [] 0 = n := by
    simp [decimal, digitsValue_toDigits]
  rw [List.append_nil, List.append_nil, hvalue] at h
  exact .number (.unsigned h)

/-! ### Arrays and objects -/

/-- Nothing is blank. -/
lemma blank_nil : Blank [] :=
  fun _ hc => absurd hc List.not_mem_nil

/-- A line feed and tabs are blank. -/
lemma blank_newline (depth : ℕ) : Blank (newline depth) := by
  intro c hc
  rcases List.mem_cons.mp hc with rfl | hc
  · decide
  · rw [List.eq_of_mem_replicate hc]
    decide

/-- Items on lines of their own are listed. -/
lemma listed_lines {α β : Type} {Item : List Char → α → Prop} {spell : β → List Char}
    {value : β → α} (depth outer : ℕ) (first : β) (others : List β)
    (h : ∀ b ∈ first :: others, Item (spell b) (value b)) :
    Listed Item
      (newline depth ++ (spell first ++
        (others.flatMap (fun b => ',' :: (newline depth ++ spell b)) ++ newline outer)))
      ((first :: others).map value) := by
  -- The comma stands at the end of the line before, so no blanks come between it and that item.
  induction others generalizing first with
  | nil =>
    exact .singleton (blank_newline depth) (h first List.mem_cons_self) (blank_newline outer)
  | cons second others ih =>
    have hothers := ih second fun b hb => h b (List.mem_cons_of_mem _ hb)
    have hlisted := Listed.cons (blank_newline depth) (h first List.mem_cons_self) blank_nil hothers
    rw [List.flatMap_cons]
    simpa only [List.map_cons, List.append_assoc, List.cons_append, List.nil_append] using hlisted

/-- What is written of a field. -/
def writeField (depth : ℕ) (field : String × Json) : List Char :=
  quote field.1 ++ (':' :: ([' '] ++ write depth field.2))

/-- A field is written as a member. -/
lemma member_writeField {depth : ℕ} {field : String × Json}
    (h : Spells (write depth field.2) (toValue field.2)) :
    Member Spells (writeField depth field) (field.1, toValue field.2) := by
  have hblank : Blank [' '] := by
    intro c hc
    rw [List.mem_singleton.mp hc]
    decide
  exact (Member.mk (quoted_quote field.1) blank_nil hblank h :)

/-- Items after the first are written with a comma and a line feed before each. -/
lemma writeItems_eq_flatMap (depth : ℕ) (items : List Json) :
    writeItems depth items =
      items.flatMap fun item => ',' :: (newline depth ++ write depth item) := by
  induction items with
  | nil => rfl
  | cons item items ih => rw [writeItems, ih, List.flatMap_cons, List.cons_append]

/-- Fields after the first are written with a comma and a line feed before each. -/
lemma writeFields_eq_flatMap (depth : ℕ) (fields : List (String × Json)) :
    writeFields depth fields =
      fields.flatMap fun field => ',' :: (newline depth ++ writeField depth field) := by
  induction fields with
  | nil => rfl
  | cons field fields ih =>
    obtain ⟨key, value⟩ := field
    rw [writeFields, ih, List.flatMap_cons, writeField]
    simp only [List.append_assoc, List.cons_append, List.nil_append]

/-- What is written of a document is a JSON text with the value of the document. -/
theorem spells_write (document : Json) (depth : ℕ) :
    Spells (document.write depth) document.toValue := by
  induction document generalizing depth with
  | string text => exact .string (quoted_quote text)
  | number n => exact spells_toDigits n
  | array items ih =>
    rw [toValue_array]
    cases items with
    | nil => exact .array (.nil blank_nil)
    | cons item items =>
      have hlisted := listed_lines (depth + 1) depth item items fun item h => ih item h (depth + 1)
      rw [write, writeItems_eq_flatMap]
      simpa only [List.append_assoc, List.cons_append] using Spells.array hlisted
  | object fields ih =>
    rw [toValue_object]
    cases fields with
    | nil => exact .object (.nil blank_nil)
    | cons field fields =>
      have hlisted := listed_lines (depth + 1) depth field fields fun field h =>
        member_writeField (ih field h (depth + 1))
      rw [write, writeFields_eq_flatMap]
      simpa only [List.append_assoc, List.cons_append, writeField, List.nil_append] using
        Spells.object hlisted

/-! ### Documents -/

/-- Documents that are not numbers can be written one after the other. -/
theorem stream_write {documents : List Json}
    (h : ∀ document ∈ documents, document.toValue.isNumber = false) :
    Stream (documents.flatMap (write 0)) (documents.map toValue) := by
  induction documents with
  | nil => exact .nil blank_nil
  | cons document documents ih =>
    have hnumber : document.toValue.isNumber = true →
        EndsNumber (documents.flatMap (write 0)) := by
      intro hvalue
      exact Bool.noConfusion (hvalue.symm.trans (h document List.mem_cons_self))
    have hothers := ih fun document hmem => h document (List.mem_cons_of_mem _ hmem)
    exact (Stream.cons blank_nil (spells_write document 0) hnumber hothers :)

end UvaAnalysis.Json
