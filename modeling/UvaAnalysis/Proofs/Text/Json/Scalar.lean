import Mathlib.Data.List.Basic
import Mathlib.Data.List.TakeWhile
import UvaAnalysis.Proofs.Text.Json.Grammar

/-!
# Reading the strings and the numbers of JSON

Readers for a character of a string (`character`), a string (`quoted`) and a number (`numeral`).
Each gives what the grammar says and takes exactly that from the front of a text: see
`character_eq_some_iff`, `quoted_eq_some_iff` and `number?_eq_some_iff`.

A string is over at its quote.  A number has nothing that closes it, so `numeral` first cuts off all
the characters that a number may have, and these have to be one.
-/

namespace UvaAnalysis.Json

/-- A reader of what stands at the front of a text: its value, and the text that remains. -/
abbrev Scanner (α : Type) := List Char → Option (α × List Char)

/-! ### Runs of characters -/

section

variable {α : Type*} {p : α → Bool} {run rest : List α}

/-- A run that is not continued is what `takeWhile` takes. -/
lemma takeWhile_run (hrun : ∀ a ∈ run, p a = true) (hrest : ∀ a ∈ rest.head?, p a = false) :
    (run ++ rest).takeWhile p = run := by
  rw [List.takeWhile_append_of_pos hrun]
  cases rest with
  | nil => exact List.append_nil run
  | cons a rest =>
    rw [List.takeWhile_cons_of_neg (by simp [hrest a rfl]), List.append_nil]

/-- What remains after a run that is not continued. -/
lemma dropWhile_run (hrun : ∀ a ∈ run, p a = true) (hrest : ∀ a ∈ rest.head?, p a = false) :
    (run ++ rest).dropWhile p = rest := by
  rw [List.dropWhile_append_of_pos hrun]
  cases rest with
  | nil => rfl
  | cons a rest => rw [List.dropWhile_cons_of_neg (by simp [hrest a rfl])]

/-- What remains after a run does not continue it. -/
lemma head?_dropWhile_run (l : List α) : ∀ a ∈ (l.dropWhile p).head?, p a = false := by
  intro a ha
  have h := List.head?_dropWhile_not p l
  rw [Option.mem_def.mp ha] at h
  simpa using h

end

/-! ### Strings -/

/-- Four hexadecimal digits. -/
def unit : Scanner ℕ
  | a :: b :: c :: d :: rest => (unit? a b c d).map fun n => (n, rest)
  | _ => none

/-- What follows a backslash. -/
def escaped : Scanner Char
  | [] => none
  | letter :: rest =>
    if letter = 'u' then
      match unit rest with
      | none => none
      | some (n, rest) =>
        if IsHigh n then
          match rest with
          | '\\' :: 'u' :: rest =>
            match unit rest with
            | none => none
            | some (low, rest) => if IsLow low then some (pairChar n low, rest) else none
          | _ => none
        else if IsLow n then none
        else some (Char.ofNat n, rest)
    else (shorthand? letter).map fun c => (c, rest)

/-- A character of a string. -/
def character : Scanner Char
  | [] => none
  | c :: rest =>
    if c = '\\' then escaped rest
    else if c = '"' ∨ c.toNat < 0x20 then none
    else some (c, rest)

/-- The characters of a string and the quote after them, if there are less than `bound`. -/
def characters : ℕ → Scanner (List Char)
  | 0, _ => none
  | _ + 1, '"' :: rest => some ([], rest)
  | bound + 1, text =>
    match character text with
    | none => none
    | some (c, rest) => (characters bound rest).map fun (text, rest) => (c :: text, rest)

/-- A string. -/
def quoted : Scanner String
  | '"' :: rest =>
    (characters rest.length rest).map fun (text, rest) => (String.ofList text, rest)
  | _ => none

section

variable {text rest spelling body : List Char} {c : Char} {n : ℕ}

/-- Four hexadecimal digits are read as the grammar has them. -/
lemma unit_eq_some_iff :
    unit text = some (n, rest) ↔
      ∃ a b c d, unit? a b c d = some n ∧ text = a :: b :: c :: d :: rest := by
  constructor
  · intro h
    unfold unit at h
    split at h
    · rename_i a b c d rest'
      obtain ⟨m, hm, hpair⟩ := Option.map_eq_some_iff.mp h
      obtain ⟨rfl, rfl⟩ := Prod.mk.inj hpair
      exact ⟨a, b, c, d, hm, rfl⟩
    · cases h
  · rintro ⟨a, b, c, d, h, rfl⟩
    simp only [unit, h, Option.map_some]

/-- What follows a backslash is read as the grammar has it. -/
lemma exists_character_of_escaped (h : escaped text = some (c, rest)) :
    ∃ spelling, Character ('\\' :: spelling) c ∧ text = spelling ++ rest := by
  unfold escaped at h
  split at h
  · cases h
  rename_i letter text'
  split_ifs at h with hu
  · subst hu
    split at h
    · cases h
    rename_i n rest' hunit
    obtain ⟨x, y, z, w, hn, rfl⟩ := unit_eq_some_iff.mp hunit
    split_ifs at h with hhigh hlow
    · split at h
      · split at h
        · cases h
        rename_i low rest'' hunit'
        obtain ⟨x', y', z', w', hn', rfl⟩ := unit_eq_some_iff.mp hunit'
        split_ifs at h with hlow
        obtain ⟨rfl, rfl⟩ := Prod.mk.inj (Option.some.inj h)
        exact ⟨_, .pair hn hhigh hn' hlow, rfl⟩
      · cases h
    · obtain ⟨rfl, rfl⟩ := Prod.mk.inj (Option.some.inj h)
      exact ⟨_, .unit hn hhigh hlow, rfl⟩
  · obtain ⟨c', hc, hpair⟩ := Option.map_eq_some_iff.mp h
    obtain ⟨rfl, rfl⟩ := Prod.mk.inj hpair
    exact ⟨[letter], .shorthand hc, rfl⟩

/-- A character of a string is read as the grammar has it. -/
lemma character_eq_some_iff :
    character text = some (c, rest) ↔
      ∃ spelling, Character spelling c ∧ text = spelling ++ rest := by
  constructor
  · intro h
    unfold character at h
    split at h
    · cases h
    rename_i first rest'
    split_ifs at h with hbackslash hplain
    · subst hbackslash
      obtain ⟨spelling, hspelling, rfl⟩ := exists_character_of_escaped h
      exact ⟨_, hspelling, rfl⟩
    · obtain ⟨rfl, rfl⟩ := Prod.mk.inj (Option.some.inj h)
      obtain ⟨hquote, hcontrol⟩ := not_or.mp hplain
      exact ⟨[first], .plain hquote hbackslash (Nat.not_lt.mp hcontrol), rfl⟩
  · rintro ⟨spelling, hspelling, rfl⟩
    cases hspelling with
    | plain hquote hbackslash hcontrol =>
      simp only [List.singleton_append, character]
      rw [if_neg hbackslash, if_neg (not_or.mpr ⟨hquote, Nat.not_lt.mpr hcontrol⟩)]
    | @shorthand letter _ h =>
      have hu : letter ≠ 'u' := by
        rintro rfl
        exact Option.some_ne_none _ h.symm
      simp only [List.cons_append, List.nil_append, character, escaped, if_true, if_neg hu, h,
        Option.map_some]
    | unit h hhigh hlow =>
      simp only [List.cons_append, List.nil_append, character, escaped, if_true, Json.unit, h,
        Option.map_some, if_neg hhigh, if_neg hlow]
    | pair hunit hhigh hunit' hlow =>
      simp only [List.cons_append, List.nil_append, character, escaped, if_true, Json.unit, hunit,
        hunit', Option.map_some, if_pos hhigh, if_pos hlow]

/-- A character takes some of the text. -/
lemma Character.ne_nil (h : Character spelling c) : spelling ≠ [] := by
  cases h <;> exact List.cons_ne_nil _ _

/-- A character of a string does not begin with a quote. -/
lemma Character.head?_ne_quote (h : Character spelling c) : spelling.head? ≠ some '"' := by
  intro heq
  cases h with
  | plain hquote => exact hquote (Option.some.inj heq)
  | shorthand => exact absurd (Option.some.inj heq) (by decide)
  | unit => exact absurd (Option.some.inj heq) (by decide)
  | pair => exact absurd (Option.some.inj heq) (by decide)

/-- There is nothing of a character before a quote. -/
lemma characters_quote (bound : ℕ) (rest : List Char) :
    characters (bound + 1) ('"' :: rest) = some ([], rest) := rfl

/-- Before anything but a quote a character is read. -/
lemma characters_of_ne_quote (bound : ℕ) (h : text.head? ≠ some '"') :
    characters (bound + 1) text =
      match character text with
      | none => none
      | some (c, rest) => (characters bound rest).map fun (text, rest) => (c :: text, rest) := by
  conv_lhs => unfold characters
  split
  · cases ‹_ = _›
  · exact absurd rfl h
  · cases ‹_ = _›
    rfl

/-- Characters are read as the grammar has them. -/
lemma exists_characters_of_eq_some {bound : ℕ} {read : List Char}
    (h : characters bound text = some (read, rest)) :
    ∃ body, Characters body read ∧ text = body ++ '"' :: rest := by
  induction bound generalizing text read with
  | zero => cases h
  | succ bound ih =>
    by_cases hquote : text.head? = some '"'
    · obtain ⟨text, rfl⟩ := List.head?_eq_some_iff.mp hquote
      obtain ⟨rfl, rfl⟩ := Prod.mk.inj (Option.some.inj h)
      exact ⟨[], .nil, rfl⟩
    · rw [characters_of_ne_quote bound hquote] at h
      split at h
      · cases h
      rename_i c rest' hcharacter
      obtain ⟨⟨others, rest''⟩, hothers, hpair⟩ := Option.map_eq_some_iff.mp h
      obtain ⟨rfl, rfl⟩ := Prod.mk.inj hpair
      obtain ⟨spelling, hspelling, rfl⟩ := character_eq_some_iff.mp hcharacter
      obtain ⟨body, hbody, rfl⟩ := ih hothers
      exact ⟨spelling ++ body, .cons hspelling hbody, (List.append_assoc _ _ _).symm⟩

/-- Characters of the grammar are read, when there are less than the bound. -/
lemma characters_append {bound : ℕ} {read : List Char} (h : Characters body read)
    (hbound : body.length < bound) :
    characters bound (body ++ '"' :: rest) = some (read, rest) := by
  induction h generalizing bound with
  | nil =>
    obtain ⟨bound, rfl⟩ := Nat.exists_eq_succ_of_ne_zero (Nat.ne_of_gt hbound)
    exact characters_quote bound rest
  | @cons spelling body read c hspelling hbody ih =>
    obtain ⟨bound, rfl⟩ := Nat.exists_eq_succ_of_ne_zero (Nat.ne_of_gt (Nat.zero_lt_of_lt hbound))
    have hlength : 0 < spelling.length := List.length_pos_iff.mpr hspelling.ne_nil
    rw [List.length_append] at hbound
    have hquote : (spelling ++ body ++ '"' :: rest).head? ≠ some '"' := by
      rw [List.append_assoc, List.head?_append_of_ne_nil _ hspelling.ne_nil]
      exact hspelling.head?_ne_quote
    rw [characters_of_ne_quote bound hquote,
      character_eq_some_iff.mpr ⟨spelling, hspelling, List.append_assoc _ _ _⟩]
    have hothers : body.length < bound := by omega
    simp only [ih hothers, Option.map_some]

/-- A string is read as the grammar has it. -/
lemma quoted_eq_some_iff {s : String} :
    quoted text = some (s, rest) ↔ ∃ used, Quoted used s ∧ text = used ++ rest := by
  constructor
  · intro h
    unfold quoted at h
    split at h
    · obtain ⟨⟨read, rest'⟩, hread, hpair⟩ := Option.map_eq_some_iff.mp h
      obtain ⟨rfl, rfl⟩ := Prod.mk.inj hpair
      obtain ⟨body, hbody, rfl⟩ := exists_characters_of_eq_some hread
      rw [← String.toList_ofList (l := read)] at hbody
      refine ⟨_, ⟨body, rfl, hbody⟩, ?_⟩
      rw [List.cons_append, List.append_assoc, List.singleton_append]
    · cases h
  · rintro ⟨_, ⟨body, rfl, hbody⟩, rfl⟩
    have hread : characters (body ++ ['"'] ++ rest).length (body ++ ['"'] ++ rest) =
        some (s.toList, rest) := by
      rw [List.append_assoc, List.singleton_append]
      apply characters_append hbody
      rw [List.length_append, List.length_cons]
      omega
    simp only [List.cons_append, quoted, hread, Option.map_some, String.ofList_toList]

end

/-! ### Numbers -/

/-- Digits with a sign before them, or none. -/
def signed? : List Char → Option ℤ
  | '+' :: digits => if IsDigits digits then some (digitsValue digits) else none
  | '-' :: digits => if IsDigits digits then some (-(digitsValue digits : ℤ)) else none
  | digits => if IsDigits digits then some (digitsValue digits) else none

/-- The power of ten, if there is one. -/
def exponent? : List Char → Option ℤ
  | [] => some 0
  | e :: text => if e = 'e' ∨ e = 'E' then signed? text else none

/-- The digits after the point, if there are any, and the text after them. -/
def fraction? : List Char → Option (List Char × List Char)
  | '.' :: text =>
    if IsDigits (text.takeWhile Char.isDigit) then
      some (text.takeWhile Char.isDigit, text.dropWhile Char.isDigit)
    else none
  | text => some ([], text)

/-- A number without a sign. -/
def unsigned? (text : List Char) : Option ℚ :=
  if IsWhole (text.takeWhile Char.isDigit) then
    match fraction? (text.dropWhile Char.isDigit) with
    | none => none
    | some (fraction, power) =>
      (exponent? power).map (decimal (text.takeWhile Char.isDigit) fraction)
  else none

/-- A number. -/
def number? : List Char → Option ℚ
  | '-' :: text => (unsigned? text).map fun q => -q
  | text => unsigned? text

/-- The number at the front of a text. -/
def numeral : Scanner ℚ := fun text =>
  (number? (text.takeWhile isNumberChar)).map fun q => (q, text.dropWhile isNumberChar)

section

variable {text rest whole fraction power digits : List Char} {n : ℤ} {q : ℚ}

/-- No digit is a sign. -/
lemma IsDigits.ne_cons {c : Char} (h : IsDigits digits) (hc : c.isDigit = false) (l : List Char) :
    digits ≠ c :: l := by
  rintro rfl
  exact absurd (h.2 c List.mem_cons_self) (by simp [hc])

/-- Digits with a sign are read as the grammar has them. -/
lemma signed?_eq_some_iff : signed? text = some n ↔ Signed text n := by
  constructor
  · intro h
    unfold signed? at h
    split at h <;> split_ifs at h with hdigits <;> obtain rfl := Option.some.inj h
    · exact .plus hdigits
    · exact .minus hdigits
    · exact .unsigned hdigits
  · intro h
    cases h with
    | unsigned h =>
      unfold signed?
      split
      · exact absurd rfl (h.ne_cons rfl _)
      · exact absurd rfl (h.ne_cons rfl _)
      · exact if_pos h
    | plus h => exact if_pos h
    | minus h => exact if_pos h

/-- A power of ten is read as the grammar has it. -/
lemma exponent?_eq_some_iff : exponent? text = some n ↔ Exponent text n := by
  constructor
  · intro h
    unfold exponent? at h
    split at h
    · obtain rfl := Option.some.inj h
      exact .none
    · split_ifs at h with he
      exact .power he (signed?_eq_some_iff.mp h)
  · intro h
    cases h with
    | none => rfl
    | power he h =>
      rw [exponent?, if_pos he]
      exact signed?_eq_some_iff.mpr h

/-- A power of ten begins with no digit and no point. -/
lemma Exponent.head? (h : Exponent text n) : ∀ c ∈ text.head?, c.isDigit = false ∧ c ≠ '.' := by
  intro c hc
  cases h with
  | none => cases hc
  | power he h =>
    obtain rfl := Option.some.inj hc
    rcases he with rfl | rfl <;> decide

/-- A fraction is read as the grammar has it. -/
lemma exists_fraction_of_eq_some (h : fraction? text = some (fraction, rest)) :
    ∃ point, Fraction point fraction ∧ text = point ++ rest := by
  unfold fraction? at h
  split at h
  · split_ifs at h with hdigits
    obtain ⟨rfl, rfl⟩ := Prod.mk.inj (Option.some.inj h)
    refine ⟨_, .point hdigits, ?_⟩
    rw [List.cons_append, List.takeWhile_append_dropWhile]
  · obtain ⟨rfl, rfl⟩ := Prod.mk.inj (Option.some.inj h)
    exact ⟨[], .none, rfl⟩

/-- A fraction of the grammar is read before anything but a point or a digit. -/
lemma fraction?_append {point : List Char} (h : Fraction point fraction)
    (hrest : ∀ c ∈ rest.head?, c.isDigit = false ∧ c ≠ '.') :
    fraction? (point ++ rest) = some (fraction, rest) := by
  cases h with
  | none =>
    unfold fraction?
    split
    · rename_i text heq
      rw [List.nil_append] at heq
      exact absurd rfl (hrest '.' (by rw [heq]; rfl)).2
    · rfl
  | point hdigits =>
    have hhead : ∀ c ∈ rest.head?, c.isDigit = false := fun c hc => (hrest c hc).1
    simp only [List.cons_append, fraction?, takeWhile_run hdigits.2 hhead,
      dropWhile_run hdigits.2 hhead, if_pos hdigits]

/-- A fraction begins with no digit. -/
lemma Fraction.head? {point : List Char} (h : Fraction point fraction)
    (hrest : ∀ c ∈ rest.head?, c.isDigit = false) :
    ∀ c ∈ (point ++ rest).head?, c.isDigit = false := by
  cases h with
  | none => exact hrest
  | point => exact fun c hc => Option.some.inj hc ▸ rfl

/-- A number without a sign is read as the grammar has it. -/
lemma unsigned?_eq_some_iff : unsigned? text = some q ↔ Unsigned text q := by
  constructor
  · intro h
    unfold unsigned? at h
    split_ifs at h with hwhole
    split at h
    · cases h
    rename_i fraction power hfraction
    obtain ⟨n, hexponent, rfl⟩ := Option.map_eq_some_iff.mp h
    obtain ⟨point, hpoint, hrest⟩ := exists_fraction_of_eq_some hfraction
    rw [← List.takeWhile_append_dropWhile (p := Char.isDigit) (l := text), hrest]
    have hunsigned := Unsigned.mk hwhole hpoint (exponent?_eq_some_iff.mp hexponent)
    rw [← hrest, List.takeWhile_append_dropWhile] at hunsigned ⊢
    exact hunsigned
  · rintro ⟨hwhole, hfraction, hexponent⟩
    have hhead := hfraction.head? fun c hc => (hexponent.head? c hc).1
    unfold unsigned?
    rw [takeWhile_run hwhole.1.2 hhead, dropWhile_run hwhole.1.2 hhead, if_pos hwhole,
      fraction?_append hfraction hexponent.head?]
    simp only [exponent?_eq_some_iff.mpr hexponent, Option.map_some]

/-- A number without a sign begins with a digit. -/
lemma Unsigned.exists_digit (h : Unsigned text q) :
    ∃ d rest, text = d :: rest ∧ d.isDigit = true := by
  obtain ⟨hwhole, -, -⟩ := h
  obtain ⟨d, digits, rfl⟩ := List.exists_cons_of_ne_nil hwhole.1.1
  exact ⟨d, _, rfl, hwhole.1.2 d List.mem_cons_self⟩

/-- A number is read as the grammar has it. -/
lemma number?_eq_some_iff : number? text = some q ↔ Number text q := by
  constructor
  · intro h
    unfold number? at h
    split at h
    · obtain ⟨q, hq, rfl⟩ := Option.map_eq_some_iff.mp h
      exact .minus (unsigned?_eq_some_iff.mp hq)
    · exact .unsigned (unsigned?_eq_some_iff.mp h)
  · intro h
    cases h with
    | unsigned h =>
      -- The first character is a digit, so it cannot be taken for the sign.
      unfold number?
      split
      · obtain ⟨d, rest, heq, hd⟩ := h.exists_digit
        obtain rfl := (List.cons.inj heq).1
        exact absurd hd (by decide)
      · exact unsigned?_eq_some_iff.mpr h
    | minus h =>
      simp only [number?, unsigned?_eq_some_iff.mpr h, Option.map_some]

/-- Digits are characters of numbers. -/
lemma IsDigits.isNumberChar (h : IsDigits digits) : ∀ c ∈ digits, isNumberChar c = true := by
  intro c hc
  simp only [Json.isNumberChar, h.2 c hc, Bool.true_or]

/-- A power of ten has characters of numbers only. -/
lemma Exponent.isNumberChar (h : Exponent text n) : ∀ c ∈ text, isNumberChar c = true := by
  cases h with
  | none => exact fun c hc => absurd hc List.not_mem_nil
  | power he h =>
    refine List.forall_mem_cons.mpr ⟨?_, ?_⟩
    · rcases he with rfl | rfl <;> decide
    · cases h with
      | unsigned h => exact h.isNumberChar
      | plus h => exact List.forall_mem_cons.mpr ⟨by decide, h.isNumberChar⟩
      | minus h => exact List.forall_mem_cons.mpr ⟨by decide, h.isNumberChar⟩

/-- A number without a sign has characters of numbers only. -/
lemma Unsigned.isNumberChar (h : Unsigned text q) : ∀ c ∈ text, isNumberChar c = true := by
  obtain ⟨hwhole, hfraction, hexponent⟩ := h
  intro c hc
  rcases List.mem_append.mp hc with hc | hc
  · exact hwhole.1.isNumberChar c hc
  rcases List.mem_append.mp hc with hc | hc
  · cases hfraction with
    | none => cases hc
    | point h => exact List.forall_mem_cons.mpr ⟨by decide, h.isNumberChar⟩ c hc
  · exact hexponent.isNumberChar c hc

/-- A number has characters of numbers only. -/
lemma Number.isNumberChar (h : Number text q) : ∀ c ∈ text, isNumberChar c = true := by
  cases h with
  | unsigned h => exact h.isNumberChar
  | minus h => exact List.forall_mem_cons.mpr ⟨by decide, h.isNumberChar⟩

/-- A number begins with a character of numbers. -/
lemma Number.exists_cons (h : Number text q) :
    ∃ c rest, text = c :: rest ∧ Json.isNumberChar c = true := by
  have hne : text ≠ [] := by
    cases h with
    | unsigned h =>
      obtain ⟨d, rest, rfl, -⟩ := h.exists_digit
      exact List.cons_ne_nil d rest
    | minus => exact List.cons_ne_nil _ _
  obtain ⟨c, rest, rfl⟩ := List.exists_cons_of_ne_nil hne
  exact ⟨c, rest, rfl, h.isNumberChar c List.mem_cons_self⟩

/-- A number is read as the grammar has it, and is as long as it can be. -/
lemma numeral_eq_some_iff :
    numeral text = some (q, rest) ↔
      ∃ used, Number used q ∧ EndsNumber rest ∧ text = used ++ rest := by
  constructor
  · intro h
    obtain ⟨q, hq, hpair⟩ := Option.map_eq_some_iff.mp h
    obtain ⟨rfl, rfl⟩ := Prod.mk.inj hpair
    exact ⟨_, number?_eq_some_iff.mp hq, head?_dropWhile_run text,
      List.takeWhile_append_dropWhile.symm⟩
  · rintro ⟨used, hused, hrest, rfl⟩
    simp only [numeral, takeWhile_run hused.isNumberChar hrest,
      dropWhile_run hused.isNumberChar hrest, number?_eq_some_iff.mpr hused, Option.map_some]

end

end UvaAnalysis.Json
