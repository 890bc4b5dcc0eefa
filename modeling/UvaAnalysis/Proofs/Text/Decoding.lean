import Mathlib.Data.List.Basic
import Mathlib.Order.Nat
import UvaAnalysis.Text.Utf8

/-!
# What bytes decode to

`Utf8.decode` goes through the bytes with a state.  Here the same decoding is described without one:
the bytes are a concatenation of encoded characters and of malformed stretches, and the decoder
gives one piece for each of them (`spelling_decode`).  A malformed stretch holds no ASCII byte.

Hence ASCII bytes come through any decoding untouched: bytes that are all ASCII are spelled by the
text that they decode to (`encode_lossy_of_ascii`), and a text has two given ASCII characters side
by side exactly where the bytes have (`ascii_pair_infix_lossyChars_iff`), whatever is malformed
around them.
-/

namespace UvaAnalysis.Utf8

/-- Bytes, cut into encoded characters and malformed stretches, and the pieces they stand for. -/
inductive Spelling : List UInt8 → List Decoded → Prop
  | nil : Spelling [] []
  | char (c : Char) {bytes : List UInt8} {pieces : List Decoded} (rest : Spelling bytes pieces) :
    Spelling (String.utf8EncodeChar c ++ bytes) (some c :: pieces)
  | malformed {stretch bytes : List UInt8} {pieces : List Decoded} (nonempty : stretch ≠ [])
    (high : ∀ byte ∈ stretch, 0x80 ≤ byte.toNat) (rest : Spelling bytes pieces) :
    Spelling (stretch ++ bytes) (none :: pieces)

/-! ### Encoded characters -/

/-- The number of a character that has that number. -/
lemma val_toNat_ofNat {n : ℕ} (h : n.isValidChar) : (Char.ofNat n).val.toNat = n := by
  rw [Char.ofNat, dif_pos h]
  rfl

/-- A byte as a character keeps its number. -/
lemma val_toNat_ofUInt8 (byte : UInt8) : (Char.ofUInt8 byte).val.toNat = byte.toNat :=
  UInt8.toNat_toUInt32 byte

/-- Bytes that are the same character are the same. -/
lemma ofUInt8_injective {a b : UInt8} (h : Char.ofUInt8 a = Char.ofUInt8 b) : a = b := by
  apply UInt8.toNat_inj.mp
  rw [← val_toNat_ofUInt8, h, val_toNat_ofUInt8]

/-- A byte is known by its number. -/
lemma ofNat_eq_of_toNat_eq (byte : UInt8) {n : ℕ} (h : n = byte.toNat) :
    UInt8.ofNat n = byte := by
  rw [h, UInt8.ofNat_toNat]

/-- The encoding of a character of two bytes. -/
lemma encodeChar_two {lead second : UInt8} (hl : 0xC2 ≤ lead.toNat) (hl' : lead.toNat < 0xE0)
    (hs : 0x80 ≤ second.toNat) (hs' : second.toNat ≤ 0xBF) :
    String.utf8EncodeChar (Char.ofNat ((lead.toNat - 0xC0) * 64 + (second.toNat - 0x80))) =
      [lead, second] := by
  have hvalid : ((lead.toNat - 0xC0) * 64 + (second.toNat - 0x80)).isValidChar := by
    left
    omega
  rw [String.utf8EncodeChar]
  simp only [val_toNat_ofNat hvalid]
  rw [if_neg (by omega), if_pos (by omega), ofNat_eq_of_toNat_eq lead (by omega),
    ofNat_eq_of_toNat_eq second (by omega)]

/-- The encoding of a character of three bytes. -/
lemma encodeChar_three {lead second third : UInt8} (hl : 0xE0 ≤ lead.toNat)
    (hl' : lead.toNat < 0xF0)
    (hs : (if lead.toNat = 0xE0 then 0xA0 else 0x80) ≤ second.toNat)
    (hs' : second.toNat ≤ if lead.toNat = 0xED then 0x9F else 0xBF)
    (ht : 0x80 ≤ third.toNat) (ht' : third.toNat ≤ 0xBF) :
    String.utf8EncodeChar (Char.ofNat
        (((lead.toNat - 0xE0) * 64 + (second.toNat - 0x80)) * 64 + (third.toNat - 0x80))) =
      [lead, second, third] := by
  have hvalid : (((lead.toNat - 0xE0) * 64 + (second.toNat - 0x80)) * 64 +
      (third.toNat - 0x80)).isValidChar := by
    by_cases h : lead.toNat < 0xEE
    · left
      split at hs' <;> omega
    · right
      split at hs' <;> omega
  have hlow : 0x7FF < ((lead.toNat - 0xE0) * 64 + (second.toNat - 0x80)) * 64 +
      (third.toNat - 0x80) := by
    split at hs <;> omega
  have hs₀ : 0x80 ≤ second.toNat := by
    split at hs <;> omega
  have hs₁ : second.toNat ≤ 0xBF := by
    split at hs' <;> omega
  rw [String.utf8EncodeChar]
  simp only [val_toNat_ofNat hvalid]
  rw [if_neg (by omega), if_neg (by omega), if_pos (by omega),
    ofNat_eq_of_toNat_eq lead (by omega),
    ofNat_eq_of_toNat_eq second (by omega),
    ofNat_eq_of_toNat_eq third (by omega)]

/-- The encoding of a character of four bytes. -/
lemma encodeChar_four {lead second third fourth : UInt8} (hl : 0xF0 ≤ lead.toNat)
    (hl' : lead.toNat < 0xF5)
    (hs : (if lead.toNat = 0xF0 then 0x90 else 0x80) ≤ second.toNat)
    (hs' : second.toNat ≤ if lead.toNat = 0xF4 then 0x8F else 0xBF)
    (ht : 0x80 ≤ third.toNat) (ht' : third.toNat ≤ 0xBF)
    (hf : 0x80 ≤ fourth.toNat) (hf' : fourth.toNat ≤ 0xBF) :
    String.utf8EncodeChar (Char.ofNat
        ((((lead.toNat - 0xF0) * 64 + (second.toNat - 0x80)) * 64 + (third.toNat - 0x80)) * 64 +
          (fourth.toNat - 0x80))) =
      [lead, second, third, fourth] := by
  have hs₀ : 0x80 ≤ second.toNat := by
    split at hs <;> omega
  have hs₁ : second.toNat ≤ 0xBF := by
    split at hs' <;> omega
  have hlow : 0xFFFF < (((lead.toNat - 0xF0) * 64 + (second.toNat - 0x80)) * 64 +
      (third.toNat - 0x80)) * 64 + (fourth.toNat - 0x80) := by
    split at hs <;> omega
  have hvalid : ((((lead.toNat - 0xF0) * 64 + (second.toNat - 0x80)) * 64 +
      (third.toNat - 0x80)) * 64 + (fourth.toNat - 0x80)).isValidChar := by
    right
    split at hs' <;> omega
  rw [String.utf8EncodeChar]
  simp only [val_toNat_ofNat hvalid]
  rw [if_neg (by omega), if_neg (by omega), if_neg (by omega),
    ofNat_eq_of_toNat_eq lead (by omega),
    ofNat_eq_of_toNat_eq second (by omega),
    ofNat_eq_of_toNat_eq third (by omega),
    ofNat_eq_of_toNat_eq fourth (by omega)]

/-- Every byte of a character beyond ASCII is beyond ASCII. -/
lemma high_of_mem_encodeChar {c : Char} (hc : 0x7F < c.val.toNat) {byte : UInt8}
    (h : byte ∈ String.utf8EncodeChar c) : 0x80 ≤ byte.toNat := by
  rw [String.utf8EncodeChar] at h
  rw [if_neg (by omega)] at h
  split at h
  · simp only [List.mem_cons, List.not_mem_nil, or_false] at h
    rcases h with rfl | rfl <;> rw [UInt8.toNat_ofNat'] <;> omega
  · split at h
    · simp only [List.mem_cons, List.not_mem_nil, or_false] at h
      rcases h with rfl | rfl | rfl <;> rw [UInt8.toNat_ofNat'] <;> omega
    · simp only [List.mem_cons, List.not_mem_nil, or_false] at h
      rcases h with rfl | rfl | rfl | rfl <;> rw [UInt8.toNat_ofNat'] <;> omega

/-- An ASCII character is encoded by its own byte. -/
lemma encodeChar_of_ascii {c : Char} (hc : c.val.toNat ≤ 0x7F) :
    String.utf8EncodeChar c = [UInt8.ofNat c.val.toNat] := by
  rw [String.utf8EncodeChar, if_pos hc]

/-! ### The decoder -/

/-- A stretch that the decoder has read and not yet judged: whatever continuation bytes it still
accepts complete the encoding of a character. -/
structure Underway (stretch : List UInt8) (p : Pending) : Prop where
  nonempty : stretch ≠ []
  high : ∀ byte ∈ stretch, 0x80 ≤ byte.toNat
  low_le : 0x80 ≤ p.low
  owed_pos : 0 < p.owed
  completes : ∀ (first : UInt8) (others : List UInt8), p.low ≤ first.toNat →
    first.toNat ≤ p.high → others.length + 1 = p.owed →
    (∀ byte ∈ others, 0x80 ≤ byte.toNat ∧ byte.toNat ≤ 0xBF) →
    String.utf8EncodeChar (Char.ofNat ((first :: others).foldl
      (fun value byte => value * 64 + (byte.toNat - 0x80)) p.value)) = stretch ++ first :: others

/-- The byte of an ASCII character spells it. -/
lemma encodeChar_of_lead {byte : UInt8} {c : Char} (h : Lead.ofByte byte = .char c) :
    String.utf8EncodeChar c = [byte] := by
  unfold Lead.ofByte at h
  simp only at h
  split at h
  · rename_i hlt
    injection h with hc
    have hval : c.val.toNat = byte.toNat := by
      rw [← hc, val_toNat_ofNat (Or.inl (by omega))]
    rw [encodeChar_of_ascii (by omega), hval, UInt8.ofNat_toNat]
  · split_ifs at h

/-- A byte that begins no character is beyond ASCII. -/
lemma high_of_lead_malformed {byte : UInt8} (h : Lead.ofByte byte = .malformed) :
    0x80 ≤ byte.toNat := by
  unfold Lead.ofByte at h
  simp only at h
  split at h
  · cases h
  · omega

/-- The three lengths of sequence that a lead byte can open. -/
lemma cases_of_lead_opens {byte : UInt8} {p : Pending} (h : Lead.ofByte byte = .opens p) :
    (0xC2 ≤ byte.toNat ∧ byte.toNat < 0xE0 ∧ p = ⟨byte.toNat - 0xC0, 1, 0x80, 0xBF⟩) ∨
    (0xE0 ≤ byte.toNat ∧ byte.toNat < 0xF0 ∧
      p = ⟨byte.toNat - 0xE0, 2, if byte.toNat = 0xE0 then 0xA0 else 0x80,
        if byte.toNat = 0xED then 0x9F else 0xBF⟩) ∨
    (0xF0 ≤ byte.toNat ∧ byte.toNat < 0xF5 ∧
      p = ⟨byte.toNat - 0xF0, 3, if byte.toNat = 0xF0 then 0x90 else 0x80,
        if byte.toNat = 0xF4 then 0x8F else 0xBF⟩) := by
  unfold Lead.ofByte at h
  simp only at h
  split at h
  · cases h
  · split at h
    · cases h
    · split at h
      · exact Or.inl ⟨by omega, by omega, (Lead.opens.inj h).symm⟩
      · split at h
        · exact Or.inr (Or.inl ⟨by omega, by omega, (Lead.opens.inj h).symm⟩)
        · split at h
          · exact Or.inr (Or.inr ⟨by omega, by omega, (Lead.opens.inj h).symm⟩)
          · cases h

/-- A lead byte opens a stretch. -/
lemma underway_of_lead {byte : UInt8} {p : Pending} (h : Lead.ofByte byte = .opens p) :
    Underway [byte] p := by
  rcases cases_of_lead_opens h with ⟨hl, hl', rfl⟩ | ⟨hl, hl', rfl⟩ | ⟨hl, hl', rfl⟩
  · refine ⟨by simp, by simp; omega, le_rfl, Nat.succ_pos _, ?_⟩
    intro first others hlow hhigh hlen _
    obtain rfl : others = [] := List.length_eq_zero_iff.mp (by simpa using hlen)
    exact encodeChar_two hl hl' hlow hhigh
  · refine ⟨by simp, by simp; omega, by simp only; split <;> omega,
      Nat.succ_pos _, ?_⟩
    intro first others hlow hhigh hlen hothers
    obtain ⟨second, rfl⟩ : ∃ second, others = [second] :=
      List.length_eq_one_iff.mp (by simpa using hlen)
    have hsecond := hothers second (by simp)
    exact encodeChar_three hl hl' hlow hhigh hsecond.1 hsecond.2
  · refine ⟨by simp, by simp; omega, by simp only; split <;> omega,
      Nat.succ_pos _, ?_⟩
    intro first others hlow hhigh hlen hothers
    obtain ⟨second, third, rfl⟩ : ∃ second third, others = [second, third] :=
      List.length_eq_two.mp (by simpa using hlen)
    have hsecond := hothers second (by simp)
    have hthird := hothers third (by simp)
    exact encodeChar_four hl hl' hlow hhigh hsecond.1 hsecond.2 hthird.1 hthird.2

/-- The last continuation byte completes the character. -/
lemma Underway.encodeChar {stretch : List UInt8} {p : Pending} (h : Underway stretch p)
    {byte : UInt8} (hlow : p.low ≤ byte.toNat) (hhigh : byte.toNat ≤ p.high) (howed : p.owed ≤ 1) :
    String.utf8EncodeChar (Char.ofNat (p.value * 64 + (byte.toNat - 0x80))) =
      stretch ++ [byte] := by
  have hone : p.owed = 1 := le_antisymm howed h.owed_pos
  exact h.completes byte [] hlow hhigh (by simp [hone]) (by simp)

/-- Every other continuation byte makes the stretch longer. -/
lemma Underway.next {stretch : List UInt8} {p : Pending} (h : Underway stretch p)
    {byte : UInt8} (hlow : p.low ≤ byte.toNat) (hhigh : byte.toNat ≤ p.high)
    (howed : ¬ p.owed ≤ 1) :
    Underway (stretch ++ [byte])
      ⟨p.value * 64 + (byte.toNat - 0x80), p.owed - 1, 0x80, 0xBF⟩ := by
  refine ⟨by simp, ?_, le_rfl, by simp only; omega, ?_⟩
  · intro b hb
    rcases List.mem_append.mp hb with hb | hb
    · exact h.high b hb
    · rw [List.mem_singleton.mp hb]
      exact le_trans h.low_le hlow
  · intro first others hfirst hfirst' hlen hothers
    have hmem : ∀ b ∈ first :: others, 0x80 ≤ b.toNat ∧ b.toNat ≤ 0xBF := by
      intro b hb
      rcases List.mem_cons.mp hb with rfl | hb
      · exact ⟨hfirst, hfirst'⟩
      · exact hothers b hb
    have hcomplete := h.completes byte (first :: others) hlow hhigh
      (by simp only at hlen; simp; omega) hmem
    rw [List.foldl_cons] at hcomplete
    rw [List.append_assoc]
    exact hcomplete

/-- The decoder gives one piece for each encoded character and each malformed stretch, both between
characters and inside one. -/
lemma spelling_decodeFrom (bytes : List UInt8) :
    Spelling bytes (decodeFrom none bytes) ∧
      ∀ stretch p, Underway stretch p →
        Spelling (stretch ++ bytes) (decodeFrom (some p) bytes) := by
  induction bytes with
  | nil =>
    refine ⟨.nil, fun stretch p h => ?_⟩
    exact .malformed h.nonempty h.high .nil
  | cons byte bytes ih =>
    obtain ⟨ihnone, ihsome⟩ := ih
    have hstart : Spelling (byte :: bytes) (decodeFrom none (byte :: bytes)) := by
      simp only [decodeFrom, step, start]
      cases hlead : Lead.ofByte byte with
      | char c =>
        have h := Spelling.char c ihnone
        rwa [encodeChar_of_lead hlead] at h
      | opens p => exact ihsome [byte] p (underway_of_lead hlead)
      | malformed =>
        have hhigh : ∀ b ∈ [byte], 0x80 ≤ b.toNat := by
          simpa using high_of_lead_malformed hlead
        exact .malformed (List.cons_ne_nil byte []) hhigh ihnone
    refine ⟨hstart, fun stretch p h => ?_⟩
    simp only [decodeFrom, step]
    by_cases hrange : p.low ≤ byte.toNat ∧ byte.toNat ≤ p.high
    · rw [if_pos hrange]
      by_cases howed : p.owed ≤ 1
      · rw [if_pos howed]
        have h' := Spelling.char (Char.ofNat (p.value * 64 + (byte.toNat - 0x80))) ihnone
        rw [h.encodeChar hrange.1 hrange.2 howed] at h'
        simpa using h'
      · rw [if_neg howed]
        have h' := ihsome _ _ (h.next hrange.1 hrange.2 howed)
        simpa using h'
    · -- the byte that breaks the stretch off is read again where a character may begin
      rw [if_neg hrange]
      exact .malformed h.nonempty h.high hstart

/-- The decoder gives one piece for each encoded character and each malformed stretch. -/
theorem spelling_decode (bytes : List UInt8) : Spelling bytes (decode bytes) :=
  (spelling_decodeFrom bytes).1

/-! ### The first piece -/

/-- What comes first of a sequence under way is settled by the bytes that it still owes. -/
lemma head?_decodeFrom_take {p : Pending} {n : ℕ} (bytes : List UInt8) (hpos : 0 < p.owed)
    (hle : p.owed ≤ n) :
    (decodeFrom (some p) (bytes.take n)).head? = (decodeFrom (some p) bytes).head? := by
  induction bytes generalizing p n with
  | nil => rw [List.take_nil]
  | cons byte bytes ih =>
    obtain ⟨m, rfl⟩ := Nat.exists_eq_add_one_of_ne_zero (Nat.ne_of_gt (Nat.lt_of_lt_of_le hpos hle))
    rw [List.take_succ_cons]
    simp only [decodeFrom, step]
    by_cases hrange : p.low ≤ byte.toNat ∧ byte.toNat ≤ p.high
    · rw [if_pos hrange]
      by_cases howed : p.owed ≤ 1
      · rw [if_pos howed]
        rfl
      · rw [if_neg howed]
        exact ih (by simp only; omega) (by simp only; omega)
    · rw [if_neg hrange]
      rfl

/-- The first piece lies within the first four bytes. -/
lemma head?_decode_take_four (bytes : List UInt8) :
    (decode (bytes.take 4)).head? = (decode bytes).head? := by
  cases bytes with
  | nil => rfl
  | cons byte bytes =>
    rw [List.take_succ_cons]
    simp only [decode, decodeFrom, step, start]
    cases hlead : Lead.ofByte byte with
    | char c => rfl
    | malformed => rfl
    | opens p =>
      have howed : p.owed ≤ 3 := by
        rcases cases_of_lead_opens hlead with ⟨-, -, rfl⟩ | ⟨-, -, rfl⟩ | ⟨-, -, rfl⟩ <;> simp
      exact head?_decodeFrom_take bytes (underway_of_lead hlead).owed_pos howed

/-- Only no bytes stand for no pieces. -/
lemma Spelling.eq_nil {bytes : List UInt8} (h : Spelling bytes []) : bytes = [] := by
  cases h
  rfl

/-- Bytes decode to nothing only if there are none. -/
lemma decode_eq_nil_iff {bytes : List UInt8} : decode bytes = [] ↔ bytes = [] := by
  constructor
  · intro h
    exact (h ▸ spelling_decode bytes).eq_nil
  · rintro rfl
    rfl

/-- A text with replacements has the same first character as the text of its first four bytes. -/
theorem head?_lossyChars_take_four (bytes : List UInt8) :
    (lossyChars (bytes.take 4)).head? = (lossyChars bytes).head? := by
  rw [lossyChars, lossyChars, List.head?_map, List.head?_map, head?_decode_take_four]

/-! ### Bytes without malformed stretches -/

/-- Pieces that are all characters are spelled by the bytes they were decoded from. -/
lemma Spelling.flatMap_encodeChar {bytes : List UInt8} {pieces : List Decoded}
    (h : Spelling bytes pieces) (hsome : ∀ piece ∈ pieces, piece.isSome) :
    (pieces.map (·.getD replacement)).flatMap String.utf8EncodeChar = bytes := by
  induction h with
  | nil => rfl
  | char c _ ih =>
    simp only [List.map_cons, Option.getD_some, List.flatMap_cons]
    rw [ih fun piece hp => hsome piece (List.mem_cons_of_mem _ hp)]
  | malformed _ _ _ _ =>
    have := hsome none List.mem_cons_self
    cases this

/-- In ASCII bytes nothing is malformed. -/
lemma Spelling.isSome_of_ascii {bytes : List UInt8} {pieces : List Decoded}
    (h : Spelling bytes pieces) (hascii : ∀ byte ∈ bytes, byte.toNat < 0x80) :
    ∀ piece ∈ pieces, piece.isSome := by
  induction h with
  | nil => simp
  | char c _ ih =>
    intro piece hp
    rcases List.mem_cons.mp hp with rfl | hp
    · rfl
    · exact ih (fun b hb => hascii b (List.mem_append_right _ hb)) piece hp
  | malformed nonempty high _ _ =>
    obtain ⟨b, hb⟩ := List.exists_mem_of_ne_nil _ nonempty
    have hlt := hascii b (List.mem_append_left _ hb)
    have hge := high b hb
    omega

/-- Well-formed bytes are spelled by the text that they decode to. -/
theorem encode_lossy_of_isWellFormed {bytes : List UInt8} (h : isWellFormed bytes) :
    encode (lossy bytes) = bytes := by
  rw [encode, lossy, String.toList_ofList, lossyChars]
  exact (spelling_decode bytes).flatMap_encodeChar (by simpa [isWellFormed] using h)

/-- ASCII bytes are well-formed. -/
lemma isWellFormed_of_ascii {bytes : List UInt8} (h : ∀ byte ∈ bytes, byte.toNat < 0x80) :
    isWellFormed bytes := by
  rw [isWellFormed, List.all_eq_true]
  exact (spelling_decode bytes).isSome_of_ascii h

/-- ASCII bytes are spelled by the text that they decode to. -/
theorem encode_lossy_of_ascii {bytes : List UInt8} (h : ∀ byte ∈ bytes, byte.toNat < 0x80) :
    encode (lossy bytes) = bytes :=
  encode_lossy_of_isWellFormed (isWellFormed_of_ascii h)

/-! ### ASCII among other bytes -/

/-- An ASCII byte is a character of its own, and what lies between ASCII bytes decodes to characters
beyond ASCII. -/
inductive AsciiAligned : List UInt8 → List Char → Prop
  | nil : AsciiAligned [] []
  | ascii {byte : UInt8} {bytes : List UInt8} {chars : List Char} (low : byte.toNat < 0x80)
    (rest : AsciiAligned bytes chars) : AsciiAligned (byte :: bytes) (Char.ofUInt8 byte :: chars)
  | beyond {stretch bytes : List UInt8} {c : Char} {chars : List Char} (nonempty : stretch ≠ [])
    (high : ∀ byte ∈ stretch, 0x80 ≤ byte.toNat) (hc : 0x80 ≤ c.val.toNat)
    (rest : AsciiAligned bytes chars) : AsciiAligned (stretch ++ bytes) (c :: chars)

/-- Characters decoded with replacements are aligned with the bytes they come from. -/
lemma Spelling.asciiAligned {bytes : List UInt8} {pieces : List Decoded}
    (h : Spelling bytes pieces) : AsciiAligned bytes (pieces.map (·.getD replacement)) := by
  induction h with
  | nil => exact .nil
  | char c _ ih =>
    by_cases hc : c.val.toNat ≤ 0x7F
    · have hbyte : (UInt8.ofNat c.val.toNat).toNat = c.val.toNat := by
        rw [UInt8.toNat_ofNat']
        omega
      have hchar : Char.ofUInt8 (UInt8.ofNat c.val.toNat) = c := by
        apply Char.ext
        apply UInt32.toNat_inj.mp
        rw [val_toNat_ofUInt8, hbyte]
      have hlow : (UInt8.ofNat c.val.toNat).toNat < 0x80 := by omega
      have h := AsciiAligned.ascii hlow ih
      rw [hchar] at h
      rwa [encodeChar_of_ascii hc]
    · exact .beyond String.utf8EncodeChar_ne_nil (fun b hb => high_of_mem_encodeChar (by omega) hb)
        (by simp only [Option.getD_some]; omega) ih
  | malformed nonempty high _ ih => exact .beyond nonempty high (by decide) ih

/-- The first character is a given ASCII character exactly when the first byte is. -/
lemma AsciiAligned.singleton_prefix_iff {bytes : List UInt8} {chars : List Char}
    (h : AsciiAligned bytes chars) {a : UInt8} (ha : a.toNat < 0x80) :
    [Char.ofUInt8 a] <+: chars ↔ [a] <+: bytes := by
  cases h with
  | nil => simp
  | ascii low _ =>
    simp only [List.cons_prefix_cons, List.nil_prefix, and_true]
    exact ⟨ofUInt8_injective, fun h => by rw [h]⟩
  | @beyond stretch _ c _ nonempty high hc _ =>
    obtain ⟨b, others, rfl⟩ := List.exists_cons_of_ne_nil nonempty
    have hb := high b List.mem_cons_self
    simp only [List.cons_append, List.cons_prefix_cons, List.nil_prefix, and_true]
    constructor
    · rintro rfl
      rw [val_toNat_ofUInt8] at hc
      omega
    · rintro rfl
      omega

/-- Bytes beyond ASCII in front do not matter for where an ASCII byte stands before another. -/
lemma pair_infix_append_iff {a b : UInt8} (ha : a.toNat < 0x80) {stretch : List UInt8}
    (high : ∀ byte ∈ stretch, 0x80 ≤ byte.toNat) (bytes : List UInt8) :
    [a, b] <:+: stretch ++ bytes ↔ [a, b] <:+: bytes := by
  induction stretch with
  | nil => rfl
  | cons c stretch ih =>
    have hc := high c List.mem_cons_self
    have hne : ¬ [a, b] <+: c :: (stretch ++ bytes) := by
      rw [List.cons_prefix_cons]
      rintro ⟨rfl, -⟩
      omega
    rw [List.cons_append, List.infix_cons_iff, ih fun d hd => high d (List.mem_cons_of_mem _ hd)]
    exact or_iff_right hne

/-- Two ASCII characters stand side by side exactly where the two bytes do. -/
lemma AsciiAligned.pair_infix_iff {bytes : List UInt8} {chars : List Char}
    (h : AsciiAligned bytes chars) {a b : UInt8} (ha : a.toNat < 0x80) (hb : b.toNat < 0x80) :
    [Char.ofUInt8 a, Char.ofUInt8 b] <:+: chars ↔ [a, b] <:+: bytes := by
  induction h with
  | nil => simp
  | @ascii byte bytes chars low rest ih =>
    rw [List.infix_cons_iff, List.infix_cons_iff, ih, List.cons_prefix_cons, List.cons_prefix_cons,
      rest.singleton_prefix_iff hb]
    have hbyte : Char.ofUInt8 a = Char.ofUInt8 byte ↔ a = byte :=
      ⟨ofUInt8_injective, fun h => by rw [h]⟩
    rw [hbyte]
  | @beyond stretch bytes c chars _ high hc rest ih =>
    rw [pair_infix_append_iff ha high, List.infix_cons_iff, ih]
    apply or_iff_right
    rw [List.cons_prefix_cons]
    rintro ⟨rfl, -⟩
    rw [val_toNat_ofUInt8] at hc
    omega

/-- Decoding with replacements neither makes nor breaks a pair of ASCII characters. -/
theorem ascii_pair_infix_lossyChars_iff {a b : UInt8} (ha : a.toNat < 0x80) (hb : b.toNat < 0x80)
    (bytes : List UInt8) :
    [Char.ofUInt8 a, Char.ofUInt8 b] <:+: lossyChars bytes ↔ [a, b] <:+: bytes :=
  (spelling_decode bytes).asciiAligned.pair_infix_iff ha hb

end UvaAnalysis.Utf8
