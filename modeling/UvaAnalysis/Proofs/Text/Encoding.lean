import UvaAnalysis.Proofs.Text.Decoding

/-!
# Encoded texts

A text comes back from its bytes (`text?_encode`), so the well-formed bytes are the encoded texts.
What can be seen of a text without decoding it follows from the bytes of single characters: an ASCII
byte is the whole encoding of its character, and every character has one byte that continues
nothing.

So a text has as many characters as it has bytes of that kind (`countP_encode`), and well-formed
bytes that are cut where an ASCII byte stands on one side are well-formed on both sides
(`isWellFormed_of_append`).
-/

namespace UvaAnalysis.Utf8

/-! ### One character -/

section Sequence

variable {n : ℕ} {byte lead second third fourth : UInt8} {p : Pending} (bytes : List UInt8)

/-- A continuation byte that is not the last one owed. -/
lemma decodeFrom_continued (hlow : p.low ≤ byte.toNat) (hhigh : byte.toNat ≤ p.high)
    (howed : 1 < p.owed) :
    decodeFrom (some p) (byte :: bytes) =
      decodeFrom (some ⟨p.value * 64 + (byte.toNat - 0x80), p.owed - 1, 0x80, 0xBF⟩) bytes := by
  simp only [decodeFrom, step]
  rw [if_pos ⟨hlow, hhigh⟩, if_neg (Nat.not_le.mpr howed)]
  rfl

/-- The last continuation byte that is owed. -/
lemma decodeFrom_completed (hlow : p.low ≤ byte.toNat) (hhigh : byte.toNat ≤ p.high)
    (howed : p.owed = 1) :
    decodeFrom (some p) (byte :: bytes) =
      some (Char.ofNat (p.value * 64 + (byte.toNat - 0x80))) :: decodeFrom none bytes := by
  simp only [decodeFrom, step]
  rw [if_pos ⟨hlow, hhigh⟩, if_pos (Nat.le_of_eq howed)]
  rfl

/-- A character of one byte. -/
lemma decodeFrom_one (hlead : lead.toNat = n) (h : n ≤ 0x7F) :
    decodeFrom none (lead :: bytes) = some (Char.ofNat n) :: decodeFrom none bytes := by
  have hstart : start lead = ([some (Char.ofNat n)], none) := by
    rw [start_ascii (by omega), hlead]
  simp only [decodeFrom, step, hstart, List.singleton_append]

/-- A character of two bytes. -/
lemma decodeFrom_two (hlead : lead.toNat = n / 64 + 0xC0) (hsecond : second.toNat = n % 64 + 0x80)
    (hlow : 0x7F < n) (hhigh : n ≤ 0x7FF) :
    decodeFrom none (lead :: second :: bytes) = some (Char.ofNat n) :: decodeFrom none bytes := by
  have hopens : decodeFrom none (lead :: second :: bytes) =
      decodeFrom (some ⟨lead.toNat - 0xC0, 1, 0x80, 0xBF⟩) (second :: bytes) := by
    simp only [decodeFrom, step, start, Lead.ofByte]
    rw [if_neg (by omega), if_neg (by omega), if_pos (by omega)]
    rfl
  have hvalue : (lead.toNat - 0xC0) * 64 + (second.toNat - 0x80) = n := by
    omega
  rw [hopens, decodeFrom_completed _ (by simp only; omega) (by simp only; omega) rfl, hvalue]

/-- A character of three bytes. -/
lemma decodeFrom_three (hlead : lead.toNat = n / 4096 + 0xE0)
    (hsecond : second.toNat = n / 64 % 64 + 0x80) (hthird : third.toNat = n % 64 + 0x80)
    (hlow : 0x7FF < n) (hhigh : n ≤ 0xFFFF) (hvalid : n.isValidChar) :
    decodeFrom none (lead :: second :: third :: bytes) =
      some (Char.ofNat n) :: decodeFrom none bytes := by
  have hopens : decodeFrom none (lead :: second :: third :: bytes) =
      decodeFrom (some ⟨lead.toNat - 0xE0, 2, if lead.toNat = 0xE0 then 0xA0 else 0x80,
        if lead.toNat = 0xED then 0x9F else 0xBF⟩) (second :: third :: bytes) := by
    simp only [decodeFrom, step, start, Lead.ofByte]
    rw [if_neg (by omega), if_neg (by omega), if_neg (by omega), if_pos (by omega)]
    rfl
  have hvalue : ((lead.toNat - 0xE0) * 64 + (second.toNat - 0x80)) * 64 +
      (third.toNat - 0x80) = n := by
    omega
  -- The bounds of the second byte leave out overlong forms and surrogates.
  have hleast : (if lead.toNat = 0xE0 then 0xA0 else 0x80) ≤ second.toNat := by
    split <;> omega
  have hgreatest : second.toNat ≤ if lead.toNat = 0xED then 0x9F else 0xBF := by
    split <;> omega
  rw [hopens, decodeFrom_continued _ hleast hgreatest Nat.one_lt_two,
    decodeFrom_completed _ (by simp only; omega) (by simp only; omega) rfl, hvalue]

/-- A character of four bytes. -/
lemma decodeFrom_four (hlead : lead.toNat = n / 262144 + 0xF0)
    (hsecond : second.toNat = n / 4096 % 64 + 0x80) (hthird : third.toNat = n / 64 % 64 + 0x80)
    (hfourth : fourth.toNat = n % 64 + 0x80) (hlow : 0xFFFF < n) (hvalid : n.isValidChar) :
    decodeFrom none (lead :: second :: third :: fourth :: bytes) =
      some (Char.ofNat n) :: decodeFrom none bytes := by
  have hopens : decodeFrom none (lead :: second :: third :: fourth :: bytes) =
      decodeFrom (some ⟨lead.toNat - 0xF0, 3, if lead.toNat = 0xF0 then 0x90 else 0x80,
        if lead.toNat = 0xF4 then 0x8F else 0xBF⟩) (second :: third :: fourth :: bytes) := by
    simp only [decodeFrom, step, start, Lead.ofByte]
    rw [if_neg (by omega), if_neg (by omega), if_neg (by omega), if_neg (by omega),
      if_pos (by omega)]
    rfl
  have hvalue : (((lead.toNat - 0xF0) * 64 + (second.toNat - 0x80)) * 64 +
      (third.toNat - 0x80)) * 64 + (fourth.toNat - 0x80) = n := by
    omega
  -- The bounds of the second byte leave out overlong forms and what is beyond all characters.
  have hleast : (if lead.toNat = 0xF0 then 0x90 else 0x80) ≤ second.toNat := by
    split <;> omega
  have hgreatest : second.toNat ≤ if lead.toNat = 0xF4 then 0x8F else 0xBF := by
    split <;> omega
  rw [hopens, decodeFrom_continued _ hleast hgreatest (Nat.lt_add_of_pos_left Nat.two_pos),
    decodeFrom_continued _ (by simp only; omega) (by simp only; omega) Nat.one_lt_two,
    decodeFrom_completed _ (by simp only; omega) (by simp only; omega) rfl, hvalue]

end Sequence

/-- The number of a byte that was made from a small number. -/
lemma toNat_ofNat_of_lt {n : ℕ} (h : n < 256) : (UInt8.ofNat n).toNat = n := by
  rw [UInt8.toNat_ofNat', Nat.mod_eq_of_lt h]

/-- The bytes of a character decode to it, whatever follows them. -/
lemma decodeFrom_encodeChar (c : Char) (bytes : List UInt8) :
    decodeFrom none (String.utf8EncodeChar c ++ bytes) = some c :: decodeFrom none bytes := by
  have hvalid : c.val.toNat.isValidChar := c.valid
  have hchar : Char.ofNat c.val.toNat = c := Char.ofNat_toNat c
  have hcontinuation (m : ℕ) : (UInt8.ofNat (m % 64 + 128)).toNat = m % 64 + 128 :=
    toNat_ofNat_of_lt (by omega)
  rw [String.utf8EncodeChar]
  generalize c.val.toNat = n at hvalid hchar
  subst hchar
  split_ifs with hone htwo hthree
  · exact decodeFrom_one bytes (toNat_ofNat_of_lt (by omega)) hone
  · have hlead : (UInt8.ofNat (n / 64 % 32 + 192)).toNat = n / 64 + 192 := by
      rw [toNat_ofNat_of_lt (by omega), Nat.mod_eq_of_lt (by omega)]
    exact decodeFrom_two bytes hlead (hcontinuation n) (by omega) htwo
  · have hlead : (UInt8.ofNat (n / 4096 % 16 + 224)).toNat = n / 4096 + 224 := by
      rw [toNat_ofNat_of_lt (by omega), Nat.mod_eq_of_lt (by omega)]
    exact decodeFrom_three bytes hlead (hcontinuation (n / 64)) (hcontinuation n) (by omega) hthree
      hvalid
  · have hlead : (UInt8.ofNat (n / 262144 % 8 + 240)).toNat = n / 262144 + 240 := by
      rw [toNat_ofNat_of_lt (by omega), Nat.mod_eq_of_lt (by omega)]
    exact decodeFrom_four bytes hlead (hcontinuation (n / 4096)) (hcontinuation (n / 64))
      (hcontinuation n) (by omega) hvalid

/-- An ASCII byte is in the encoding of its own character only. -/
lemma mem_encodeChar_iff {byte : UInt8} (h : byte.toNat < 0x80) {c : Char} :
    byte ∈ String.utf8EncodeChar c ↔ c = Char.ofUInt8 byte := by
  constructor
  · intro hmem
    by_cases hc : c.val.toNat ≤ 0x7F
    · rw [encodeChar_of_ascii hc, List.mem_singleton] at hmem
      apply Char.ext
      apply UInt32.toNat_inj.mp
      rw [val_toNat_ofUInt8, hmem, toNat_ofNat_of_lt (by omega)]
    · have hhigh := high_of_mem_encodeChar (by omega) hmem
      omega
  · rintro rfl
    have hval : (Char.ofUInt8 byte).val.toNat = byte.toNat := val_toNat_ofUInt8 byte
    rw [encodeChar_of_ascii (by omega), hval, UInt8.ofNat_toNat]
    exact List.mem_singleton_self _

/-- A byte continues a sequence when it is in the bounds of those that do. -/
lemma isContinuation_iff (byte : UInt8) :
    isContinuation byte = true ↔ 0x80 ≤ byte.toNat ∧ byte.toNat < 0xC0 := by
  have hall : ∀ n : Fin 256,
      isContinuation (UInt8.ofNat n) = true ↔ 0x80 ≤ n.val ∧ n.val < 0xC0 := by
    decide +kernel
  have hbyte := hall ⟨byte.toNat, byte.toNat_lt⟩
  rwa [UInt8.ofNat_toNat] at hbyte

/-- A character has one byte that continues nothing. -/
lemma countP_encodeChar (c : Char) :
    (String.utf8EncodeChar c).countP (fun byte => !isContinuation byte) = 1 := by
  have hcontinuation (m : ℕ) : isContinuation (UInt8.ofNat (m % 64 + 128)) = true := by
    rw [isContinuation_iff, toNat_ofNat_of_lt (by omega)]
    omega
  have hlead {m : ℕ} (h : m < 0x80 ∨ 0xC0 ≤ m) (h' : m < 256) :
      isContinuation (UInt8.ofNat m) = false := by
    rw [Bool.eq_false_iff, ne_eq, isContinuation_iff, toNat_ofNat_of_lt h']
    omega
  rw [String.utf8EncodeChar]
  generalize c.val.toNat = n
  split_ifs
  · have hfirst := @hlead n (by omega) (by omega)
    simp only [List.countP_cons, List.countP_nil, hfirst]
    rfl
  · have hfirst := @hlead (n / 64 % 32 + 192) (by omega) (by omega)
    simp only [List.countP_cons, List.countP_nil, hfirst, hcontinuation]
    rfl
  · have hfirst := @hlead (n / 4096 % 16 + 224) (by omega) (by omega)
    simp only [List.countP_cons, List.countP_nil, hfirst, hcontinuation]
    rfl
  · have hfirst := @hlead (n / 262144 % 8 + 240) (by omega) (by omega)
    simp only [List.countP_cons, List.countP_nil, hfirst, hcontinuation]
    rfl

/-! ### Texts -/

/-- The bytes of characters decode to them. -/
lemma decode_flatMap_encodeChar (chars : List Char) :
    decode (chars.flatMap String.utf8EncodeChar) = chars.map some := by
  induction chars with
  | nil => rfl
  | cons c chars ih =>
    rw [List.flatMap_cons, decode, decodeFrom_encodeChar, ← decode, ih, List.map_cons]

/-- The bytes of one text after another. -/
lemma encode_append (first second : String) :
    encode (first ++ second) = encode first ++ encode second := by
  rw [encode, String.toList_append, List.flatMap_append]
  rfl

/-- A text comes back from its bytes. -/
theorem text?_encode (text : String) : text? (encode text) = some text := by
  have hdecode : decode (encode text) = text.toList.map some :=
    decode_flatMap_encodeChar text.toList
  have hformed : isWellFormed (encode text) = true := by
    rw [isWellFormed, hdecode, List.all_map]
    simp
  have hlossy : lossy (encode text) = text := by
    have hid : (fun piece : Decoded => piece.getD replacement) ∘ some = id := rfl
    rw [lossy, lossyChars, hdecode, List.map_map, hid, List.map_id, String.ofList_toList]
  rw [text?, if_pos hformed, hlossy]

/-- Only the empty text has no bytes. -/
lemma encode_ne_nil {text : String} (h : text ≠ "") : encode text ≠ [] := by
  intro hnil
  have htext := text?_encode text
  rw [hnil, ← encode_empty, text?_encode] at htext
  exact h (Option.some.inj htext).symm

/-- Well-formed bytes are those of a text. -/
theorem isWellFormed_iff {bytes : List UInt8} :
    isWellFormed bytes = true ↔ ∃ text, bytes = encode text := by
  constructor
  · intro h
    exact ⟨lossy bytes, (encode_lossy_of_isWellFormed h).symm⟩
  · rintro ⟨text, rfl⟩
    have htext := text?_encode text
    by_contra h
    rw [text?, if_neg h] at htext
    cases htext

/-- A text has as many characters as it has bytes that continue nothing. -/
theorem countP_encode (text : String) :
    (encode text).countP (fun byte => !isContinuation byte) = text.length := by
  rw [encode, List.countP_flatMap, ← String.length_toList]
  induction text.toList with
  | nil => rfl
  | cons c chars ih =>
    rw [List.map_cons, List.sum_cons, ih, Function.comp_apply, countP_encodeChar, List.length_cons,
      Nat.add_comm]

/-- An ASCII byte is in a text when its character is. -/
lemma mem_encode_iff {byte : UInt8} (h : byte.toNat < 0x80) {text : String} :
    byte ∈ encode text ↔ Char.ofUInt8 byte ∈ text.toList := by
  rw [encode, List.mem_flatMap]
  simp only [mem_encodeChar_iff h, exists_eq_right]

/-- A text ends with an ASCII byte only if it ends with its character. -/
lemma getLast?_of_encode {byte : UInt8} (h : byte.toNat < 0x80) {text : String}
    (hlast : (encode text).getLast? = some byte) :
    text.toList.getLast? = some (Char.ofUInt8 byte) := by
  rw [encode] at hlast
  rcases List.eq_nil_or_concat text.toList with hnil | ⟨chars, c, hchars⟩
  · rw [hnil] at hlast
    cases hlast
  · rw [hchars, List.concat_eq_append, List.flatMap_append, List.flatMap_singleton,
      List.getLast?_append_of_ne_nil _ String.utf8EncodeChar_ne_nil] at hlast
    have hc : c = Char.ofUInt8 byte := (mem_encodeChar_iff h).mp (List.mem_of_getLast? hlast)
    rw [hchars, List.concat_eq_append, List.getLast?_concat, hc]

/-! ### Cuts -/

/-- A character of well-formed bytes begins at an offset, or they end there: what stands before the
offset and what stands from it on are texts by themselves. -/
def IsBoundary (bytes : List UInt8) (offset : ℕ) : Prop :=
  isWellFormed (bytes.take offset) = true ∧ isWellFormed (bytes.drop offset) = true

/-- An ASCII byte stands on one side of a cut, or nothing does. -/
def CutAtAscii (before following : List UInt8) : Prop :=
  (∀ byte ∈ before.getLast?, byte.toNat < 0x80) ∨ ∀ byte ∈ following.head?, byte.toNat < 0x80

/-- A cut right after an ASCII byte. -/
lemma cutAtAscii_of_getLast? {bytes : List UInt8} {byte : UInt8} (hbyte : byte.toNat < 0x80)
    (hlast : bytes.getLast? = some byte) (before following : List UInt8) :
    CutAtAscii (before ++ bytes) following := by
  left
  intro b hb
  have hmem : byte ∈ (before ++ bytes).getLast? :=
    List.mem_getLast?_append_of_mem_getLast? hlast
  rw [Option.mem_unique hb hmem]
  exact hbyte

/-- No cut at an ASCII byte is inside a character: only a character beyond ASCII has bytes enough to
be cut apart. -/
lemma eq_nil_or_of_encodeChar {c : Char} {before others following : List UInt8}
    (hc : String.utf8EncodeChar c = before ++ others)
    (hcut : CutAtAscii before (others ++ following)) : before = [] ∨ others = [] := by
  by_contra h
  obtain ⟨hbefore, hothers⟩ := not_or.mp h
  have hbeyond : 0x7F < c.val.toNat := by
    by_contra hascii
    have hlength := congrArg List.length hc
    rw [encodeChar_of_ascii (by omega), List.length_append, List.length_singleton] at hlength
    have hpos := List.length_pos_iff.mpr hbefore
    have hpos' := List.length_pos_iff.mpr hothers
    omega
  rcases hcut with hlast | hhead
  · have hascii := hlast _ (List.getLast?_eq_some_getLast hbefore)
    have hmem := List.mem_append_left others (List.getLast_mem hbefore)
    rw [← hc] at hmem
    have hhigh := high_of_mem_encodeChar hbeyond hmem
    omega
  · rw [List.head?_append_of_ne_nil _ hothers] at hhead
    have hascii := hhead _ (List.head?_eq_some_head hothers)
    have hmem := List.mem_append_right before (List.head_mem hothers)
    rw [← hc] at hmem
    have hhigh := high_of_mem_encodeChar hbeyond hmem
    omega

/-- Both sides of a cut through the bytes of some characters are the bytes of characters when an
ASCII byte stands at the cut. -/
lemma exists_chars_of_append {chars : List Char} {before following : List UInt8}
    (heq : chars.flatMap String.utf8EncodeChar = before ++ following)
    (hcut : CutAtAscii before following) :
    ∃ first second : List Char, before = first.flatMap String.utf8EncodeChar ∧
      following = second.flatMap String.utf8EncodeChar := by
  induction chars generalizing before with
  | nil =>
    obtain ⟨rfl, rfl⟩ := List.append_eq_nil_iff.mp heq.symm
    exact ⟨[], [], rfl, rfl⟩
  | cons c chars ih =>
    rw [List.flatMap_cons, List.append_eq_append_iff] at heq
    rcases heq with ⟨others, rfl, heq⟩ | ⟨others, hc, rfl⟩
    · have hothers : CutAtAscii others following := by
        refine hcut.imp_left fun hlast byte hbyte => ?_
        exact hlast byte (List.mem_getLast?_append_of_mem_getLast? hbyte)
      obtain ⟨first, second, rfl, rfl⟩ := ih heq hothers
      exact ⟨c :: first, second, rfl, rfl⟩
    · rcases eq_nil_or_of_encodeChar hc hcut with rfl | rfl
      · refine ⟨[], c :: chars, rfl, ?_⟩
        rw [List.flatMap_cons, hc, List.nil_append]
      · refine ⟨[c], chars, ?_, rfl⟩
        rw [List.flatMap_singleton, hc, List.append_nil]

/-- Both sides of a cut through well-formed bytes are well-formed when an ASCII byte stands at the
cut. -/
theorem isWellFormed_of_append {before following : List UInt8}
    (h : isWellFormed (before ++ following) = true) (hcut : CutAtAscii before following) :
    isWellFormed before = true ∧ isWellFormed following = true := by
  obtain ⟨text, htext⟩ := isWellFormed_iff.mp h
  obtain ⟨first, second, hfirst, hsecond⟩ := exists_chars_of_append htext.symm hcut
  have hencode (chars : List Char) :
      chars.flatMap String.utf8EncodeChar = encode (String.ofList chars) := by
    rw [encode, String.toList_ofList]
  exact ⟨isWellFormed_iff.mpr ⟨_, hfirst.trans (hencode first)⟩,
    isWellFormed_iff.mpr ⟨_, hsecond.trans (hencode second)⟩⟩

/-- What stands between two ASCII bytes of a well-formed source is well-formed. -/
lemma isWellFormed_of_between {before inner following : List UInt8} {first last : UInt8}
    (hfirst : first.toNat < 0x80) (hlast : last.toNat < 0x80)
    (h : isWellFormed (before ++ first :: (inner ++ last :: following)) = true) :
    isWellFormed inner = true := by
  have hleft : CutAtAscii (before ++ [first]) (inner ++ last :: following) :=
    cutAtAscii_of_getLast? hfirst rfl before _
  have hright : CutAtAscii inner (last :: following) := by
    right
    rintro byte ⟨⟩
    exact hlast
  rw [← List.singleton_append, ← List.append_assoc] at h
  exact (isWellFormed_of_append (isWellFormed_of_append h hleft).2 hright).1

end UvaAnalysis.Utf8
