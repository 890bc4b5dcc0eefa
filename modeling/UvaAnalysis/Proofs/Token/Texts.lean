import UvaAnalysis.Proofs.Text.Encoding
import UvaAnalysis.Proofs.Token.Lossless

/-!
# The text of a token and its bytes

The text of a token leaves out the quotes of a string literal and the sign of a directive, and
spells what is left byte for byte, so the length of the token follows from it.  That can fail in one
way only: a string literal may hold bytes that are malformed, and these are replaced in its text.

The lexer cuts string literals out by bytes, and a backslash may take half a character along.  Both
cuts are at quotes all the same, so in a well-formed source every text is exact (`tokenize_text`).
-/

namespace UvaAnalysis.Token

/-- The bytes that stand around the text of a token: a quote on either side of a string literal, the
sign of a directive, and nothing otherwise. -/
def Frames (t : Token) (inner bytes : List UInt8) : Prop :=
  if t.isStringLiteral then ∃ quote, asChar quote ∈ quotes ∧ bytes = quote :: (inner ++ [quote])
  else if t.category = .directive then ∃ hash, asChar hash = '#' ∧ bytes = hash :: inner
  else bytes = inner

/-- The number of bytes that stand around the text of a token. -/
def frameLength (t : Token) : ℕ :=
  if t.isStringLiteral then 2 else if t.category = .directive then 1 else 0

/-- The bytes of a token are those inside it and those around. -/
lemma Frames.length_eq {t : Token} {inner bytes : List UInt8} (h : t.Frames inner bytes) :
    bytes.length = inner.length + t.frameLength := by
  unfold Frames at h
  unfold frameLength
  split_ifs at h ⊢
  · obtain ⟨quote, -, rfl⟩ := h
    simp
  · obtain ⟨hash, -, rfl⟩ := h
    rfl
  · rw [h, Nat.add_zero]

/-! ### Lexemes -/

section

variable {category : Category} {kind : Kind} {text : String} {bytes following : List UInt8}

/-- Only a literal is of the string kind. -/
lemma Lexeme.category_of_string (h : Lexeme category .string text bytes following) :
    category = .literal := by
  cases h with
  | string => rfl
  | word _ _ _ hclass => exact absurd (congrArg Prod.snd hclass) (classifyWord_ne _).2

/-- A directive begins with its sign. -/
lemma Lexeme.exists_of_directive (h : Lexeme .directive kind text bytes following) :
    ∃ hash name, asChar hash = '#' ∧ bytes = hash :: name ∧ Utf8.encode text = name := by
  have htext := h.encode_text_of_directive
  cases h with
  | directive hhash => exact ⟨_, _, hhash, rfl, htext⟩
  | word _ _ _ hclass => exact absurd (congrArg Prod.fst hclass) (classifyWord_ne _).1

end

/-- A string literal that was read from a source stands between quotes, and its text decodes what it
holds.  That is well-formed if the source is. -/
lemma ReadFrom.exists_of_string {origin : Path} {source : List UInt8} {t : Token}
    (h : ReadFrom origin source t) (hkind : t.kind = .string) :
    ∃ quote inner, asChar quote ∈ quotes ∧ t.bytesIn source = quote :: (inner ++ [quote]) ∧
      t.text = Utf8.lossy inner ∧
      (Utf8.isWellFormed source = true → Utf8.isWellFormed inner = true) := by
  obtain ⟨quote, inner, hquote, -, hbytes, htext⟩ := (hkind ▸ h.lexeme).exists_of_string
  refine ⟨quote, inner, hquote, hbytes, htext, fun hformed => ?_⟩
  obtain ⟨before, following, hsource, -⟩ := h.exists_eq_append
  rw [hbytes] at hsource
  rw [hsource, List.cons_append, List.append_assoc] at hformed
  have hascii := ascii_of_mem (by decide) hquote
  exact Utf8.isWellFormed_of_between hascii hascii hformed

/-- The text of a token spells the bytes inside the token, and its length tells that of the token.
This holds of every token of a well-formed source, of every token of any source that is not a string
literal, and of every string literal that holds well-formed bytes. -/
theorem tokenize_text {origin : Path} {source : List UInt8} {t : Token}
    (h : t ∈ (tokenize origin source).value) :
    ∃ inner, t.Frames inner (t.bytesIn source) ∧
      (Utf8.isWellFormed source = true ∨ t.isStringLiteral = false ∨
          Utf8.isWellFormed inner = true →
        Utf8.encode t.text = inner ∧
          t.length = (Utf8.encode t.text).length + t.frameLength) := by
  have hread := readFrom_of_mem_tokenize h
  -- The length follows from the text, so only the text is left to look at.
  suffices hframed : ∃ inner, t.Frames inner (t.bytesIn source) ∧
      (Utf8.isWellFormed source = true ∨ t.isStringLiteral = false ∨
        Utf8.isWellFormed inner = true → Utf8.encode t.text = inner) by
    obtain ⟨inner, hframes, htext⟩ := hframed
    refine ⟨inner, hframes, fun hexact => ⟨htext hexact, ?_⟩⟩
    rw [htext hexact, ← hframes.length_eq, hread.bytesIn_length]
  unfold Frames
  by_cases hkind : t.kind = .string
  · obtain ⟨quote, inner, hquote, hbytes, htext, hformed⟩ := hread.exists_of_string hkind
    have hliteral : t.isStringLiteral = true :=
      isStringLiteral_iff.mpr ⟨(hkind ▸ hread.lexeme).category_of_string, hkind⟩
    refine ⟨inner, ?_, ?_⟩
    · rw [if_pos hliteral]
      exact ⟨quote, hquote, hbytes⟩
    · rw [htext, hliteral]
      rintro (hsource | hfalse | hinner)
      · exact Utf8.encode_lossy_of_isWellFormed (hformed hsource)
      · cases hfalse
      · exact Utf8.encode_lossy_of_isWellFormed hinner
  · have hother : ¬ t.isStringLiteral = true := fun hliteral =>
      hkind (isStringLiteral_iff.mp hliteral).2
    by_cases hcategory : t.category = .directive
    · obtain ⟨hash, name, hhash, hbytes, htext⟩ :=
        (hcategory ▸ hread.lexeme).exists_of_directive
      refine ⟨name, ?_, fun _ => htext⟩
      rw [if_neg hother, if_pos hcategory]
      exact ⟨hash, hhash, hbytes⟩
    · refine ⟨t.bytesIn source, ?_, fun _ => hread.lexeme.encode_text hcategory hkind⟩
      rw [if_neg hother, if_neg hcategory]

/-- A string literal in which one backslash stands before a character of two bytes and another
before a quote. -/
theorem tokenize_text_escapes :
    let source := Utf8.encode "#use '\\é\\''"
    let t : Token := ⟨⟨"m"⟩, ⟨1, 6, 5⟩, .literal, .string, "\\é\\'", 7⟩
    t ∈ (tokenize ⟨"m"⟩ source).value ∧ Utf8.isWellFormed source = true ∧
      ∃ inner, t.Frames inner (t.bytesIn source) ∧ Utf8.encode t.text = inner ∧
        t.length = (Utf8.encode t.text).length + 2 := by
  intro source t
  have hmem : t ∈ (tokenize ⟨"m"⟩ source).value := by decide +kernel
  have hformed : Utf8.isWellFormed source = true := by decide +kernel
  obtain ⟨inner, hframes, hexact⟩ := tokenize_text hmem
  obtain ⟨htext, hlength⟩ := hexact (.inl hformed)
  exact ⟨hmem, hformed, inner, hframes, htext, hlength⟩

end UvaAnalysis.Token
