import Mathlib.Data.List.Infix
import UvaAnalysis.Analysis
import UvaAnalysis.Proofs.Provenance

/-!
# The findings of a report

The rule of single quotes looks at the text of a token, which was decoded with replacements, and at
one byte, which is looked up in a file again.  Both lead back to the bytes that the token was read
from: the byte is looked up in the content that the lexer had (`byteAt_of_mem_tokens`), and a
replacement is beyond ASCII, so it neither makes nor breaks an interpolation.  The findings are then
told by the bytes of the tokens alone (`report_findings`).
-/

namespace UvaAnalysis

/-! ### The rule by itself -/

/-- The finding for a token. -/
def Rule.finding (rule : Rule) (t : Token) : Finding :=
  ⟨rule.name, rule.message, t.origin, t.position, t.length⟩

/-- A single rule finds the tokens that break it. -/
lemma findings_singleton (rule : Rule) (byteAt : ByteLookup) (tokens : List Token) :
    findings [rule] byteAt tokens = (tokens.filter (rule.isBrokenBy byteAt)).map rule.finding := by
  induction tokens with
  | nil => rfl
  | cons t tokens ih =>
    have hcons : findings [rule] byteAt (t :: tokens) =
        [rule].filterMap (·.check byteAt t) ++ findings [rule] byteAt tokens := rfl
    rw [hcons, ih, List.filter_cons, List.filterMap_cons, List.filterMap_nil, Rule.check]
    cases rule.isBrokenBy byteAt t <;> rfl

/-- An interpolation is a dollar sign and an opening brace, one right after the other. -/
lemma Rule.hasInterpolation_iff (chars : List Char) :
    hasInterpolation chars = true ↔ ['$', '\x7b'] <:+: chars := by
  induction chars with
  | nil => simp [hasInterpolation]
  | cons c rest ih =>
    have hprefix : ['$', '\x7b'] <+: c :: rest ↔ c = '$' ∧ rest.head? = some '\x7b' := by
      cases rest with
      | nil => simp
      | cons d rest => simp [List.cons_prefix_cons, eq_comm]
    rw [hasInterpolation, List.infix_cons_iff, hprefix, Bool.or_eq_true, Bool.and_eq_true,
      decide_eq_true_eq, decide_eq_true_eq, ih]

/-! ### Tokens and their bytes -/

/-- A dollar sign and an opening brace. -/
def interpolation : List UInt8 := [0x24, 0x7B]

/-- Decoded text interpolates where its bytes do. -/
lemma hasInterpolation_lossy_iff (bytes : List UInt8) :
    Rule.hasInterpolation (Utf8.lossy bytes).toList = true ↔ interpolation <:+: bytes := by
  rw [Rule.hasInterpolation_iff, Utf8.lossy, String.toList_ofList]
  exact Utf8.ascii_pair_infix_lossyChars_iff (a := 0x24) (b := 0x7B) (by decide) (by decide) bytes

/-- The bytes between the first and the last byte of a token. -/
def Token.between (t : Token) (content : List UInt8) : List UInt8 :=
  Token.slice content (t.position.offset + 1) (t.stop - 1)

/-- A string literal in a content stands between two equal quotes, and its text is decoded from the
bytes between them. -/
lemma Token.ReadFrom.quoted {origin : Path} {content : List UInt8} {t : Token}
    (h : Token.ReadFrom origin content t) (hstring : t.isStringLiteral = true) :
    ∃ quote, asChar quote ∈ quotes ∧ 2 ≤ t.length ∧ content[t.position.offset]? = some quote ∧
      content[t.stop - 1]? = some quote ∧ t.text = Utf8.lossy (t.between content) := by
  obtain ⟨quote, body, hquote, _, hbytes, htext⟩ :=
    h.textTells.1 (Token.isStringLiteral_iff.mp hstring).2
  obtain ⟨before, following, hsplit, hoffset⟩ := h.exists_eq_append
  have hlength : t.length = body.length + 2 := by
    rw [← h.bytesIn_length, hbytes]
    simp
  have hcontent : content = (before ++ [quote]) ++ (body ++ (quote :: following)) := by
    rw [hsplit, hbytes]
    simp
  have hstart : t.position.offset + 1 = (before ++ [quote]).length := by
    rw [← hoffset, List.length_append, List.length_singleton]
  have hend : t.stop - 1 = (before ++ [quote]).length + body.length := by
    rw [← hstart, Token.stop, hlength]
    omega
  refine ⟨quote, hquote, by omega, ?_, ?_, ?_⟩
  · rw [hsplit, hbytes, ← hoffset]
    simp
  · rw [hend, hcontent, List.getElem?_append_right (Nat.le_add_right _ _)]
    simp
  · rw [htext, Token.between, hstart, hend, hcontent, Token.slice_middle]

/-- The first byte of a token is found in its file again. -/
lemma Sources.byteAt_of_mem_tokens {sources : Sources} {files : Files} {t : Token}
    (h : t ∈ (sources.tokens files).value) :
    ∃ content byte, sources.contentOf files t.origin = .ok content ∧
      Token.ReadFrom t.origin content t ∧ content[t.position.offset]? = some byte ∧
      sources.byteAt files t.origin t.position.offset = .ok byte := by
  obtain ⟨content, hcontent, hread⟩ := exists_content_of_mem_tokens h
  have hlt : t.position.offset < content.length := by
    have hpos := hread.length_pos
    have hle := hread.stop_le
    rw [Token.stop] at hle
    omega
  have hbyte : content[t.position.offset]? = some content[t.position.offset] :=
    List.getElem?_eq_getElem hlt
  exact ⟨content, _, hcontent, hread, hbyte, byteAt_of_contentOf hcontent hbyte⟩

/-! ### The rule by the bytes of a token -/

/-- A string literal in double quotes whose bytes between them interpolate nothing. -/
def Sources.wantsSingleQuotes (sources : Sources) (files : Files) (t : Token) : Bool :=
  t.isStringLiteral &&
    match sources.contentOf files t.origin with
    | .ok content =>
      content[t.position.offset]? = some 0x22 && !decide (interpolation <:+: t.between content)
    | .error _ => false

/-- A byte shown as a double quote is that byte. -/
lemma asChar_eq_doubleQuote_iff {byte : UInt8} : Token.asChar byte = '"' ↔ byte = 0x22 := by
  have hquote : Token.asChar 0x22 = '"' := by decide
  constructor
  · intro h
    exact Utf8.ofUInt8_injective (h.trans hquote.symm)
  · rintro rfl
    exact hquote

/-- What the rule finds in a token of the stream is told by the bytes of the token. -/
lemma Sources.isBrokenBy_eq {sources : Sources} {files : Files} {t : Token}
    (h : t ∈ (sources.tokens files).value) :
    Rule.singleQuotes.isBrokenBy (sources.byteAt files) t = sources.wantsSingleQuotes files t := by
  obtain ⟨content, byte, hcontent, hread, hbyte, hbyteAt⟩ := byteAt_of_mem_tokens h
  rw [Rule.singleQuotes, wantsSingleQuotes]
  simp only [hcontent, hbyteAt, hbyte]
  cases hstring : t.isStringLiteral with
  | false => rfl
  | true =>
    obtain ⟨_, _, _, _, _, htext⟩ := hread.quoted hstring
    have hinterpolation : Rule.hasInterpolation t.text.toList =
        decide (interpolation <:+: t.between content) := by
      rw [htext, Bool.eq_iff_iff, decide_eq_true_eq]
      exact hasInterpolation_lossy_iff _
    rw [hinterpolation]
    simp [asChar_eq_doubleQuote_iff]

/-- A token that the rule finds begins and ends with a double quote, inside the content of its
file. -/
lemma Sources.span_of_wantsSingleQuotes {sources : Sources} {files : Files} {t : Token}
    (h : t ∈ (sources.tokens files).value) (hwants : sources.wantsSingleQuotes files t = true) :
    ∃ content, sources.contentOf files t.origin = .ok content ∧ 2 ≤ t.length ∧
      t.position.offset + t.length ≤ content.length ∧
      content[t.position.offset]? = some 0x22 ∧
      content[t.position.offset + t.length - 1]? = some 0x22 := by
  obtain ⟨content, hcontent, hread⟩ := exists_content_of_mem_tokens h
  rw [wantsSingleQuotes, Bool.and_eq_true] at hwants
  obtain ⟨hstring, hbytes⟩ := hwants
  simp only [hcontent, Bool.and_eq_true, decide_eq_true_eq] at hbytes
  obtain ⟨quote, _, hlength, hfirst, hlast, _⟩ := hread.quoted hstring
  obtain rfl : quote = 0x22 := Option.some.inj (hfirst.symm.trans hbytes.1)
  exact ⟨content, hcontent, hlength, hread.stop_le, hfirst, hlast⟩

/-- The findings of a report, by the bytes of the tokens. -/
lemma Sources.findings_report (sources : Sources) (files : Files) (options : Options)
    (elapsed : Duration) :
    (sources.report files options elapsed).findings =
      ((sources.tokens files).value.filter (sources.wantsSingleQuotes files)).map
        Rule.singleQuotes.finding := by
  rw [report, standardRules, findings_singleton,
    List.filter_congr fun t ht => Sources.isBrokenBy_eq ht]

/-- The findings of a report are, in the order of the stream, the string literals that stand in
double quotes and have no interpolation between them, by the bytes of the content that the request
has for their file.  Each of them begins and ends with a double quote there.  No token is passed
over, since its first byte can always be looked up. -/
theorem report_findings {files : Files} {request : Request} {sources : Sources}
    (hload : request.load files = .ok sources) (options : Options) (elapsed : Duration) :
    ∃ report, analyze files options elapsed request = .ok report ∧
      report.findings =
        ((sources.tokens files).value.filter (sources.wantsSingleQuotes files)).map
          Rule.singleQuotes.finding ∧
      (∀ finding ∈ report.findings, ∃ content,
        sources.contentOf files finding.file = .ok content ∧ 2 ≤ finding.length ∧
        finding.position.offset + finding.length ≤ content.length ∧
        content[finding.position.offset]? = some 0x22 ∧
        content[finding.position.offset + finding.length - 1]? = some 0x22) ∧
      ∀ t ∈ (sources.tokens files).value, ∃ byte,
        sources.byteAt files t.origin t.position.offset = .ok byte := by
  have hfindings := sources.findings_report files options elapsed
  refine ⟨sources.report files options elapsed, ?_, hfindings, ?_, ?_⟩
  · rw [analyze, hload]
  · intro finding hfinding
    rw [hfindings] at hfinding
    obtain ⟨t, ht, rfl⟩ := List.mem_map.mp hfinding
    obtain ⟨hmem, hwants⟩ := List.mem_filter.mp ht
    exact Sources.span_of_wantsSingleQuotes hmem hwants
  · intro t ht
    obtain ⟨_, byte, _, _, _, hbyteAt⟩ := Sources.byteAt_of_mem_tokens ht
    exact ⟨byte, hbyteAt⟩

/-- The findings for a buffer with one string literal in double quotes and one in single quotes. -/
theorem report_findings_unsaved :
    let files : Files := ⟨[], [(["m"], .file []), (["b"], .file (Utf8.encode "\"a\" 'b'"))]⟩
    ∃ report, analyze files ⟨true⟩ .zero ⟨⟨"/m"⟩, ⟨"/b"⟩⟩ = .ok report ∧
      report.findings = [Rule.singleQuotes.finding
        ⟨⟨"/m"⟩, ⟨1, 1, 0⟩, .literal, .string, "a", 3⟩] := by
  intro files
  have hload : Request.load ⟨⟨"/m"⟩, ⟨"/b"⟩⟩ files =
      .ok ⟨⟨"/m"⟩, Utf8.encode "\"a\" 'b'"⟩ := by decide +kernel
  obtain ⟨report, hreport, hfindings, _⟩ := report_findings hload ⟨true⟩ .zero
  refine ⟨report, hreport, ?_⟩
  rw [hfindings]
  decide +kernel

end UvaAnalysis
