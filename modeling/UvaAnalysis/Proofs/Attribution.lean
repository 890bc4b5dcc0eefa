import UvaAnalysis.Analysis
import UvaAnalysis.Proofs.Provenance
import UvaAnalysis.Proofs.Tree.ClassName

/-!
# Where names are said to be

A report says of every class where its name stands, and where the name stands besides.  Each such
place is exact, down to the byte, in the content that the request has for its file
(`report_attribution`).  The name of a class is an identifier of the stream, a reference is one too,
and every token of the stream was read from the content of its origin.
-/

namespace UvaAnalysis

/-- A name stands as a whole word at a position of a content. -/
structure StandsAt (name : String) (position : Position) (content : List UInt8) : Prop where
  le_length : position.offset + (Utf8.encode name).length ≤ content.length
  bytes_eq : (content.drop position.offset).take (Utf8.encode name).length = Utf8.encode name
  not_continued : ∀ byte ∈ content[position.offset + (Utf8.encode name).length]?,
    Token.continuesWord byte = false
  position_eq : position = Position.after (content.take position.offset)

/-- An identifier stands where it was read. -/
lemma Token.ReadFrom.standsAt {origin : Path} {content : List UInt8} {t : Token}
    (h : Token.ReadFrom origin content t) (hcategory : t.category = .identifier) :
    StandsAt t.text t.position content := by
  have hlexeme := h.lexeme
  rw [hcategory] at hlexeme
  obtain ⟨hbytes, hnext⟩ := hlexeme.of_identifier
  have hlength : (Utf8.encode t.text).length = t.length := by
    rw [hbytes, h.bytesIn_length]
  refine ⟨?_, ?_, ?_, h.position_eq⟩
  · rw [hlength]
    exact h.stop_le
  · rw [hlength, hbytes, Token.bytesIn, Token.slice, Token.stop, Nat.add_sub_cancel_left]
  · rw [hlength]
    rw [Token.Stops, List.head?_drop] at hnext
    exact hnext

/-- A name stands at a place as the request has it: the content of the file is the buffer for the
file that is analyzed, and what is stored for any other. -/
def Sources.HasNameAt (sources : Sources) (files : Files) (name : String) (file : Path)
    (position : Position) : Prop :=
  ∃ content, sources.contentOf files file = .ok content ∧ StandsAt name position content

/-- An identifier of the stream stands where it says. -/
lemma Sources.hasNameAt_of_mem_tokens {sources : Sources} {files : Files} {t : Token}
    (h : t ∈ (sources.tokens files).value) (hcategory : t.category = .identifier) :
    sources.HasNameAt files t.text t.origin t.position := by
  obtain ⟨content, hcontent, hread⟩ := exists_content_of_mem_tokens h
  exact ⟨content, hcontent, hread.standsAt hcategory⟩

/-- The references to a name are places where it stands. -/
lemma Sources.hasNameAt_of_mem_references {sources : Sources} {files : Files} {name : String}
    {reference : Reference} (h : reference ∈ references name (sources.tokens files).value) :
    sources.HasNameAt files name reference.file reference.position := by
  obtain ⟨t, ht, rfl⟩ := List.mem_map.mp h
  obtain ⟨hmem, his⟩ := List.mem_filter.mp ht
  obtain ⟨hcategory, rfl⟩ := Token.is_iff.mp his
  exact hasNameAt_of_mem_tokens hmem hcategory

/-- The declarations are those of classes that the stream names. -/
lemma Sources.hasNameAt_of_mem_declarations {sources : Sources} {files : Files}
    {declaration : Declaration}
    (h : declaration ∈ (Tree.parse (sources.tokens files).value).value.declarations
      (sources.tokens files).value) :
    sources.HasNameAt files declaration.name declaration.file declaration.position ∧
      declaration.references = references declaration.name (sources.tokens files).value := by
  obtain ⟨t, ht, rfl⟩ := List.mem_map.mp h
  obtain ⟨tree, htree, hname⟩ := List.mem_filterMap.mp ht
  obtain ⟨hmem, hcategory⟩ := Tree.mem_of_className?_parse htree hname
  exact ⟨hasNameAt_of_mem_tokens hmem hcategory, rfl⟩

/-- Every place in a report is exact: the name of the declaration stands there as a whole word, in
the content that the request has for the file.  A token of the stream that stands in the buffer has
the file that is analyzed as its origin, and one that stands in an included file has that file,
which is another, with what is stored for it. -/
theorem report_attribution {files : Files} {request : Request} {sources : Sources}
    (hload : request.load files = .ok sources) (options : Options) (elapsed : Duration) :
    ∃ report, analyze files options elapsed request = .ok report ∧
      (∀ declaration ∈ report.declarations,
        sources.HasNameAt files declaration.name declaration.file declaration.position ∧
        ∀ reference ∈ declaration.references,
          sources.HasNameAt files declaration.name reference.file reference.position) ∧
      (∀ t ∈ (sources.tokens files).value,
        t ∈ (Token.tokenize sources.primary sources.buffer).value ∨
          ∃ path source, sources.Includes files path source ∧
            t ∈ (Token.tokenize path source).value) ∧
      (∀ t ∈ (Token.tokenize sources.primary sources.buffer).value,
        t.origin = sources.primary) ∧
      ∀ path source, sources.Includes files path source →
        path.sameAs sources.primary = false ∧ files.read path = .ok source ∧
          ∀ t ∈ (Token.tokenize path source).value, t.origin = path := by
  refine ⟨sources.report files options elapsed, ?_, ?_,
    fun t ht => Sources.mem_call_or_included ht, ?_, ?_⟩
  · rw [analyze, hload]
  · intro declaration hdeclaration
    obtain ⟨hname, hreferences⟩ := Sources.hasNameAt_of_mem_declarations hdeclaration
    refine ⟨hname, fun reference hreference => ?_⟩
    rw [hreferences] at hreference
    exact Sources.hasNameAt_of_mem_references hreference
  · intro t ht
    exact (Token.readFrom_of_mem_tokenize ht).origin_eq
  · rintro path source ⟨outer, houter, hasks, hread⟩
    refine ⟨Sources.not_sameAs_primary houter hasks, hread, fun t ht => ?_⟩
    exact (Token.readFrom_of_mem_tokenize ht).origin_eq

/-- The attribution of a class in a buffer that is not saved: its name is reported where it is
declared, and in a file that the buffer includes. -/
theorem report_attribution_unsaved :
    let files : Files := ⟨[], [(["m"], .file []),
      (["b"], .file (Utf8.encode "#include 'i'\nclass A end")), (["i"], .file (Utf8.encode "A"))]⟩
    let sources : Sources := ⟨⟨"/m"⟩, Utf8.encode "#include 'i'\nclass A end"⟩
    let inside : Reference := ⟨⟨"/i"⟩, ⟨1, 1, 0⟩⟩
    let own : Reference := ⟨⟨"/m"⟩, ⟨2, 7, 19⟩⟩
    ∃ report, analyze files ⟨true⟩ .zero ⟨⟨"/m"⟩, ⟨"/b"⟩⟩ = .ok report ∧
      report.declarations = [⟨"A", own.file, own.position, [inside, own]⟩] ∧
      sources.HasNameAt files "A" own.file own.position ∧
      sources.HasNameAt files "A" inside.file inside.position := by
  intro files sources inside own
  have hload : Request.load ⟨⟨"/m"⟩, ⟨"/b"⟩⟩ files = .ok sources := by decide +kernel
  have hrun : (analyze files ⟨true⟩ .zero ⟨⟨"/m"⟩, ⟨"/b"⟩⟩).map Report.declarations =
      .ok [⟨"A", own.file, own.position, [inside, own]⟩] := by decide +kernel
  obtain ⟨report, hreport, hplaces, _⟩ := report_attribution hload ⟨true⟩ .zero
  rw [hreport] at hrun
  have hdeclarations : report.declarations = [⟨"A", own.file, own.position, [inside, own]⟩] :=
    Except.ok.inj hrun
  rw [hdeclarations] at hplaces
  obtain ⟨hown, hreferences⟩ := hplaces _ (List.mem_singleton_self _)
  exact ⟨report, hreport, hdeclarations, hown, hreferences inside List.mem_cons_self⟩

end UvaAnalysis
