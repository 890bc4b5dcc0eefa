import UvaAnalysis.Proofs.Place
import UvaAnalysis.Proofs.SingleQuotes

/-!
# The saved copy of the analyzed file

While a buffer stands in for a file, the report should not depend on what is saved in that file.
Two snapshots that differ in that alone are compared run by run (`SameBut`).  Looking up a path
comes to the same in both unless the path leads to the file, so an analysis does too unless an
include leads there.

An include path is normalized, and two normalized paths lead to the file.  The normal form of the
analyzed path is stopped as a cycle, but its twin, with `..` right after the root, is not.  The
report is independent of the saved copy exactly when no include that is reached names the twin
(`verdict_independent_iff`).
-/

namespace UvaAnalysis

/-! ### Snapshots that differ in one content -/

/-- Two snapshots are the same but for the content of the file at a place. -/
structure Files.SameBut (place : Place) (files files' : Files) : Prop where
  workingPlace_eq : files'.workingPlace = files.workingPlace
  entryAt?_eq : ∀ other, other ≠ place → files'.entryAt? other = files.entryAt? other
  exists_contents : ∃ content content', files.entryAt? place = some (.file content) ∧
    files'.entryAt? place = some (.file content')

namespace Files

variable {place : Place} {files files' : Files}

/-- What is found is the same, or it is the file at a place, with some content each time. -/
inductive Alike (place : Place) :
    Except FileError (Place × Entry) → Except FileError (Place × Entry) → Prop
  | same (found : Except FileError (Place × Entry)) : Alike place found found
  | content (content content' : List UInt8) :
    Alike place (.ok (place, .file content)) (.ok (place, .file content'))

/-- One step from alike places leads to alike places: only a step to the file itself can tell the
snapshots apart. -/
lemma SameBut.follow_alike (h : SameBut place files files') {here here' : Place × Entry}
    (hhere : Alike place (.ok here) (.ok here')) (stretch : String) :
    Alike place (files.follow here stretch) (files'.follow here' stretch) := by
  cases hhere with
  | content content content' => exact .same _
  | same found =>
    obtain ⟨current, entry⟩ := here
    cases entry with
    | file content => exact .same _
    | directory =>
      rw [follow_directory, follow_directory]
      split_ifs
      · exact .same _
      · exact .same _
      · exact .same _
      · by_cases hplace : current ++ [stretch] = place
        · obtain ⟨content, content', hfile, hfile'⟩ := h.exists_contents
          rw [hplace, hfile, hfile']
          exact .content content content'
        · rw [h.entryAt?_eq _ hplace]
          exact .same _

/-- Several steps from alike places lead to alike places. -/
lemma SameBut.foldlM_alike (h : SameBut place files files') {here here' : Place × Entry}
    (hhere : Alike place (.ok here) (.ok here')) (stretches : List String) :
    Alike place (stretches.foldlM files.follow here) (stretches.foldlM files'.follow here') := by
  induction stretches generalizing here here' with
  | nil => exact hhere
  | cons stretch stretches ih =>
    rw [List.foldlM_cons, List.foldlM_cons]
    have hnext := h.follow_alike hhere stretch
    generalize files.follow here stretch = found at hnext
    generalize files'.follow here' stretch = found' at hnext
    cases hnext with
    | content content content' => exact ih (.content content content')
    | same =>
      cases found with
      | error e => exact .same _
      | ok next => exact ih (.same _)

/-- A path leads to the same in both snapshots, or to the file in which they differ. -/
theorem SameBut.find_alike (h : SameBut place files files') (path : Path) :
    Alike place (files.find path) (files'.find path) := by
  unfold find
  split_ifs
  · exact .same _
  · exact .same _
  · exact .same _
  · exact h.foldlM_alike (.same _) _
  · rw [h.workingPlace_eq]
    exact h.foldlM_alike (.same _) _

/-- A file is read the same in both snapshots, unless it is the one in which they differ. -/
lemma SameBut.read_eq_or (h : SameBut place files files') (path : Path) :
    files'.read path = files.read path ∨
      ∃ content content', files.find path = .ok (place, .file content) ∧
        files'.find path = .ok (place, .file content') := by
  have halike := h.find_alike path
  rw [read, read]
  generalize files.find path = found at halike
  generalize files'.find path = found' at halike
  cases halike with
  | same => exact .inl rfl
  | content content content' => exact .inr ⟨content, content', rfl, rfl⟩

/-- Storing a content changes that content alone. -/
lemma sameBut_put {content : List UInt8} (h : files.entryAt? place = some (.file content))
    (hplace : place ≠ []) (content' : List UInt8) :
    SameBut place files (files.put place (.file content')) := by
  refine ⟨rfl, fun other hother => entryAt?_put_of_ne hother _, content, content', h, ?_⟩
  exact entryAt?_put_self hplace _

/-- The file in which two snapshots differ is found in the other one too. -/
lemma SameBut.find_file (h : SameBut place files files') {path : Path} {content : List UInt8}
    (hfind : files.find path = .ok (place, .file content)) :
    ∃ content', files'.find path = .ok (place, .file content') := by
  have halike := h.find_alike path
  rw [hfind] at halike
  generalize files'.find path = found' at halike
  cases halike with
  | same => exact ⟨content, rfl⟩
  | content _ content' => exact ⟨content', rfl⟩

/-- What is found elsewhere is found in the other one too. -/
lemma SameBut.find_other (h : SameBut place files files') {path : Path} {other : Place}
    {entry : Entry} (hfind : files.find path = .ok (other, entry)) (hother : other ≠ place) :
    files'.find path = .ok (other, entry) := by
  have halike := h.find_alike path
  rw [hfind] at halike
  generalize files'.find path = found' at halike
  cases halike with
  | same => rfl
  | content => exact absurd rfl hother

/-- A relative path is made absolute in the same way in both snapshots. -/
lemma SameBut.workingDirectory_eq (h : SameBut place files files') :
    files'.workingDirectory = files.workingDirectory := by
  rw [workingDirectory, workingDirectory, h.workingPlace_eq]

end Files

/-! ### Editing a file -/

/-- A request whose input is the file at a place and whose buffer is a file at another, with the
sources that it loads. -/
structure Request.Edits (request : Request) (files : Files) (place : Place) (sources : Sources) :
    Prop where
  primary_eq : request.input.absolute? files.workingDirectory = some sources.primary
  exists_saved : ∃ saved, files.find sources.primary = .ok (place, .file saved)
  exists_buffer : ∃ path other, request.buffer.absolute? files.workingDirectory = some path ∧
    files.find path = .ok (other, .file sources.buffer) ∧ other ≠ place

namespace Request.Edits

variable {request : Request} {files files' : Files} {place : Place} {sources : Sources}

/-- The request loads the sources that it is said to load. -/
lemma load_eq (h : request.Edits files place sources) : request.load files = .ok sources := by
  obtain ⟨saved, hsaved⟩ := h.exists_saved
  obtain ⟨path, other, hpath, hbuffer, _⟩ := h.exists_buffer
  simp only [load, h.primary_eq, hpath, hsaved, Files.read_of_find hbuffer]

/-- What is saved in the file does not matter for what a request loads. -/
lemma of_sameBut (h : request.Edits files place sources) (hsame : files.SameBut place files') :
    request.Edits files' place sources := by
  obtain ⟨saved, hsaved⟩ := h.exists_saved
  obtain ⟨path, other, hpath, hbuffer, hother⟩ := h.exists_buffer
  refine ⟨?_, hsame.find_file hsaved, path, other, ?_, hsame.find_other hbuffer hother, hother⟩
  · rw [hsame.workingDirectory_eq, h.primary_eq]
  · rw [hsame.workingDirectory_eq, hpath]

/-- The path of the analyzed file is absolute, since a request makes it so. -/
lemma isAbsolute_primary (h : request.Edits files place sources) :
    sources.primary.isAbsolute = true :=
  Path.isAbsolute_of_absolute? files.isAbsolute_workingDirectory h.primary_eq

/-- The files that tokens come from have absolute paths with a component after the root. -/
lemma isAbsolute_origin (h : request.Edits files place sources) {inner : Token.Call}
    (hreaches : sources.Reaches files inner) :
    ∀ t ∈ inner.tokens, t.origin.isAbsolute = true ∧ t.origin.body ≠ [] := by
  induction hreaches with
  | refl =>
    intro t ht
    obtain ⟨saved, hsaved⟩ := h.exists_saved
    rw [(Token.readFrom_of_mem_tokenize ht).origin_eq]
    exact ⟨h.isAbsolute_primary, Files.body_ne_nil_of_find h.isAbsolute_primary hsaved⟩
  | tail _ henters ih =>
    obtain ⟨path, source, hasks, hread, rfl⟩ := henters
    intro t ht
    rw [(Token.readFrom_of_mem_tokenize ht).origin_eq]
    obtain ⟨directive, target, hitem, rfl⟩ := hasks.exists_inclusion
    obtain ⟨habsolute, hbody⟩ := ih directive (Token.Item.head_mem hitem)
    have hpath := Path.isAbsolute_locate habsolute hbody ⟨target.text⟩
    obtain ⟨_, hfind⟩ := Files.exists_find_of_read hread
    exact ⟨hpath, Files.body_ne_nil_of_find hpath hfind⟩

/-- The only path that a reached call asks for and that leads to the edited file is the twin: the
normal form of the analyzed path is on the stack. -/
lemma eq_twin_of_find (h : request.Edits files place sources) {inner : Token.Call}
    (hreaches : sources.Reaches files inner) {path : Path} (hasks : inner.Asks path) {entry : Entry}
    (hfind : files.find path = .ok (place, entry)) : path = sources.primary.twin := by
  obtain ⟨saved, hsaved⟩ := h.exists_saved
  have hpath : path.isAbsolute = true := by
    obtain ⟨directive, target, hitem, rfl⟩ := hasks.exists_inclusion
    obtain ⟨habsolute, hbody⟩ := h.isAbsolute_origin hreaches directive (Token.Item.head_mem hitem)
    exact Path.isAbsolute_locate habsolute hbody _
  rcases Files.eq_normalize_or_twin h.isAbsolute_primary hpath (Sources.normalize_of_asks hasks)
    hsaved hfind with heq | heq
  · have hstack := List.any_eq_false.mp hasks.not_on_stack _
      (Sources.normalize_mem_stack hreaches)
    rw [heq] at hstack
    exact absurd (Path.sameAs_refl _) hstack
  · exact heq

end Request.Edits

/-- An include that expanding the buffer reaches names the twin of the analyzed path, and the twin
can be read. -/
def Sources.IncludesTwin (sources : Sources) (files : Files) : Prop :=
  ∃ source, sources.Includes files sources.primary.twin source

section Edits

variable {request : Request} {files files' : Files} {place : Place} {sources : Sources}

/-- What a reached call asks for is the same in both snapshots, unless it is the twin. -/
lemma read_eq_or_twin (h : request.Edits files place sources) (hsame : files.SameBut place files')
    {inner : Token.Call} (hreaches : sources.Reaches files inner) {path : Path}
    (hasks : inner.Asks path) :
    files'.read path = files.read path ∨ path = sources.primary.twin ∧
      ∃ content content', files.read path = .ok content ∧ files'.read path = .ok content' := by
  rcases hsame.read_eq_or path with heq | ⟨content, content', hfind, hfind'⟩
  · exact .inl heq
  · exact .inr ⟨h.eq_twin_of_find hreaches hasks hfind, content, content',
      Files.read_of_find hfind, Files.read_of_find hfind'⟩

/-! ### Without the twin the saved copy does not matter -/

/-- What a reached call asks for is the same in both snapshots, if none asks for the twin. -/
lemma read_eq_of_not_includesTwin (h : request.Edits files place sources)
    (hsame : files.SameBut place files') (htwin : ¬ sources.IncludesTwin files)
    {inner : Token.Call} (hreaches : sources.Reaches files inner) {path : Path}
    (hasks : inner.Asks path) : files'.read path = files.read path := by
  rcases read_eq_or_twin h hsame hreaches hasks with heq | ⟨rfl, content, _, hread, _⟩
  · exact heq
  · exact absurd ⟨content, inner, hreaches, hasks, hread⟩ htwin

/-- The stream is the same. -/
lemma tokens_eq_of_not_includesTwin (h : request.Edits files place sources)
    (hsame : files.SameBut place files') (htwin : ¬ sources.IncludesTwin files) :
    sources.tokens files' = sources.tokens files := by
  have hexpand : sources.call.expand files' = sources.call.expand files :=
    Token.Call.expand_congr fun inner path hreaches hasks =>
      read_eq_of_not_includesTwin h hsame htwin hreaches hasks
  have htokens (files : Files) : sources.tokens files =
      ⟨(sources.call.expand files).value, (Token.tokenize sources.primary sources.buffer).faults ++
        (sources.call.expand files).faults⟩ := rfl
  rw [htokens, htokens, hexpand]

/-- So is the content of every file that a token of the stream comes from. -/
lemma contentOf_eq_of_not_includesTwin (h : request.Edits files place sources)
    (hsame : files.SameBut place files') (htwin : ¬ sources.IncludesTwin files) {t : Token}
    (ht : t ∈ (sources.tokens files).value) :
    sources.contentOf files' t.origin = sources.contentOf files t.origin := by
  rw [Sources.contentOf, Sources.contentOf]
  rcases Sources.readFrom_of_mem_tokens ht with ⟨horigin, _⟩ | ⟨source, hincludes, _⟩
  · have hprimary : t.origin.sameAs sources.primary = true := horigin ▸ Path.sameAs_refl _
    rw [if_pos hprimary, if_pos hprimary]
  · obtain ⟨outer, houter, hasks, _⟩ := hincludes
    rw [read_eq_of_not_includesTwin h hsame htwin houter hasks]

/-- What a report says, save for the time that it took. -/
def Report.verdict (report : Report) : List Finding × List Declaration × List String :=
  (report.findings, report.declarations, report.faults)

/-- The verdict is the same. -/
lemma verdict_eq_of_not_includesTwin (h : request.Edits files place sources)
    (hsame : files.SameBut place files') (htwin : ¬ sources.IncludesTwin files) (options : Options)
    (elapsed elapsed' : Duration) :
    (sources.report files' options elapsed').verdict =
      (sources.report files options elapsed).verdict := by
  have htokens := tokens_eq_of_not_includesTwin h hsame htwin
  have hfindings : (sources.report files' options elapsed').findings =
      (sources.report files options elapsed).findings := by
    rw [Sources.findings_report, Sources.findings_report, htokens]
    congr 1
    refine List.filter_congr fun t ht => ?_
    rw [Sources.wantsSingleQuotes, Sources.wantsSingleQuotes,
      contentOf_eq_of_not_includesTwin h hsame htwin ht]
  rw [Report.verdict, Report.verdict, hfindings]
  simp only [Sources.report, htokens]

/-! ### With the twin it does -/

/-- Whether the twin is included does not depend on the saved copy. -/
lemma includesTwin_of_sameBut (h : request.Edits files place sources)
    (hsame : files.SameBut place files') (htwin : sources.IncludesTwin files) :
    sources.IncludesTwin files' := by
  -- The first call that asks for the twin is reached in both snapshots.
  have hreaches {inner : Token.Call} (hinner : sources.Reaches files inner) :
      sources.Reaches files' inner ∨ sources.IncludesTwin files' := by
    induction hinner with
    | refl => exact .inl .refl
    | tail houter henters ih =>
      obtain ⟨path, source, hasks, hread, rfl⟩ := henters
      rcases ih with houter' | htwin'
      · rcases read_eq_or_twin h hsame houter hasks with heq | ⟨rfl, _, content', _, hread'⟩
        · rw [← heq] at hread
          exact .inl (houter'.tail ⟨path, source, hasks, hread, rfl⟩)
        · exact .inr ⟨content', _, houter', hasks, hread'⟩
      · exact .inr htwin'
  obtain ⟨source, outer, houter, hasks, hread⟩ := htwin
  rcases hreaches houter with houter' | htwin'
  · rcases read_eq_or_twin h hsame houter hasks with heq | ⟨_, _, content', _, hread'⟩
    · rw [← heq] at hread
      exact ⟨source, outer, houter', hasks, hread⟩
    · exact ⟨content', outer, houter', hasks, hread'⟩
  · exact htwin'

/-- What the twin is included with is the saved copy. -/
lemma entryAt?_of_includes_twin (h : request.Edits files place sources) {source : List UInt8}
    (hincludes : sources.Includes files sources.primary.twin source) :
    files.entryAt? place = some (.file source) := by
  obtain ⟨outer, _, hasks, hread⟩ := hincludes
  obtain ⟨saved, hsaved⟩ := h.exists_saved
  obtain ⟨place', hfind⟩ := Files.exists_find_of_read hread
  have hplace := Files.place_eq_of_find_twin h.isAbsolute_primary
    (Sources.normalize_of_asks hasks) hsaved hfind
  rw [← hplace]
  exact (Files.entryAt?_of_find hfind).2

/-- An empty saved copy gives no finding in the twin. -/
lemma no_finding_of_empty (h : request.Edits files place sources)
    (hempty : files.entryAt? place = some (.file [])) (htwin : sources.IncludesTwin files)
    (options : Options) (elapsed : Duration) :
    ∀ finding ∈ (sources.report files options elapsed).findings,
      finding.file ≠ sources.primary.twin := by
  intro finding hfinding hfile
  rw [Sources.findings_report] at hfinding
  obtain ⟨t, ht, rfl⟩ := List.mem_map.mp hfinding
  replace hfile : t.origin = sources.primary.twin := hfile
  rcases Sources.readFrom_of_mem_tokens (List.mem_of_mem_filter ht) with
    ⟨horigin, _⟩ | ⟨source, hincludes, hread⟩
  · obtain ⟨_, outer, houter, hasks, _⟩ := htwin
    have hother := Sources.not_sameAs_primary houter hasks
    rw [← hfile, horigin, Path.sameAs_refl] at hother
    cases hother
  · rw [hfile] at hincludes
    have hsource := entryAt?_of_includes_twin h hincludes
    rw [hempty] at hsource
    obtain rfl : [] = source := by
      cases hsource
      rfl
    -- A token has a byte at least, and an empty file has none.
    have hpos := hread.length_pos
    have hstop := hread.stop_le
    rw [Token.stop, List.length_nil] at hstop
    omega

/-- A saved copy that is an empty string literal in double quotes gives a finding in the twin. -/
lemma finding_of_doubleQuotes (h : request.Edits files place sources)
    (hquotes : files.entryAt? place = some (.file [0x22, 0x22]))
    (htwin : sources.IncludesTwin files) (options : Options) (elapsed : Duration) :
    ∃ finding ∈ (sources.report files options elapsed).findings,
      finding.file = sources.primary.twin := by
  obtain ⟨source, hincludes⟩ := htwin
  have hsource := entryAt?_of_includes_twin h hincludes
  rw [hquotes] at hsource
  obtain rfl : [0x22, 0x22] = source := by
    cases hsource
    rfl
  generalize hliteral : (⟨sources.primary.twin, .start, .literal, .string, "", 2⟩ : Token) = t
  have htokens : (Token.tokenize sources.primary.twin [0x22, 0x22]).value = [t] := by
    rw [← hliteral]
    rfl
  have hmem : t ∈ (sources.tokens files).value := by
    refine Sources.mem_tokens_of_includes hincludes ?_
    rw [htokens, ← hliteral]
    exact List.mem_singleton_self _
  have hwants : sources.wantsSingleQuotes files t = true := by
    have hcontent := Sources.contentOf_of_includes hincludes
    rw [← hliteral, Sources.wantsSingleQuotes]
    simp only [hcontent]
    rfl
  refine ⟨Rule.singleQuotes.finding t, ?_, ?_⟩
  · rw [Sources.findings_report]
    exact List.mem_map_of_mem (List.mem_filter.mpr ⟨hmem, hwants⟩)
  · rw [← hliteral]
    rfl

/-- What is said of a request that edits a file. -/
lemma map_verdict_analyze (h : request.Edits files place sources) (options : Options)
    (elapsed : Duration) : (analyze files options elapsed request).map Report.verdict =
      .ok (sources.report files options elapsed).verdict := by
  rw [analyze, h.load_eq]
  rfl

/-- The saved copy of the analyzed file does not matter for what a report says, just when no include
that expanding the buffer reaches names the twin of the analyzed path and finds it readable. -/
theorem verdict_independent_iff (h : request.Edits files place sources) (options : Options) :
    (∀ files₁ files₂, files.SameBut place files₁ → files.SameBut place files₂ →
      ∀ elapsed₁ elapsed₂,
        (analyze files₁ options elapsed₁ request).map Report.verdict =
          (analyze files₂ options elapsed₂ request).map Report.verdict) ↔
      ¬ sources.IncludesTwin files := by
  constructor
  · intro hall htwin
    obtain ⟨saved, hsaved⟩ := h.exists_saved
    obtain ⟨hplace, hentry⟩ := Files.entryAt?_of_find hsaved
    -- Two saved copies that tell the reports apart: one with a finding, and an empty one.
    have hquotes := Files.sameBut_put hentry hplace [0x22, 0x22]
    have hempty := Files.sameBut_put hentry hplace []
    have hverdict := hall _ _ hquotes hempty .zero .zero
    rw [map_verdict_analyze (h.of_sameBut hquotes), map_verdict_analyze (h.of_sameBut hempty)]
      at hverdict
    have hfindings := congrArg Prod.fst (Except.ok.inj hverdict)
    obtain ⟨finding, hfinding, hfile⟩ := finding_of_doubleQuotes (h.of_sameBut hquotes)
      (Files.entryAt?_put_self hplace _) (includesTwin_of_sameBut h hquotes htwin) options .zero
    refine no_finding_of_empty (h.of_sameBut hempty) (Files.entryAt?_put_self hplace _)
      (includesTwin_of_sameBut h hempty htwin) options .zero finding ?_ hfile
    simp only [Report.verdict] at hfindings
    rw [← hfindings]
    exact hfinding
  · intro htwin files₁ files₂ hsame₁ hsame₂ elapsed₁ elapsed₂
    rw [map_verdict_analyze (h.of_sameBut hsame₁), map_verdict_analyze (h.of_sameBut hsame₂),
      verdict_eq_of_not_includesTwin h hsame₁ htwin options .zero,
      verdict_eq_of_not_includesTwin h hsame₂ htwin options .zero]

end Edits

/-- A buffer that includes another file, whose tokens are in the stream, and not the twin of its
own: its report is the same whatever is saved. -/
theorem verdict_independent_iff_of_include :
    let files : Files := ⟨[], [(["m"], .file (Utf8.encode "class Saved end")),
      (["b"], .file (Utf8.encode "#include 'i'\nclass A end")),
      (["i"], .file (Utf8.encode "class I end"))]⟩
    let request : Request := ⟨⟨"/m"⟩, ⟨"/b"⟩⟩
    let sources : Sources := ⟨⟨"/m"⟩, Utf8.encode "#include 'i'\nclass A end"⟩
    request.Edits files ["m"] sources ∧
      (∃ t ∈ (sources.tokens files).value, t.origin = ⟨"/i"⟩) ∧
      ¬ sources.IncludesTwin files ∧
      ∀ files₁ files₂, files.SameBut ["m"] files₁ → files.SameBut ["m"] files₂ →
        ∀ elapsed₁ elapsed₂,
          (analyze files₁ ⟨true⟩ elapsed₁ request).map Report.verdict =
            (analyze files₂ ⟨true⟩ elapsed₂ request).map Report.verdict := by
  intro files request sources
  have hfind : files.find ⟨"/m"⟩ = .ok (["m"], .file (Utf8.encode "class Saved end")) := by
    decide +kernel
  have hbuffer : files.find ⟨"/b"⟩ = .ok (["b"], .file sources.buffer) := by decide +kernel
  have hedits : request.Edits files ["m"] sources :=
    ⟨by decide +kernel, ⟨_, hfind⟩, ⟨"/b"⟩, ["b"], by decide +kernel, hbuffer, by decide⟩
  have hspliced : ∃ t ∈ (sources.tokens files).value, t.origin = ⟨"/i"⟩ := by decide +kernel
  -- What is saved begins with a token, and the stream would have that token if it had the twin.
  have htwin : ¬ sources.IncludesTwin files := by
    rintro ⟨source, hincludes⟩
    have hsource := entryAt?_of_includes_twin hedits hincludes
    rw [(Files.entryAt?_of_find hfind).2] at hsource
    obtain rfl : Utf8.encode "class Saved end" = source := by
      cases hsource
      rfl
    have hitem : Token.Item.token ⟨sources.primary.twin, .start, .keyword, .plain, "class", 5⟩ ∈
        Token.Item.ofTokens
          (Token.tokenize sources.primary.twin (Utf8.encode "class Saved end")).value := by
      decide +kernel
    have hmem := Sources.mem_tokens_of_includes hincludes hitem
    have hother : ∀ t ∈ (sources.tokens files).value, t.origin ≠ sources.primary.twin := by
      decide +kernel
    exact hother _ hmem rfl
  exact ⟨hedits, hspliced, htwin, (verdict_independent_iff hedits ⟨true⟩).mpr htwin⟩

/-- A buffer that includes the twin of its own file: what was saved in the file is in the report. -/
theorem saved_copy_in_report :
    let files : Files := ⟨[], [(["m"], .file (Utf8.encode "class Saved end")),
      (["b"], .file (Utf8.encode "#include '/../m'"))]⟩
    let request : Request := ⟨⟨"/m"⟩, ⟨"/b"⟩⟩
    let sources : Sources := ⟨⟨"/m"⟩, Utf8.encode "#include '/../m'"⟩
    request.Edits files ["m"] sources ∧ files.SameBut ["m"] (files.put ["m"] (.file [])) ∧
      (analyze files ⟨true⟩ .zero request).map Report.verdict ≠
        (analyze (files.put ["m"] (.file [])) ⟨true⟩ .zero request).map Report.verdict := by
  intro files request sources
  have hfind : files.find ⟨"/m"⟩ = .ok (["m"], .file (Utf8.encode "class Saved end")) := by
    decide +kernel
  have hbuffer : files.find ⟨"/b"⟩ = .ok (["b"], .file sources.buffer) := by decide +kernel
  have hentry : files.entryAt? ["m"] = some (.file (Utf8.encode "class Saved end")) := by
    decide +kernel
  have hedits : request.Edits files ["m"] sources :=
    ⟨by decide +kernel, ⟨_, hfind⟩, ⟨"/b"⟩, ["b"], by decide +kernel, hbuffer, by decide⟩
  have hsame : files.SameBut ["m"] (files.put ["m"] (.file [])) :=
    Files.sameBut_put hentry (by decide) []
  refine ⟨hedits, hsame, fun hverdict => ?_⟩
  rw [map_verdict_analyze hedits, map_verdict_analyze (hedits.of_sameBut hsame)] at hverdict
  have hsaved : (sources.report files ⟨true⟩ .zero).declarations.map Declaration.name =
      ["Saved"] := by
    decide +kernel
  have hempty : (sources.report (files.put ["m"] (.file [])) ⟨true⟩ .zero).declarations.map
      Declaration.name = [] := by
    decide +kernel
  have hdeclarations := congrArg (·.2.1) (Except.ok.inj hverdict)
  simp only [Report.verdict] at hdeclarations
  rw [hdeclarations, hempty] at hsaved
  cases hsaved

end UvaAnalysis
