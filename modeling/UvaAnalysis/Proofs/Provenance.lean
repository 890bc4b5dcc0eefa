import UvaAnalysis.Proofs.Token.Calls
import UvaAnalysis.Request

/-!
# Where the tokens of a request come from

The content of a file, for a request, is the buffer if the file is the one that is analyzed, and
what is stored otherwise (`Sources.contentOf`).  Every token of the stream was read from the content
of its origin (`exists_content_of_mem_tokens`): the buffer is never taken for what is stored or the
other way round.  What makes this so is the stack of an expansion.  The normal form of the analyzed
path is on it from the start, and an included path is its own normal form, so no included path is
the same as the analyzed one (`not_sameAs_primary`).
-/

namespace UvaAnalysis

namespace Sources

/-- The content of a file as a request has it: the buffer for the file that is analyzed, and what is
stored for any other. -/
def contentOf (sources : Sources) (files : Files) (origin : Path) :
    Except FileError (List UInt8) :=
  if origin.sameAs sources.primary then .ok sources.buffer else files.read origin

/-- The call that expands the buffer. -/
def call (sources : Sources) : Token.Call :=
  ⟨includeLimit, [sources.primary.normalize],
    (Token.tokenize sources.primary sources.buffer).value⟩

variable {sources : Sources} {files : Files}

/-- The stream is what the buffer expands to. -/
lemma tokens_value_eq : (sources.tokens files).value = (sources.call.expand files).value := rfl

/-- The calls that expanding the buffer goes through. -/
abbrev Reaches (sources : Sources) (files : Files) (inner : Token.Call) : Prop :=
  Token.Call.Reaches files sources.call inner

/-- A file, with what is stored for it, is included below the buffer when a reached call asks for
it and it can be read. -/
def Includes (sources : Sources) (files : Files) (path : Path) (source : List UInt8) : Prop :=
  ∃ outer, sources.Reaches files outer ∧ outer.Asks path ∧ files.read path = .ok source

/-- The normal form of the analyzed path is on the stack of every reached call. -/
lemma normalize_mem_stack {inner : Token.Call} (h : sources.Reaches files inner) :
    sources.primary.normalize ∈ inner.stack := by
  induction h with
  | refl => exact List.mem_singleton_self _
  | tail _ henters ih =>
    obtain ⟨path, source, _, _, rfl⟩ := henters
    exact List.mem_cons_of_mem _ ih

/-- A path that a call asks for is its own normal form. -/
lemma normalize_of_asks {inner : Token.Call} {path : Path} (h : inner.Asks path) :
    path.normalize = path := by
  obtain ⟨directive, target, _, rfl⟩ := h.exists_inclusion
  exact Path.normalize_locate ..

/-- A file that a reached call asks for is not the analyzed one. -/
lemma not_sameAs_primary {inner : Token.Call} (h : sources.Reaches files inner) {path : Path}
    (hasks : inner.Asks path) : path.sameAs sources.primary = false := by
  rw [Bool.eq_false_iff]
  intro hsame
  have hnormal : sources.primary.normalize = path := by
    rw [← Path.normalize_eq_of_sameAs hsame, normalize_of_asks hasks]
  -- Then the cycle check has met it on the stack.
  have hstack := List.any_eq_false.mp hasks.not_on_stack _ (normalize_mem_stack h)
  rw [hnormal] at hstack
  exact hstack (Path.sameAs_refl _)

/-- The tokens of a reached call are those of the buffer or those of an included file. -/
lemma tokens_of_reaches {inner : Token.Call} (h : sources.Reaches files inner) :
    inner.tokens = sources.call.tokens ∨
      ∃ path source, sources.Includes files path source ∧
        inner.tokens = (Token.tokenize path source).value := by
  rcases Relation.ReflTransGen.cases_tail h with rfl | ⟨outer, houter, henters⟩
  · exact .inl rfl
  · obtain ⟨path, source, hasks, hread, rfl⟩ := henters
    exact .inr ⟨path, source, ⟨outer, houter, hasks, hread⟩, rfl⟩

/-- A token of an included file that stands outside directives is in the stream. -/
lemma mem_tokens_of_includes {path : Path} {source : List UInt8}
    (h : sources.Includes files path source) {t : Token}
    (hitem : Token.Item.token t ∈ Token.Item.ofTokens (Token.tokenize path source).value) :
    t ∈ (sources.tokens files).value := by
  obtain ⟨outer, houter, hasks, hread⟩ := h
  rw [tokens_value_eq, Token.Call.mem_expand_iff]
  exact ⟨_, houter.tail ⟨path, source, hasks, hread, rfl⟩, hitem⟩

/-- A token of the stream is one of the buffer or of an included file. -/
lemma mem_call_or_included {t : Token} (h : t ∈ (sources.tokens files).value) :
    t ∈ sources.call.tokens ∨ ∃ path source, sources.Includes files path source ∧
      t ∈ (Token.tokenize path source).value := by
  rw [tokens_value_eq, Token.Call.mem_expand_iff] at h
  obtain ⟨inner, hreaches, hitem⟩ := h
  have hmem : t ∈ inner.tokens := Token.Item.head_mem hitem
  rcases tokens_of_reaches hreaches with htokens | ⟨path, source, hincludes, htokens⟩
  · rw [htokens] at hmem
    exact .inl hmem
  · rw [htokens] at hmem
    exact .inr ⟨path, source, hincludes, hmem⟩

/-- Every token of the stream was read from the buffer or from what is stored for an included
file, and its origin tells which. -/
lemma readFrom_of_mem_tokens {t : Token} (h : t ∈ (sources.tokens files).value) :
    t.origin = sources.primary ∧ Token.ReadFrom t.origin sources.buffer t ∨
      ∃ source, sources.Includes files t.origin source ∧ Token.ReadFrom t.origin source t := by
  rcases mem_call_or_included h with hmem | ⟨path, source, hincludes, hmem⟩
  · have hread := Token.readFrom_of_mem_tokenize hmem
    have horigin := hread.origin_eq
    rw [← horigin] at hread
    exact .inl ⟨horigin, hread⟩
  · have hread := Token.readFrom_of_mem_tokenize hmem
    have horigin := hread.origin_eq
    rw [← horigin] at hincludes hread
    exact .inr ⟨source, hincludes, hread⟩

/-- What an included file has for its content is what is stored for it. -/
lemma contentOf_of_includes {path : Path} {source : List UInt8}
    (h : sources.Includes files path source) : sources.contentOf files path = .ok source := by
  obtain ⟨outer, houter, hasks, hread⟩ := h
  rw [contentOf, if_neg (by simp [not_sameAs_primary houter hasks]), hread]

/-- Every token of the stream was read from the content of its origin. -/
theorem exists_content_of_mem_tokens {t : Token} (h : t ∈ (sources.tokens files).value) :
    ∃ content, sources.contentOf files t.origin = .ok content ∧
      Token.ReadFrom t.origin content t := by
  rcases readFrom_of_mem_tokens h with ⟨horigin, hread⟩ | ⟨source, hincludes, hread⟩
  · refine ⟨sources.buffer, ?_, hread⟩
    rw [contentOf, if_pos (horigin ▸ Path.sameAs_refl _)]
  · exact ⟨source, contentOf_of_includes hincludes, hread⟩

/-- A byte of a file is looked up in the content of the file. -/
theorem byteAt_of_contentOf {origin : Path} {content : List UInt8}
    (h : sources.contentOf files origin = .ok content) {offset : ℕ} {byte : UInt8}
    (hbyte : content[offset]? = some byte) : sources.byteAt files origin offset = .ok byte := by
  rw [contentOf] at h
  rw [byteAt]
  split_ifs at h ⊢ with hsame
  · obtain rfl := Except.ok.inj h
    rw [hbyte]
  · rw [Files.read] at h
    rw [Files.readByte]
    split at h
    · rename_i hfind
      obtain rfl := Except.ok.inj h
      simp [hfind, hbyte]
    · cases h
    · cases h

end Sources

end UvaAnalysis
