import UvaAnalysis.Proofs.Token.Run

/-!
# No byte is lost

The tokens of a source and the gaps before, between and after them make up the source, up to the
fault that stopped the lexer or to the end.  A gap is nothing but blanks, and the bytes of a token
are the lexeme that its category, kind and text say.

What a run says piece by piece is collected by induction on the run (`Run.layout`): `ReadFrom` holds
of every token, and `IsGap` of every gap.  That gaps and lexemes together are the source then
follows from the order of the spans alone (`weave_of_gaps`).
-/

namespace UvaAnalysis.Token

/-! ### Stretches of a source -/

/-- The bytes of a source from one offset up to another. -/
def slice (source : List UInt8) (start stop : ℕ) : List UInt8 :=
  (source.drop start).take (stop - start)

/-- The offset right after a token. -/
def stop (t : Token) : ℕ := t.position.offset + t.length

/-- The bytes of a source that a token stands for. -/
def bytesIn (t : Token) (source : List UInt8) : List UInt8 :=
  slice source t.position.offset t.stop

/-- A slice from the start is taken from the front. -/
lemma slice_zero (source : List UInt8) (stop : ℕ) : slice source 0 stop = source.take stop := rfl

/-- A slice without length is empty. -/
lemma slice_self (source : List UInt8) (start : ℕ) : slice source start start = [] := by
  simp [slice]

/-- The bytes up to an offset and those from there on. -/
lemma slice_append {source : List UInt8} {a b c : ℕ} (hab : a ≤ b) (hbc : b ≤ c) :
    slice source a b ++ slice source b c = slice source a c := by
  have hdrop : source.drop b = (source.drop a).drop (b - a) := by
    rw [List.drop_drop]
    congr 1
    omega
  have hsum : c - a = (b - a) + (c - b) := by
    omega
  rw [slice, slice, slice, hdrop, hsum, List.take_add]

/-- What stands in the middle of a source. -/
lemma slice_middle (before bytes following : List UInt8) :
    slice (before ++ (bytes ++ following)) before.length (before.length + bytes.length) =
      bytes := by
  rw [slice, List.drop_left, Nat.add_sub_cancel_left, List.take_left]

/-- What follows two stretches is left when both are dropped. -/
lemma drop_middle (before bytes following : List UInt8) :
    (before ++ (bytes ++ following)).drop (before.length + bytes.length) = following := by
  rw [← List.append_assoc, ← List.length_append, List.drop_left]

/-! ### Gaps -/

/-- The stretches before, between and after tokens, from one offset to another. -/
def gaps (start stop : ℕ) : List Token → List (ℕ × ℕ)
  | [] => [(start, stop)]
  | t :: tokens => (start, t.position.offset) :: gaps t.stop stop tokens

/-- Gaps and lexemes by turns. -/
def weave : List (List UInt8) → List (List UInt8) → List UInt8
  | gap :: gaps, lexeme :: lexemes => gap ++ lexeme ++ weave gaps lexemes
  | gaps, [] => gaps.flatten
  | [], lexemes => lexemes.flatten

/-- Blanks one after another, and the bytes that follow them. -/
inductive Gap : List UInt8 → List UInt8 → Prop
  | nil {following : List UInt8} : Gap [] following
  | cons {bytes more following : List UInt8} (h : Blank bytes (more ++ following))
    (rest : Gap more following) : Gap (bytes ++ more) following

section Ordered

variable {start stop : ℕ} {tokens : List Token}

/-- Gaps that do not run backwards lead forward as a whole. -/
lemma le_of_gaps (h : ∀ gap ∈ gaps start stop tokens, gap.1 ≤ gap.2) : start ≤ stop := by
  induction tokens generalizing start with
  | nil => exact h (start, stop) (List.mem_singleton_self _)
  | cons t tokens ih =>
    obtain ⟨hfirst, hrest⟩ := List.forall_mem_cons.mp h
    have hstop : t.stop ≤ stop := ih hrest
    simp only [Token.stop] at hfirst hstop
    omega

/-- Every token lies between the offsets. -/
lemma within_of_gaps (h : ∀ gap ∈ gaps start stop tokens, gap.1 ≤ gap.2) {t : Token}
    (ht : t ∈ tokens) : start ≤ t.position.offset ∧ t.stop ≤ stop := by
  induction tokens generalizing start with
  | nil => cases ht
  | cons u tokens ih =>
    obtain ⟨hfirst, hrest⟩ := List.forall_mem_cons.mp h
    rcases List.mem_cons.mp ht with rfl | ht
    · exact ⟨hfirst, le_of_gaps hrest⟩
    · obtain ⟨hstart, hstop⟩ := ih hrest ht
      refine ⟨?_, hstop⟩
      simp only [Token.stop] at hfirst hstart
      omega

/-- The tokens follow one another and do not overlap. -/
lemma pairwise_of_gaps (h : ∀ gap ∈ gaps start stop tokens, gap.1 ≤ gap.2) :
    tokens.Pairwise fun t u => t.stop ≤ u.position.offset := by
  induction tokens generalizing start with
  | nil => exact .nil
  | cons t tokens ih =>
    obtain ⟨_, hrest⟩ := List.forall_mem_cons.mp h
    exact .cons (fun u hu => (within_of_gaps hrest hu).1) (ih hrest)

/-- Gaps and lexemes by turns make up the whole stretch. -/
lemma weave_of_gaps (source : List UInt8) (h : ∀ gap ∈ gaps start stop tokens, gap.1 ≤ gap.2) :
    weave ((gaps start stop tokens).map fun gap => slice source gap.1 gap.2)
      (tokens.map (bytesIn · source)) = slice source start stop := by
  induction tokens generalizing start with
  | nil => simp [gaps, weave]
  | cons t tokens ih =>
    obtain ⟨hfirst, hrest⟩ := List.forall_mem_cons.mp h
    have hlexeme : t.position.offset ≤ t.stop := Nat.le_add_right ..
    rw [gaps, List.map_cons, List.map_cons, weave, ih hrest, bytesIn, slice_append hfirst hlexeme,
      slice_append (Nat.le_trans hfirst hlexeme) (le_of_gaps hrest)]

end Ordered

/-! ### Tokens and the source they were read from -/

/-- A token of a file stands for bytes of a given source, and it is what they spell. -/
structure ReadFrom (origin : Path) (source : List UInt8) (t : Token) : Prop where
  origin_eq : t.origin = origin
  position_eq : t.position = Position.after (source.take t.position.offset)
  length_pos : 0 < t.length
  stop_le : t.stop ≤ source.length
  lexeme : Lexeme t.category t.kind t.text (t.bytesIn source) (source.drop t.stop)

/-- The faults of a lexer that stopped at a given offset: none at the end of the source, and
otherwise one, for a place where nothing of the grammar begins. -/
inductive StopsAt (origin : Path) (source : List UInt8) : ℕ → List Fault → Prop
  | whole : StopsAt origin source source.length []
  | fault {position : Position} {cause : LexicalError}
    (hposition : position = Position.after (source.take position.offset))
    (hlt : position.offset < source.length)
    (hnothing : NothingBegins (source.drop position.offset)) :
    StopsAt origin source position.offset [.lexical origin position cause]

/-- A stretch of a source that is nothing but blanks. -/
def IsGap (source : List UInt8) (gap : ℕ × ℕ) : Prop :=
  gap.1 ≤ gap.2 ∧ Gap (slice source gap.1 gap.2) (source.drop gap.2)

/-- A gap of no bytes. -/
lemma isGap_self (source : List UInt8) (start : ℕ) : IsGap source (start, start) := by
  refine ⟨Nat.le_refl _, ?_⟩
  rw [slice_self]
  exact .nil

/-- A gap goes on before a blank. -/
lemma IsGap.cons {source : List UInt8} {start next stop : ℕ} (hle : start ≤ next)
    (hblank : Blank (slice source start next) (source.drop next))
    (h : IsGap source (next, stop)) : IsGap source (start, stop) := by
  refine ⟨Nat.le_trans hle h.1, ?_⟩
  have hfollowing : source.drop next = slice source next stop ++ source.drop stop := by
    have hdrop : source.drop stop = (source.drop next).drop (stop - next) := by
      rw [List.drop_drop]
      congr 1
      have := h.1
      omega
    rw [slice, hdrop, List.take_append_drop]
  rw [hfollowing] at hblank
  change Gap (slice source start stop) _
  rw [← slice_append hle h.1]
  exact .cons hblank h.2

/-- The first gap goes on before a blank. -/
lemma gaps_of_blank {source : List UInt8} {start next stop : ℕ} {tokens : List Token}
    (hle : start ≤ next) (hblank : Blank (slice source start next) (source.drop next))
    (h : ∀ gap ∈ gaps next stop tokens, IsGap source gap) :
    ∀ gap ∈ gaps start stop tokens, IsGap source gap := by
  cases tokens with
  | nil =>
    have hgap := h (next, stop) (List.mem_singleton_self _)
    exact List.forall_mem_singleton.mpr (hgap.cons hle hblank)
  | cons t tokens =>
    obtain ⟨hfirst, hrest⟩ := List.forall_mem_cons.mp h
    exact List.forall_mem_cons.mpr ⟨hfirst.cons hle hblank, hrest⟩

/-- What a run says of the tokens, the gaps and the end, when `before` was read already. -/
lemma Run.layout {origin : Path} {position : Position} {remaining : List UInt8}
    {tokens : List Token} {faults : List Fault} (h : Run origin position remaining tokens faults)
    (before : List UInt8) (hposition : position = Position.after before) :
    ∃ stop, StopsAt origin (before ++ remaining) stop faults ∧
      (∀ t ∈ tokens, ReadFrom origin (before ++ remaining) t) ∧
      ∀ gap ∈ gaps before.length stop tokens, IsGap (before ++ remaining) gap := by
  -- What was read grows with the run, so the source is the same in every case.
  induction h generalizing before with
  | done =>
    refine ⟨_, .whole, by simp, ?_⟩
    rw [List.append_nil]
    exact List.forall_mem_singleton.mpr (isGap_self _ _)
  | @blank position bytes following tokens faults hblank _ ih =>
    subst hposition
    obtain ⟨stop, hstop, hread, hgaps⟩ := ih (before ++ bytes) (Position.after_advanceBy ..)
    rw [List.append_assoc] at hstop hread hgaps
    rw [List.length_append] at hgaps
    refine ⟨stop, hstop, hread, gaps_of_blank (Nat.le_add_right _ bytes.length) ?_ hgaps⟩
    rw [slice_middle, drop_middle]
    exact hblank
  | @lexeme position category kind text bytes following tokens faults hlexeme _ ih =>
    subst hposition
    obtain ⟨stop, hstop, hread, hgaps⟩ := ih (before ++ bytes) (Position.after_advanceBy ..)
    rw [List.append_assoc] at hstop hread hgaps
    rw [List.length_append] at hgaps
    refine ⟨stop, hstop, List.forall_mem_cons.mpr ⟨?_, hread⟩,
      List.forall_mem_cons.mpr ⟨isGap_self _ _, hgaps⟩⟩
    have hbytes : bytesIn ⟨origin, .after before, category, kind, text, bytes.length⟩
        (before ++ (bytes ++ following)) = bytes :=
      slice_middle before bytes following
    refine ⟨rfl, ?_, ?_, ?_, ?_⟩
    · rw [Position.after_offset, List.take_left]
    · obtain ⟨byte, others, rfl⟩ := hlexeme.exists_cons
      exact Nat.succ_pos _
    · rw [List.length_append, List.length_append, ← Nat.add_assoc]
      exact Nat.le_add_right _ _
    · rw [hbytes, Token.stop, Position.after_offset, drop_middle]
      exact hlexeme
  | @malformed position byte rest cause hpiece =>
    subst hposition
    refine ⟨_, .fault (?_ : Position.after before = _) ?_ ?_, by simp,
      List.forall_mem_singleton.mpr (isGap_self _ _)⟩
    · rw [Position.after_offset, List.take_left]
    · rw [Position.after_offset, List.length_append, List.length_cons]
      omega
    · rw [Position.after_offset, List.drop_left]
      exact exists_ofBytes_eq_malformed_iff.mp ⟨cause, hpiece⟩

/-! ### Whole sources -/

/-- The layout of a whole source. -/
lemma layout_tokenize (origin : Path) (source : List UInt8) :
    ∃ stop, StopsAt origin source stop (tokenize origin source).faults ∧
      (∀ t ∈ (tokenize origin source).value, ReadFrom origin source t) ∧
      ∀ gap ∈ gaps 0 stop (tokenize origin source).value, IsGap source gap :=
  (scan_run origin .start source).layout [] rfl

/-- A token stands for as many bytes as it says. -/
lemma ReadFrom.bytesIn_length {origin : Path} {source : List UInt8} {t : Token}
    (h : ReadFrom origin source t) : (t.bytesIn source).length = t.length := by
  have hstop := h.stop_le
  rw [Token.stop] at hstop
  rw [bytesIn, slice, Token.stop, List.length_take, List.length_drop]
  omega

/-- A source is what stands before a token, its bytes, and what follows it. -/
lemma ReadFrom.exists_eq_append {origin : Path} {source : List UInt8} {t : Token}
    (h : ReadFrom origin source t) :
    ∃ before following, source = before ++ (t.bytesIn source ++ following) ∧
      before.length = t.position.offset := by
  have hle : t.position.offset ≤ t.stop := Nat.le_add_right ..
  refine ⟨source.take t.position.offset, source.drop t.stop, ?_, ?_⟩
  · have hsplit : slice source 0 t.position.offset ++ t.bytesIn source = slice source 0 t.stop :=
      slice_append (Nat.zero_le _) hle
    rw [slice_zero, slice_zero] at hsplit
    rw [← List.append_assoc, hsplit, List.take_append_drop]
  · exact List.length_take_of_le (Nat.le_trans hle h.stop_le)

/-- Every token of a source was read from it. -/
theorem readFrom_of_mem_tokenize {origin : Path} {source : List UInt8} {t : Token}
    (h : t ∈ (tokenize origin source).value) : ReadFrom origin source t := by
  obtain ⟨_, _, hread, _⟩ := layout_tokenize origin source
  exact hread t h

/-- The text of a token is its lexeme, except that quotes and the sign of a directive are left out
and that what is malformed in a string literal is replaced. -/
def TextTells (t : Token) (lexeme : List UInt8) : Prop :=
  (t.kind = .string →
    ∃ quote body, asChar quote ∈ quotes ∧ StringBody quote body ∧
      lexeme = quote :: (body ++ [quote]) ∧ t.text = Utf8.lossy body) ∧
  (t.category = .directive → Utf8.encode t.text = lexeme.tail) ∧
  (t.kind ≠ .string → t.category ≠ .directive → Utf8.encode t.text = lexeme)

/-- The text of a token that was read tells its bytes. -/
lemma ReadFrom.textTells {origin : Path} {source : List UInt8} {t : Token}
    (h : ReadFrom origin source t) : TextTells t (t.bytesIn source) := by
  obtain ⟨_, _, category, kind, _, _⟩ := t
  have hlexeme := h.lexeme
  refine ⟨?_, ?_, fun hkind hcategory => hlexeme.encode_text hcategory hkind⟩
  · rintro rfl
    exact hlexeme.exists_of_string
  · rintro rfl
    exact hlexeme.encode_text_of_directive

/-- A source, up to where the lexer stopped, is gaps and lexemes by turns.  The spans of the tokens
are in order and do not overlap, every gap is nothing but blanks, and every lexeme is one that the
grammar has for the category, kind and text of its token. -/
theorem tokenize_lossless (origin : Path) (source : List UInt8) :
    ∃ stop, StopsAt origin source stop (tokenize origin source).faults ∧
      let tokens := (tokenize origin source).value
      source.take stop =
        weave ((gaps 0 stop tokens).map fun gap => slice source gap.1 gap.2)
          (tokens.map (bytesIn · source)) ∧
      (∀ t ∈ tokens, 0 < t.length ∧ t.stop ≤ stop) ∧
      tokens.Pairwise (fun t u => t.stop ≤ u.position.offset) ∧
      (∀ gap ∈ gaps 0 stop tokens, IsGap source gap) ∧
      ∀ t ∈ tokens, Lexeme t.category t.kind t.text (t.bytesIn source) (source.drop t.stop) ∧
        TextTells t (t.bytesIn source) := by
  obtain ⟨stop, hstop, hread, hgaps⟩ := layout_tokenize origin source
  have hordered : ∀ gap ∈ gaps 0 stop (tokenize origin source).value, gap.1 ≤ gap.2 :=
    fun gap hgap => (hgaps gap hgap).1
  refine ⟨stop, hstop, ?_, ?_, pairwise_of_gaps hordered, hgaps, ?_⟩
  · rw [weave_of_gaps source hordered, slice_zero]
  · intro t ht
    exact ⟨(hread t ht).length_pos, (within_of_gaps hordered ht).2⟩
  · intro t ht
    exact ⟨(hread t ht).lexeme, (hread t ht).textTells⟩

end UvaAnalysis.Token
