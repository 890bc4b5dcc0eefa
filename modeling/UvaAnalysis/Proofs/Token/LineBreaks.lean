import UvaAnalysis.Proofs.Token.Lossless

/-!
# Line breaks between tokens

No lexeme and no line comment goes on over a line feed, and between tokens a line feed is a blank.
So a source that is complete has no effect on what follows it after a line break, except that all
positions there are moved (`tokenize_append_lineFeed`).

The same holds of the end of a source: a lexeme is the same token by itself as among others.  Hence
the lexemes of a source, with a line feed between any two, are the tokens of the source once more
(`tokenize_join_lexemes`).
-/

namespace UvaAnalysis

/-- A position in a source that some bytes were put in front of, when these bytes end with a line
feed. -/
def Position.moveBy (lines bytes : ℕ) (p : Position) : Position :=
  ⟨p.line + lines, p.column, p.offset + bytes⟩

/-- A token in a source that some bytes were put in front of. -/
def Token.moveBy (lines bytes : ℕ) (t : Token) : Token :=
  { t with position := t.position.moveBy lines bytes }

/-- A fault of the lexer in a source that some bytes were put in front of. -/
def Fault.moveBy (lines bytes : ℕ) : Fault → Fault
  | .lexical file position cause => .lexical file (position.moveBy lines bytes) cause
  | fault => fault

namespace Position

/-- A byte moves a position on by as much wherever that is. -/
lemma advance_moveBy (lines bytes : ℕ) (p : Position) (byte : UInt8) :
    (p.moveBy lines bytes).advance byte = (p.advance byte).moveBy lines bytes := by
  unfold advance moveBy
  split_ifs <;> simp only [Nat.add_right_comm]

/-- Bytes move a position on by as much wherever that is. -/
lemma advanceBy_moveBy (lines bytes : ℕ) (p : Position) (source : List UInt8) :
    (p.moveBy lines bytes).advanceBy source = (p.advanceBy source).moveBy lines bytes := by
  induction source generalizing p with
  | nil => rfl
  | cons byte source ih => rw [advanceBy_cons, advanceBy_cons, advance_moveBy, ih]

/-- The beginning of the line after a source. -/
lemma advanceBy_lineFeed (source : List UInt8) :
    start.advanceBy (source ++ [0x0A]) =
      start.moveBy (1 + source.count 0x0A) (source.length + 1) := by
  have hline : unfinishedLine (source ++ [0x0A]) = [] := by
    rw [unfinishedLine, List.reverse_append]
    rfl
  rw [start_advanceBy, after, hline, List.count_append, List.length_append]
  simp only [start, moveBy, mk.injEq]
  refine ⟨?_, rfl, ?_⟩
  · rw [List.count_singleton_self]
    omega
  · rw [List.length_singleton, Nat.zero_add]

end Position

namespace Token

/-! ### What ends before a line feed -/

/-- What comes to its end before `following` comes to its end before `other` too, if it does not go
on over a line feed. -/
structure KeepsEnds (following other : List UInt8) : Prop where
  stops : ∀ p : UInt8 → Bool, p 0x0A = false → Stops p following → Stops p other
  fraction : BeginsFraction other → BeginsFraction following

/-- All ends are kept at the end of a source. -/
lemma keepsEnds_nil (following : List UInt8) : KeepsEnds following [] := by
  refine ⟨fun p _ _ => stops_nil p, ?_⟩
  rintro ⟨dot, digit, rest, h, -⟩
  cases h

/-- All ends are kept before a line feed. -/
lemma keepsEnds_lineFeed (following rest : List UInt8) : KeepsEnds following (0x0A :: rest) := by
  refine ⟨fun p hp _ => (stops_cons ..).mpr hp, ?_⟩
  rintro ⟨dot, digit, others, h, hdot, -⟩
  obtain ⟨rfl, -⟩ := List.cons.inj h
  exact absurd hdot (by decide)

/-- All ends are kept when a line feed comes after what follows. -/
lemma keepsEnds_append_lineFeed (following rest : List UInt8) :
    KeepsEnds following (following ++ 0x0A :: rest) := by
  match following with
  | [] => exact keepsEnds_lineFeed [] rest
  | [first] =>
    refine ⟨fun p _ h => (stops_cons ..).mpr ((stops_cons ..).mp h), ?_⟩
    rintro ⟨dot, digit, others, h, -, hdigit⟩
    simp only [List.cons_append, List.cons.injEq] at h
    obtain ⟨-, rfl, -⟩ := h
    -- No line feed is the digit after a dot.
    exact absurd hdigit (by decide)
  | first :: second :: following =>
    refine ⟨fun p _ h => (stops_cons ..).mpr ((stops_cons ..).mp h), ?_⟩
    rintro ⟨dot, digit, others, h, hdot, hdigit⟩
    simp only [List.cons_append, List.cons.injEq] at h
    obtain ⟨rfl, rfl, -⟩ := h
    exact ⟨first, second, following, rfl, hdot, hdigit⟩

/-- All ends are kept when what follows breaks off somewhere. -/
lemma keepsEnds_of_append (following rest : List UInt8) :
    KeepsEnds (following ++ rest) following := by
  constructor
  · intro p _ h
    cases following with
    | nil => exact stops_nil p
    | cons first following => exact (stops_cons ..).mpr ((stops_cons ..).mp h)
  · rintro ⟨dot, digit, others, rfl, hdot, hdigit⟩
    exact ⟨dot, digit, others ++ rest, rfl, hdot, hdigit⟩

section

variable {bytes following other : List UInt8} (hends : KeepsEnds following other)

include hends

/-- A blank is one before other bytes too. -/
lemma Blank.before (h : Blank bytes following) : Blank bytes other := by
  cases h with
  | space h => exact .space h
  | lineComment hslash hsecond hbody hend =>
    exact .lineComment hslash hsecond hbody (hends.stops _ (by decide) hend)
  | blockComment hslash hsecond hbody hlast => exact .blockComment hslash hsecond hbody hlast

/-- A lexeme is one before other bytes too. -/
lemma Lexeme.before {category : Category} {kind : Kind} {text : String}
    (h : Lexeme category kind text bytes following) : Lexeme category kind text bytes other := by
  cases h with
  | delimiter h => exact .delimiter h
  | sign h => exact .sign h
  | slash h hnext => exact .slash h (hends.stops _ (by decide) hnext)
  | comparison h hnext => exact .comparison h (hends.stops _ (by decide) hnext)
  | comparisonEqual h hequals => exact .comparisonEqual h hequals
  | connective h => exact .connective h
  | string h hbody => exact .string h hbody
  | directive hhash hfirst hothers hnext =>
    exact .directive hhash hfirst hothers (hends.stops _ (by decide) hnext)
  | integer hfirst hothers hnext hfraction =>
    exact .integer hfirst hothers (hends.stops _ (by decide) hnext)
      fun h => hfraction (hends.fraction h)
  | float hfirst hwhole hdot hdigit hfraction hnext =>
    exact .float hfirst hwhole hdot hdigit hfraction (hends.stops _ (by decide) hnext)
  | word hfirst hothers hnext hclass =>
    exact .word hfirst hothers (hends.stops _ (by decide) hnext) hclass

end

/-! ### Runs over a line break -/

section

variable {origin : Path} {position : Position} {source other : List UInt8}
variable {tokens others : List Token} {faults : List Fault}

/-- A run that moved bytes have. -/
lemma Run.moveBy (lines bytes : ℕ) (h : Run origin position source tokens faults) :
    Run origin (position.moveBy lines bytes) source (tokens.map (Token.moveBy lines bytes))
      (faults.map (Fault.moveBy lines bytes)) := by
  induction h with
  | done => exact .done
  | blank h _ ih =>
    rw [← Position.advanceBy_moveBy] at ih
    exact .blank h ih
  | lexeme h _ ih =>
    rw [← Position.advanceBy_moveBy] at ih
    exact .lexeme h ih
  | malformed h => exact .malformed h

/-- A run without faults goes on behind a line feed. -/
lemma Run.append_lineFeed {ended : List Fault} (h : Run origin position source tokens ended)
    (hended : ended = [])
    (hrest : Run origin (position.advanceBy (source ++ [0x0A])) other others faults) :
    Run origin position (source ++ 0x0A :: other) (tokens ++ others) faults := by
  induction h with
  | done =>
    have hfeed : Blank [0x0A] other := .space (by decide)
    change Run origin _ ([0x0A] ++ other) others faults
    exact .blank hfeed hrest
  | blank h _ ih =>
    rw [List.append_assoc, Position.advanceBy_append] at hrest
    rw [List.append_assoc]
    exact .blank (h.before (keepsEnds_append_lineFeed ..)) (ih hended hrest)
  | lexeme h _ ih =>
    rw [List.append_assoc, Position.advanceBy_append] at hrest
    rw [List.append_assoc]
    exact .lexeme (h.before (keepsEnds_append_lineFeed ..)) (ih hended hrest)
  | malformed h => cases hended

/-- A complete source, a line feed and another source. -/
lemma tokenize_lineFeed (h : (tokenize origin source).isComplete = true) (other : List UInt8) :
    tokenize origin (source ++ 0x0A :: other) =
      ⟨(tokenize origin source).value ++ (tokenize origin other).value.map
          (Token.moveBy (1 + source.count 0x0A) (source.length + 1)),
        (tokenize origin other).faults.map
          (Fault.moveBy (1 + source.count 0x0A) (source.length + 1))⟩ := by
  have hrest := (scan_run origin .start other).moveBy (1 + source.count 0x0A) (source.length + 1)
  rw [← Position.advanceBy_lineFeed] at hrest
  have hrun := (scan_run origin .start source).append_lineFeed (Salvage.isComplete_iff.mp h) hrest
  exact hrun.scan_eq

end

/-- A complete source, a line break and another source have the tokens of the one and then those of
the other, of which only the positions are different, each by as many lines and bytes.  They have a
fault just where the other source has one, and it is the same but for its position. -/
theorem tokenize_append_lineFeed (origin : Path) {source : List UInt8}
    (h : (tokenize origin source).isComplete = true) (other : List UInt8) :
    let lines := 1 + source.count 0x0A
    let bytes := source.length + 1
    let joined := tokenize origin (source ++ 0x0A :: other)
    joined.value =
        (tokenize origin source).value ++
          (tokenize origin other).value.map (Token.moveBy lines bytes) ∧
      joined.isComplete = (tokenize origin other).isComplete ∧
      ((tokenize origin other).faults = [] ∧ joined.faults = [] ∨
        ∃ position cause, (tokenize origin other).faults = [.lexical origin position cause] ∧
          joined.faults = [.lexical origin (position.moveBy lines bytes) cause]) := by
  intro lines bytes joined
  have hjoined : joined = _ := tokenize_lineFeed h other
  obtain ⟨stop, hstop, -, -⟩ := layout_tokenize origin other
  rw [hjoined]
  refine ⟨rfl, ?_, ?_⟩
  · rw [Salvage.isComplete, Salvage.isComplete, List.isEmpty_map]
  · generalize (tokenize origin other).faults = faults at hstop
    cases hstop with
    | whole => exact .inl ⟨rfl, rfl⟩
    | fault => exact .inr ⟨_, _, rfl, rfl⟩

/-- A number with a dot and a line comment at the end of a line, and a fault in the next. -/
theorem tokenize_append_lineFeed_comment :
    let source := Utf8.encode "1. // a"
    let other := Utf8.encode "5 @"
    let joined := tokenize ⟨"m"⟩ (source ++ 0x0A :: other)
    (tokenize ⟨"m"⟩ source).isComplete = true ∧
      joined.value =
        (tokenize ⟨"m"⟩ source).value ++
          (tokenize ⟨"m"⟩ other).value.map
            (Token.moveBy (1 + source.count 0x0A) (source.length + 1)) ∧
      joined.isComplete = (tokenize ⟨"m"⟩ other).isComplete ∧ joined.isComplete = false := by
  intro source other joined
  have hsource : (tokenize ⟨"m"⟩ source).isComplete = true := by decide +kernel
  have hother : (tokenize ⟨"m"⟩ other).isComplete = false := by decide +kernel
  obtain ⟨hvalue, hcomplete, -⟩ := tokenize_append_lineFeed ⟨"m"⟩ hsource other
  exact ⟨hsource, hvalue, hcomplete, hcomplete.trans hother⟩

/-! ### Lexemes one by one -/

/-- What a token is, apart from where it stands. -/
def form (t : Token) : Category × Kind × String × ℕ :=
  (t.category, t.kind, t.text, t.length)

/-- A token is what its bytes are when nothing else is there. -/
lemma ReadFrom.tokenize_eq {origin : Path} {source : List UInt8} {t : Token}
    (h : ReadFrom origin source t) (other : Path) :
    tokenize other (t.bytesIn source) =
      ⟨[⟨other, .start, t.category, t.kind, t.text, t.length⟩], []⟩ := by
  have hlexeme := h.lexeme.before (keepsEnds_nil _)
  have hrun : Run other .start (t.bytesIn source ++ [])
      [⟨other, .start, t.category, t.kind, t.text, (t.bytesIn source).length⟩] [] :=
    .lexeme hlexeme .done
  rw [List.append_nil, h.bytesIn_length] at hrun
  exact hrun.scan_eq

/-- Some tokens of a source are what their bytes are with a line break between any two. -/
lemma tokenize_intercalate {origin : Path} {source : List UInt8} {tokens : List Token}
    (h : ∀ t ∈ tokens, ReadFrom origin source t) (other : Path) :
    (tokenize other ([0x0A].intercalate (tokens.map (bytesIn · source)))).faults = [] ∧
      (tokenize other ([0x0A].intercalate (tokens.map (bytesIn · source)))).value.map form =
        tokens.map form := by
  induction tokens with
  | nil => exact ⟨rfl, rfl⟩
  | cons t tokens ih =>
    obtain ⟨hfirst, hrest⟩ := List.forall_mem_cons.mp h
    have halone := hfirst.tokenize_eq other
    cases tokens with
    | nil =>
      rw [List.map_singleton, List.intercalate_singleton, halone]
      exact ⟨rfl, rfl⟩
    | cons u tokens =>
      obtain ⟨hfaults, hforms⟩ := ih hrest
      -- A lexeme alone is a complete source, so a line feed can be put behind it.
      have hcomplete : (tokenize other (t.bytesIn source)).isComplete = true := by
        rw [halone]
        rfl
      have hjoin : [0x0A].intercalate ((t :: u :: tokens).map (bytesIn · source)) =
          t.bytesIn source ++
            0x0A :: [0x0A].intercalate ((u :: tokens).map (bytesIn · source)) := by
        rw [List.map_cons, List.map_cons, List.intercalate_cons_cons, List.append_assoc]
        rfl
      rw [hjoin, tokenize_lineFeed hcomplete, hfaults, halone]
      refine ⟨rfl, ?_⟩
      rw [List.singleton_append, List.map_cons, List.map_map]
      exact congrArg (t.form :: ·) hforms

/-- The lexemes of a source, joined by line breaks, are a complete source with the same tokens, but
for the positions.  Each of them by itself is just its token. -/
theorem tokenize_join_lexemes (origin : Path) (source : List UInt8) (other : Path) :
    let tokens := (tokenize origin source).value
    let joined := tokenize other ([0x0A].intercalate (tokens.map (bytesIn · source)))
    joined.isComplete = true ∧ joined.value.map form = tokens.map form ∧
      ∀ t ∈ tokens, tokenize other (t.bytesIn source) =
        ⟨[⟨other, .start, t.category, t.kind, t.text, t.length⟩], []⟩ := by
  intro tokens joined
  have hread : ∀ t ∈ tokens, ReadFrom origin source t := fun t ht => readFrom_of_mem_tokenize ht
  obtain ⟨hfaults, hforms⟩ := tokenize_intercalate hread other
  exact ⟨Salvage.isComplete_iff.mpr hfaults, hforms, fun t ht => (hread t ht).tokenize_eq other⟩

end Token

end UvaAnalysis
