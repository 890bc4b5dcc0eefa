import UvaAnalysis.Proofs.Position
import UvaAnalysis.Proofs.Token.Grammar

/-!
# The runs of the lexer

`Run origin position source tokens faults` says, in the terms of the grammar alone, what going
through `source` from `position` on comes to: blanks pass, lexemes become tokens, and a byte at
which nothing of the grammar begins ends the run with a fault.  The lexer has exactly this run
(`scan_eq_iff_run`), so what holds of every run, by induction, holds of what the lexer gives.
-/

namespace UvaAnalysis.Token

/-- What going through a source comes to, from a position on. -/
inductive Run (origin : Path) : Position → List UInt8 → List Token → List Fault → Prop
  | done {position : Position} : Run origin position [] [] []
  | blank {position : Position} {bytes following : List UInt8} {tokens : List Token}
    {faults : List Fault} (h : Blank bytes following)
    (rest : Run origin (position.advanceBy bytes) following tokens faults) :
    Run origin position (bytes ++ following) tokens faults
  | lexeme {position : Position} {category : Category} {kind : Kind} {text : String}
    {bytes following : List UInt8} {tokens : List Token} {faults : List Fault}
    (h : Lexeme category kind text bytes following)
    (rest : Run origin (position.advanceBy bytes) following tokens faults) :
    Run origin position (bytes ++ following)
      (⟨origin, position, category, kind, text, bytes.length⟩ :: tokens) faults
  | malformed {position : Position} {byte : UInt8} {rest : List UInt8} {cause : LexicalError}
    (h : Piece.ofBytes byte rest = .malformed cause) :
    Run origin position (byte :: rest) [] [.lexical origin position cause]

/-! ### What the lexer does with one piece -/

/-- Bytes that are skipped after the first one lead to what follows them. -/
lemma scan_others (origin : Path) (position : Position) (byte : UInt8)
    (others following : List UInt8) :
    scan origin others.length (position.advance byte) (others ++ following) =
      scan origin 0 (position.advanceBy (byte :: others)) following := by
  rw [scan_skip, List.take_left, List.drop_left, Position.advanceBy_cons]

/-- A blank passes. -/
lemma scan_blank {origin : Path} {position : Position} {bytes following : List UInt8}
    (h : Blank bytes following) :
    scan origin 0 position (bytes ++ following) =
      scan origin 0 (position.advanceBy bytes) following := by
  obtain ⟨byte, others, rfl⟩ := h.exists_cons
  rw [List.cons_append, scan, h.ofBytes_eq (List.cons_append ..).symm, ← scan_others]
  rfl

/-- A lexeme becomes a token. -/
lemma scan_lexeme {origin : Path} {position : Position} {category : Category} {kind : Kind}
    {text : String} {bytes following : List UInt8} (h : Lexeme category kind text bytes following) :
    scan origin 0 position (bytes ++ following) =
      ⟨⟨origin, position, category, kind, text, bytes.length⟩ ::
          (scan origin 0 (position.advanceBy bytes) following).value,
        (scan origin 0 (position.advanceBy bytes) following).faults⟩ := by
  obtain ⟨byte, others, rfl⟩ := h.exists_cons
  rw [List.cons_append, scan, h.ofBytes_eq (List.cons_append ..).symm, ← scan_others]
  rfl

/-- A malformed piece is the end. -/
lemma scan_malformed {origin : Path} {position : Position} {byte : UInt8} {rest : List UInt8}
    {cause : LexicalError} (h : Piece.ofBytes byte rest = .malformed cause) :
    scan origin 0 position (byte :: rest) = ⟨[], [.lexical origin position cause]⟩ := by
  rw [scan, h]

/-! ### The lexer has a run, and no other -/

/-- What the lexer gives is what a run comes to. -/
theorem scan_run (origin : Path) (position : Position) (source : List UInt8) :
    Run origin position source (scan origin 0 position source).value
      (scan origin 0 position source).faults := by
  -- On the number of bytes, since a piece takes several at once.
  induction hlength : source.length using Nat.strong_induction_on generalizing position source with
  | _ n ih =>
    cases source with
    | nil =>
      rw [scan_nil]
      exact .done
    | cons byte rest =>
      have hshorter {bytes following : List UInt8} {more : ℕ}
          (heq : byte :: rest = bytes ++ following) (hbytes : bytes.length = more + 1) :
          following.length < n := by
        rw [heq, List.length_append] at hlength
        omega
      cases hpiece : Piece.ofBytes byte rest with
      | blank more =>
        obtain ⟨bytes, following, heq, hbytes, hblank⟩ := ofBytes_eq_blank_iff.mp hpiece
        have hrest := ih _ (hshorter heq hbytes) (position.advanceBy bytes) following rfl
        rw [heq, scan_blank hblank]
        exact .blank hblank hrest
      | lexeme category kind text more =>
        obtain ⟨bytes, following, heq, hbytes, hlexeme⟩ := ofBytes_eq_lexeme_iff.mp hpiece
        have hrest := ih _ (hshorter heq hbytes) (position.advanceBy bytes) following rfl
        rw [heq, scan_lexeme hlexeme]
        exact .lexeme hlexeme hrest
      | malformed cause =>
        rw [scan_malformed hpiece]
        exact .malformed hpiece

/-- A run comes to what the lexer gives. -/
theorem Run.scan_eq {origin : Path} {position : Position} {source : List UInt8}
    {tokens : List Token} {faults : List Fault} (h : Run origin position source tokens faults) :
    scan origin 0 position source = ⟨tokens, faults⟩ := by
  induction h with
  | done => exact scan_nil ..
  | blank h _ ih => rw [scan_blank h, ih]
  | lexeme h _ ih => rw [scan_lexeme h, ih]
  | malformed h => exact scan_malformed h

/-- The lexer gives exactly what the runs come to. -/
theorem scan_eq_iff_run {origin : Path} {position : Position} {source : List UInt8}
    {tokens : List Token} {faults : List Fault} :
    scan origin 0 position source = ⟨tokens, faults⟩ ↔
      Run origin position source tokens faults := by
  constructor
  · intro h
    have hrun := scan_run origin position source
    rw [h] at hrun
    exact hrun
  · exact Run.scan_eq

end UvaAnalysis.Token
