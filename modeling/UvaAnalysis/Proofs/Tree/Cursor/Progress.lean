import UvaAnalysis.Proofs.Tree.Cursor.Statement
import UvaAnalysis.Token.Lexer

/-!
# Procedures come to an end

A procedure that follows a reader comes to an end from every cursor within the tokens and within the
limit of nesting, whether it succeeds or fails.  The cursor has not gone back and not past the last
token, as many levels are open as were at the start, and the chains of operators that were asked for
on the way need bind no more tightly than one level beyond the tightest operator.  When it succeeds
it has taken a token, and this is what ends the loops: each round is a procedure that succeeded, or
a token that was taken.
-/

namespace UvaAnalysis.Tree

open Reader (outcome remaining)

/-! ### Readers that take a token -/

/-- A chain of operators takes its first operand. -/
lemma takes_binary (room least : ℕ) : (binary (operand room) least).Takes :=
  (ensures_binary (derives_expression_operand room).2 least).takes fun _ _ h => h.ne_nil

/-- A primary expression takes a token, with or without suffixes. -/
lemma takes_suffixed (room : ℕ) : (suffixed (expression room)).Takes :=
  (ensures_suffixed (derives_expression_operand room).1).takes fun _ _ h => h.ne_nil

/-- It takes one by itself. -/
lemma takes_primary (room : ℕ) : (primary (expression room)).Takes :=
  (ensures_primary (derives_expression_operand room).1).takes fun _ _ h => h.ne_nil

namespace Parser

variable {α : Type} {tokens : List Token} {room most : ℕ} {m : Parser α} {s s' : Cursor}
  {made : List Tree} {result : EStateM.Result Fault (List Token) α}

/-! ### Ends -/

/-- Started at `s` the computation comes to an end, and the cursor went onward. -/
def Settles (tokens : List Token) (m : Parser α) (s : Cursor) : Prop :=
  ∃ final s' made, EndsAt tokens m s final s' ∧ s.Onward tokens s' made

/-- Started at `s` the computation comes to an end with the outcome of `result` and has made the
nodes `made`, and the cursor went onward from `entered` to where the tokens of `result` are left, by
a token at least if the computation succeeded.  What is noted on entry is not part of the way. -/
def Advances (tokens : List Token) (m : Parser α) (s entered : Cursor) (made : List Tree)
    (result : EStateM.Result Fault (List Token) α) : Prop :=
  ∃ s', EndsAt tokens m s (outcome result) s' ∧ entered.Onward tokens s' made ∧
    s'.left tokens = remaining result ∧
    ∀ a rest, result = .ok a rest → entered.position < s'.position

/-- A cursor that leaves fewer tokens has gone forth. -/
lemma lt_of_length_left_lt (tokens : List Token)
    (h : (s'.left tokens).length < (s.left tokens).length) : s.position < s'.position := by
  simp only [Cursor.left, List.length_drop] at h
  omega

/-- An end is an end, whatever the outcome. -/
lemma Ends.settles (h : Ends tokens m s made result) : Settles tokens m s := by
  obtain ⟨s', hends, honward, -⟩ := h
  exact ⟨_, s', made, hends, honward⟩

/-- An end at which fewer tokens are left is further on. -/
lemma Ends.advances (h : Ends tokens m s made result)
    (hshorter : ∀ a rest, result = .ok a rest → rest.length < (s.left tokens).length) :
    Advances tokens m s s made result := by
  obtain ⟨s', hends, honward, hleft⟩ := h
  refine ⟨s', hends, honward, hleft, fun a rest hok => ?_⟩
  refine lt_of_length_left_lt tokens ?_
  rw [hleft, hok]
  exact hshorter a rest hok

/-- What follows a reader that takes a token goes on by a token. -/
lemma Follows.advances {reader : Reader α} (h : Follows tokens room most m reader)
    (htakes : reader.Takes) (hs : Ready tokens room most s) :
    Advances tokens m s s [] (reader (s.left tokens)) :=
  (h s hs).advances fun _ _ hok => htakes hok

/-- What builds a grower's nodes goes on by a token, if the grower takes one. -/
lemma Builds.advances {m : Parser Unit} {grower : Grower} (h : Builds tokens room most m grower)
    (htakes : grower.Takes) (hs : Ready tokens room most s) :
    Advances tokens m s s (grower (s.left tokens)).nodes (grower (s.left tokens)).result := by
  refine Ends.advances (h s hs) fun a rest hok => ?_
  unfold Growth.result at hok
  cases hfault : (grower (s.left tokens)).fault with
  | some fault =>
    rw [hfault] at hok
    cases hok
  | none =>
    rw [hfault] at hok
    cases hok
    exact htakes hfault

/-- From every cursor within the tokens and the limit of nesting each procedure comes to an end,
with the outcome of the reader that has the same tokens and levels left.  Whether it succeeds or
fails the cursor goes onward, and when a procedure succeeds that makes a statement or an expression,
it has taken a token.  So the loops come to an end as well, and the whole is the tree and the faults
that the readers make of the tokens. -/
theorem procedures_advance (tokens : List Token) (s : Cursor)
    (hposition : s.position ≤ tokens.length) (hdepth : s.depth ≤ nestingLimit) :
    let left := s.left tokens
    let room := nestingLimit - s.depth
    (Advances tokens (statement tokens) s s (Tree.statement room left).nodes
        (Tree.statement room left).result ∧
      Advances tokens (expression tokens) s s [] (Tree.expression room left) ∧
      (∀ least, Advances tokens (binary tokens least) s (s.noted least) []
        (Tree.binary (operand room) least left)) ∧
      Advances tokens (unary tokens) s s [] (operand room left) ∧
      Advances tokens (suffixed tokens) s s [] (Tree.suffixed (Tree.expression room) left) ∧
      Advances tokens (primary tokens) s s [] (Tree.primary (Tree.expression room) left)) ∧
    ((∀ closers, Settles tokens (statements tokens closers) s) ∧
      Settles tokens (parameters tokens) s ∧
      (∀ close, Settles tokens (list tokens close) s) ∧
      (∀ close, Settles tokens (elements tokens close) s) ∧
      (∀ subject, Settles tokens (suffixes tokens subject) s) ∧
      ∀ least first, Settles tokens (operators tokens least first) s) ∧
    Settles tokens (program tokens) .start ∧
    ∃ enough, ∀ number ≥ enough, parseWithin number tokens = some (Tree.parse tokens) := by
  intro left room
  have hroom : s.depth + room = nestingLimit := Nat.add_sub_of_le hdepth
  have hs : Ready tokens room left.length s := ⟨hposition, hroom, Nat.le_refl _⟩
  have hnoted (least : ℕ) : Ready tokens room left.length (s.noted least) :=
    ⟨hposition, hroom, Nat.le_refl _⟩
  have hstart : Ready tokens nestingLimit tokens.length .start :=
    ⟨Nat.zero_le _, rfl, Nat.le_refl tokens.length⟩
  have hstatement (most : ℕ) := builds_statement tokens room most
  have hexpression (most : ℕ) := (follows_expression_unary tokens room most).1
  have hunary (most : ℕ) := (follows_expression_unary tokens room most).2
  have hlocal := (local_expression_operand room).1
  have htakes := (local_statement room).takes
  -- The same procedures called through the table, as the procedures around them do.
  have hinner (most : ℕ) : Builds tokens room most (call (·.statement)) (Tree.statement room) :=
    (hstatement most).call fun _ => rfl
  have hvalue (most : ℕ) : Follows tokens room most (call (·.expression)) (Tree.expression room) :=
    (hexpression most).call fun _ => rfl
  refine ⟨⟨(hstatement _).advances htakes hs, (hexpression _).advances (takes_expression room) hs,
    fun least => ?_, (hunary _).advances (takes_operand room) hs,
    (follows_suffixed hvalue hlocal).advances (takes_suffixed room) hs,
    (follows_primary hvalue hlocal).advances (takes_primary room) hs⟩,
    ⟨fun closers => ?_, ?_, fun close => ?_, fun close => ?_, fun subject => ?_,
    fun least first => ?_⟩, ?_, parseWithin_eq tokens⟩
  · rw [binary]
    exact (follows_unary_operators hunary least).advances (takes_binary room least) (hnoted least)
  · exact Ends.settles (builds_statements_self hinner htakes closers s hs)
  · exact Ends.settles (builds_parameters left s hs)
  · exact Ends.settles (follows_list hvalue hlocal close s hs)
  · exact Ends.settles (follows_elements hvalue hlocal close left s hs)
  · exact Ends.settles (follows_suffixes hvalue hlocal left subject s hs)
  · exact Ends.settles (follows_operators hunary left least first s hs)
  · exact Ends.settles (builds_program tokens .start hstart)

/-- An expression with two levels left that needs three, at the fourth token of the stream. -/
theorem procedures_advance_too_deep :
    let tokens := (Token.tokenize ⟨"m"⟩ (Utf8.encode "let x = -(a + b) * c")).value
    let s : Cursor := ⟨3, 126, [], []⟩
    s.position ≤ tokens.length ∧ s.depth ≤ nestingLimit ∧
      Advances tokens (expression tokens) s s [] (Tree.expression 2 (tokens.drop 3)) ∧
      Advances tokens (binary tokens 9) s (s.noted 9) []
        (Tree.binary (operand 2) 9 (tokens.drop 3)) ∧
      Settles tokens (operators tokens 9 default) s ∧
      ∃ enough, ∀ number ≥ enough, parseWithin number tokens = some (Tree.parse tokens) := by
  intro tokens s
  have hposition : s.position ≤ tokens.length := by decide +kernel
  have hdepth : s.depth ≤ nestingLimit := by decide
  obtain ⟨⟨-, hexpression, hbinary, -⟩, ⟨-, -, -, -, -, hoperators⟩, -, hparse⟩ :=
    procedures_advance tokens s hposition hdepth
  exact ⟨hposition, hdepth, hexpression, hbinary 9, hoperators 9 default, hparse⟩

end Parser

end UvaAnalysis.Tree
