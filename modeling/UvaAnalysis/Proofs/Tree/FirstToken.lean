import UvaAnalysis.Proofs.Tree.Local.Expression

/-!
# The first token of an expression

Whether a `return` has a value is decided by the token after it alone: there is one if the token is
in the table `Token.startsExpression`.  The readers have no such table.  A prefix operator is taken
by `unary`, every other token comes down to `primary`, and the looser readers leave the first token
to the tighter ones.

So it is shown of one reader after the other which tokens it starts with (`Reader.StartsWith`): with
one of these tokens in front it takes that token at least, whether it succeeds or fails later on,
and at any other it stops and takes nothing.  From `expression` this comes out as the table, and the
table is also what the grammar has at the front of its expressions.
-/

namespace UvaAnalysis

namespace Token

/-- A token that an expression without a prefix operator can begin with. -/
def startsPrimary (t : Token) : Bool :=
  t.category = .literal || t.category = .identifier || t.isKeyword "self" || t.is .delimiter "(" ||
    t.is .delimiter "["

/-- The table has the prefix operators and what else an expression can begin with. -/
lemma startsExpression_eq (t : Token) :
    t.startsExpression = (t.isPrefixOperator || t.startsPrimary) := by
  unfold startsExpression isPrefixOperator startsPrimary isKeyword is
  cases t.category <;> simp [Bool.or_comm]

end Token

namespace Reader

variable {α β : Type}

/-- What is left is a suffix, whether or not the reader succeeds. -/
lemma LeavesSuffix.remaining_suffix {reader : Reader α} (h : reader.LeavesSuffix)
    (tokens : List Token) : remaining (reader tokens) <:+ tokens :=
  rest_eq_remaining reader tokens ▸ h tokens

/-- The tokens that satisfy `starts` are those that a reader of expressions starts with: it takes
such a token, whatever comes of it, and it stops at any other. -/
structure StartsWith (reader : Reader α) (starts : Token → Bool) : Prop where
  takes : ∀ t rest, starts t = true → remaining (reader (t :: rest)) <:+ rest
  stops : ∀ t rest, starts t = false →
    reader (t :: rest) = .error (.unexpected .expression t) (t :: rest)

/-- What comes after a reader has no part in what the reader starts with. -/
lemma StartsWith.bind {reader : Reader α} {starts : Token → Bool} {next : α → Reader β}
    (h : reader.StartsWith starts) (hnext : ∀ a, (next a).LeavesSuffix) :
    (reader >>= next).StartsWith starts := by
  refine ⟨fun t rest ht => ?_, fun t rest ht => ?_⟩
  · have htakes := h.takes t rest ht
    rw [bind_apply]
    cases heq : reader (t :: rest) with
    | error fault between =>
      rw [heq] at htakes
      exact htakes
    | ok a between =>
      rw [heq] at htakes
      exact ((hnext a).remaining_suffix between).trans htakes
  · rw [bind_apply, h.stops t rest ht]

end Reader

namespace Tree

open Reader

section

variable {expression operand target value : Reader Tree}

/-- A primary expression stops at once unless the first token is one of its own. -/
lemma startsWith_primary (h : IsLocalExpression expression) :
    (primary expression).StartsWith Token.startsPrimary := by
  have hparentheses : (do
      let inner ← expression
      Reader.expect .delimiter ")"
      return inner : Reader Tree).LeavesSuffix :=
    h.isLocal.suffix.bind fun _ => (local_expect _ _).suffix.bind fun _ => leavesSuffix_pure _
  have harray (t : Token) : (do
      let items ← list expression "]"
      return ⟨.arrayLiteral, some t, items⟩ : Reader Tree).LeavesSuffix :=
    (local_list h "]").suffix.bind fun _ => leavesSuffix_pure _
  refine ⟨fun t rest ht => ?_, fun t rest ht => ?_⟩
  · rw [primary]
    split_ifs with hliteral hname hparenthesis hbracket
    · exact List.suffix_refl rest
    · exact List.suffix_refl rest
    · exact hparentheses.remaining_suffix rest
    · exact (harray t).remaining_suffix rest
    · rw [not_or] at hname
      simp [Token.startsPrimary, hliteral, hname, hparenthesis, hbracket] at ht
  · simp only [Token.startsPrimary, Bool.or_eq_false_iff, decide_eq_false_iff_not] at ht
    obtain ⟨⟨⟨⟨hliteral, hidentifier⟩, hself⟩, hparenthesis⟩, hbracket⟩ := ht
    simp [primary, hliteral, hidentifier, hself, hparenthesis, hbracket]

/-- Suffixes come behind a primary expression, so they do not change what it begins with. -/
lemma startsWith_suffixed (h : IsLocalExpression expression) :
    (suffixed expression).StartsWith Token.startsPrimary := by
  refine (startsWith_primary h).bind fun subject tokens => ?_
  exact (local_suffixes h.isLocal (local_list h) tokens subject).suffix tokens

/-- A prefix operator is taken before anything else is looked at. -/
lemma startsWith_unary (h : IsLocalExpression expression) (hoperand : operand.LeavesSuffix) :
    (unary expression operand).StartsWith Token.startsExpression := by
  have hsuffixed {t : Token} {rest : List Token} (hoperator : ¬t.isPrefixOperator = true) :
      unary expression operand (t :: rest) = suffixed expression (t :: rest) := by
    rw [unary, bind_apply, Reader.take?, if_neg hoperator]
  refine ⟨fun t rest ht => ?_, fun t rest ht => ?_⟩
  · by_cases hoperator : t.isPrefixOperator = true
    · rw [unary, bind_apply, Reader.take?, if_pos hoperator]
      exact (hoperand.bind fun _ => leavesSuffix_pure _).remaining_suffix rest
    · rw [Token.startsExpression_eq, Bool.or_eq_true, or_iff_right hoperator] at ht
      rw [hsuffixed hoperator]
      exact (startsWith_suffixed h).takes t rest ht
  · rw [Token.startsExpression_eq, Bool.or_eq_false_iff] at ht
    rw [hsuffixed (Bool.not_eq_true _ ▸ ht.1)]
    exact (startsWith_suffixed h).stops t rest ht.2

/-- A chain of operators begins with its first operand. -/
lemma startsWith_binary {starts : Token → Bool} (h : operand.StartsWith starts)
    (hlocal : operand.Local) (least : ℕ) : (binary operand least).StartsWith starts :=
  h.bind fun first tokens => (local_climb hlocal tokens least first).suffix tokens

/-- An assignment begins with its target. -/
lemma startsWith_assignment {starts : Token → Bool} (h : target.StartsWith starts)
    (hvalue : value.LeavesSuffix) : (assignment target value).StartsWith starts := by
  refine h.bind fun left => (local_take? _).suffix.bind fun operator => ?_
  cases operator with
  | some operator => exact hvalue.bind fun _ => leavesSuffix_pure _
  | none => exact leavesSuffix_pure _

end

/-- An operand starts as the table says, even with no level left for what is inside it. -/
lemma startsWith_operand (room : ℕ) : (operand room).StartsWith Token.startsExpression := by
  cases room with
  | zero => exact startsWith_unary (local_expression_operand 0).1 (local_tooDeep _).suffix
  | succ room =>
    rw [operand_succ]
    exact startsWith_unary (local_expression_operand (room + 1)).1
      (local_expression_operand room).2.suffix

/-- With a level left an expression starts as the table says. -/
lemma startsWith_expression (room : ℕ) :
    (expression (room + 1)).StartsWith Token.startsExpression := by
  obtain ⟨hexpression, hoperand⟩ := local_expression_operand room
  rw [expression_succ]
  exact startsWith_assignment (startsWith_binary (startsWith_operand room) hoperand 1)
    hexpression.isLocal.suffix

/-! ### Expressions that begin with a token -/

/-- The token is the first of some tokens that are read as an expression. -/
def BeginsExpression (t : Token) : Prop :=
  ∃ levels used tree, expression levels (t :: used) = .ok tree []

/-- The grammar has no expression that begins with a token outside the table. -/
lemma Derives.startsExpression {room : ℕ} {used : List Token} {tree : Tree}
    (h : Derives room used tree) : ∃ t rest, used = t :: rest ∧ t.startsExpression = true := by
  have hprimary {t : Token} (ht : t.startsPrimary = true) : t.startsExpression = true := by
    rw [Token.startsExpression_eq, ht, Bool.or_true]
  -- Where the grammar is left recursive, the whole begins with what its left part begins with.
  have hafter {before after : List Token}
      (h : ∃ t rest, before = t :: rest ∧ t.startsExpression = true) :
      ∃ t rest, before ++ after = t :: rest ∧ t.startsExpression = true := by
    obtain ⟨t, rest, rfl, ht⟩ := h
    exact ⟨t, rest ++ after, rfl, ht⟩
  induction h with
  | literal ht => exact ⟨_, _, rfl, hprimary (by simp [Token.startsPrimary, ht])⟩
  | name ht =>
    refine ⟨_, _, rfl, hprimary ?_⟩
    rcases ht with ht | ht <;> simp [Token.startsPrimary, ht]
  | parenthesized hfirst _ _ _ _ =>
    exact ⟨_, _, rfl, hprimary (by simp [Token.startsPrimary, hfirst])⟩
  | array hfirst _ _ _ _ _ => exact ⟨_, _, rfl, hprimary (by simp [Token.startsPrimary, hfirst])⟩
  | unary hoperator _ _ _ =>
    exact ⟨_, _, rfl, by rw [Token.startsExpression_eq, hoperator, Bool.true_or]⟩
  | call _ _ _ _ _ _ ih _ => exact hafter ih
  | member _ _ _ ih => exact hafter ih
  | index _ _ _ _ _ ih _ => exact hafter ih
  | binary _ _ _ ih _ => exact hafter ih
  | assignment _ _ _ _ ih _ => exact hafter ih

/-- What is read as an expression is derived by the grammar. -/
lemma BeginsExpression.derives {t : Token} (h : BeginsExpression t) :
    ∃ levels used tree, Derives levels (t :: used) tree := by
  obtain ⟨levels, used, tree, heq⟩ := h
  obtain ⟨all, hall, -, hderives⟩ := (derives_expression_operand levels).1 heq
  rw [List.append_nil] at hall
  exact ⟨_, used, tree, hall ▸ hderives⟩

/-- Behind each token of the table the shortest expression is a name at the most, and a bracket. -/
lemma beginsExpression_of_startsExpression {t : Token} (h : t.startsExpression = true) :
    BeginsExpression t := by
  obtain ⟨origin, position, category, kind, text, length⟩ := t
  let name : Token := ⟨origin, position, .identifier, kind, "x", length⟩
  let close (text : String) : Token := ⟨origin, position, .delimiter, kind, text, length⟩
  cases category with
  | literal | identifier => exact ⟨1, [], _, rfl⟩
  | directive => cases h
  | keyword =>
    simp only [Token.startsExpression, Bool.or_eq_true, decide_eq_true_eq] at h
    obtain rfl | rfl := h
    · exact ⟨1, [], _, rfl⟩
    · exact ⟨2, [name], _, rfl⟩
  | operator =>
    simp only [Token.startsExpression, Bool.or_eq_true, decide_eq_true_eq] at h
    obtain rfl | rfl := h <;> exact ⟨2, [name], _, rfl⟩
  | delimiter =>
    simp only [Token.startsExpression, Bool.or_eq_true, decide_eq_true_eq] at h
    obtain rfl | rfl := h
    · exact ⟨2, [name, close ")"], _, rfl⟩
    · exact ⟨1, [close "]"], _, rfl⟩

/-- The three ways to say that an expression can begin with a token. -/
lemma startsExpression_iff_begins_and_derives (t : Token) :
    (t.startsExpression = true ↔ BeginsExpression t) ∧
      (t.startsExpression = true ↔ ∃ levels used tree, Derives levels (t :: used) tree) := by
  have hderives : (∃ levels used tree, Derives levels (t :: used) tree) →
      t.startsExpression = true := by
    rintro ⟨levels, used, tree, h⟩
    obtain ⟨_, _, heq, ht⟩ := h.startsExpression
    cases heq
    exact ht
  exact ⟨⟨beginsExpression_of_startsExpression, fun h => hderives h.derives⟩,
    fun h => (beginsExpression_of_startsExpression h).derives, hderives⟩

/-! ### The value of a return -/

section

variable {value : Reader Tree} {keyword t : Token} {rest : List Token}

/-- A return starts with its keyword, and has its value one level further in. -/
lemma statement_return (hkeyword : keyword.isKeyword "return" = true) (room : ℕ)
    (tokens : List Token) :
    statement (room + 1) (keyword :: tokens) = returnStatement (expression room) tokens := by
  obtain ⟨hcategory, htext⟩ := Token.is_iff.mp hkeyword
  have hopening : Opening.ofToken keyword = .returnStatement := by
    simp [Opening.ofToken, Token.is, hcategory, htext]
  rw [statement_succ, statementOf, hopening]

/-- Before a token outside the table a return has no value, and takes nothing. -/
lemma returnStatement_of_not_starts (value : Reader Tree) (rest : List Token)
    (ht : t.startsExpression = false) :
    returnStatement value (t :: rest) = ⟨[⟨.returnStatement, none, []⟩], none, t :: rest⟩ := by
  simp only [returnStatement, Grower.node, ht, Bool.false_eq_true, if_false, Grower.nothing]

/-- Before a token of the table a return has a value, or the reading of the value stops behind that
token. -/
lemma returnStatement_of_starts (hstarts : value.StartsWith Token.startsExpression)
    (hlocal : value.Local) (ht : t.startsExpression = true) :
    (∃ tree after, after <:+ rest ∧
      returnStatement value (t :: rest) = ⟨[⟨.returnStatement, none, [tree]⟩], none, after⟩) ∨
    ∃ fault after, after <:+ rest ∧ fault.StopsAt after ∧
      returnStatement value (t :: rest) = ⟨[⟨.returnStatement, none, []⟩], some fault, after⟩ := by
  have htakes := hstarts.takes t rest ht
  simp only [returnStatement, Grower.node, ht, if_true, Grower.one]
  cases heq : value (t :: rest) with
  | ok tree after =>
    rw [heq] at htakes
    exact .inl ⟨tree, after, htakes, rfl⟩
  | error fault after =>
    rw [heq] at htakes
    exact .inr ⟨fault, after, htakes, hlocal.stopsAt heq, rfl⟩

end

/-- The table has exactly the tokens that an expression can begin with.  With a level left, the
reader of expressions has a fault at the very token it is to begin with if and only if that token is
not in the table, and the tokens of the table are the first tokens of what is read as an expression
and of what the grammar derives.  So a return whose value has a level left never has its fault at
the token right behind the keyword, and it has no value exactly if no expression can begin there. -/
theorem return_lookahead_exact (room : ℕ) (t : Token) (rest : List Token) :
    (t.startsExpression = true ↔ ¬∃ fault : Fault, fault.found? = some t ∧
      expression (room + 1) (t :: rest) = .error fault (t :: rest)) ∧
    (t.startsExpression = true ↔ BeginsExpression t) ∧
    (t.startsExpression = true ↔ ∃ levels used tree, Derives levels (t :: used) tree) ∧
    ∀ keyword : Token, keyword.isKeyword "return" = true →
      let growth := statement (room + 2) (keyword :: t :: rest)
      (∀ fault ∈ growth.fault, fault.StopsAt growth.rest ∧ growth.rest <:+ rest) ∧
      (growth = ⟨[⟨.returnStatement, none, []⟩], none, t :: rest⟩ ↔ ¬BeginsExpression t) ∧
      (BeginsExpression t → growth.fault = none →
        ∃ value, growth.nodes = [⟨.returnStatement, none, [value]⟩]) ∧
      statement (room + 2) [keyword] = ⟨[⟨.returnStatement, none, []⟩], none, []⟩ := by
  have hstarts := startsWith_expression room
  have hlocal := (local_expression_operand (room + 1)).1.isLocal
  obtain ⟨hbegins, hderives⟩ := startsExpression_iff_begins_and_derives t
  refine ⟨⟨?_, fun hnot => ?_⟩, hbegins, hderives, fun keyword hkeyword => ?_⟩
  · rintro ht ⟨fault, -, heq⟩
    -- A token of the table is taken, so no fault leaves it in place.
    have hsuffix := hstarts.takes t rest ht
    rw [heq] at hsuffix
    exact absurd hsuffix.length_le (Nat.not_succ_le_self _)
  · by_contra ht
    exact hnot ⟨_, rfl, hstarts.stops t rest (Bool.not_eq_true _ ▸ ht)⟩
  · dsimp only
    rw [statement_return hkeyword, statement_return hkeyword, ← hbegins]
    cases ht : t.startsExpression with
    | false =>
      rw [returnStatement_of_not_starts _ _ ht]
      exact ⟨fun _ h => (nomatch h), ⟨fun _ h => (nomatch h), fun _ => rfl⟩,
        fun h => (nomatch h), rfl⟩
    | true =>
      obtain ⟨tree, after, hafter, heq⟩ | ⟨fault, after, hafter, hstops, heq⟩ :=
        returnStatement_of_starts hstarts hlocal ht <;> rw [heq]
      · exact ⟨fun _ h => (nomatch h), ⟨fun h => (nomatch h), fun h => absurd rfl h⟩,
          fun _ _ => ⟨tree, rfl⟩, rfl⟩
      · refine ⟨fun other h => ?_, ⟨fun h => (nomatch h), fun h => absurd rfl h⟩,
          fun _ h => (nomatch h), rfl⟩
        obtain rfl := Option.some.inj h
        exact ⟨hstops, hafter⟩

/-- The value of a return begins with a sign, and its operand is missing. -/
theorem return_lookahead_exact_minus :
    let keyword : Token := ⟨⟨"m"⟩, default, .keyword, .plain, "return", 6⟩
    let minus : Token := ⟨⟨"m"⟩, default, .operator, .plain, "-", 1⟩
    let growth := statement 2 [keyword, minus]
    keyword.isKeyword "return" = true ∧
      growth.fault = some (.endOfInput .expression) ∧
      (∀ fault ∈ growth.fault, fault.StopsAt growth.rest ∧ growth.rest <:+ []) ∧
      (growth = ⟨[⟨.returnStatement, none, []⟩], none, [minus]⟩ ↔ ¬BeginsExpression minus) := by
  intro keyword minus growth
  have hkeyword : keyword.isKeyword "return" = true := rfl
  obtain ⟨-, -, -, hreturn⟩ := return_lookahead_exact 0 minus []
  obtain ⟨hfault, hbare, -⟩ := hreturn keyword hkeyword
  exact ⟨hkeyword, rfl, hfault, hbare⟩

end Tree

end UvaAnalysis
