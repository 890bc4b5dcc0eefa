import UvaAnalysis.Proofs.Tree.Cursor.Follows

/-!
# Expressions read with a cursor

From every cursor the procedures of expressions do what the readers of expressions do with the
levels and the tokens that are left (`follows_expression_unary`), so they come to an end.

A procedure that is called at the same token as its caller stands further down in the order
`expression`, `unary`, `suffixed`, `primary`; every other call comes behind a token.  The proofs go
by the levels that are left, and for the loops by the tokens that are left, as the readers do.
-/

namespace UvaAnalysis

/-- No operator binds more tightly than at the sixth level. -/
lemma Token.precedence_le_six {t : Token} {precedence : ℕ} (h : t.precedence? = some precedence) :
    precedence ≤ 6 := by
  unfold precedence? at h
  split_ifs at h <;> cases h <;> decide

namespace Tree

namespace Parser

variable {tokens : List Token} {room most : ℕ} {inner tight : Reader Tree}

/-! ### Operators -/

/-- A binary operator is taken where the reader takes it. -/
lemma follows_binaryOperator? (least : ℕ) :
    Follows tokens room most (binaryOperator? tokens least) (Tree.binaryOperator? least) := by
  refine follows_peek (fun s hs hleft => ends_pure hs.position_le hleft none)
    fun s t rest hs hleft => ?_
  rw [Tree.binaryOperator?]
  dsimp only
  cases t.precedence? with
  | none => exact ends_pure hs.position_le hleft none
  | some precedence =>
    dsimp only
    split_ifs with h
    · exact (follows_pure (some (t, precedence))).after_advance hs hleft
    · exact ends_pure hs.position_le hleft none

/-- The rounds of a chain of operators, by the tokens that are left: each round takes an operator.
-/
lemma follows_operators (hunary : ∀ most, Follows tokens room most (unary tokens) tight)
    (bound : List Token) (least : ℕ) (left : Tree) :
    Follows tokens room bound.length (operators tokens least left)
      (climb tight bound least left) := by
  induction bound generalizing least left with
  | nil =>
    intro s hs
    have hnil := hs.left_eq_nil
    rw [operators, binaryOperator?, bind_assoc]
    refine .of_peek ?_
    rw [hnil]
    exact ends_pure hs.position_le hnil left
  | cons _ bound ih =>
    rw [operators, climb]
    refine (follows_binaryOperator? least).bind_of_ok fun found before rest hfound hmost _ => ?_
    obtain ⟨used, rfl, hused⟩ := ensures_binaryOperator? least hfound
    obtain ⟨t, precedence, rfl, hprecedence, -, rfl⟩ | ⟨rfl, rfl⟩ := hused
    · have hrest : rest.length ≤ bound.length := Nat.le_of_succ_le_succ hmost
      -- The right side and what is behind it are read by rounds with fewer tokens.
      have hround (least : ℕ) (grown : Tree) : Follows tokens room rest.length
          (call (·.operators least grown)) (climb tight bound least grown) :=
        ((ih least grown).mono hrest).call fun _ => rfl
      have hright : Follows tokens room rest.length (binary tokens (precedence + 1))
          (do let next ← tight; climb tight bound (precedence + 1) next) := by
        have hsix := Token.precedence_le_six hprecedence
        rw [binary]
        exact Follows.after_note ((hunary _).bind (hround (precedence + 1)))
          (Nat.succ_le_succ hsix)
      have hrounds := hright.bind fun right =>
        hround least ⟨.binaryExpression, some t, [left, right]⟩
      rw [bind_assoc] at hrounds
      exact hrounds
    · exact follows_pure left

/-- Past the note of it, a chain of operators of any precedence is read as the reader does. -/
lemma follows_unary_operators (hunary : ∀ most, Follows tokens room most (unary tokens) tight)
    (least : ℕ) :
    Follows tokens room most (do let left ← unary tokens; call (·.operators least left))
      (Tree.binary tight least) :=
  (hunary most).bind fun left => follows_bounded fun bound =>
    (follows_operators hunary bound least left).call fun _ => rfl

/-! ### Expressions -/

section

variable (hexpression : ∀ most, Follows tokens room most (call (·.expression)) inner)
  (h : IsLocalExpression inner)

include hexpression h

/-- The rounds of a list, by the tokens that are left: each round takes an element. -/
lemma follows_elements (close : String) (bound : List Token) :
    Follows tokens room bound.length (elements tokens close)
      (Tree.elements inner close bound) := by
  induction bound with
  | nil =>
    intro s hs
    have hends := hexpression 0 s hs
    rw [elements]
    rw [hs.left_eq_nil, h.apply_nil] at hends
    rw [hs.left_eq_nil]
    exact hends.bind_error
  | cons _ bound ih =>
    rw [elements, Tree.elements]
    refine (hexpression _).bind_of_ok fun first before rest hfirst hmost _ => ?_
    have hshorter := h.takes hfirst
    rw [List.length_cons] at hmost
    refine (follows_accept _ _).bind fun more => ?_
    cases more with
    | true =>
      have hothers : Follows tokens room rest.length (call (·.elements close))
          (Tree.elements inner close bound) := (ih.mono (by omega)).call fun _ => rfl
      exact hothers.bind fun others => follows_pure (first :: others)
    | false => exact (follows_expect _ _).bind fun _ => follows_pure [first]

/-- A list, with or without elements. -/
lemma follows_list (close : String) :
    Follows tokens room most (list tokens close) (Tree.list inner close) := by
  have helements : Follows tokens room most (elements tokens close)
      fun tokens => Tree.elements inner close tokens tokens :=
    follows_bounded (follows_elements hexpression h close)
  rw [list]
  refine (follows_accept _ _).bind fun closed => ?_
  cases closed with
  | true => exact follows_pure []
  | false => exact helements

/-- A primary expression, which the next token tells from the others. -/
lemma follows_primary : Follows tokens room most (primary tokens) (Tree.primary inner) := by
  rw [primary]
  refine follows_demand rfl fun s t rest hs hleft => ?_
  have hparentheses : Follows tokens room rest.length
      (do let tree ← call (·.expression); expect tokens .delimiter ")"; return tree)
      (do let tree ← inner; Reader.expect .delimiter ")"; return tree) :=
    (hexpression _).bind fun tree => (follows_expect _ _).bind fun _ => follows_pure tree
  have harray : Follows tokens room rest.length
      (do let items ← list tokens "]"; return (⟨.arrayLiteral, some t, items⟩ : Tree))
      (do let items ← Tree.list inner "]"; return ⟨.arrayLiteral, some t, items⟩) :=
    (follows_list hexpression h "]").bind fun items => follows_pure _
  rw [Tree.primary]
  split_ifs with hliteral hname hparenthesis hbracket
  · exact (follows_pure (leaf .literal t)).after_advance hs hleft
  · exact (follows_pure (leaf .identifier t)).after_advance hs hleft
  · exact hparentheses.after_advance hs hleft
  · exact harray.after_advance hs hleft
  · exact ends_throw hs.position_le hleft _

/-- The rounds of a chain of suffixes, by the tokens that are left: each round takes the token that
announces it. -/
lemma follows_suffixes (bound : List Token) (subject : Tree) :
    Follows tokens room bound.length (suffixes tokens subject)
      (Tree.suffixes inner bound subject) := by
  induction bound generalizing subject with
  | nil =>
    intro s hs
    have hnil := hs.left_eq_nil
    rw [suffixes, hnil]
    refine .of_accept_nil hnil (.of_accept_nil hnil (.of_accept_nil hnil ?_))
    exact ends_pure hs.position_le hnil subject
  | cons _ bound ih =>
    -- Whichever suffix is read, the next round has fewer tokens.
    have hround (subject : Tree) {fewer : ℕ} (hfewer : fewer ≤ bound.length) :
        Follows tokens room fewer (call (·.suffixes subject)) (Tree.suffixes inner bound subject) :=
      ((ih subject).mono hfewer).call fun _ => rfl
    rw [suffixes, Tree.suffixes]
    refine (follows_accept _ _).bind_of_ok fun called before rest hcalled hmost _ => ?_
    rw [List.length_cons] at hmost
    cases called with
    | true =>
      have hshorter := Reader.length_of_accept_true hcalled
      exact (follows_list hexpression h ")").bind fun arguments => hround _ (by omega)
    | false =>
      obtain rfl := Reader.eq_of_accept_false hcalled
      refine (follows_accept _ _).bind_of_ok fun member before rest hmember hmost' _ => ?_
      cases member with
      | true =>
        have hshorter := Reader.length_of_accept_true hmember
        exact (follows_identifier _).bind fun name => hround _ (by omega)
      | false =>
        obtain rfl := Reader.eq_of_accept_false hmember
        refine (follows_accept _ _).bind_of_ok fun subscript before rest hsubscript hmost'' _ => ?_
        cases subscript with
        | true =>
          have hshorter := Reader.length_of_accept_true hsubscript
          exact (hexpression _).bind fun index => (follows_expect _ _).bind fun _ =>
            hround _ (by omega)
        | false => exact follows_pure subject

/-- A primary expression, and the suffixes behind it. -/
lemma follows_suffixed : Follows tokens room most (suffixed tokens) (Tree.suffixed inner) := by
  rw [suffixed]
  exact (follows_primary hexpression h).bind fun subject => follows_bounded fun bound =>
    follows_suffixes hexpression h bound subject

/-- An operand, if the operand of a prefix operator is followed one level further in. -/
lemma follows_unary
    (hoperand : Follows tokens room most (nested tokens .expression (call (·.unary))) tight) :
    Follows tokens room most (unary tokens) (Tree.unary inner tight) := by
  rw [unary]
  refine (follows_take? _).bind fun found => ?_
  cases found with
  | some operator => exact hoperand.bind fun operand => follows_pure _
  | none => exact follows_suffixed hexpression h

end

/-- An expression takes one level, and what is inside it is followed with the levels that are left
then. -/
lemma follows_expression_succ (hunary : ∀ most, Follows tokens room most (unary tokens) tight)
    (hexpression : ∀ most, Follows tokens room most (call (·.expression)) inner) :
    Follows tokens (room + 1) most (expression tokens)
      (assignment (Tree.binary tight 1) inner) := by
  rw [expression]
  have hbinary : Follows tokens room most (binary tokens 1) (Tree.binary tight 1) := by
    rw [binary]
    exact (follows_unary_operators hunary 1).after_note (by decide)
  refine Follows.nested (hbinary.bind fun target => (follows_take? _).bind fun found => ?_)
  cases found with
  | some operator => exact (hexpression _).bind fun value => follows_pure _
  | none => exact follows_pure target

/-- With as many levels left as a reader has, expressions and operands are read as it reads them. -/
theorem follows_expression_unary (tokens : List Token) (room most : ℕ) :
    Follows tokens room most (expression tokens) (Tree.expression room) ∧
      Follows tokens room most (unary tokens) (Tree.operand room) := by
  induction room generalizing most with
  | zero =>
    have hexpression (most : ℕ) :
        Follows tokens 0 most (expression tokens) (Tree.expression 0) := by
      rw [expression]
      exact follows_nested_zero .expression _
    exact ⟨hexpression most, follows_unary (fun most => (hexpression most).call fun _ => rfl)
      (local_expression_operand 0).1 (follows_nested_zero .expression _)⟩
  | succ room ih =>
    have hexpression (most : ℕ) :
        Follows tokens (room + 1) most (expression tokens) (Tree.expression (room + 1)) := by
      rw [expression_succ]
      exact follows_expression_succ (fun most => (ih most).2) fun most =>
        (ih most).1.call fun _ => rfl
    refine ⟨hexpression most, ?_⟩
    rw [operand_succ]
    exact follows_unary (fun most => (hexpression most).call fun _ => rfl)
      (local_expression_operand (room + 1)).1 ((ih most).2.call fun _ => rfl).nested

end Parser

end Tree

end UvaAnalysis
