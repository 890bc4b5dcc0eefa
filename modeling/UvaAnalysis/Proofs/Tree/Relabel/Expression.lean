import UvaAnalysis.Proofs.Tree.Traversal
import UvaAnalysis.Tree.Statement

/-!
# Expressions of relabelled tokens

What is made of a list of tokens depends on their categories and texts alone.  A map of tokens that
keeps both may change everything else: a reader that is given the mapped tokens makes the mapped
tree, stops at the mapped token with the fault that it had, and leaves the mapped rest.  `Relabels`
says so of a pair of readers.  It is a pair because the second of two readers in a row is made from
what the first one gave, which is mapped as well.
-/

namespace UvaAnalysis

/-! ### What is kept and what is mapped -/

/-- A map of tokens that keeps category and text. -/
structure Token.KeepsWord (f : Token → Token) : Prop where
  category_eq : ∀ t, (f t).category = t.category
  text_eq : ∀ t, (f t).text = t.text

namespace Token.KeepsWord

variable {f : Token → Token} (hf : KeepsWord f) (t : Token)

include hf

/-- A mapped token is asked for by the same category and text. -/
lemma is_eq (category : Token.Category) (text : String) :
    (f t).is category text = t.is category text := by
  rw [Token.is, Token.is, hf.category_eq, hf.text_eq]

/-- A mapped token is the same keyword, if it is one. -/
lemma isKeyword_eq (text : String) : (f t).isKeyword text = t.isKeyword text :=
  hf.is_eq t .keyword text

/-- A mapped token is a prefix operator if the token is. -/
lemma isPrefixOperator_eq : (f t).isPrefixOperator = t.isPrefixOperator := by
  rw [isPrefixOperator, isPrefixOperator, hf.is_eq, hf.is_eq, hf.isKeyword_eq]

/-- A mapped operator binds as tightly. -/
lemma precedence?_eq : (f t).precedence? = t.precedence? := by
  rw [precedence?, precedence?, hf.category_eq, hf.text_eq]

/-- A mapped token can begin an expression if the token can. -/
lemma startsExpression_eq : (f t).startsExpression = t.startsExpression := by
  rw [startsExpression, startsExpression, hf.category_eq, hf.text_eq]

end Token.KeepsWord

/-- A fault at the mapped token. -/
def Fault.mapToken (f : Token → Token) : Fault → Fault
  | .unexpected expected found => .unexpected expected (f found)
  | .nestedTooDeep what found => .nestedTooDeep what (f found)
  | .includeWithoutPath directive => .includeWithoutPath (f directive)
  | .unknownDirective directive => .unknownDirective (f directive)
  | fault => fault

namespace Tree

/-- A tree with every token that it carries mapped. -/
def mapTokens (f : Token → Token) : Tree → Tree :=
  fold fun kind token parts => ⟨kind, token.map f, parts.map Prod.snd⟩

/-- The tokens of a tree are mapped node by node. -/
lemma mapTokens_mk (f : Token → Token) (kind : Kind) (token : Option Token)
    (children : List Tree) :
    mapTokens f ⟨kind, token, children⟩ =
      ⟨kind, token.map f, children.map (mapTokens f)⟩ := by
  rw [mapTokens, fold_mk, List.map_map]
  rfl

/-- A node with two children. -/
lemma mapTokens_pair (f : Token → Token) (kind : Kind) (token : Option Token)
    (left right : Tree) :
    mapTokens f ⟨kind, token, [left, right]⟩ =
      ⟨kind, token.map f, [mapTokens f left, mapTokens f right]⟩ :=
  mapTokens_mk f kind token [left, right]

/-- A leaf has its one token mapped. -/
lemma mapTokens_leaf (f : Token → Token) (kind : Kind) (t : Token) :
    mapTokens f (leaf kind t) = leaf kind (f t) :=
  mapTokens_mk f kind (some t) []

end Tree

namespace Reader

variable {α β : Type} {f : Token → Token} {g : α → α} {h : β → β}

/-! ### Pairs of readers -/

/-- A result with its value, its fault and its rest mapped. -/
def relabel (f : Token → Token) (g : α → α) :
    EStateM.Result Fault (List Token) α → EStateM.Result Fault (List Token) α
  | .ok a rest => .ok (g a) (rest.map f)
  | .error fault rest => .error (fault.mapToken f) (rest.map f)

/-- The second reader makes of mapped tokens what the first makes of the tokens, mapped. -/
def Relabels (f : Token → Token) (g : α → α) (reader reader' : Reader α) : Prop :=
  ∀ tokens, reader' (tokens.map f) = relabel f g (reader tokens)

/-- A reader that takes nothing makes the mapped value. -/
lemma relabels_pure (a : α) : Relabels f g (pure a) (pure (g a)) :=
  fun _ => rfl

/-- Two pairs of readers in turn: the second pair is made from a value and the mapped value. -/
lemma Relabels.bind {reader reader' : Reader α} {next next' : α → Reader β}
    (hreader : Relabels f g reader reader')
    (hnext : ∀ a, Relabels f h (next a) (next' (g a))) :
    Relabels f h (reader >>= next) (reader' >>= next') := by
  intro tokens
  rw [bind_apply, bind_apply, hreader tokens]
  cases reader tokens with
  | ok a rest => exact hnext a rest
  | error fault rest => rfl

/-- Loops that are given the tokens at hand as a bound. -/
lemma relabels_bounded {loop loop' : List Token → Reader α}
    (hloop : ∀ bound, Relabels f g (loop bound) (loop' (bound.map f))) :
    Relabels f g (fun tokens => loop tokens tokens) (fun tokens => loop' tokens tokens) :=
  fun tokens => hloop tokens tokens

/-- What is too deep is the mapped token. -/
lemma relabels_tooDeep (what : Expected) : Relabels f g (tooDeep what) (tooDeep what) := by
  intro tokens
  cases tokens <;> rfl

/-- A mapped token is taken if the token is. -/
lemma relabels_take? {wanted : Token → Bool} (hwanted : ∀ t, wanted (f t) = wanted t) :
    Relabels f (Option.map f) (take? wanted) (take? wanted) := by
  intro tokens
  cases tokens with
  | nil => rfl
  | cons t rest =>
    rw [List.map_cons, take?, take?, hwanted]
    cases wanted t <;> rfl

section

variable (hf : Token.KeepsWord f)

include hf

/-- A mapped token is accepted if the token is. -/
lemma relabels_accept (category : Token.Category) (text : String) :
    Relabels f id (accept category text) (accept category text) := by
  intro tokens
  cases tokens with
  | nil => rfl
  | cons t rest =>
    rw [List.map_cons, accept, accept, hf.is_eq]
    cases t.is category text <;> rfl

/-- A mapped token is expected if the token is, and otherwise it is the one that is found. -/
lemma relabels_expect (category : Token.Category) (text : String) :
    Relabels f id (expect category text) (expect category text) := by
  intro tokens
  cases tokens with
  | nil => rfl
  | cons t rest =>
    rw [List.map_cons, expect, expect, hf.is_eq]
    cases t.is category text <;> rfl

/-- A name that is read is the mapped name. -/
lemma relabels_identifier (expected : Expected) :
    Relabels f f (identifier expected) (identifier expected) := by
  intro tokens
  cases tokens with
  | nil => rfl
  | cons t rest =>
    rw [List.map_cons, identifier, identifier, hf.category_eq]
    split_ifs <;> rfl

end

end Reader

namespace Tree

open Reader

variable {f : Token → Token} {expression operand target value : Reader Tree}

/-- A reader makes mapped trees of mapped tokens. -/
abbrev RelabelsTree (f : Token → Token) (reader : Reader Tree) : Prop :=
  Relabels f (mapTokens f) reader reader

/-! ### Expressions -/

section

variable (hf : Token.KeepsWord f)

include hf

/-- The rounds of a list make the mapped elements. -/
lemma relabels_elements (hexpression : RelabelsTree f expression) (close : String)
    (bound : List Token) :
    Relabels f (List.map (mapTokens f)) (elements expression close bound)
      (elements expression close (bound.map f)) := by
  induction bound with
  | nil => exact fun _ => rfl
  | cons t bound ih =>
    rw [List.map_cons, elements, elements]
    refine hexpression.bind fun first => (relabels_accept hf _ _).bind fun more => ?_
    cases more with
    | true => exact ih.bind fun others => relabels_pure (first :: others)
    | false => exact (relabels_expect hf _ _).bind fun _ => relabels_pure [first]

/-- A list makes the mapped elements, if there are any. -/
lemma relabels_list (hexpression : RelabelsTree f expression) (close : String) :
    Relabels f (List.map (mapTokens f)) (list expression close) (list expression close) := by
  refine (relabels_accept hf _ _).bind fun closed => ?_
  cases closed with
  | true => exact relabels_pure []
  | false =>
    have helements := relabels_bounded (relabels_elements hf hexpression close)
    exact helements

/-- A primary expression carries the mapped token. -/
lemma relabels_primary (hexpression : RelabelsTree f expression) :
    RelabelsTree f (primary expression) := by
  have hparentheses : RelabelsTree f (do
      let inner ← expression
      Reader.expect .delimiter ")"
      return inner) :=
    hexpression.bind fun inner => (relabels_expect hf _ _).bind fun _ => relabels_pure inner
  have harray (t : Token) : Relabels f (mapTokens f)
      (do
        let items ← list expression "]"
        return ⟨.arrayLiteral, some t, items⟩)
      (do
        let items ← list expression "]"
        return ⟨.arrayLiteral, some (f t), items⟩) := by
    refine (relabels_list hf hexpression "]").bind fun items => ?_
    rw [← Option.map_some, ← mapTokens_mk]
    exact relabels_pure _
  intro tokens
  cases tokens with
  | nil => rfl
  | cons t rest =>
    rw [List.map_cons, primary, primary, hf.category_eq, hf.isKeyword_eq, hf.is_eq, hf.is_eq]
    split_ifs
    · rw [← mapTokens_leaf]
      rfl
    · rw [← mapTokens_leaf]
      rfl
    · exact hparentheses rest
    · exact harray t rest
    · rfl

/-- The rounds of a chain of suffixes go on from the mapped subject. -/
lemma relabels_suffixes (hexpression : RelabelsTree f expression) (bound : List Token)
    (subject : Tree) :
    Relabels f (mapTokens f) (suffixes expression bound subject)
      (suffixes expression (bound.map f) (mapTokens f subject)) := by
  -- The subject varies, since each round gives the next one a larger tree.
  induction bound generalizing subject with
  | nil => exact relabels_pure subject
  | cons t bound ih =>
    rw [List.map_cons, suffixes, suffixes]
    refine (relabels_accept hf _ _).bind fun call => ?_
    cases call with
    | true =>
      refine (relabels_list hf hexpression _).bind fun arguments => ?_
      have hcall := ih ⟨.call, none, [subject, ⟨.argumentList, none, arguments⟩]⟩
      rw [mapTokens_pair, mapTokens_mk] at hcall
      exact hcall
    | false =>
      refine (relabels_accept hf _ _).bind fun member => ?_
      cases member with
      | true =>
        refine (relabels_identifier hf _).bind fun name => ?_
        have hmember := ih ⟨.memberAccess, none, [subject, leaf .identifier name]⟩
        rw [mapTokens_pair, mapTokens_leaf] at hmember
        exact hmember
      | false =>
        refine (relabels_accept hf _ _).bind fun subscript => ?_
        cases subscript with
        | true =>
          refine hexpression.bind fun inner => (relabels_expect hf _ _).bind fun _ => ?_
          have hindex := ih ⟨.index, none, [subject, inner]⟩
          rw [mapTokens_pair] at hindex
          exact hindex
        | false => exact relabels_pure subject

/-- A primary expression and its suffixes, all of them mapped. -/
lemma relabels_suffixed (hexpression : RelabelsTree f expression) :
    RelabelsTree f (suffixed expression) :=
  (relabels_primary hf hexpression).bind fun subject =>
    relabels_bounded fun bound => relabels_suffixes hf hexpression bound subject

/-- A prefix operator is carried as it is mapped. -/
lemma relabels_unary (hexpression : RelabelsTree f expression) (hoperand : RelabelsTree f operand) :
    RelabelsTree f (unary expression operand) := by
  refine (relabels_take? hf.isPrefixOperator_eq).bind fun operator => ?_
  cases operator with
  | some operator =>
    refine hoperand.bind fun inner => ?_
    have hunary := relabels_pure (f := f) (g := mapTokens f)
      ⟨.unaryExpression, some operator, [inner]⟩
    rw [mapTokens_mk, List.map_singleton] at hunary
    exact hunary
  | none => exact relabels_suffixed hf hexpression

/-- A binary operator is found mapped, with the precedence that it had. -/
lemma relabels_binaryOperator? (least : ℕ) :
    Relabels f (Option.map (Prod.map f id)) (binaryOperator? least) (binaryOperator? least) := by
  intro tokens
  cases tokens with
  | nil => rfl
  | cons t rest =>
    rw [List.map_cons, binaryOperator?, binaryOperator?, hf.precedence?_eq]
    cases t.precedence? with
    | none => rfl
    | some precedence =>
      simp only
      split_ifs <;> rfl

/-- The rounds of a chain of operators go on from the mapped left side. -/
lemma relabels_climb (hoperand : RelabelsTree f operand) (bound : List Token) (least : ℕ)
    (left : Tree) :
    Relabels f (mapTokens f) (climb operand bound least left)
      (climb operand (bound.map f) least (mapTokens f left)) := by
  induction bound generalizing least left with
  | nil => exact relabels_pure left
  | cons t bound ih =>
    rw [List.map_cons, climb, climb]
    refine (relabels_binaryOperator? hf least).bind fun found => ?_
    cases found with
    | some found =>
      obtain ⟨operator, precedence⟩ := found
      refine hoperand.bind fun next => (ih (precedence + 1) next).bind fun right => ?_
      have hbinary := ih least ⟨.binaryExpression, some operator, [left, right]⟩
      rw [mapTokens_pair] at hbinary
      exact hbinary
    | none => exact relabels_pure left

/-- Operands and the operators between them, all of them mapped. -/
lemma relabels_binary (hoperand : RelabelsTree f operand) (least : ℕ) :
    RelabelsTree f (binary operand least) :=
  hoperand.bind fun first =>
    relabels_bounded fun bound => relabels_climb hf hoperand bound least first

/-- A target and its value, both mapped. -/
lemma relabels_assignment (htarget : RelabelsTree f target) (hvalue : RelabelsTree f value) :
    RelabelsTree f (assignment target value) := by
  refine htarget.bind fun left => ?_
  refine (relabels_take? fun t => hf.is_eq t .operator "=").bind fun operator => ?_
  cases operator with
  | some operator =>
    refine hvalue.bind fun right => ?_
    have hassignment := relabels_pure (f := f) (g := mapTokens f)
      ⟨.assignment, some operator, [left, right]⟩
    rw [mapTokens_pair] at hassignment
    exact hassignment
  | none => exact relabels_pure left

/-- Expressions and operands, however many levels of nesting are left. -/
theorem relabels_expression_operand (room : ℕ) :
    RelabelsTree f (Tree.expression room) ∧ RelabelsTree f (Tree.operand room) := by
  induction room with
  | zero =>
    have hdeep : RelabelsTree f (tooDeep .expression) := relabels_tooDeep .expression
    exact ⟨hdeep, relabels_unary hf hdeep hdeep⟩
  | succ room ih =>
    have hexpression : RelabelsTree f (Tree.expression (room + 1)) := by
      rw [expression_succ]
      exact relabels_assignment hf (relabels_binary hf ih.2 1) ih.1
    refine ⟨hexpression, ?_⟩
    rw [operand_succ]
    exact relabels_unary hf hexpression ih.2

end

end Tree

end UvaAnalysis
