import Mathlib.Data.List.Basic
import UvaAnalysis.Proofs.Tree.Traversal
import UvaAnalysis.Tree.Expression

/-!
# Printing trees

The trees of the complete syntax (`IsProgram`), the tokens that such a tree is printed as (`print`),
and how deeply statements and expressions are nested in those tokens (`nesting`).

A printed tree has a semicolon after every statement and every condition, and parentheses around
every operand that is more than a primary expression, whether or not it needs them.  The tokens that
a tree does not carry, such as keywords and brackets, all get the place of one token, the stamp,
since no reader looks at a place.
-/

namespace UvaAnalysis

/-- The token of a given category and text that stands where the stamp does. -/
def Token.mark (stamp : Token) (category : Token.Category) (text : String) : Token :=
  { stamp with category := category, text := text }

/-- What a mark is does not depend on the stamp that gives its place. -/
@[simp] lemma Token.is_mark (stamp : Token) (category wanted : Token.Category)
    (text wantedText : String) :
    (stamp.mark category text).is wanted wantedText =
      (category = wanted && text = wantedText) := rfl

namespace Tree

/-! ### The complete syntax -/

/-- The expressions that need no parentheses as operands. -/
def Kind.isPrimary (kind : Kind) : Bool :=
  kind = .literal || kind = .identifier || kind = .arrayLiteral

/-- The nodes of statements. -/
def Kind.isStatement : Kind → Bool
  | .classDeclaration | .functionDeclaration | .variableDeclaration => true
  | .ifStatement | .whileStatement | .returnStatement | .expressionStatement => true
  | _ => false

/-- The trees of expressions. -/
inductive IsExpression : Tree → Prop where
  | literal {t : Token} (ht : t.category = .literal) : IsExpression (leaf .literal t)
  | name {t : Token} (ht : t.category = .identifier ∨ t.isKeyword "self") :
      IsExpression (leaf .identifier t)
  | array {opening : Token} {items : List Tree} (hopening : opening.is .delimiter "[")
      (hitems : ∀ item ∈ items, IsExpression item) :
      IsExpression ⟨.arrayLiteral, some opening, items⟩
  | call {subject : Tree} {arguments : List Tree} (hsubject : IsExpression subject)
      (harguments : ∀ argument ∈ arguments, IsExpression argument) :
      IsExpression ⟨.call, none, [subject, ⟨.argumentList, none, arguments⟩]⟩
  | member {subject : Tree} {name : Token} (hsubject : IsExpression subject)
      (hname : name.category = .identifier) :
      IsExpression ⟨.memberAccess, none, [subject, leaf .identifier name]⟩
  | index {subject subscript : Tree} (hsubject : IsExpression subject)
      (hsubscript : IsExpression subscript) : IsExpression ⟨.index, none, [subject, subscript]⟩
  | unary {operator : Token} {inner : Tree} (hoperator : operator.isPrefixOperator)
      (hinner : IsExpression inner) : IsExpression ⟨.unaryExpression, some operator, [inner]⟩
  | binary {operator : Token} {precedence : ℕ} {left right : Tree}
      (hoperator : operator.precedence? = some precedence) (hleft : IsExpression left)
      (hright : IsExpression right) :
      IsExpression ⟨.binaryExpression, some operator, [left, right]⟩
  | assignment {operator : Token} {target value : Tree} (hoperator : operator.is .operator "=")
      (htarget : IsExpression target) (hvalue : IsExpression value) :
      IsExpression ⟨.assignment, some operator, [target, value]⟩

/-- The trees of statements. -/
inductive IsStatement : Tree → Prop where
  | classDeclaration {name : Token} {base : Option Token} {members : List Tree}
      (hname : name.category = .identifier) (hbase : ∀ t ∈ base, t.category = .identifier)
      (hmembers : ∀ member ∈ members, IsStatement member) :
      IsStatement ⟨.classDeclaration, none,
        leaf .declarationName name :: (base.toList.map (leaf .baseClass) ++ members)⟩
  | functionDeclaration {name : Token} {parameters : List Token} {body : List Tree}
      (hname : name.category = .identifier)
      (hparameters : ∀ t ∈ parameters, t.category = .identifier)
      (hbody : ∀ statement ∈ body, IsStatement statement) :
      IsStatement ⟨.functionDeclaration, none, [leaf .declarationName name,
        ⟨.parameterList, none, parameters.map (leaf .parameter)⟩, ⟨.block, none, body⟩]⟩
  | variableDeclaration {name : Token} {value : Option Tree} (hname : name.category = .identifier)
      (hvalue : ∀ e ∈ value, IsExpression e) :
      IsStatement ⟨.variableDeclaration, none, leaf .declarationName name :: value.toList⟩
  | ifStatement {condition : Tree} {body : List Tree} {alternative : Option (List Tree)}
      (hcondition : IsExpression condition) (hbody : ∀ statement ∈ body, IsStatement statement)
      (halternative : ∀ other ∈ alternative, ∀ statement ∈ other, IsStatement statement) :
      IsStatement ⟨.ifStatement, none,
        condition :: ⟨.block, none, body⟩ :: alternative.toList.map (mk .block none)⟩
  | whileStatement {condition : Tree} {body : List Tree} (hcondition : IsExpression condition)
      (hbody : ∀ statement ∈ body, IsStatement statement) :
      IsStatement ⟨.whileStatement, none, [condition, ⟨.block, none, body⟩]⟩
  | returnStatement {value : Option Tree} (hvalue : ∀ e ∈ value, IsExpression e) :
      IsStatement ⟨.returnStatement, none, value.toList⟩
  | expressionStatement {value : Tree} (hvalue : IsExpression value) :
      IsStatement ⟨.expressionStatement, none, [value]⟩

/-- The trees of whole programs. -/
inductive IsProgram : Tree → Prop where
  | root {statements : List Tree} (h : ∀ statement ∈ statements, IsStatement statement) :
      IsProgram ⟨.root, none, statements⟩

/-- A statement is told from an expression by the kind of its node alone. -/
lemma IsStatement.kind_isStatement {tree : Tree} (h : IsStatement tree) :
    tree.kind.isStatement = true := by
  cases h <;> rfl

/-! ### The tokens of a tree -/

section

variable (stamp : Token)

/-- What is printed as an operand: a primary expression as it is, and anything else in
parentheses. -/
def enclose (part : Kind × List Token) : List Token :=
  if part.1.isPrimary then part.2
  else stamp.mark .delimiter "(" :: (part.2 ++ [stamp.mark .delimiter ")"])

/-- Stretches of tokens with a comma between each and the next. -/
def commas (stretches : List (List Token)) : List Token :=
  [stamp.mark .delimiter ","].intercalate stretches

/-- Parts with a semicolon after each statement among them. -/
def terminate (parts : List (Kind × List Token)) : List Token :=
  parts.flatMap fun part =>
    if part.1.isStatement then part.2 ++ [stamp.mark .delimiter ";"] else part.2

/-- A node is printed from what its children are printed as. -/
def printNode : Kind → Option Token → List (Kind × List Token) → List Token
  | .arrayLiteral, opening, items =>
    opening.toList ++ (commas stamp (items.map Prod.snd) ++ [stamp.mark .delimiter "]"])
  | .argumentList, _, parts | .parameterList, _, parts =>
    stamp.mark .delimiter "(" ::
      (commas stamp (parts.map Prod.snd) ++ [stamp.mark .delimiter ")"])
  | .call, _, [subject, arguments] => enclose stamp subject ++ arguments.2
  | .memberAccess, _, [subject, member] =>
    enclose stamp subject ++ stamp.mark .operator "." :: member.2
  | .index, _, [subject, subscript] =>
    enclose stamp subject ++
      stamp.mark .delimiter "[" :: (subscript.2 ++ [stamp.mark .delimiter "]"])
  | .unaryExpression, operator, [inner] => operator.toList ++ enclose stamp inner
  | .binaryExpression, operator, [left, right] | .assignment, operator, [left, right] =>
    enclose stamp left ++ (operator.toList ++ enclose stamp right)
  | .root, _, parts | .block, _, parts => terminate stamp parts
  | .baseClass, name, _ => stamp.mark .keyword "extends" :: name.toList
  | .classDeclaration, _, parts =>
    stamp.mark .keyword "class" :: (terminate stamp parts ++ [stamp.mark .keyword "end"])
  | .functionDeclaration, _, parts =>
    stamp.mark .keyword "function" :: (parts.flatMap Prod.snd ++ [stamp.mark .keyword "end"])
  | .variableDeclaration, _, name :: value =>
    stamp.mark .keyword "let" ::
      (name.2 ++ value.flatMap fun part => stamp.mark .operator "=" :: part.2)
  | .ifStatement, _, condition :: body :: alternative =>
    stamp.mark .keyword "if" :: (condition.2 ++ stamp.mark .delimiter ";" ::
      (body.2 ++ ((alternative.flatMap fun part => stamp.mark .keyword "else" :: part.2) ++
        [stamp.mark .keyword "end"])))
  | .whileStatement, _, [condition, body] =>
    stamp.mark .keyword "while" :: (condition.2 ++ stamp.mark .delimiter ";" ::
      (body.2 ++ [stamp.mark .keyword "end"]))
  | .returnStatement, _, value => stamp.mark .keyword "return" :: value.flatMap Prod.snd
  | .expressionStatement, _, [value] => value.2
  | _, token, parts => token.toList ++ parts.flatMap Prod.snd

/-- The tokens that a tree is printed as. -/
def print : Tree → List Token :=
  fold fun kind token parts => printNode stamp kind token parts

/-- The tokens that an expression is printed as where it is an operand. -/
def printOperand (tree : Tree) : List Token :=
  enclose stamp (tree.kind, tree.print stamp)

/-- The tokens that statements are printed as. -/
def printStatements (statements : List Tree) : List Token :=
  statements.flatMap fun statement => statement.print stamp ++ [stamp.mark .delimiter ";"]

/-- A tree is printed one node at a time, from what its children are printed as. -/
lemma print_mk (kind : Kind) (token : Option Token) (children : List Tree) :
    print stamp ⟨kind, token, children⟩ =
      printNode stamp kind token (children.map fun tree => (tree.kind, tree.print stamp)) :=
  fold_mk _ kind token children

/-- A primary expression is printed as an operand without parentheses. -/
lemma printOperand_of_isPrimary {tree : Tree} (h : tree.kind.isPrimary = true) :
    tree.printOperand stamp = tree.print stamp :=
  if_pos h

/-- Any other expression is printed as an operand between parentheses. -/
lemma printOperand_of_not_isPrimary {tree : Tree} (h : tree.kind.isPrimary = false) :
    tree.printOperand stamp =
      stamp.mark .delimiter "(" :: (tree.print stamp ++ [stamp.mark .delimiter ")"]) := by
  rw [printOperand, enclose, h]
  rfl

/-- There is no comma around a single stretch. -/
@[simp] lemma commas_singleton (stretch : List Token) : commas stamp [stretch] = stretch :=
  List.intercalate_singleton

/-- A stretch that another follows has a comma after it. -/
@[simp] lemma commas_cons_cons (stretch next : List Token) (others : List (List Token)) :
    commas stamp (stretch :: next :: others) =
      stretch ++ stamp.mark .delimiter "," :: commas stamp (next :: others) := by
  simp [commas, List.intercalate_cons_cons]

/-- An array literal is printed with its own opening bracket, and its closing bracket is a mark. -/
lemma print_array (opening : Token) (items : List Tree) :
    print stamp ⟨.arrayLiteral, some opening, items⟩ =
      opening :: (commas stamp (items.map (print stamp)) ++ [stamp.mark .delimiter "]"]) := by
  have hitems : (items.map fun tree => (tree.kind, tree.print stamp)).map Prod.snd =
      items.map (print stamp) := List.map_map
  rw [print_mk, ← hitems]
  rfl

/-- The arguments of a call stand between parentheses and need none of their own. -/
lemma print_call (subject : Tree) (arguments : List Tree) :
    print stamp ⟨.call, none, [subject, ⟨.argumentList, none, arguments⟩]⟩ =
      subject.printOperand stamp ++ stamp.mark .delimiter "(" ::
        (commas stamp (arguments.map (print stamp)) ++ [stamp.mark .delimiter ")"]) := by
  have harguments : print stamp ⟨.argumentList, none, arguments⟩ =
      stamp.mark .delimiter "(" ::
        (commas stamp ((arguments.map fun tree => (tree.kind, tree.print stamp)).map Prod.snd) ++
          [stamp.mark .delimiter ")"]) := print_mk stamp _ _ _
  rw [List.map_map] at harguments
  exact congrArg (subject.printOperand stamp ++ ·) harguments

/-- The name of a member follows a dot. -/
lemma print_member (subject : Tree) (name : Token) :
    print stamp ⟨.memberAccess, none, [subject, leaf .identifier name]⟩ =
      subject.printOperand stamp ++ [stamp.mark .operator ".", name] :=
  rfl

/-- A subscript stands between brackets and needs no parentheses of its own. -/
lemma print_index (subject subscript : Tree) :
    print stamp ⟨.index, none, [subject, subscript]⟩ =
      subject.printOperand stamp ++ stamp.mark .delimiter "[" ::
        (subscript.print stamp ++ [stamp.mark .delimiter "]"]) :=
  rfl

/-- A prefix operator stands right before its operand. -/
lemma print_unary (operator : Token) (inner : Tree) :
    print stamp ⟨.unaryExpression, some operator, [inner]⟩ =
      operator :: inner.printOperand stamp :=
  rfl

/-- A binary operator stands between its operands. -/
lemma print_binary (operator : Token) (left right : Tree) :
    print stamp ⟨.binaryExpression, some operator, [left, right]⟩ =
      left.printOperand stamp ++ operator :: right.printOperand stamp :=
  rfl

/-- An assignment is printed as if `=` were a binary operator. -/
lemma print_assignment (operator : Token) (target value : Tree) :
    print stamp ⟨.assignment, some operator, [target, value]⟩ =
      target.printOperand stamp ++ operator :: value.printOperand stamp :=
  rfl

-- The call is no primary expression, and so it stands in parentheses behind the operator.
example (minus f x one : Token) :
    print stamp ⟨.unaryExpression, some minus, [⟨.call, none,
        [leaf .identifier f, ⟨.argumentList, none, [leaf .identifier x, leaf .literal one]⟩]⟩]⟩ =
      [minus, stamp.mark .delimiter "(", f, stamp.mark .delimiter "(", x,
        stamp.mark .delimiter ",", one, stamp.mark .delimiter ")", stamp.mark .delimiter ")"] :=
  rfl

/-- Every statement has a semicolon after it, the last one too. -/
@[simp] lemma printStatements_cons (statement : Tree) (others : List Tree) :
    printStatements stamp (statement :: others) =
      statement.print stamp ++ stamp.mark .delimiter ";" :: printStatements stamp others := by
  simp [printStatements]

/-- Parts that are all statements all get their semicolon. -/
lemma terminate_eq_printStatements {statements : List Tree}
    (h : ∀ statement ∈ statements, IsStatement statement) :
    terminate stamp (statements.map fun tree => (tree.kind, tree.print stamp)) =
      printStatements stamp statements := by
  rw [terminate, List.flatMap_map]
  exact List.flatMap_congr fun statement hstatement =>
    if_pos (h statement hstatement).kind_isStatement

/-- A program is printed as its statements. -/
lemma print_root {statements : List Tree} (h : ∀ statement ∈ statements, IsStatement statement) :
    print stamp ⟨.root, none, statements⟩ = printStatements stamp statements :=
  (print_mk stamp _ _ _).trans (terminate_eq_printStatements stamp h)

/-- A block is printed as its statements, without the keywords around it. -/
lemma print_block {statements : List Tree} (h : ∀ statement ∈ statements, IsStatement statement) :
    print stamp ⟨.block, none, statements⟩ = printStatements stamp statements :=
  (print_mk stamp _ _ _).trans (terminate_eq_printStatements stamp h)

/-- A class is printed with its base class before its members, if there is one. -/
lemma print_class (name : Token) (base : Option Token) {members : List Tree}
    (h : ∀ member ∈ members, IsStatement member) :
    print stamp ⟨.classDeclaration, none,
        leaf .declarationName name :: (base.toList.map (leaf .baseClass) ++ members)⟩ =
      stamp.mark .keyword "class" :: name ::
        (base.toList.flatMap (fun t => [stamp.mark .keyword "extends", t]) ++
          (printStatements stamp members ++ [stamp.mark .keyword "end"])) := by
  have hclass (children : List Tree) : print stamp ⟨.classDeclaration, none, children⟩ =
      stamp.mark .keyword "class" ::
        (terminate stamp (children.map fun tree => (tree.kind, tree.print stamp)) ++
          [stamp.mark .keyword "end"]) := print_mk stamp _ _ _
  rw [hclass, ← terminate_eq_printStatements stamp h]
  cases base <;> rfl

/-- The parameters of a function stand between parentheses with commas, before its body. -/
lemma print_function (name : Token) (parameters : List Token) {body : List Tree}
    (h : ∀ statement ∈ body, IsStatement statement) :
    print stamp ⟨.functionDeclaration, none, [leaf .declarationName name,
        ⟨.parameterList, none, parameters.map (leaf .parameter)⟩, ⟨.block, none, body⟩]⟩ =
      stamp.mark .keyword "function" :: name :: stamp.mark .delimiter "(" ::
        (commas stamp (parameters.map fun t => [t]) ++ stamp.mark .delimiter ")" ::
          (printStatements stamp body ++ [stamp.mark .keyword "end"])) := by
  have hparameters : print stamp ⟨.parameterList, none, parameters.map (leaf .parameter)⟩ =
      stamp.mark .delimiter "(" ::
        (commas stamp (((parameters.map (leaf .parameter)).map
          fun tree => (tree.kind, tree.print stamp)).map Prod.snd) ++
            [stamp.mark .delimiter ")"]) := print_mk stamp _ _ _
  have hfunction (children : List Tree) : print stamp ⟨.functionDeclaration, none, children⟩ =
      stamp.mark .keyword "function" ::
        ((children.map fun tree => (tree.kind, tree.print stamp)).flatMap Prod.snd ++
          [stamp.mark .keyword "end"]) := print_mk stamp _ _ _
  have hname : print stamp (leaf .declarationName name) = [name] := rfl
  have hparameter : (Prod.snd ∘ fun tree => (tree.kind, tree.print stamp)) ∘ leaf .parameter =
      fun t => [t] := rfl
  rw [List.map_map, List.map_map, hparameter] at hparameters
  rw [hfunction]
  simp [hname, hparameters, print_block stamp h]

/-- The value of a variable, if there is one, follows a `=`. -/
lemma print_variable (name : Token) (value : Option Tree) :
    print stamp ⟨.variableDeclaration, none, leaf .declarationName name :: value.toList⟩ =
      stamp.mark .keyword "let" :: name ::
        value.toList.flatMap fun e => stamp.mark .operator "=" :: e.print stamp := by
  cases value <;> rfl

/-- A conditional has a semicolon after its condition, and `else` before an alternative. -/
lemma print_if (condition : Tree) {body : List Tree} {alternative : Option (List Tree)}
    (hbody : ∀ statement ∈ body, IsStatement statement)
    (halternative : ∀ other ∈ alternative, ∀ statement ∈ other, IsStatement statement) :
    print stamp ⟨.ifStatement, none,
        condition :: ⟨.block, none, body⟩ :: alternative.toList.map (mk .block none)⟩ =
      stamp.mark .keyword "if" :: (condition.print stamp ++ stamp.mark .delimiter ";" ::
        (printStatements stamp body ++
          (alternative.toList.flatMap
              (fun other => stamp.mark .keyword "else" :: printStatements stamp other) ++
            [stamp.mark .keyword "end"]))) := by
  rw [← print_block stamp hbody]
  cases alternative with
  | none => rfl
  | some other =>
    rw [Option.toList_some, List.flatMap_singleton, ← print_block stamp (halternative other rfl),
      ← List.flatMap_singleton (fun tokens => stamp.mark .keyword "else" :: tokens)]
    rfl

/-- A loop has a semicolon after its condition. -/
lemma print_while (condition : Tree) {body : List Tree}
    (h : ∀ statement ∈ body, IsStatement statement) :
    print stamp ⟨.whileStatement, none, [condition, ⟨.block, none, body⟩]⟩ =
      stamp.mark .keyword "while" :: (condition.print stamp ++ stamp.mark .delimiter ";" ::
        (printStatements stamp body ++ [stamp.mark .keyword "end"])) := by
  rw [← print_block stamp h]
  rfl

/-- The keyword `return` is printed with its value, if there is one. -/
lemma print_return (value : Option Tree) :
    print stamp ⟨.returnStatement, none, value.toList⟩ =
      stamp.mark .keyword "return" :: value.toList.flatMap (print stamp) := by
  cases value <;> rfl

/-- A statement that is an expression is printed as that expression. -/
lemma print_expressionStatement (value : Tree) :
    print stamp ⟨.expressionStatement, none, [value]⟩ = value.print stamp :=
  rfl

end

/-! ### The nesting of those tokens -/

/-- The deepest of several parts. -/
def deepest (parts : List (Kind × ℕ)) : ℕ :=
  parts.foldr (fun part => max part.2) 0

/-- The deepest of several expressions that are each read as such. -/
def deepestOpened (parts : List (Kind × ℕ)) : ℕ :=
  parts.foldr (fun part => max (part.2 + 1)) 0

/-- The levels inside an operand: the parentheses around it are read as an expression. -/
def enclosedLevels (part : Kind × ℕ) : ℕ :=
  if part.1.isPrimary then part.2 else part.2 + 1

/-- The levels inside a node, from those inside its children.  A semicolon by itself is a statement
too, but one that is no deeper than the statement or the condition before it. -/
def nestingNode : Kind → List (Kind × ℕ) → ℕ
  | .arrayLiteral, items => deepestOpened items
  | .argumentList, arguments => deepestOpened arguments
  | .call, [subject, arguments] => max (enclosedLevels subject) arguments.2
  | .memberAccess, [subject, _] => enclosedLevels subject
  | .index, [subject, subscript] => max (enclosedLevels subject) (subscript.2 + 1)
  | .unaryExpression, [inner] => enclosedLevels inner + 1
  | .binaryExpression, [left, right] => max (enclosedLevels left) (enclosedLevels right)
  | .assignment, [target, value] => max (enclosedLevels target) (enclosedLevels value + 1)
  | .classDeclaration, parts | .functionDeclaration, parts => deepest parts + 1
  | .variableDeclaration, _ :: value => deepestOpened value + 1
  | .ifStatement, condition :: blocks | .whileStatement, condition :: blocks =>
    max (condition.2 + 1) (deepest blocks) + 1
  | .returnStatement, value | .expressionStatement, value => deepestOpened value + 1
  | _, parts => deepest parts

/-- How many statements, expressions and operands of prefix operators are open at once at most, when
a printed tree is read.  A statement counts itself, and an expression only what is inside it, since
as an operand it need not be read as an expression. -/
def nesting : Tree → ℕ :=
  fold fun kind _ parts => nestingNode kind parts

/-- The levels that an expression takes where it is an operand. -/
def operandNesting (tree : Tree) : ℕ :=
  enclosedLevels (tree.kind, tree.nesting)

/-- The nesting of a tree is counted one node at a time, from that of its children. -/
lemma nesting_mk (kind : Kind) (token : Option Token) (children : List Tree) :
    nesting ⟨kind, token, children⟩ =
      nestingNode kind (children.map fun tree => (tree.kind, tree.nesting)) :=
  fold_mk _ kind token children

/-- A primary expression takes no more levels where it is an operand. -/
lemma operandNesting_of_isPrimary {tree : Tree} (h : tree.kind.isPrimary = true) :
    tree.operandNesting = tree.nesting :=
  if_pos h

/-- The parentheses around any other operand take a level of their own. -/
lemma operandNesting_of_not_isPrimary {tree : Tree} (h : tree.kind.isPrimary = false) :
    tree.operandNesting = tree.nesting + 1 := by
  rw [operandNesting, enclosedLevels, h]
  rfl

/-- The levels of several parts suffice if those of each do. -/
lemma deepest_le_iff {trees : List Tree} {room : ℕ} :
    deepest (trees.map fun tree => (tree.kind, tree.nesting)) ≤ room ↔
      ∀ tree ∈ trees, tree.nesting ≤ room := by
  induction trees with
  | nil => simp [deepest]
  | cons tree others ih =>
    rw [List.map_cons, deepest, List.foldr_cons, Nat.max_le, List.forall_mem_cons]
    exact and_congr_right fun _ => ih

/-- The levels of several expressions that are read as such suffice if those of each do, with one
for the expression itself. -/
lemma deepestOpened_le_iff {trees : List Tree} {room : ℕ} :
    deepestOpened (trees.map fun tree => (tree.kind, tree.nesting)) ≤ room ↔
      ∀ tree ∈ trees, tree.nesting + 1 ≤ room := by
  induction trees with
  | nil => simp [deepestOpened]
  | cons tree others ih =>
    rw [List.map_cons, deepestOpened, List.foldr_cons, Nat.max_le, List.forall_mem_cons]
    exact and_congr_right fun _ => ih

/-- The levels of an array suffice if each item has its own and one for being read. -/
lemma nesting_array_le {opening : Token} {items : List Tree} {room : ℕ} :
    nesting ⟨.arrayLiteral, some opening, items⟩ ≤ room ↔
      ∀ item ∈ items, item.nesting + 1 ≤ room := by
  have harray : nesting ⟨.arrayLiteral, some opening, items⟩ =
      deepestOpened (items.map fun tree => (tree.kind, tree.nesting)) := nesting_mk _ _ _
  rw [harray, deepestOpened_le_iff]

/-- The levels of a call suffice for its subject as an operand and for each argument as an
expression of its own. -/
lemma nesting_call_le {subject : Tree} {arguments : List Tree} {room : ℕ} :
    nesting ⟨.call, none, [subject, ⟨.argumentList, none, arguments⟩]⟩ ≤ room ↔
      subject.operandNesting ≤ room ∧ ∀ argument ∈ arguments, argument.nesting + 1 ≤ room := by
  have harguments : nesting ⟨.argumentList, none, arguments⟩ =
      deepestOpened (arguments.map fun tree => (tree.kind, tree.nesting)) := nesting_mk _ _ _
  have hcall : nesting ⟨.call, none, [subject, ⟨.argumentList, none, arguments⟩]⟩ =
      max subject.operandNesting (nesting ⟨.argumentList, none, arguments⟩) := rfl
  rw [hcall, harguments, Nat.max_le, deepestOpened_le_iff]

/-- The name of a member adds no level to the operand before it. -/
lemma nesting_member (subject : Tree) (name : Token) :
    nesting ⟨.memberAccess, none, [subject, leaf .identifier name]⟩ = subject.operandNesting :=
  rfl

/-- A subscript is read as an expression, one level below the brackets around it. -/
lemma nesting_index (subject subscript : Tree) :
    nesting ⟨.index, none, [subject, subscript]⟩ =
      max subject.operandNesting (subscript.nesting + 1) :=
  rfl

/-- A prefix operator takes a level of its own. -/
lemma nesting_unary (operator : Token) (inner : Tree) :
    nesting ⟨.unaryExpression, some operator, [inner]⟩ = inner.operandNesting + 1 :=
  rfl

/-- A binary operator takes no level besides those of its operands. -/
lemma nesting_binary (operator : Token) (left right : Tree) :
    nesting ⟨.binaryExpression, some operator, [left, right]⟩ =
      max left.operandNesting right.operandNesting :=
  rfl

/-- The value of an assignment is read one level below it, and the target is not. -/
lemma nesting_assignment (operator : Token) (target value : Tree) :
    nesting ⟨.assignment, some operator, [target, value]⟩ =
      max target.operandNesting (value.operandNesting + 1) :=
  rfl

/-- A program has no level of its own: those of its statements suffice. -/
lemma nesting_root_le {statements : List Tree} {room : ℕ} :
    nesting ⟨.root, none, statements⟩ ≤ room ↔
      ∀ statement ∈ statements, statement.nesting ≤ room := by
  have hroot : nesting ⟨.root, none, statements⟩ =
      deepest (statements.map fun tree => (tree.kind, tree.nesting)) := nesting_mk _ _ _
  rw [hroot, deepest_le_iff]

/-- Nor has a block. -/
lemma nesting_block_le {statements : List Tree} {room : ℕ} :
    nesting ⟨.block, none, statements⟩ ≤ room ↔
      ∀ statement ∈ statements, statement.nesting ≤ room := by
  have hblock : nesting ⟨.block, none, statements⟩ =
      deepest (statements.map fun tree => (tree.kind, tree.nesting)) := nesting_mk _ _ _
  rw [hblock, deepest_le_iff]

/-- A class takes one level, and its members are read with those that are left. -/
lemma nesting_class_le {name : Token} {base : Option Token} {members : List Tree} {room : ℕ} :
    nesting ⟨.classDeclaration, none,
        leaf .declarationName name :: (base.toList.map (leaf .baseClass) ++ members)⟩ ≤ room + 1 ↔
      ∀ member ∈ members, member.nesting ≤ room := by
  have hclass (children : List Tree) : nesting ⟨.classDeclaration, none, children⟩ =
      deepest (children.map fun tree => (tree.kind, tree.nesting)) + 1 := nesting_mk _ _ _
  have hname : nesting (leaf .declarationName name) = 0 := rfl
  have hbase (t : Token) : nesting (leaf .baseClass t) = 0 := rfl
  rw [hclass, Nat.add_le_add_iff_right, deepest_le_iff]
  cases base with
  | none => simp [hname]
  | some t => simp [hname, hbase]

/-- A function takes one level, and its body is read with those that are left; its parameters take
none. -/
lemma nesting_function_le {name : Token} {parameters : List Token} {body : List Tree} {room : ℕ} :
    nesting ⟨.functionDeclaration, none, [leaf .declarationName name,
        ⟨.parameterList, none, parameters.map (leaf .parameter)⟩, ⟨.block, none, body⟩]⟩ ≤
          room + 1 ↔
      ∀ statement ∈ body, statement.nesting ≤ room := by
  have hfunction (children : List Tree) : nesting ⟨.functionDeclaration, none, children⟩ =
      deepest (children.map fun tree => (tree.kind, tree.nesting)) + 1 := nesting_mk _ _ _
  have hname : nesting (leaf .declarationName name) = 0 := rfl
  have hlist : nesting ⟨.parameterList, none, parameters.map (leaf .parameter)⟩ =
      deepest ((parameters.map (leaf .parameter)).map fun tree => (tree.kind, tree.nesting)) :=
    nesting_mk _ _ _
  have hparameters : nesting ⟨.parameterList, none, parameters.map (leaf .parameter)⟩ ≤ room := by
    rw [hlist, deepest_le_iff]
    intro tree htree
    obtain ⟨t, -, rfl⟩ := List.mem_map.mp htree
    exact Nat.zero_le room
  rw [hfunction, Nat.add_le_add_iff_right, deepest_le_iff]
  simp [hname, hparameters, nesting_block_le]

/-- A declaration of a variable takes one level, and its value is read with those that are left. -/
lemma nesting_variable_le {name : Token} {value : Option Tree} {room : ℕ} :
    nesting ⟨.variableDeclaration, none, leaf .declarationName name :: value.toList⟩ ≤ room + 1 ↔
      ∀ e ∈ value, e.nesting + 1 ≤ room := by
  have hvariable : nesting ⟨.variableDeclaration, none,
        leaf .declarationName name :: value.toList⟩ =
      deepestOpened (value.toList.map fun tree => (tree.kind, tree.nesting)) + 1 := nesting_mk _ _ _
  rw [hvariable, Nat.add_le_add_iff_right, deepestOpened_le_iff]
  simp

/-- A conditional takes one level, and its condition and both its branches are read with those that
are left. -/
lemma nesting_if_le {condition : Tree} {body : List Tree} {alternative : Option (List Tree)}
    {room : ℕ} :
    nesting ⟨.ifStatement, none,
        condition :: ⟨.block, none, body⟩ :: alternative.toList.map (mk .block none)⟩ ≤ room + 1 ↔
      condition.nesting + 1 ≤ room ∧ (∀ statement ∈ body, statement.nesting ≤ room) ∧
        ∀ other ∈ alternative, ∀ statement ∈ other, statement.nesting ≤ room := by
  have hif (blocks : List Tree) : nesting ⟨.ifStatement, none, condition :: blocks⟩ =
      max (condition.nesting + 1)
        (deepest (blocks.map fun tree => (tree.kind, tree.nesting))) + 1 := nesting_mk _ _ _
  rw [hif, Nat.add_le_add_iff_right, Nat.max_le, deepest_le_iff, List.forall_mem_cons,
    nesting_block_le]
  simp [nesting_block_le]

/-- A loop takes one level, and its condition and its body are read with those that are left. -/
lemma nesting_while_le {condition : Tree} {body : List Tree} {room : ℕ} :
    nesting ⟨.whileStatement, none, [condition, ⟨.block, none, body⟩]⟩ ≤ room + 1 ↔
      condition.nesting + 1 ≤ room ∧ ∀ statement ∈ body, statement.nesting ≤ room := by
  have hwhile (blocks : List Tree) : nesting ⟨.whileStatement, none, condition :: blocks⟩ =
      max (condition.nesting + 1)
        (deepest (blocks.map fun tree => (tree.kind, tree.nesting))) + 1 := nesting_mk _ _ _
  rw [hwhile, Nat.add_le_add_iff_right, Nat.max_le, deepest_le_iff, List.forall_mem_singleton,
    nesting_block_le]

/-- A `return` takes one level, and its value is read with those that are left. -/
lemma nesting_return_le {value : Option Tree} {room : ℕ} :
    nesting ⟨.returnStatement, none, value.toList⟩ ≤ room + 1 ↔
      ∀ e ∈ value, e.nesting + 1 ≤ room := by
  have hreturn : nesting ⟨.returnStatement, none, value.toList⟩ =
      deepestOpened (value.toList.map fun tree => (tree.kind, tree.nesting)) + 1 := nesting_mk _ _ _
  rw [hreturn, Nat.add_le_add_iff_right, deepestOpened_le_iff]
  simp

/-- A statement that is an expression takes two levels, one as a statement and one for the
expression. -/
lemma nesting_expressionStatement (value : Tree) :
    nesting ⟨.expressionStatement, none, [value]⟩ = value.nesting + 2 := by
  rfl

end Tree

end UvaAnalysis
