import UvaAnalysis.Proofs.Tree.Cursor.Basic

/-!
# The procedures of a parser

The grammar as procedures over a cursor.  A procedure calls those above it by name, and itself and
those below it through the table.

The tables are made one after the other: through the first no call comes to an end, and through each
further one a procedure does what its text says with the calls of the table before.  So the number
of a table is how many calls may be open inside one another, and a computation comes to an end if
all tables from some number on give the same result.
-/

namespace UvaAnalysis

namespace Tree

namespace Parser

section

variable (tokens : List Token)

/-! ### Expressions -/

/-- The rounds of a list: expressions with commas between them, up to and including `close`. -/
def elements (close : String) : Parser (List Tree) := do
  let first ← call (·.expression)
  if ← accept tokens .delimiter "," then
    let others ← call (·.elements close)
    return first :: others
  else
    expect tokens .delimiter close
    return [first]

/-- Expressions with commas between them, possibly none, up to and including `close`. -/
def list (close : String) : Parser (List Tree) := do
  if ← accept tokens .delimiter close then
    return []
  else
    elements tokens close

/-- A literal, a name, an expression in parentheses or an array. -/
def primary : Parser Tree := do
  let t ← demand tokens .expression
  if t.category = .literal then
    advance
    return leaf .literal t
  else if t.category = .identifier ∨ t.isKeyword "self" then
    advance
    return leaf .identifier t
  else if t.is .delimiter "(" then
    advance
    let inner ← call (·.expression)
    expect tokens .delimiter ")"
    return inner
  else if t.is .delimiter "[" then
    advance
    let items ← list tokens "]"
    return ⟨.arrayLiteral, some t, items⟩
  else
    throw (.unexpected .expression t)

/-- The rounds of a chain of suffixes: calls, members and subscripts of what stands before. -/
def suffixes (subject : Tree) : Parser Tree := do
  if ← accept tokens .delimiter "(" then
    let arguments ← list tokens ")"
    call (·.suffixes ⟨.call, none, [subject, ⟨.argumentList, none, arguments⟩]⟩)
  else if ← accept tokens .operator "." then
    let member ← identifier tokens .memberName
    call (·.suffixes ⟨.memberAccess, none, [subject, leaf .identifier member]⟩)
  else if ← accept tokens .delimiter "[" then
    let subscript ← call (·.expression)
    expect tokens .delimiter "]"
    call (·.suffixes ⟨.index, none, [subject, subscript]⟩)
  else
    return subject

/-- A primary expression and the suffixes after it. -/
def suffixed : Parser Tree := do
  let subject ← primary tokens
  suffixes tokens subject

/-- A prefix operator and its operand, or an expression without one. -/
def unary : Parser Tree := do
  match ← take? tokens Token.isPrefixOperator with
  | some operator =>
    let operand ← nested tokens .expression (call (·.unary))
    return ⟨.unaryExpression, some operator, [operand]⟩
  | none => suffixed tokens

/-- Operands joined by binary operators of at least the precedence `least`. -/
def binary (least : ℕ) : Parser Tree := do
  note least
  let left ← unary tokens
  call (·.operators least left)

/-- Take the next token if it is a binary operator of at least the given precedence. -/
def binaryOperator? (least : ℕ) : Parser (Option (Token × ℕ)) := do
  match ← peek tokens with
  | some t =>
    match t.precedence? with
    | some precedence =>
      if least ≤ precedence then
        advance
        return some (t, precedence)
      else
        return none
    | none => return none
  | none => return none

/-- The rounds of a chain of binary operators: each takes an operator and its right operand. -/
def operators (least : ℕ) (left : Tree) : Parser Tree := do
  match ← binaryOperator? tokens least with
  | some (operator, precedence) =>
    let right ← binary tokens (precedence + 1)
    call (·.operators least ⟨.binaryExpression, some operator, [left, right]⟩)
  | none => return left

/-- A target, and the value assigned to it if `=` follows. -/
def expression : Parser Tree :=
  nested tokens .expression do
    let target ← binary tokens 1
    match ← take? tokens (·.is .operator "=") with
    | some operator =>
      let value ← call (·.expression)
      return ⟨.assignment, some operator, [target, value]⟩
    | none => return target

/-! ### Statements -/

/-- Add a name to the node under construction. -/
def name (kind : Kind) (expected : Expected) : Parser Unit :=
  add do
    let t ← identifier tokens expected
    return leaf kind t

/-- The base class, if there is one. -/
def baseClass : Parser Unit := do
  if ← accept tokens .keyword "extends" then
    name tokens .baseClass .baseClassName
  else
    return ()

/-- The rounds of a parameter list: names with commas between them, up to and including the
parenthesis. -/
def parameters : Parser Unit := do
  name tokens .parameter .parameterName
  if ← accept tokens .delimiter "," then
    call (·.parameters)
  else
    expect tokens .delimiter ")"

/-- The parameters of a function, possibly none, after the opening parenthesis. -/
def parameterList : Parser Unit :=
  build .parameterList do
    if ← accept tokens .delimiter ")" then
      return ()
    else
      parameters tokens

/-- The initial value of a variable, if there is one. -/
def initialValue : Parser Unit := do
  if ← accept tokens .operator "=" then
    add (expression tokens)
  else
    return ()

/-- A variable: its keyword, a name and perhaps an initial value. -/
def variableDeclaration : Parser Unit := do
  advance
  build .variableDeclaration do
    name tokens .declarationName .variableName
    initialValue tokens

/-- A return: its keyword, and a value if an expression can begin at the next token. -/
def returnStatement : Parser Unit := do
  advance
  build .returnStatement do
    match ← peek tokens with
    | some t =>
      if t.startsExpression then
        add (expression tokens)
      else
        return ()
    | none => return ()

/-- An expression as a statement. -/
def expressionStatement : Parser Unit :=
  add do
    let value ← expression tokens
    return ⟨.expressionStatement, none, [value]⟩

/-- Statements up to one of the keywords `closers`, which is not taken. -/
def statements (closers : List String) : Parser Unit := do
  let t ← demand tokens (.words closers)
  if t.category = .keyword ∧ t.text ∈ closers then
    return ()
  else
    call (·.statement)
    call (·.statements closers)

/-- A class: its keyword, a name, perhaps a base class, and members up to `end`. -/
def classDeclaration : Parser Unit := do
  advance
  build .classDeclaration do
    name tokens .declarationName .className
    baseClass tokens
    statements tokens ["end"]
    expect tokens .keyword "end"

/-- A function: its keyword, a name, parameters, and a body up to `end`. -/
def functionDeclaration : Parser Unit := do
  advance
  build .functionDeclaration do
    name tokens .declarationName .functionName
    expect tokens .delimiter "("
    parameterList tokens
    build .block (statements tokens ["end"])
    expect tokens .keyword "end"

/-- The alternative of a conditional, if there is one. -/
def alternative : Parser Unit := do
  if ← accept tokens .keyword "else" then
    build .block (statements tokens ["end"])
  else
    return ()

/-- A conditional: its keyword, a condition, a block, perhaps another one, and `end`. -/
def ifStatement : Parser Unit := do
  advance
  build .ifStatement do
    add (expression tokens)
    build .block (statements tokens ["else", "end"])
    alternative tokens
    expect tokens .keyword "end"

/-- A loop: its keyword, a condition, a block, and `end`. -/
def whileStatement : Parser Unit := do
  advance
  build .whileStatement do
    add (expression tokens)
    build .block (statements tokens ["end"])
    expect tokens .keyword "end"

/-- One statement. -/
def statement : Parser Unit :=
  nested tokens .statement do
    let t ← demand tokens .statement
    match Opening.ofToken t with
    | .empty => advance
    | .classDeclaration => classDeclaration tokens
    | .functionDeclaration => functionDeclaration tokens
    | .variableDeclaration => variableDeclaration tokens
    | .ifStatement => ifStatement tokens
    | .whileStatement => whileStatement tokens
    | .returnStatement => returnStatement tokens
    | .expression => expressionStatement tokens

/-- Statements up to the end of the tokens. -/
def program : Parser Unit := do
  match ← peek tokens with
  | some _ =>
    statement tokens
    call (·.program)
  | none => return ()

end

end Parser

/-! ### Tables of procedures -/

namespace Procedures

/-- The table through which no call comes to an end. -/
def endless : Procedures where
  elements _ := fun _ => .none
  suffixes _ := fun _ => .none
  unary := fun _ => .none
  operators _ _ := fun _ => .none
  expression := fun _ => .none
  parameters := fun _ => .none
  statements _ := fun _ => .none
  statement := fun _ => .none
  program := fun _ => .none

/-- The procedures as their texts say, with calls through the table `calls`. -/
def next (tokens : List Token) (calls : Procedures) : Procedures where
  elements close := Parser.elements tokens close calls
  suffixes subject := Parser.suffixes tokens subject calls
  unary := Parser.unary tokens calls
  operators least left := Parser.operators tokens least left calls
  expression := Parser.expression tokens calls
  parameters := Parser.parameters tokens calls
  statements closers := Parser.statements tokens closers calls
  statement := Parser.statement tokens calls
  program := Parser.program tokens calls

/-- The table through which no more than `number` calls may be open inside one another. -/
def table (tokens : List Token) : (number : ℕ) → Procedures
  | 0 => endless
  | number + 1 => next tokens (table tokens number)

end Procedures

/-- The tree of the tokens up to the first fault, if the procedures come to an end with no more than
`number` calls open inside one another. -/
def parseWithin (number : ℕ) (tokens : List Token) : Option (Salvage Tree) :=
  match Parser.program tokens (Procedures.table tokens number) .start with
  | some (.ok _, s) => some ⟨⟨.root, none, s.nodes⟩, []⟩
  | some (.error fault, s) => some ⟨⟨.root, none, s.nodes⟩, [fault]⟩
  | none => none

end Tree

end UvaAnalysis
