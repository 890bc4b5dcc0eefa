import UvaAnalysis.Tree.Expression

/-!
# Reading statements

Statements are kept as far as they were read.  A grower reads what is to become the children of a
node: it gives the nodes that it made, the fault that stopped it if there was one, and the tokens
that are left.  Making a node of what a grower gives keeps the node whether or not the grower was
stopped, so a class whose `end` is missing is in the tree with all that stood in it.  An expression
is kept whole or not at all.

`parse` reads statements until the tokens end or a fault stops it.
-/

namespace UvaAnalysis

namespace Tree

/-- The nodes that were made from the front of a list of tokens, the fault that stopped the reading,
and the tokens that are left. -/
structure Growth where
  nodes : List Tree
  fault : Option Fault
  rest : List Token
  deriving Repr

/-- A computation that makes nodes from the front of a list of tokens. -/
abbrev Grower := List Token → Growth

/-- Go on after what was read, unless a fault stopped it. -/
def Growth.andThen (growth : Growth) (next : Grower) : Growth :=
  match growth.fault with
  | some _ => growth
  | none =>
    let more := next growth.rest
    { more with nodes := growth.nodes ++ more.nodes }

/-- After a fault nothing more is read. -/
theorem Growth.andThen_of_fault {growth : Growth} {fault : Fault} (h : growth.fault = some fault)
    (next : Grower) : growth.andThen next = growth := by
  simp [andThen, h]

/-- Without a fault the reading goes on with the tokens that are left. -/
theorem Growth.andThen_of_no_fault {growth : Growth} (h : growth.fault = none) (next : Grower) :
    growth.andThen next =
      ⟨growth.nodes ++ (next growth.rest).nodes, (next growth.rest).fault,
        (next growth.rest).rest⟩ := by
  simp [andThen, h]

/-- The nodes that were made are kept, whatever follows. -/
theorem Growth.nodes_prefix_andThen (growth : Growth) (next : Grower) :
    growth.nodes <+: (growth.andThen next).nodes := by
  cases h : growth.fault with
  | none =>
    exact ⟨(next growth.rest).nodes, by rw [andThen_of_no_fault h]⟩
  | some fault =>
    exact ⟨[], by rw [andThen_of_fault h, List.append_nil]⟩

namespace Grower

/-- Make no node and take no token. -/
def nothing : Grower := fun tokens => ⟨[], none, tokens⟩

/-- Make one node with a reader. -/
def one (reader : Reader Tree) : Grower := fun tokens =>
  match reader tokens with
  | .ok tree rest => ⟨[tree], none, rest⟩
  | .error fault rest => ⟨[], some fault, rest⟩

/-- Take tokens with a reader without making a node of them. -/
def silent (reader : Reader Unit) : Grower := fun tokens =>
  match reader tokens with
  | .ok _ rest => ⟨[], none, rest⟩
  | .error fault rest => ⟨[], some fault, rest⟩

/-- One grower after the other. -/
def inOrder : List Grower → Grower
  | [] => nothing
  | grower :: others => fun tokens => (grower tokens).andThen (inOrder others)

/-- Make one node of all that a grower gives, even when a fault stopped it. -/
def node (kind : Kind) (body : Grower) : Grower := fun tokens =>
  let growth := body tokens
  { growth with nodes := [⟨kind, none, growth.nodes⟩] }

/-- A name, as a node of a given kind. -/
def name (kind : Kind) (expected : Expected) : Grower :=
  one do
    let t ← Reader.identifier expected
    return leaf kind t

/-- The keyword that ends a construct. -/
def close : Grower :=
  silent (Reader.expect .keyword "end")

end Grower

open Grower

/-- Statements up to one of the keywords `closers`, which is left for the caller. -/
def statements (statement : Grower) (closers : List String) : (bound : List Token) → Grower
  | [], tokens => ⟨[], some (.endOfInput (.words closers)), tokens⟩
  | _ :: _, [] => ⟨[], some (.endOfInput (.words closers)), []⟩
  | _ :: bound, t :: rest =>
    if t.category = .keyword ∧ t.text ∈ closers then ⟨[], none, t :: rest⟩
    else (statement (t :: rest)).andThen (statements statement closers bound)

/-- The node that holds the statements up to one of the keywords `closers`. -/
def block (statement : Grower) (closers : List String) : Grower :=
  node .block fun tokens => statements statement closers tokens tokens

/-- The base class, if there is one. -/
def baseClass : Grower
  | [] => nothing []
  | t :: rest =>
    if t.isKeyword "extends" then name .baseClass .baseClassName rest else nothing (t :: rest)

/-- A class, after its keyword: a name, perhaps a base class, and members up to `end`. -/
def classDeclaration (statement : Grower) : Grower :=
  node .classDeclaration <| inOrder
    [name .declarationName .className, baseClass,
      fun tokens => statements statement ["end"] tokens tokens, close]

/-- The rounds of a parameter list: names with commas between them, up to and including the
parenthesis. -/
def parameters : (bound : List Token) → Grower
  | [], tokens => ⟨[], some (.endOfInput .parameterName), tokens⟩
  | _ :: bound, tokens =>
    (name .parameter .parameterName tokens).andThen fun
      | [] => silent (Reader.expect .delimiter ")") []
      | t :: rest =>
        if t.is .delimiter "," then parameters bound rest
        else silent (Reader.expect .delimiter ")") (t :: rest)

/-- The parameters of a function, possibly none, after the opening parenthesis. -/
def parameterList : Grower :=
  node .parameterList fun
    | [] => parameters [] []
    | t :: rest =>
      if t.is .delimiter ")" then nothing rest else parameters (t :: rest) (t :: rest)

/-- A function, after its keyword: a name, parameters, and a body up to `end`. -/
def functionDeclaration (statement : Grower) : Grower :=
  node .functionDeclaration <| inOrder
    [name .declarationName .functionName, silent (Reader.expect .delimiter "("), parameterList,
      block statement ["end"], close]

/-- The initial value of a variable, if there is one. -/
def initialValue (expression : Reader Tree) : Grower
  | [] => nothing []
  | t :: rest =>
    if t.is .operator "=" then one expression rest else nothing (t :: rest)

/-- A variable, after its keyword: a name and perhaps an initial value. -/
def variableDeclaration (expression : Reader Tree) : Grower :=
  node .variableDeclaration <| inOrder
    [name .declarationName .variableName, initialValue expression]

/-- The alternative of a conditional, if there is one. -/
def alternative (statement : Grower) : Grower
  | [] => nothing []
  | t :: rest =>
    if t.isKeyword "else" then block statement ["end"] rest else nothing (t :: rest)

/-- A conditional, after its keyword: a condition, a block, perhaps another one, and `end`. -/
def ifStatement (statement : Grower) (expression : Reader Tree) : Grower :=
  node .ifStatement <| inOrder
    [one expression, block statement ["else", "end"], alternative statement, close]

/-- A loop, after its keyword: a condition, a block, and `end`. -/
def whileStatement (statement : Grower) (expression : Reader Tree) : Grower :=
  node .whileStatement <| inOrder [one expression, block statement ["end"], close]

/-- A return, after its keyword: a value if an expression can begin at the next token. -/
def returnStatement (expression : Reader Tree) : Grower :=
  node .returnStatement fun
    | [] => nothing []
    | t :: rest => if t.startsExpression then one expression (t :: rest) else nothing (t :: rest)

/-- An expression as a statement; without the expression there is no statement. -/
def expressionStatement (expression : Reader Tree) : Grower :=
  one do
    let value ← expression
    return ⟨.expressionStatement, none, [value]⟩

/-- What a statement is, as far as its first token tells. -/
inductive Opening where
  /-- A semicolon, which is a statement by itself and makes no node. -/
  | empty
  | classDeclaration
  | functionDeclaration
  | variableDeclaration
  | ifStatement
  | whileStatement
  | returnStatement
  | expression
  deriving DecidableEq, Repr

/-- What a statement that begins with a given token is. -/
def Opening.ofToken (t : Token) : Opening :=
  if t.is .delimiter ";" then .empty
  else if t.category ≠ .keyword then .expression
  else if t.text = "class" then .classDeclaration
  else if t.text = "function" then .functionDeclaration
  else if t.text = "let" ∨ t.text = "var" ∨ t.text = "const" then .variableDeclaration
  else if t.text = "if" then .ifStatement
  else if t.text = "while" then .whileStatement
  else if t.text = "return" then .returnStatement
  else .expression

/-- One statement, given the readers for the statements and expressions inside it. -/
def statementOf (inner : Grower) (expression : Reader Tree) : Grower
  | [] => ⟨[], some (.endOfInput .statement), []⟩
  | t :: rest =>
    match Opening.ofToken t with
    | .empty => nothing rest
    | .classDeclaration => classDeclaration inner rest
    | .functionDeclaration => functionDeclaration inner rest
    | .variableDeclaration => variableDeclaration expression rest
    | .ifStatement => ifStatement inner expression rest
    | .whileStatement => whileStatement inner expression rest
    | .returnStatement => returnStatement expression rest
    | .expression => expressionStatement expression (t :: rest)

/-- A statement, when `room` levels of nesting are left. -/
def statement : (room : Nat) → Grower
  | 0, tokens => silent (Reader.tooDeep .statement) tokens
  | room + 1, tokens => statementOf (statement room) (expression room) tokens

/-- A statement has the statements and the expressions in it one level further in. -/
theorem statement_succ (room : Nat) :
    statement (room + 1) = statementOf (statement room) (expression room) := by
  rfl

/-- Statements up to the end of the tokens. -/
def program : (bound : List Token) → Grower
  | _, [] => nothing []
  | [], tokens => nothing tokens
  | _ :: bound, t :: rest => (statement nestingLimit (t :: rest)).andThen (program bound)

/-- The tree of a list of tokens, up to the first fault. -/
def parse (tokens : List Token) : Salvage Tree :=
  let growth := program tokens tokens
  ⟨⟨.root, none, growth.nodes⟩, growth.fault.toList⟩

end Tree

end UvaAnalysis
