import UvaAnalysis.Tree.Reader

/-!
# Reading expressions

From the tightest to the loosest: primary expressions, suffixes (calls, members, subscripts), prefix
operators, binary operators on six levels of precedence, and assignment, which groups to the right.

An expression may stand inside another in two ways: as an expression between brackets or after `=`,
and as the operand of a prefix operator.  Both use up one level of the nesting that is allowed.
Each reader below is given the readers for what may stand inside it, and `expression` and `operand`
tie them together by recursion on the levels that are left.  Chains of binary operators and of
suffixes use up no level, however long they are.

A loop that takes at least one token in each round is given the tokens at hand when it starts as a
bound on its rounds, so it never runs into the bound before it runs out of tokens.
-/

namespace UvaAnalysis

namespace Token

/-- The precedence of a binary operator, from one for the loosest to six for the tightest. -/
def precedence? (t : Token) : Option Nat :=
  if t.category = .operator ∨ t.category = .keyword then
    if t.text = "or" ∨ t.text = "||" then some 1
    else if t.text = "and" ∨ t.text = "&&" then some 2
    else if t.text = "==" ∨ t.text = "!=" then some 3
    else if t.text = "<" ∨ t.text = "<=" ∨ t.text = ">" ∨ t.text = ">=" then some 4
    else if t.text = "+" ∨ t.text = "-" then some 5
    else if t.text = "*" ∨ t.text = "/" ∨ t.text = "%" then some 6
    else none
  else none

/-- A prefix operator. -/
def isPrefixOperator (t : Token) : Bool :=
  t.is .operator "!" || t.is .operator "-" || t.isKeyword "not"

/-- A token that an expression can begin with. -/
def startsExpression (t : Token) : Bool :=
  match t.category with
  | .identifier | .literal => true
  | .keyword => t.text = "self" || t.text = "not"
  | .operator => t.text = "!" || t.text = "-"
  | .delimiter => t.text = "(" || t.text = "["
  | .directive => false

end Token

namespace Tree

/-- The rounds of a list: expressions with commas between them, up to and including `close`. -/
def elements (expression : Reader Tree) (close : String) :
    (bound : List Token) → Reader (List Tree)
  | [] => fun tokens => .error (.endOfInput .expression) tokens
  | _ :: bound => do
    let first ← expression
    if ← Reader.accept .delimiter "," then
      let others ← elements expression close bound
      return first :: others
    else
      Reader.expect .delimiter close
      return [first]

/-- Expressions with commas between them, possibly none, up to and including `close`. -/
def list (expression : Reader Tree) (close : String) : Reader (List Tree) := do
  if ← Reader.accept .delimiter close then
    return []
  else
    fun tokens => elements expression close tokens tokens

/-- A literal, a name, an expression in parentheses or an array. -/
def primary (expression : Reader Tree) : Reader Tree
  | [] => .error (.endOfInput .expression) []
  | t :: rest =>
    if t.category = .literal then .ok (leaf .literal t) rest
    else if t.category = .identifier ∨ t.isKeyword "self" then .ok (leaf .identifier t) rest
    else if t.is .delimiter "(" then
      (do
        let inner ← expression
        Reader.expect .delimiter ")"
        return inner : Reader Tree) rest
    else if t.is .delimiter "[" then
      (do
        let items ← list expression "]"
        return ⟨.arrayLiteral, some t, items⟩ : Reader Tree) rest
    else .error (.unexpected .expression t) (t :: rest)

/-- The rounds of a chain of suffixes: calls, members and subscripts of what stands before. -/
def suffixes (expression : Reader Tree) : (bound : List Token) → Tree → Reader Tree
  | [], subject => pure subject
  | _ :: bound, subject => do
    if ← Reader.accept .delimiter "(" then
      let arguments ← list expression ")"
      suffixes expression bound ⟨.call, none, [subject, ⟨.argumentList, none, arguments⟩]⟩
    else if ← Reader.accept .operator "." then
      let member ← Reader.identifier .memberName
      suffixes expression bound ⟨.memberAccess, none, [subject, leaf .identifier member]⟩
    else if ← Reader.accept .delimiter "[" then
      let subscript ← expression
      Reader.expect .delimiter "]"
      suffixes expression bound ⟨.index, none, [subject, subscript]⟩
    else
      return subject

/-- A primary expression and the suffixes after it. -/
def suffixed (expression : Reader Tree) : Reader Tree := do
  let subject ← primary expression
  fun tokens => suffixes expression tokens subject tokens

/-- A prefix operator and its operand, or an expression without one. -/
def unary (expression operand : Reader Tree) : Reader Tree := do
  match ← Reader.take? Token.isPrefixOperator with
  | some operator =>
    let inner ← operand
    return ⟨.unaryExpression, some operator, [inner]⟩
  | none => suffixed expression

/-- The next token if it is a binary operator of at least the given precedence, and its own
precedence. -/
def binaryOperator? (least : Nat) : Reader (Option (Token × Nat))
  | [] => .ok none []
  | t :: rest =>
    match t.precedence? with
    | some precedence =>
      if least ≤ precedence then .ok (some (t, precedence)) rest else .ok none (t :: rest)
    | none => .ok none (t :: rest)

/-- The rounds of a chain of binary operators of at least the precedence `least`: each takes an
operator and, as its right operand, all that binds more tightly than it. -/
def climb (operand : Reader Tree) : (bound : List Token) → (least : Nat) → Tree → Reader Tree
  | [], _, left => pure left
  | _ :: bound, least, left => do
    match ← binaryOperator? least with
    | some (operator, precedence) =>
      let next ← operand
      let right ← climb operand bound (precedence + 1) next
      climb operand bound least ⟨.binaryExpression, some operator, [left, right]⟩
    | none => return left

/-- Operands joined by binary operators of at least the precedence `least`. -/
def binary (operand : Reader Tree) (least : Nat) : Reader Tree := do
  let first ← operand
  fun tokens => climb operand tokens least first tokens

/-- A target, and the value assigned to it if `=` follows. -/
def assignment (target value : Reader Tree) : Reader Tree := do
  let left ← target
  match ← Reader.take? (·.is .operator "=") with
  | some operator =>
    let right ← value
    return ⟨.assignment, some operator, [left, right]⟩
  | none => return left

mutual

/-- An expression, when `room` levels of nesting are left. -/
def expression : (room : Nat) → Reader Tree
  | 0, tokens => Reader.tooDeep .expression tokens
  | room + 1, tokens => assignment (binary (operand room) 1) (expression room) tokens

/-- An operand of a binary operator, when `room` levels of nesting are left. -/
def operand : (room : Nat) → Reader Tree
  | 0, tokens => unary (Reader.tooDeep .expression) (Reader.tooDeep .expression) tokens
  | room + 1, tokens =>
    unary (assignment (binary (operand room) 1) (expression room)) (operand room) tokens

end

/-- An expression has its operands and the value after `=` one level further in. -/
theorem expression_succ (room : Nat) :
    expression (room + 1) = assignment (binary (operand room) 1) (expression room) := by
  rfl

/-- An operand has its inner expressions at its own level and the operand of a prefix operator one
level further in. -/
theorem operand_succ (room : Nat) :
    operand (room + 1) = unary (expression (room + 1)) (operand room) := by
  rfl

end Tree

end UvaAnalysis
