import UvaAnalysis.Token.Basic

/-!
# Syntax trees

A tree has a kind, the token it was built from where it has one, and its children in the order in
which they stand in the source.  Names and leaves carry the token that they are, and operations
carry their operator.  One type serves all kinds of node, since a tree may be cut short by a fault
at any point.
-/

namespace UvaAnalysis

/-- The kinds of node in a syntax tree. -/
inductive Tree.Kind where
  | root
  | classDeclaration
  /-- The name of a class, a function or a variable. -/
  | declarationName
  | baseClass
  | functionDeclaration
  | parameterList
  | parameter
  | block
  | variableDeclaration
  | ifStatement
  | whileStatement
  | returnStatement
  | expressionStatement
  | assignment
  | binaryExpression
  | unaryExpression
  | call
  | argumentList
  | memberAccess
  | index
  | arrayLiteral
  | identifier
  | literal
  deriving DecidableEq, Repr

/-- A syntax tree. -/
structure Tree where
  kind : Tree.Kind
  token : Option Token := none
  children : List Tree := []
  deriving Repr

namespace Tree

instance : Inhabited Tree := ⟨⟨.root, none, []⟩⟩

/-- A node without children that carries a token. -/
def leaf (kind : Kind) (token : Token) : Tree :=
  ⟨kind, some token, []⟩

/-- The first child of a given kind. -/
def child? (tree : Tree) (kind : Kind) : Option Tree :=
  tree.children.find? (·.kind = kind)

end Tree

end UvaAnalysis
