import UvaAnalysis.Tree.Basic

/-!
# Declarations and references

The classes declared at the top level of a tree, and for each of them the identifiers of the same
text in the whole stream of tokens.  The comparison is by text alone: there are no scopes, and a
name refers to itself.
-/

namespace UvaAnalysis

/-- A place where a name stands. -/
structure Reference where
  file : Path
  position : Position
  deriving DecidableEq, Repr

/-- A class, the place of its name, and all places where that name stands. -/
structure Declaration where
  name : String
  file : Path
  position : Position
  references : List Reference
  deriving DecidableEq, Repr

/-- The places of the identifiers of a given text, in the order of the tokens. -/
def references (name : String) (tokens : List Token) : List Reference :=
  (tokens.filter (·.is .identifier name)).map fun t => ⟨t.origin, t.position⟩

namespace Tree

/-- The name that a class declares, where it got as far as a name. -/
def className? (tree : Tree) : Option Token :=
  if tree.kind = .classDeclaration then (tree.child? .declarationName).bind Tree.token else none

/-- The declaration of the class that a token names. -/
def declarationOf (tokens : List Token) (name : Token) : Declaration :=
  ⟨name.text, name.origin, name.position, references name.text tokens⟩

/-- The classes declared directly under a tree, in order. -/
def declarations (tree : Tree) (tokens : List Token) : List Declaration :=
  (tree.children.filterMap className?).map (declarationOf tokens)

end Tree

end UvaAnalysis
