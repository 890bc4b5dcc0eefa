import Mathlib.Data.List.Basic
import UvaAnalysis.Tree.Basic

/-!
# Walks over a tree

What a walk over a tree gathers is put together, at each node, from what it gathers below the
children.  `inorder` and `startedNames` are two such walks: the tokens of a tree in the order of the
source, and the tokens that name what a declaration declares.
-/

namespace UvaAnalysis.Tree

variable {β : Type}

mutual

/-- Put together, at every node, what is put together for its children; a child is known by its
kind besides. -/
def fold (combine : Kind → Option Token → List (Kind × β) → β) : Tree → β
  | ⟨kind, token, children⟩ => combine kind token (foldAll combine children)

/-- What is put together for each of several trees. -/
def foldAll (combine : Kind → Option Token → List (Kind × β) → β) : List Tree → List (Kind × β)
  | [] => []
  | tree :: others => (tree.kind, fold combine tree) :: foldAll combine others

end

/-- A list of trees is folded tree by tree. -/
lemma foldAll_eq (combine : Kind → Option Token → List (Kind × β) → β) (trees : List Tree) :
    foldAll combine trees = trees.map fun tree => (tree.kind, fold combine tree) := by
  induction trees with
  | nil => rfl
  | cons tree others ih => rw [foldAll, ih, List.map_cons]

/-- A node is put together from what its children give. -/
theorem fold_mk (combine : Kind → Option Token → List (Kind × β) → β) (kind : Kind)
    (token : Option Token) (children : List Tree) :
    fold combine ⟨kind, token, children⟩ =
      combine kind token (children.map fun tree => (tree.kind, fold combine tree)) := by
  rw [fold, foldAll_eq]

/-! ### The tokens in the order of the source -/

/-- Operators that stand between what they join. -/
def Kind.isInfix (kind : Kind) : Bool :=
  kind = .binaryExpression || kind = .assignment

/-- The tokens that the nodes carry: an operator between its operands comes after the first of them,
and any other node comes before its children. -/
def inorder : Tree → List Token :=
  fold fun kind token parts =>
    if kind.isInfix then
      (parts.take 1).flatMap Prod.snd ++ (token.toList ++ (parts.drop 1).flatMap Prod.snd)
    else token.toList ++ parts.flatMap Prod.snd

/-- The tokens of a node, in order: an infix node has its own token behind its first child, and any
other node has it in front. -/
lemma inorder_mk (kind : Kind) (token : Option Token) (children : List Tree) :
    inorder ⟨kind, token, children⟩ =
      if kind.isInfix then
        (children.take 1).flatMap inorder ++ (token.toList ++ (children.drop 1).flatMap inorder)
      else token.toList ++ children.flatMap inorder := by
  rw [inorder, fold_mk, ← List.map_take, ← List.map_drop]
  simp only [List.flatMap_map]

/-- The operator of a node with two operands comes between them. -/
lemma inorder_of_isInfix {kind : Kind} (h : kind.isInfix = true) (t : Token) (left right : Tree) :
    inorder ⟨kind, some t, [left, right]⟩ = left.inorder ++ t :: right.inorder := by
  simp [inorder_mk, h]

/-- A node that is no operator between operands comes before its children. -/
lemma inorder_of_not_isInfix {kind : Kind} (h : kind.isInfix = false) (token : Option Token)
    (children : List Tree) :
    inorder ⟨kind, token, children⟩ = token.toList ++ children.flatMap inorder := by
  simp [inorder_mk, h]

/-- A node without a token has the tokens of its children. -/
lemma inorder_none (kind : Kind) (children : List Tree) :
    inorder ⟨kind, none, children⟩ = children.flatMap inorder := by
  rw [inorder_mk]
  split_ifs
  · rw [Option.toList_none, List.nil_append, ← List.flatMap_append, List.take_append_drop]
  · rw [Option.toList_none, List.nil_append]

/-- A leaf has its own token and no other. -/
@[simp] lemma inorder_leaf (kind : Kind) (t : Token) : inorder (leaf kind t) = [t] := by
  simp [leaf, inorder_mk]

/-! ### The names of declarations -/

/-- The nodes whose token is a name that a declaration introduces or extends. -/
def Kind.isStartedName (kind : Kind) : Bool :=
  kind = .declarationName || kind = .baseClass || kind = .parameter

/-- The tokens of the names, base classes and parameters in a tree, each node before what is below
it. -/
def startedNames : Tree → List Token :=
  fold fun kind token parts =>
    (if kind.isStartedName then token.toList else []) ++ parts.flatMap Prod.snd

/-- The names of a node are its own, if its kind has one, and those of its children in order. -/
lemma startedNames_mk (kind : Kind) (token : Option Token) (children : List Tree) :
    startedNames ⟨kind, token, children⟩ =
      (if kind.isStartedName then token.toList else []) ++ children.flatMap startedNames := by
  rw [startedNames, fold_mk, List.flatMap_map]

/-- A node of another kind has the names below it. -/
lemma startedNames_of_not {kind : Kind} (h : kind.isStartedName = false) (token : Option Token)
    (children : List Tree) :
    startedNames ⟨kind, token, children⟩ = children.flatMap startedNames := by
  simp [startedNames_mk, h]

/-- A node without a token has the names below it. -/
lemma startedNames_none (kind : Kind) (children : List Tree) :
    startedNames ⟨kind, none, children⟩ = children.flatMap startedNames := by
  simp [startedNames_mk]

end UvaAnalysis.Tree
