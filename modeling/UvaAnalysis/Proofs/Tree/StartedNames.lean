import UvaAnalysis.Proofs.Tree.ClassName

/-!
# Names that were started stay

More tokens at the end of a stream may take whole statements out of its tree, when what was an
expression turns out to be the beginning of a faulty one.  They take no name of a declaration: the
names, base classes and parameters in the tree of a stream come first, in the same order, in the
tree of the longer stream, and so do the classes that are declared (`startedNames_prefix_append`).

For the names at any depth that is part of what it means for a grower to be local.  For the classes
declared at the top it rests on the name of a class being the first thing that is read of it.
-/

namespace UvaAnalysis.Tree

open Grower (node)

/-! ### The classes that are declared -/

/-- Class names are found node by node. -/
lemma classNames_append (nodes others : List Tree) :
    classNames (nodes ++ others) = classNames nodes ++ classNames others :=
  List.filterMap_append

/-- More nodes at the end add their class names at the end. -/
lemma classNames_prefix_mono {nodes others : List Tree} (h : nodes <+: others) :
    classNames nodes <+: classNames others := by
  obtain ⟨more, rfl⟩ := h
  rw [classNames_append]
  exact List.prefix_append _ _

/-- A node of another kind declares no class. -/
lemma classNames_node {kind : Kind} (h : kind ≠ .classDeclaration) (body : Grower)
    (tokens : List Token) : classNames (node kind body tokens).nodes = [] := by
  rw [classNames, List.filterMap_eq_nil_iff]
  intro tree htree
  have hkind := kind_of_mem_node htree
  exact className?_eq_none (hkind ▸ h)

/-- A class that a statement declares is declared with more tokens too. -/
lemma classNames_prefix_statementOf (inner : Grower) (expression : Reader Tree)
    (tokens extra : List Token) :
    classNames (statementOf inner expression tokens).nodes <+:
      classNames (statementOf inner expression (tokens ++ extra)).nodes := by
  cases tokens with
  | nil => exact List.nil_prefix
  | cons t tokens =>
    -- Only a class declaration has a name to keep.
    have hother {names : List Token} (h : names = []) (more : List Token) : names <+: more :=
      h ▸ List.nil_prefix
    rw [List.cons_append, statementOf, statementOf]
    cases hopening : Opening.ofToken t with
    | empty => exact hother rfl _
    | classDeclaration =>
      simp only [classNames_classDeclaration]
      cases tokens with
      | nil => exact List.nil_prefix
      | cons u tokens => exact List.prefix_refl _
    | functionDeclaration => exact hother (classNames_node (by decide) _ _) _
    | variableDeclaration => exact hother (classNames_node (by decide) _ _) _
    | ifStatement => exact hother (classNames_node (by decide) _ _) _
    | whileStatement => exact hother (classNames_node (by decide) _ _) _
    | returnStatement => exact hother (classNames_node (by decide) _ _) _
    | expression =>
      refine hother ?_ _
      simp only [expressionStatement, Grower.one, Reader.bind_apply]
      cases expression (t :: tokens) with
      | ok value rest =>
        have hkind : (⟨.expressionStatement, none, [value]⟩ : Tree).kind ≠ .classDeclaration := by
          intro hkind
          cases hkind
        simp only [Reader.pure_apply, classNames, List.filterMap_cons, className?_eq_none hkind,
          List.filterMap_nil]
      | error fault rest => rfl

/-- A statement keeps the class names that it has made when more tokens follow. -/
lemma classNames_prefix_statement (room : ℕ) (tokens extra : List Token) :
    classNames (statement room tokens).nodes <+:
      classNames (statement room (tokens ++ extra)).nodes := by
  cases room with
  | zero =>
    have hnone (tokens : List Token) : (statement 0 tokens).nodes = [] := by
      cases tokens <;> rfl
    rw [hnone]
    exact List.nil_prefix
  | succ room =>
    rw [statement_succ]
    exact classNames_prefix_statementOf _ _ tokens extra

/-- The classes that a program declares come first with more tokens.  Each statement but the last
either is the same with more tokens or has taken all of them, and then nothing follows it. -/
lemma classNames_prefix_program (bound tokens extra : List Token) :
    classNames (program bound tokens).nodes <+:
      classNames (program bound (tokens ++ extra)).nodes := by
  induction bound generalizing tokens with
  | nil => cases tokens <;> exact List.nil_prefix
  | cons _ bound ih =>
    cases tokens with
    | nil => exact List.nil_prefix
    | cons t tokens =>
      have hcontinues := (local_statement nestingLimit).isLocal.continues (t :: tokens) extra
      have hnames := classNames_prefix_statement nestingLimit (t :: tokens) extra
      rw [List.cons_append] at hcontinues hnames ⊢
      rw [program, program]
      generalize statement nestingLimit (t :: tokens) = growth at hcontinues hnames ⊢
      generalize statement nestingLimit (t :: (tokens ++ extra)) = more at hcontinues hnames ⊢
      cases hcontinues with
      | @settled nodes fault u rest hfault =>
        cases fault with
        | some fault => exact List.prefix_refl _
        | none =>
          rw [Growth.andThen_of_no_fault rfl, Growth.andThen_of_no_fault rfl, classNames_append,
            classNames_append]
          exact (List.prefix_append_right_inj _).mpr (ih (u :: rest))
      | @reached nodes fault _ hfault hrest _ =>
        have hkept := classNames_prefix_mono (more.nodes_prefix_andThen (program bound))
        cases fault with
        | some fault => exact hnames.trans hkept
        | none =>
          have hend : program bound [] = ⟨[], none, []⟩ := by
            cases bound <;> rfl
          rw [Growth.andThen_of_no_fault rfl, hend, List.append_nil]
          exact hnames.trans hkept

/-! ### Whole streams -/

/-- The name of a declaration and the place of that name. -/
def declaredAt (declaration : Declaration) : String × Path × Position :=
  (declaration.name, declaration.file, declaration.position)

/-- What is declared where depends on the tree alone. -/
lemma map_declaredAt_declarations (tree : Tree) (tokens : List Token) :
    (tree.declarations tokens).map declaredAt =
      (classNames tree.children).map fun t => (t.text, t.origin, t.position) := by
  rw [declarations, List.map_map]
  rfl

/-- The names, base classes and parameters in the tree of a stream come first, in the same order, in
the tree of the stream with more tokens, whether either of them is complete or not.  So do the
classes declared at the top, with the places of their names, whatever the streams in which their
references are looked for. -/
theorem startedNames_prefix_append (tokens more : List Token) :
    (parse tokens).value.startedNames <+: (parse (tokens ++ more)).value.startedNames ∧
      ∀ stream stream' : List Token,
        ((parse tokens).value.declarations stream).map declaredAt <+:
          ((parse (tokens ++ more)).value.declarations stream').map declaredAt := by
  constructor
  · have hcontinues := local_program_self.continues tokens more
    have hroot (tokens : List Token) : (parse tokens).value.startedNames =
        (program tokens tokens).nodes.flatMap startedNames :=
      startedNames_none .root _
    rw [hroot, hroot]
    exact hcontinues.startedNames_prefix
  · intro stream stream'
    rw [map_declaredAt_declarations, map_declaredAt_declarations]
    refine List.IsPrefix.map _ ?_
    have hsame : program tokens tokens = program (tokens ++ more) tokens :=
      program_bound (local_statement nestingLimit).takes (Nat.le_refl tokens.length) (by simp)
    have hprefix := classNames_prefix_program (tokens ++ more) tokens more
    rw [← hsame] at hprefix
    exact hprefix

end UvaAnalysis.Tree
