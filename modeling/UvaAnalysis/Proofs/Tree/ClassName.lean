import UvaAnalysis.Declaration
import UvaAnalysis.Proofs.Tree.Local.Statement

/-!
# The names of classes

The name that a class declares is an identifier of the stream.  A class node is made by the reader
of classes alone, and the name, where there is one, is its first child; that the name is in the
stream then follows from what readers leave.
-/

namespace UvaAnalysis.Tree

open Grower (one inOrder node name)

/-! ### Which nodes declare a class -/

/-- The node that a grower gives has the kind that it was made for. -/
lemma kind_of_mem_node {kind : Kind} {body : Grower} {tokens : List Token} {tree : Tree}
    (h : tree ∈ (node kind body tokens).nodes) : tree.kind = kind := by
  rw [List.mem_singleton.mp h]

/-- Only a class declares a class name. -/
lemma className?_eq_none {tree : Tree} (h : tree.kind ≠ .classDeclaration) :
    tree.className? = none := by
  rw [className?, if_neg h]

/-- Growers in turn begin with the first of them. -/
lemma inOrder_cons (grower : Grower) (others : List Grower) (tokens : List Token) :
    inOrder (grower :: others) tokens = (grower tokens).andThen (inOrder others) := rfl

/-- The class names among some nodes. -/
def classNames (nodes : List Tree) : List Token :=
  nodes.filterMap className?

/-- A class is named by the first token after its keyword, if that is an identifier. -/
lemma classNames_classDeclaration (statement : Grower) (tokens : List Token) :
    classNames (classDeclaration statement tokens).nodes =
      (tokens.head?.filter (·.category = .identifier)).toList := by
  have hnode (nodes : List Tree) :
      classNames [⟨.classDeclaration, none, nodes⟩] =
        ((nodes.find? (·.kind = .declarationName)).bind Tree.token).toList := by
    rw [classNames, List.filterMap_cons, className?, if_pos rfl, child?]
    cases (nodes.find? (·.kind = .declarationName)).bind Tree.token <;> rfl
  unfold classDeclaration node
  rw [hnode, inOrder_cons]
  cases tokens with
  | nil => rfl
  | cons t rest =>
    by_cases h : t.category = .identifier
    · rw [name_cons_of_identifier .declarationName .className rest h,
        Growth.andThen_of_no_fault rfl, List.head?_cons, Option.filter_some,
        if_pos (decide_eq_true h)]
      rfl
    · rw [name_cons_of_not_identifier .declarationName .className rest h,
        Growth.andThen_of_fault rfl, List.head?_cons, Option.filter_some, if_neg (by simpa using h)]
      rfl

/-- A class has its name first, and nothing without a name. -/
lemma mem_of_className?_classDeclaration {statement : Grower} {tokens : List Token} {tree : Tree}
    {t : Token} (h : tree ∈ (classDeclaration statement tokens).nodes)
    (hname : tree.className? = some t) : t ∈ tokens ∧ t.category = .identifier := by
  have hmem : t ∈ classNames (classDeclaration statement tokens).nodes :=
    List.mem_filterMap.mpr ⟨tree, h, hname⟩
  rw [classNames_classDeclaration, Option.mem_toList, Option.filter_eq_some_iff] at hmem
  exact ⟨List.mem_of_head? hmem.1, of_decide_eq_true hmem.2⟩

/-- A node that a statement makes declares a name that stands in the tokens. -/
lemma mem_of_className?_statementOf {statement : Grower} {expression : Reader Tree}
    {tokens : List Token} {tree : Tree} {t : Token}
    (h : tree ∈ (statementOf statement expression tokens).nodes)
    (hname : tree.className? = some t) : t ∈ tokens ∧ t.category = .identifier := by
  cases tokens with
  | nil => cases h
  | cons u tokens =>
    -- No node of another kind has a class name.
    have hother {kind : Kind} (hkind : tree.kind = kind) (hne : kind ≠ .classDeclaration) :
        t ∈ u :: tokens ∧ t.category = .identifier := by
      rw [className?_eq_none (hkind ▸ hne)] at hname
      cases hname
    rw [statementOf] at h
    cases hopening : Opening.ofToken u with
    | empty =>
      simp only [hopening] at h
      cases h
    | classDeclaration =>
      simp only [hopening] at h
      exact (mem_of_className?_classDeclaration h hname).imp (List.mem_cons_of_mem _) id
    | functionDeclaration =>
      simp only [hopening] at h
      exact hother (kind_of_mem_node h) (by decide)
    | variableDeclaration =>
      simp only [hopening] at h
      exact hother (kind_of_mem_node h) (by decide)
    | ifStatement =>
      simp only [hopening] at h
      exact hother (kind_of_mem_node h) (by decide)
    | whileStatement =>
      simp only [hopening] at h
      exact hother (kind_of_mem_node h) (by decide)
    | returnStatement =>
      simp only [hopening] at h
      exact hother (kind_of_mem_node h) (by decide)
    | expression =>
      simp only [hopening, expressionStatement, one, Reader.bind_apply] at h
      cases heq : expression (u :: tokens) with
      | ok value rest =>
        simp only [heq, Reader.pure_apply, List.mem_singleton] at h
        have hkind : tree.kind = .expressionStatement := congrArg Tree.kind h
        exact hother hkind (by decide)
      | error fault rest =>
        simp only [heq] at h
        cases h

/-! ### Whole streams -/

/-- A node that a program makes declares a name that stands in the tokens. -/
lemma mem_of_className?_program {bound tokens : List Token} {tree : Tree} {t : Token}
    (h : tree ∈ (program bound tokens).nodes) (hname : tree.className? = some t) :
    t ∈ tokens ∧ t.category = .identifier := by
  induction bound generalizing tokens with
  | nil => cases tokens <;> cases h
  | cons _ bound ih =>
    cases tokens with
    | nil => cases h
    | cons u tokens =>
      rw [program] at h
      cases hfault : (statement nestingLimit (u :: tokens)).fault with
      | some fault =>
        rw [Growth.andThen_of_fault hfault] at h
        exact mem_of_className?_statementOf h hname
      | none =>
        rw [Growth.andThen_of_no_fault hfault] at h
        rcases List.mem_append.mp h with h | h
        · exact mem_of_className?_statementOf h hname
        · have hsuffix := (local_statement nestingLimit).isLocal.suffix (u :: tokens)
          exact (ih h).imp (fun hmem => hsuffix.subset hmem) id

/-- The name of every class that the tree of a stream declares is an identifier of the stream. -/
theorem mem_of_className?_parse {tokens : List Token} {tree : Tree} {t : Token}
    (h : tree ∈ (parse tokens).value.children) (hname : tree.className? = some t) :
    t ∈ tokens ∧ t.category = .identifier :=
  mem_of_className?_program h hname

end UvaAnalysis.Tree
