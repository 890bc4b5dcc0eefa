import UvaAnalysis.Proofs.Tree.Shape

/-!
# Nesting

The levels of nesting on the way down from the root of a tree are counted on the tree alone: each
statement is one, and so is each step into an expression that had to be read by a new call of the
reader, which are the steps of `Kind.deepens`.  Subjects of calls and operands of binary operations
are read by loops, so going down into those is no level.

A reader that has `room` levels left makes no tree that takes more (`Derives.within`), and neither
does a grower, whatever stops it (`Grower.Fits`).
-/

namespace UvaAnalysis.Tree

/-! ### Levels -/

/-- The child in a given place is an expression one level further in. -/
def Kind.deepens (kind : Kind) (i : ℕ) (child : Kind) : Bool :=
  (kind.isStatement && child.isExpression) ||
    (kind = .unaryExpression || kind = .argumentList || kind = .arrayLiteral) ||
    ((kind = .assignment || kind = .index) && i = 1)

/-- Outside of expressions only those are further in. -/
lemma Kind.deepens_le_isExpression (kind : Kind) (hpart : kind.isExpressionPart = false) (i : ℕ)
    (child : Kind) : (kind.deepens i child).toNat ≤ child.isExpression.toNat := by
  revert hpart
  cases kind <;> simp [deepens, isStatement, isExpressionPart, isExpression]

/-- The levels of nesting that are entered along a path: the statements on it, and the steps to an
expression that is one level further in.  A path that leaves the tree counts as far as it goes. -/
def levelsAlong (tree : Tree) : (path : List ℕ) → ℕ
  | [] => tree.kind.isStatement.toNat
  | i :: path =>
    tree.kind.isStatement.toNat +
      match tree.children[i]? with
      | some child => (tree.kind.deepens i child.kind).toNat + child.levelsAlong path
      | none => 0

/-- No path enters more than a given number of levels. -/
def Within (levels : ℕ) (tree : Tree) : Prop :=
  ∀ path, tree.levelsAlong path ≤ levels

section

variable {levels more : ℕ} {kind : Kind} {token : Option Token} {children : List Tree}
  {left right : Tree}

/-- A tree that enters no more levels than some enters no more than a larger number. -/
lemma Within.mono {tree : Tree} (h : tree.Within levels) (hle : levels ≤ more) :
    tree.Within more :=
  fun path => Nat.le_trans (h path) hle

/-- A node enters its own level, and then those of the child that the path goes on to. -/
lemma within_mk (hkind : kind.isStatement.toNat ≤ levels)
    (h : ∀ i child, children[i]? = some child → ∃ inner, child.Within inner ∧
      kind.isStatement.toNat + ((kind.deepens i child.kind).toNat + inner) ≤ levels) :
    Within levels ⟨kind, token, children⟩ := by
  rintro (_ | ⟨i, path⟩)
  · exact hkind
  · rw [levelsAlong]
    cases hchild : children[i]? with
    | none => exact hkind
    | some child =>
      obtain ⟨inner, hinner, hle⟩ := h i child hchild
      exact Nat.le_trans (Nat.add_le_add_left (Nat.add_le_add_left (hinner path) _) _) hle

/-- A leaf enters no level. -/
lemma within_leaf (hkind : kind.isStatement = false) (t : Token) : (leaf kind t).Within levels :=
  within_mk (hkind ▸ Nat.zero_le levels) fun _ _ h => nomatch h

/-- A list of expressions, each of them one level further in. -/
lemma within_list (hkind : kind.isStatement = false) {inner : ℕ}
    (h : ∀ child ∈ children, inner < levels ∧ child.Within inner) :
    Within levels ⟨kind, token, children⟩ := by
  refine within_mk (hkind ▸ Nat.zero_le levels) fun i child hchild => ?_
  obtain ⟨hlt, hwithin⟩ := h child (List.mem_of_getElem? hchild)
  have hdeepens : (kind.deepens i child.kind).toNat ≤ 1 := Bool.toNat_le _
  refine ⟨inner, hwithin, ?_⟩
  rw [hkind, Bool.toNat_false]
  omega

/-- A node of an expression with two children, the second perhaps one level further in. -/
lemma within_pair (hkind : kind.isStatement = false)
    (hfirst : kind.deepens 0 left.kind = false) (hleft : left.Within levels) {inner : ℕ}
    (hle : (kind.deepens 1 right.kind).toNat + inner ≤ levels) (hright : right.Within inner) :
    Within levels ⟨kind, token, [left, right]⟩ := by
  refine within_mk (hkind ▸ Nat.zero_le levels) fun i child hchild => ?_
  rw [hkind, Bool.toNat_false]
  match i with
  | 0 =>
    obtain rfl : left = child := Option.some.inj hchild
    exact ⟨levels, hleft, by rw [hfirst]; simp⟩
  | 1 =>
    obtain rfl : right = child := Option.some.inj hchild
    exact ⟨inner, hright, by rwa [Nat.zero_add]⟩
  | _ + 2 => cases hchild

/-! ### Expressions -/

/-- An expression enters no more levels than it was read with. -/
theorem Derives.within {room : ℕ} {used : List Token} {tree : Tree} (h : Derives room used tree) :
    tree.Within room := by
  induction h with
  | literal => exact within_leaf rfl _
  | name => exact within_leaf rfl _
  | parenthesized _ _ hroom _ ih => exact ih.mono (Nat.le_of_lt hroom)
  | array _ _ _ hroom _ ih =>
    exact within_list rfl (List.forall_mem_map.mpr fun element h => ⟨hroom element h, ih element h⟩)
  | @call inner room _ _ _ _ _ elements _ _ _ hroom _ _ ihsubject ih =>
    have harguments : Within room ⟨.argumentList, none, elements.map Prod.snd⟩ :=
      within_list rfl
        (List.forall_mem_map.mpr fun element h => ⟨hroom element h, ih element h⟩)
    exact within_pair rfl rfl ihsubject (Nat.le_of_eq (Nat.zero_add room)) harguments
  | @member room _ name _ _ _ _ _ ih =>
    have hname : (leaf .identifier name).Within room := within_leaf rfl name
    exact within_pair rfl rfl ih (Nat.le_of_eq (Nat.zero_add room)) hname
  | @index inner room _ _ _ _ _ _ _ _ hroom _ _ ihsubject ih =>
    exact within_pair rfl rfl ihsubject (Nat.add_comm 1 inner ▸ hroom) ih
  | unary _ hroom _ ih => exact within_list rfl (List.forall_mem_singleton.mpr ⟨hroom, ih⟩)
  | @binary room _ _ _ _ _ _ _ _ _ ihleft ihright =>
    exact within_pair rfl rfl ihleft (Nat.le_of_eq (Nat.zero_add room)) ihright
  | @assignment inner room _ _ _ _ _ _ hroom _ _ ihtarget ih =>
    exact within_pair rfl rfl ihtarget (Nat.add_comm 1 inner ▸ hroom) ih

end

/-! ### Growers -/

/-- A tree that takes no more than `room` levels in its place, one of them for the tree itself if it
is an expression. -/
def FitsIn (room : ℕ) (tree : Tree) : Prop :=
  ∃ inner, tree.Within inner ∧ tree.kind.isExpression.toNat + inner ≤ room

/-- Every node that the grower makes fits, whether or not a fault stops it. -/
def Grower.Fits (room : ℕ) (grower : Grower) : Prop :=
  ∀ tokens, ∀ node ∈ (grower tokens).nodes, node.FitsIn room

open Grower (nothing one silent inOrder node name close)

section

variable {room : ℕ} {grower next statement : Grower} {expression : Reader Tree}

/-- Where no node is made, every node fits. -/
lemma fits_nothing : nothing.Fits room :=
  fun _ _ h => nomatch h

/-- The one node is the tree that the reader makes. -/
lemma fits_one {reader : Reader Tree} (h : reader.Ensures fun _ tree => tree.FitsIn room) :
    (one reader).Fits room := by
  intro tokens node hnode
  unfold one at hnode
  cases heq : reader tokens with
  | ok tree rest =>
    obtain ⟨used, -, htree⟩ := h heq
    rw [heq] at hnode
    obtain rfl := List.mem_singleton.mp hnode
    exact htree
  | error fault rest =>
    rw [heq] at hnode
    cases hnode

/-- What is read without a node takes no room. -/
lemma fits_silent (reader : Reader Unit) : (silent reader).Fits room := by
  intro tokens node hnode
  unfold silent at hnode
  cases heq : reader tokens <;> rw [heq] at hnode <;> cases hnode

/-- The closing keyword takes no room. -/
lemma fits_close : close.Fits room :=
  fits_silent _

/-- What is read next must fit as well, whether or not it is read. -/
lemma Grower.Fits.andThen (h : grower.Fits room) (hnext : next.Fits room) :
    Grower.Fits room fun tokens => (grower tokens).andThen next := by
  intro tokens node hnode
  dsimp only at hnode
  cases hfault : (grower tokens).fault with
  | some fault =>
    rw [Growth.andThen_of_fault hfault] at hnode
    exact h tokens node hnode
  | none =>
    rw [Growth.andThen_of_no_fault hfault] at hnode
    rcases List.mem_append.mp hnode with hnode | hnode
    · exact h tokens node hnode
    · exact hnext _ node hnode

/-- The nodes of growers in turn fit if those of each grower do. -/
lemma fits_inOrder {growers : List Grower} (h : ∀ grower ∈ growers, grower.Fits room) :
    (inOrder growers).Fits room := by
  induction growers with
  | nil => exact fits_nothing
  | cons grower others ih =>
    obtain ⟨hgrower, hothers⟩ := List.forall_mem_cons.mp h
    exact hgrower.andThen (ih hothers)

/-- A node that is no part of an expression takes the levels of its children, and one for itself if
it is a statement. -/
lemma fitsIn_of_children {kind : Kind} (hpart : kind.isExpressionPart = false) {levels : ℕ}
    (hlevels : kind.isStatement.toNat + room ≤ levels) {children : List Tree}
    (h : ∀ child ∈ children, child.FitsIn room) : FitsIn levels ⟨kind, none, children⟩ := by
  refine ⟨levels, within_mk (Nat.le_trans (Nat.le_add_right _ _) hlevels) fun i child hchild => ?_,
    ?_⟩
  · obtain ⟨inner, hwithin, hle⟩ := h child (List.mem_of_getElem? hchild)
    -- The step to the child is a level only if the child is an expression, which has that one left.
    have hstep := Nat.add_le_add_right (kind.deepens_le_isExpression hpart i child.kind) inner
    refine ⟨inner, hwithin, Nat.le_trans (Nat.add_le_add_left ?_ _) hlevels⟩
    exact Nat.le_trans hstep hle
  · have hexpression : kind.isExpression = false := (Bool.or_eq_false_iff.mp hpart).1
    change kind.isExpression.toNat + levels ≤ levels
    exact Nat.le_of_eq (by rw [hexpression, Bool.toNat_false, Nat.zero_add])

/-- A node outside of expressions takes a level if it is a statement, and leaves the rest to its
children. -/
lemma fits_node {kind : Kind} (hpart : kind.isExpressionPart = false) {levels : ℕ}
    (hlevels : kind.isStatement.toNat + room ≤ levels) (h : grower.Fits room) :
    (node kind grower).Fits levels := by
  intro tokens tree htree
  obtain rfl := List.mem_singleton.mp htree
  exact fitsIn_of_children hpart hlevels (h tokens)

/-- The node of a statement is one level. -/
lemma fits_statement_node {kind : Kind} (hkind : kind.isStatement = true) (h : grower.Fits room) :
    (node kind grower).Fits (room + 1) := by
  have hpart : kind.isExpressionPart = false := by cases kind <;> first | rfl | cases hkind
  refine fits_node hpart (Nat.le_of_eq ?_) h
  rw [hkind, Bool.toNat_true, Nat.add_comm]

/-- A name takes no room. -/
lemma fits_name {kind : Kind} (hkind : kind.isStartedName = true) (expected : Expected) :
    (name kind expected).Fits room := by
  refine fits_one ((Reader.ensures_identifier expected).bind fun _ t _ => Reader.ensures_pure ?_)
  have hexpression : kind.isExpression = false := by cases kind <;> first | rfl | cases hkind
  have hstatement : kind.isStatement = false := by cases kind <;> first | rfl | cases hkind
  exact ⟨0, within_leaf hstatement t, by simp [leaf, hexpression]⟩

/-! ### Statements -/

/-- A child that is read if a token announces it. -/
lemma fits_announced {body : Grower} {announces : Token → Bool} (hnil : grower [] = nothing [])
    (hcons : ∀ t rest, grower (t :: rest) =
      if announces t then body rest else nothing (t :: rest))
    (h : body.Fits room) : grower.Fits room := by
  intro tokens
  cases tokens with
  | nil =>
    rw [hnil]
    exact fits_nothing []
  | cons t rest =>
    rw [hcons]
    split_ifs
    · exact h rest
    · exact fits_nothing (t :: rest)

/-- Any number of statements fit where one does. -/
lemma fits_statements (hstatement : statement.Fits room) (closers : List String)
    (bound : List Token) : (statements statement closers bound).Fits room := by
  induction bound with
  | nil => exact fun _ _ h => nomatch h
  | cons _ bound ih =>
    intro tokens
    cases tokens with
    | nil => exact fun _ h => nomatch h
    | cons t rest =>
      rw [statements]
      split_ifs
      · exact fits_nothing (t :: rest)
      · exact hstatement.andThen ih (t :: rest)

/-- A block takes no level of its own. -/
lemma fits_block (hstatement : statement.Fits room) (closers : List String) :
    (block statement closers).Fits room :=
  fits_node rfl (Nat.le_of_eq (Nat.zero_add room)) fun tokens =>
    fits_statements hstatement closers tokens tokens

/-- Parameters take no room, however many they are. -/
lemma fits_parameters (bound : List Token) : (parameters bound).Fits room := by
  induction bound with
  | nil => exact fun _ _ h => nomatch h
  | cons _ bound ih =>
    refine (fits_name rfl _).andThen fun tokens => ?_
    cases tokens with
    | nil => exact fits_silent _ []
    | cons t rest =>
      dsimp only
      split_ifs
      · exact ih rest
      · exact fits_silent _ (t :: rest)

/-- Nor does the list that holds them. -/
lemma fits_parameterList : parameterList.Fits room := by
  refine fits_node rfl (Nat.le_of_eq (Nat.zero_add room)) fun tokens => ?_
  cases tokens with
  | nil => exact fits_parameters [] []
  | cons t rest =>
    dsimp only
    split_ifs
    · exact fits_nothing rest
    · exact fits_parameters (t :: rest) (t :: rest)

/-- A class takes one level, and its members fit in the rest. -/
lemma fits_classDeclaration (hstatement : statement.Fits room) :
    (classDeclaration statement).Fits (room + 1) := by
  have hbase : baseClass.Fits room :=
    fits_announced rfl (fun _ _ => rfl) (fits_name rfl _)
  refine fits_statement_node rfl (fits_inOrder ?_)
  simp only [List.forall_mem_cons, List.not_mem_nil, false_imp_iff, implies_true, and_true]
  exact ⟨fits_name rfl _, hbase, fun tokens => fits_statements hstatement _ tokens tokens,
    fits_close⟩

/-- A function takes one level, and its body fits in the rest. -/
lemma fits_functionDeclaration (hstatement : statement.Fits room) :
    (functionDeclaration statement).Fits (room + 1) := by
  refine fits_statement_node rfl (fits_inOrder ?_)
  simp only [List.forall_mem_cons, List.not_mem_nil, false_imp_iff, implies_true, and_true]
  exact ⟨fits_name rfl _, fits_silent _, fits_parameterList, fits_block hstatement _, fits_close⟩

/-- A variable takes one level, and its value fits in the rest. -/
lemma fits_variableDeclaration (hexpression : (one expression).Fits room) :
    (variableDeclaration expression).Fits (room + 1) := by
  have hvalue : (initialValue expression).Fits room :=
    fits_announced rfl (fun _ _ => rfl) hexpression
  refine fits_statement_node rfl (fits_inOrder ?_)
  simp only [List.forall_mem_cons, List.not_mem_nil, false_imp_iff, implies_true, and_true]
  exact ⟨fits_name rfl _, hvalue⟩

/-- A conditional takes one level, and its condition and its blocks fit in the rest. -/
lemma fits_ifStatement (hstatement : statement.Fits room)
    (hexpression : (one expression).Fits room) :
    (ifStatement statement expression).Fits (room + 1) := by
  have halternative : (alternative statement).Fits room :=
    fits_announced rfl (fun _ _ => rfl) (fits_block hstatement _)
  refine fits_statement_node rfl (fits_inOrder ?_)
  simp only [List.forall_mem_cons, List.not_mem_nil, false_imp_iff, implies_true, and_true]
  exact ⟨hexpression, fits_block hstatement _, halternative, fits_close⟩

/-- A loop takes one level, and its condition and its block fit in the rest. -/
lemma fits_whileStatement (hstatement : statement.Fits room)
    (hexpression : (one expression).Fits room) :
    (whileStatement statement expression).Fits (room + 1) := by
  refine fits_statement_node rfl (fits_inOrder ?_)
  simp only [List.forall_mem_cons, List.not_mem_nil, false_imp_iff, implies_true, and_true]
  exact ⟨hexpression, fits_block hstatement _, fits_close⟩

/-- A return takes one level, and its value fits in the rest. -/
lemma fits_returnStatement (hexpression : (one expression).Fits room) :
    (returnStatement expression).Fits (room + 1) := by
  refine fits_statement_node rfl fun tokens => ?_
  cases tokens with
  | nil => exact fits_nothing []
  | cons t rest =>
    dsimp only
    split_ifs
    · exact hexpression (t :: rest)
    · exact fits_nothing (t :: rest)

/-- An expression statement takes one level, and its expression fits in the rest. -/
lemma fits_expressionStatement (hexpression : expression.Ensures fun _ tree => tree.FitsIn room) :
    (expressionStatement expression).Fits (room + 1) := by
  refine fits_one (hexpression.bind fun _ value hvalue => Reader.ensures_pure ?_)
  refine fitsIn_of_children rfl (Nat.le_of_eq (Nat.add_comm 1 room)) ?_
  exact List.forall_mem_singleton.mpr hvalue

/-- A statement takes one level, whatever it begins with. -/
lemma fits_statementOf (hstatement : statement.Fits room)
    (hexpression : expression.Ensures fun _ tree => tree.FitsIn room) :
    (statementOf statement expression).Fits (room + 1) := by
  have hone : (one expression).Fits room := fits_one hexpression
  intro tokens
  cases tokens with
  | nil => exact fun _ h => nomatch h
  | cons t rest =>
    rw [statementOf]
    cases Opening.ofToken t with
    | empty => exact fits_nothing rest
    | classDeclaration => exact fits_classDeclaration hstatement rest
    | functionDeclaration => exact fits_functionDeclaration hstatement rest
    | variableDeclaration => exact fits_variableDeclaration hone rest
    | ifStatement => exact fits_ifStatement hstatement hone rest
    | whileStatement => exact fits_whileStatement hstatement hone rest
    | returnStatement => exact fits_returnStatement hone rest
    | expression => exact fits_expressionStatement hexpression (t :: rest)

end

/-- An expression that was read is itself one of the levels that the reader had left. -/
lemma fits_expression (room : ℕ) :
    (expression room).Ensures fun _ tree => tree.FitsIn room := by
  refine (derives_expression_operand room).1.mono fun _ tree h => ⟨room - 1, h.2.within, ?_⟩
  have hself : tree.kind.isExpression.toNat ≤ 1 := Bool.toNat_le _
  have hroom := h.1
  omega

/-- A statement enters no more levels than it was read with. -/
theorem fits_statement (room : ℕ) : (statement room).Fits room := by
  induction room with
  | zero => exact fits_silent _
  | succ room ih =>
    rw [statement_succ]
    exact fits_statementOf ih (fits_expression room)

/-! ### The tree of a stream -/

/-- Each statement of a program is read with all the levels there are. -/
lemma fits_program (bound : List Token) : (program bound).Fits nestingLimit := by
  induction bound with
  | nil =>
    intro tokens
    cases tokens <;> exact fits_nothing _
  | cons _ bound ih =>
    intro tokens
    cases tokens with
    | nil => exact fits_nothing []
    | cons t rest => exact (fits_statement nestingLimit).andThen ih (t :: rest)

/-- No path in the tree of a stream enters more levels than the limit. -/
theorem parse_levelsAlong_le (tokens : List Token) (path : List ℕ) :
    (parse tokens).value.levelsAlong path ≤ nestingLimit := by
  obtain ⟨inner, hwithin, hle⟩ : (parse tokens).value.FitsIn nestingLimit :=
    fitsIn_of_children rfl (Nat.le_of_eq (Nat.zero_add _)) (fits_program tokens tokens)
  exact hwithin.mono (Nat.le_trans (Nat.le_add_left _ _) hle) path

/-- The limit is reached: by an expression statement, its expression, and one operand after the
other. -/
example :
    let operator : Token := ⟨⟨"m"⟩, ⟨1, 1, 0⟩, .operator, .plain, "!", 1⟩
    let name : Token := ⟨⟨"m"⟩, ⟨1, 1, 0⟩, .identifier, .plain, "x", 1⟩
    (parse (List.replicate 126 operator ++ [name])).value.levelsAlong (List.replicate 128 0) =
        nestingLimit ∧
      (parse (List.replicate 127 operator ++ [name])).isComplete = false := by
  decide +kernel

end UvaAnalysis.Tree
