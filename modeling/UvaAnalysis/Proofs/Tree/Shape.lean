import UvaAnalysis.Proofs.Tree.Derivation
import UvaAnalysis.Proofs.Tree.Print
import UvaAnalysis.Token.Lexer

/-!
# The shape of a tree

A node of each kind has its own shape: the token that it carries, and the slots that its children
fill in order (`Kind.carries`, `Kind.shape`).  A fault stops the reading in the middle of nodes that
are being made, and each of those is the last child of the one around it.  So a tree that was cut
short is whole but for the nodes on the path of last children from its root, and of those the
children fill the first slots of the shape at least (`IsCut`).  Expressions are made whole or not at
all.

A grower gives the children for some slots of the node that it works for (`Grower.Shaped`), so the
slots of growers that work one after the other follow each other too.
-/

namespace UvaAnalysis.Tree

/-! ### Slots -/

/-- A place for children in a node, with the children that may stand there. -/
inductive Slot where
  | one (admits : Tree → Bool)
  | optional (admits : Tree → Bool)
  | many (admits : Tree → Bool)

/-- The children that a slot can be filled with. -/
def Slot.Admits : Slot → List Tree → Prop
  | .one admits, nodes => ∃ node, nodes = [node] ∧ admits node = true
  | .optional admits, nodes => nodes = [] ∨ ∃ node, nodes = [node] ∧ admits node = true
  | .many admits, nodes => ∀ node ∈ nodes, admits node = true

/-- The children fill the slots, one after the other. -/
inductive Fills : List Slot → List Tree → Prop where
  | nil : Fills [] []
  | cons {slot : Slot} {slots : List Slot} {here after : List Tree} (h : slot.Admits here)
      (hafter : Fills slots after) : Fills (slot :: slots) (here ++ after)

/-- The children fill the first of the slots. -/
def Begins (slots : List Slot) (nodes : List Tree) : Prop :=
  ∃ filled, filled <+: slots ∧ Fills filled nodes

section

variable {slot slot' : Slot} {slots others : List Slot} {nodes more : List Tree} {node : Tree}
  {admits : Tree → Bool}

/-- Children that fill some slots, and more that fill the slots after them. -/
lemma Fills.append (h : Fills slots nodes) (hmore : Fills others more) :
    Fills (slots ++ others) (nodes ++ more) := by
  induction h with
  | nil => exact hmore
  | cons h _ ih =>
    rw [List.append_assoc]
    exact .cons h ih

/-- Children that fill all the slots fill the first ones. -/
lemma Fills.begins (h : Fills slots nodes) : Begins slots nodes :=
  ⟨slots, List.prefix_refl slots, h⟩

/-- No children fill the first none of any slots. -/
lemma begins_nil (slots : List Slot) : Begins slots [] :=
  ⟨[], List.nil_prefix, .nil⟩

/-- More slots at the end may stay empty. -/
lemma Begins.append_right (h : Begins slots nodes) (others : List Slot) :
    Begins (slots ++ others) nodes := by
  obtain ⟨filled, hprefix, hfills⟩ := h
  exact ⟨filled, hprefix.trans (List.prefix_append slots others), hfills⟩

/-- When some slots are full, the next children go into the slots after them. -/
lemma Fills.append_begins (h : Fills slots nodes) (hmore : Begins others more) :
    Begins (slots ++ others) (nodes ++ more) := by
  obtain ⟨filled, hprefix, hfills⟩ := hmore
  exact ⟨slots ++ filled, (List.prefix_append_right_inj slots).mpr hprefix, h.append hfills⟩

/-- A slot for one child takes the first child, and the others fill the slots after it. -/
lemma Fills.one (h : admits node = true) (hmore : Fills slots more) :
    Fills (.one admits :: slots) (node :: more) := by
  have hone : (Slot.one admits).Admits [node] := ⟨node, rfl, h⟩
  exact .cons hone hmore

/-- Without slots there are no children. -/
@[simp] lemma fills_nil_iff : Fills [] nodes ↔ nodes = [] := by
  constructor
  · rintro ⟨⟩
    rfl
  · rintro rfl
    exact .nil

/-- A single slot is filled with all the children. -/
lemma fills_singleton_iff : Fills [slot] nodes ↔ slot.Admits nodes := by
  constructor
  · intro h
    cases h with
    | cons h hafter =>
      rw [fills_nil_iff.mp hafter, List.append_nil]
      exact h
  · intro h
    rw [← List.append_nil nodes]
    exact .cons h .nil

/-- A slot for many children takes any number of them. -/
lemma fills_many (h : ∀ node ∈ nodes, admits node = true) : Fills [.many admits] nodes :=
  fills_singleton_iff.mpr h

/-- Without slots there are no children to begin with either. -/
lemma begins_nil_iff : Begins [] nodes ↔ nodes = [] := by
  constructor
  · rintro ⟨filled, hprefix, hfills⟩
    obtain rfl := List.prefix_nil.mp hprefix
    exact fills_nil_iff.mp hfills
  · rintro rfl
    exact begins_nil []

/-- The first slot is left out only when there are no children at all. -/
lemma begins_cons_iff :
    Begins (slot :: slots) nodes ↔
      nodes = [] ∨ ∃ here after, nodes = here ++ after ∧ slot.Admits here ∧ Begins slots after := by
  constructor
  · rintro ⟨filled, hprefix, hfills⟩
    cases hfills with
    | nil => exact .inl rfl
    | cons h hafter =>
      obtain ⟨rfl, hrest⟩ := List.cons_prefix_cons.mp hprefix
      exact .inr ⟨_, _, rfl, h, _, hrest, hafter⟩
  · rintro (rfl | ⟨here, after, rfl, h, filled, hprefix, hfills⟩)
    · exact begins_nil (slot :: slots)
    · exact ⟨slot :: filled, List.cons_prefix_cons.mpr ⟨rfl, hprefix⟩, .cons h hfills⟩

/-- A single slot has no children or is filled. -/
lemma begins_singleton_iff : Begins [slot] nodes ↔ nodes = [] ∨ slot.Admits nodes := by
  rw [begins_cons_iff]
  refine or_congr_right ⟨?_, fun h => ⟨nodes, [], (List.append_nil nodes).symm, h, begins_nil []⟩⟩
  rintro ⟨here, after, rfl, h, hafter⟩
  rw [begins_nil_iff.mp hafter, List.append_nil]
  exact h

/-- A slot for many children is not filled any further by such a slot after it. -/
lemma Begins.many (h : Begins [.many admits, .many admits] nodes) : Fills [.many admits] nodes := by
  refine fills_many ?_
  rcases begins_cons_iff.mp h with rfl | ⟨here, after, rfl, hhere, hafter⟩
  · exact fun node hnode => nomatch hnode
  · refine List.forall_mem_append.mpr ⟨hhere, ?_⟩
    rcases begins_singleton_iff.mp hafter with rfl | hafter
    · exact fun node hnode => nomatch hnode
    · exact hafter

end

/-! ### What a node looks like -/

/-- The nodes of expressions. -/
def Kind.isExpression : Kind → Bool
  | .assignment | .binaryExpression | .unaryExpression | .call | .memberAccess | .index => true
  | .arrayLiteral | .identifier | .literal => true
  | _ => false

/-- A node of a given kind. -/
def ofKind (kind : Kind) (tree : Tree) : Bool :=
  tree.kind = kind

/-- A node of some expression. -/
def ofExpression (tree : Tree) : Bool :=
  tree.kind.isExpression

/-- A node of some statement. -/
def ofStatement (tree : Tree) : Bool :=
  tree.kind.isStatement

/-- The name of a member, which is never `self`. -/
def ofMember (tree : Tree) : Bool :=
  tree.ofKind .identifier && tree.token.any (·.category = .identifier)

/-- The slots for the children of a node of each kind. -/
def Kind.shape : Kind → List Slot
  | .root | .block => [.many ofStatement]
  | .classDeclaration =>
    [.one (ofKind .declarationName), .optional (ofKind .baseClass), .many ofStatement]
  | .functionDeclaration =>
    [.one (ofKind .declarationName), .one (ofKind .parameterList), .one (ofKind .block)]
  | .parameterList => [.many (ofKind .parameter)]
  | .variableDeclaration => [.one (ofKind .declarationName), .optional ofExpression]
  | .ifStatement => [.one ofExpression, .one (ofKind .block), .optional (ofKind .block)]
  | .whileStatement => [.one ofExpression, .one (ofKind .block)]
  | .returnStatement => [.optional ofExpression]
  | .expressionStatement => [.one ofExpression]
  | .assignment | .binaryExpression | .index => [.one ofExpression, .one ofExpression]
  | .unaryExpression => [.one ofExpression]
  | .call => [.one ofExpression, .one (ofKind .argumentList)]
  | .memberAccess => [.one ofExpression, .one ofMember]
  | .arrayLiteral | .argumentList => [.many ofExpression]
  | .declarationName | .baseClass | .parameter | .identifier | .literal => []

/-- What may be the token of a node of each kind. -/
def Kind.carries : Kind → Option Token → Bool
  | .declarationName, token | .baseClass, token | .parameter, token =>
    token.any (·.category = .identifier)
  | .identifier, token => token.any fun t => t.category = .identifier || t.isKeyword "self"
  | .literal, token => token.any (·.category = .literal)
  | .arrayLiteral, token => token.any (·.is .delimiter "[")
  | .unaryExpression, token => token.any (·.isPrefixOperator)
  | .binaryExpression, token => token.any (·.precedence?.isSome)
  | .assignment, token => token.any (·.is .operator "=")
  | _, token => token.isNone

/-- A node with all that belongs to its kind. -/
structure IsFull (tree : Tree) : Prop where
  carries : tree.kind.carries tree.token = true
  fills : Fills tree.kind.shape tree.children

/-- A node that may lack some of its last children. -/
structure IsBegun (tree : Tree) : Prop where
  carries : tree.kind.carries tree.token = true
  begins : Begins tree.kind.shape tree.children

/-- A full node lacks nothing, so it is begun. -/
lemma IsFull.isBegun {tree : Tree} (h : tree.IsFull) : tree.IsBegun :=
  ⟨h.carries, h.fills.begins⟩

/-! ### Whole trees and trees that were cut short -/

/-- Every node of the tree is full. -/
inductive IsWhole : Tree → Prop where
  | mk {tree : Tree} (hfull : tree.IsFull) (hchildren : ∀ child ∈ tree.children, IsWhole child) :
      IsWhole tree

/-- Nodes that are part of expressions. -/
def Kind.isExpressionPart (kind : Kind) : Bool :=
  kind.isExpression || kind = .argumentList

/-- Every node of the tree is full, but for those on the path of last children from its root, which
are begun; and what is part of an expression is full even there. -/
inductive IsCut : Tree → Prop where
  | mk {tree : Tree} (hbegun : tree.IsBegun)
      (hpart : tree.kind.isExpressionPart = true → tree.IsFull)
      (hearlier : ∀ child ∈ tree.children.dropLast, IsWhole child)
      (hlast : ∀ child ∈ tree.children.getLast?, IsCut child) : IsCut tree

/-- Several trees of which only the last may be cut short. -/
structure AreCut (nodes : List Tree) : Prop where
  earlier : ∀ node ∈ nodes.dropLast, IsWhole node
  last : ∀ node ∈ nodes.getLast?, IsCut node

/-- The root of a whole tree is one of its nodes. -/
lemma IsWhole.isFull {tree : Tree} (h : tree.IsWhole) : tree.IsFull := by
  cases h with
  | mk hfull _ => exact hfull

/-- A whole tree is one that was cut short by nothing. -/
lemma IsWhole.isCut {tree : Tree} (h : tree.IsWhole) : tree.IsCut := by
  induction h with
  | mk hfull hchildren ih =>
    refine .mk hfull.isBegun (fun _ => hfull) (fun child hchild => ?_) fun child hchild => ?_
    · exact hchildren child (List.dropLast_subset _ hchild)
    · exact ih child (List.mem_of_getLast? hchild)

/-- Where nothing was made, nothing was cut short. -/
lemma areCut_nil : AreCut [] :=
  ⟨fun _ h => (nomatch h), fun _ h => (nomatch h)⟩

/-- A single tree is the last one, so it may be cut short. -/
lemma areCut_singleton {node : Tree} (h : node.IsCut) : AreCut [node] := by
  refine ⟨fun _ h => (nomatch h), fun last hlast => ?_⟩
  obtain rfl : node = last := Option.some.inj hlast
  exact h

/-- Of whole trees not even the last one is cut short. -/
lemma areCut_of_isWhole {nodes : List Tree} (h : ∀ node ∈ nodes, IsWhole node) : AreCut nodes :=
  ⟨fun node hnode => h node (List.dropLast_subset _ hnode),
    fun node hnode => (h node (List.mem_of_getLast? hnode)).isCut⟩

/-- Trees that were made before the last one are whole. -/
lemma AreCut.append {nodes more : List Tree} (hnodes : ∀ node ∈ nodes, IsWhole node)
    (hmore : AreCut more) : AreCut (nodes ++ more) := by
  cases more with
  | nil =>
    rw [List.append_nil]
    exact areCut_of_isWhole hnodes
  | cons node more =>
    refine ⟨?_, ?_⟩
    · rw [List.dropLast_append_cons]
      exact List.forall_mem_append.mpr ⟨hnodes, hmore.earlier⟩
    · rw [List.getLast?_append_cons]
      exact hmore.last

/-! ### Expressions -/

/-- What is read as an expression is one of the complete syntax. -/
lemma Derives.isExpression {room : ℕ} {used : List Token} {tree : Tree}
    (h : Derives room used tree) : IsExpression tree := by
  have hmap {elements : List (List Token × Tree)}
      (h : ∀ element ∈ elements, IsExpression element.2) :
      ∀ item ∈ elements.map Prod.snd, IsExpression item :=
    List.forall_mem_map.mpr h
  induction h with
  | literal ht => exact .literal ht
  | name ht => exact .name ht
  | parenthesized _ _ _ _ ih => exact ih
  | array hfirst _ _ _ _ ih => exact .array hfirst (hmap ih)
  | call _ _ _ _ _ _ ihsubject ih => exact .call ihsubject (hmap ih)
  | member _ hname _ ih => exact .member ih hname
  | index _ _ _ _ _ ihsubject ih => exact .index ihsubject ih
  | unary hoperator _ _ ih => exact .unary hoperator ih
  | binary hoperator _ _ ihleft ihright => exact .binary hoperator ihleft ihright
  | assignment hoperator _ _ _ ihtarget ihvalue => exact .assignment hoperator ihtarget ihvalue

/-- The node of an expression is of one of their kinds. -/
lemma IsExpression.kind_isExpression {tree : Tree} (h : IsExpression tree) :
    tree.kind.isExpression = true := by
  cases h <;> rfl

/-- A leaf is whole if it carries what belongs to its kind. -/
lemma isWhole_leaf {kind : Kind} {t : Token} (hshape : kind.shape = [])
    (hcarries : kind.carries (some t) = true) : (leaf kind t).IsWhole := by
  refine .mk ⟨hcarries, ?_⟩ fun child hchild => nomatch hchild
  change Fills kind.shape []
  rw [hshape]
  exact .nil

/-- A node of two whole children. -/
lemma isWhole_pair {kind : Kind} {token : Option Token} {left right : Tree}
    {admits admits' : Tree → Bool} (hcarries : kind.carries token = true)
    (hshape : kind.shape = [.one admits, .one admits']) (hleft : left.IsWhole)
    (hright : right.IsWhole) (hadmits : admits left = true) (hadmits' : admits' right = true) :
    IsWhole ⟨kind, token, [left, right]⟩ := by
  refine .mk ⟨hcarries, ?_⟩ ?_
  · change Fills kind.shape [left, right]
    rw [hshape]
    exact .one hadmits (.one hadmits' .nil)
  · exact List.forall_mem_cons.mpr ⟨hleft, List.forall_mem_singleton.mpr hright⟩

/-- Every node of an expression is full. -/
lemma IsExpression.isWhole {tree : Tree} (h : IsExpression tree) : tree.IsWhole := by
  induction h with
  | literal ht => exact isWhole_leaf rfl (by simpa [Kind.carries] using ht)
  | name ht => exact isWhole_leaf rfl (by simpa [Kind.carries] using ht)
  | array hopening hitems ih =>
    exact .mk ⟨hopening, fills_many fun item hitem => (hitems item hitem).kind_isExpression⟩ ih
  | @call subject arguments hsubject harguments ihsubject iharguments =>
    -- The list of arguments is a node between the call and its arguments.
    have hlist : IsWhole ⟨.argumentList, none, arguments⟩ :=
      .mk ⟨rfl, fills_many fun argument h => (harguments argument h).kind_isExpression⟩ iharguments
    exact isWhole_pair rfl rfl ihsubject hlist hsubject.kind_isExpression rfl
  | @member subject name hsubject hname ihsubject =>
    have hleaf : (leaf .identifier name).IsWhole :=
      isWhole_leaf rfl (by simp [Kind.carries, hname])
    exact isWhole_pair rfl rfl ihsubject hleaf hsubject.kind_isExpression
      (by simp [ofMember, ofKind, leaf, hname])
  | index hsubject hsubscript ihsubject ihsubscript =>
    exact isWhole_pair rfl rfl ihsubject ihsubscript hsubject.kind_isExpression
      hsubscript.kind_isExpression
  | unary hoperator hinner ih =>
    refine .mk ⟨hoperator, .one hinner.kind_isExpression .nil⟩ ?_
    exact List.forall_mem_singleton.mpr ih
  | @binary operator precedence left right hoperator hleft hright ihleft ihright =>
    have hcarries : Kind.binaryExpression.carries (some operator) = true := by
      simp [Kind.carries, hoperator]
    exact isWhole_pair hcarries rfl ihleft ihright hleft.kind_isExpression
      hright.kind_isExpression
  | assignment hoperator htarget hvalue ihtarget ihvalue =>
    exact isWhole_pair hoperator rfl ihtarget ihvalue htarget.kind_isExpression
      hvalue.kind_isExpression

/-! ### Growers -/

/-- What a grower gave for some slots: it filled all of them, or it was stopped and filled the first
ones.  Only the node that it was making when it was stopped is cut short. -/
inductive Growth.Shaped (slots : List Slot) : Growth → Prop where
  | made {nodes : List Tree} {rest : List Token} (hfills : Fills slots nodes)
      (hwhole : ∀ node ∈ nodes, IsWhole node) : Shaped slots ⟨nodes, none, rest⟩
  | stopped {nodes : List Tree} {fault : Fault} {rest : List Token} (hbegins : Begins slots nodes)
      (hcut : AreCut nodes) : Shaped slots ⟨nodes, some fault, rest⟩

/-- A grower that gives the children for some slots. -/
def Grower.Shaped (grower : Grower) (slots : List Slot) : Prop :=
  ∀ tokens, (grower tokens).Shaped slots

open Grower (nothing one silent inOrder node name close)

section

variable {growth : Growth} {grower : Grower} {slot slot' : Slot} {slots others : List Slot}
  {admits : Tree → Bool}

/-- Slots may be replaced by others that the same children fill. -/
lemma Growth.Shaped.mono (h : growth.Shaped slots)
    (hfills : ∀ nodes, Fills slots nodes → Fills others nodes)
    (hbegins : ∀ nodes, Begins slots nodes → Begins others nodes) : growth.Shaped others := by
  cases h with
  | made h hwhole => exact .made (hfills _ h) hwhole
  | stopped h hcut => exact .stopped (hbegins _ h) hcut

/-- A slot may be more generous. -/
lemma Growth.Shaped.of_slot (h : growth.Shaped [slot])
    (hslot : ∀ nodes, slot.Admits nodes → slot'.Admits nodes) : growth.Shaped [slot'] := by
  refine h.mono (fun nodes hfills => ?_) fun nodes hbegins => ?_
  · rw [fills_singleton_iff] at hfills ⊢
    exact hslot nodes hfills
  · rw [begins_singleton_iff] at hbegins ⊢
    exact hbegins.imp_right (hslot nodes)

/-- A slot may be left without children. -/
lemma Growth.Shaped.of_nil (h : growth.Shaped []) (hslot : slot.Admits []) :
    growth.Shaped [slot] := by
  refine h.mono (fun nodes hfills => ?_) fun nodes hbegins => ?_
  · rw [fills_nil_iff.mp hfills, fills_singleton_iff]
    exact hslot
  · rw [begins_nil_iff.mp hbegins]
    exact begins_nil [slot]

/-- No child stands among any number of them. -/
lemma Growth.Shaped.none_of_many (h : growth.Shaped []) : growth.Shaped [.many admits] :=
  h.of_nil fun _ hnode => nomatch hnode

/-- What is read next fills the slots that come next. -/
lemma Growth.Shaped.andThen (h : growth.Shaped slots) {next : Grower} (hnext : next.Shaped others) :
    (growth.andThen next).Shaped (slots ++ others) := by
  cases h with
  | stopped hbegins hcut =>
    rw [andThen_of_fault rfl]
    exact .stopped (hbegins.append_right others) hcut
  | @made nodes rest hfills hwhole =>
    rw [andThen_of_no_fault rfl]
    have hmore := hnext rest
    change Shaped _ ⟨nodes ++ (next rest).nodes, (next rest).fault, (next rest).rest⟩
    generalize next rest = more at hmore
    cases hmore with
    | made hmore hall =>
      exact .made (hfills.append hmore) (List.forall_mem_append.mpr ⟨hwhole, hall⟩)
    | stopped hmore hcut => exact .stopped (hfills.append_begins hmore) (.append hwhole hcut)

/-- What is read next goes into the same slot. -/
lemma Growth.Shaped.andThen_many (h : growth.Shaped [.many admits]) {next : Grower}
    (hnext : next.Shaped [.many admits]) : (growth.andThen next).Shaped [.many admits] :=
  (h.andThen hnext).mono (fun _ hfills => hfills.begins.many) fun _ hbegins => hbegins.many.begins

/-- A grower that makes nothing needs no slot. -/
lemma shaped_nothing : nothing.Shaped [] :=
  fun _ => .made .nil fun _ h => nomatch h

/-- A grower that is stopped before it made anything. -/
lemma Growth.shaped_of_fault (slots : List Slot) (fault : Fault) (rest : List Token) :
    (⟨[], some fault, rest⟩ : Growth).Shaped slots :=
  .stopped (begins_nil slots) areCut_nil

/-- A reader of whole trees fills a slot for one child, or is stopped before it. -/
lemma shaped_one {reader : Reader Tree}
    (h : reader.Ensures fun _ tree => tree.IsWhole ∧ admits tree = true) :
    (one reader).Shaped [.one admits] := by
  intro tokens
  unfold one
  cases heq : reader tokens with
  | ok tree rest =>
    obtain ⟨used, -, hwhole, hadmits⟩ := h heq
    exact .made (.one hadmits .nil) (List.forall_mem_singleton.mpr hwhole)
  | error fault rest => exact Growth.shaped_of_fault _ fault rest

/-- What is read without a node needs no slot, whether or not it is there. -/
lemma shaped_silent (reader : Reader Unit) : (silent reader).Shaped [] := by
  intro tokens
  unfold silent
  cases reader tokens with
  | ok _ rest => exact shaped_nothing rest
  | error fault rest => exact Growth.shaped_of_fault _ fault rest

/-- The closing keyword needs no slot. -/
lemma shaped_close : close.Shaped [] :=
  shaped_silent _

/-- No growers need no slots. -/
lemma shaped_inOrder_nil : (inOrder []).Shaped [] :=
  shaped_nothing

/-- The slots of growers that work in turn follow each other. -/
lemma Grower.Shaped.inOrder {growers : List Grower} (h : grower.Shaped slots)
    (hothers : (Grower.inOrder growers).Shaped others) :
    (Grower.inOrder (grower :: growers)).Shaped (slots ++ others) :=
  fun tokens => (h tokens).andThen hothers

/-- A node is whole if its children are all there, and cut short otherwise. -/
lemma shaped_node {kind : Kind} (hcarries : kind.carries none = true)
    (hpart : kind.isExpressionPart = false)
    (hadmits : ∀ children, admits ⟨kind, none, children⟩ = true)
    (h : grower.Shaped kind.shape) : (node kind grower).Shaped [.one admits] := by
  intro tokens
  have hgrower := h tokens
  unfold node
  generalize grower tokens = growth at hgrower
  cases hgrower with
  | made hfills hwhole =>
    refine .made (.one (hadmits _) .nil) (List.forall_mem_singleton.mpr ?_)
    exact .mk ⟨hcarries, hfills⟩ hwhole
  | stopped hbegins hcut =>
    refine .stopped (Fills.one (hadmits _) .nil).begins (areCut_singleton ?_)
    refine .mk ⟨hcarries, hbegins⟩ (fun h => ?_) hcut.earlier hcut.last
    rw [hpart] at h
    cases h

/-- A name is a leaf, which is whole as soon as it is made. -/
lemma shaped_name (kind : Kind) (h : kind.isStartedName = true) (expected : Expected) :
    (name kind expected).Shaped [.one (ofKind kind)] := by
  refine shaped_one ((Reader.ensures_identifier expected).bind ?_)
  rintro _ t ⟨-, ht⟩
  refine Reader.ensures_pure ⟨?_, by simp [ofKind, leaf]⟩
  simp only [Kind.isStartedName, Bool.or_eq_true, decide_eq_true_eq] at h
  obtain (rfl | rfl) | rfl := h <;> exact isWhole_leaf rfl (by simp [Kind.carries, ht])

end

/-! ### Statements -/

section

variable {statement : Grower} {expression : Reader Tree}

/-- A grower of statements: any number of them, in a place for any number. -/
abbrev Grower.GivesStatements (grower : Grower) : Prop :=
  grower.Shaped [.many ofStatement]

/-- A reader of expressions. -/
def ReadsExpressions (reader : Reader Tree) : Prop :=
  reader.Ensures fun _ tree => tree.IsWhole ∧ tree.ofExpression = true

/-- Statements go into one slot for any number of them. -/
lemma shaped_statements (hstatement : statement.GivesStatements) (closers : List String)
    (bound : List Token) : (statements statement closers bound).GivesStatements := by
  induction bound with
  | nil => exact fun tokens => Growth.shaped_of_fault _ _ tokens
  | cons _ bound ih =>
    intro tokens
    cases tokens with
    | nil => exact Growth.shaped_of_fault _ _ []
    | cons t tokens =>
      rw [statements]
      split_ifs
      · exact (shaped_nothing (t :: tokens)).none_of_many
      · exact (hstatement (t :: tokens)).andThen_many ih

/-- A block is one node, however far its statements were read. -/
lemma shaped_block (hstatement : statement.GivesStatements) (closers : List String) :
    (block statement closers).Shaped [.one (ofKind .block)] :=
  shaped_node rfl rfl (fun _ => rfl) fun tokens =>
    shaped_statements hstatement closers tokens tokens

/-- A child that may be missing. -/
lemma Grower.Shaped.optional {grower : Grower} {admits : Tree → Bool}
    (h : grower.Shaped [.one admits]) : grower.Shaped [.optional admits] :=
  fun tokens => (h tokens).of_slot fun _ hone => .inr hone

/-- A child among any number. -/
lemma Grower.Shaped.many {grower : Grower} {admits : Tree → Bool}
    (h : grower.Shaped [.one admits]) : grower.Shaped [.many admits] := by
  refine fun tokens => (h tokens).of_slot ?_
  rintro _ ⟨node, rfl, hnode⟩
  exact List.forall_mem_singleton.mpr hnode

/-- An optional slot may stay empty. -/
lemma shaped_nothing_optional (admits : Tree → Bool) : nothing.Shaped [.optional admits] :=
  fun tokens => (shaped_nothing tokens).of_nil (.inl rfl)

/-- A child that is read if a token announces it. -/
lemma shaped_announced {grower body : Grower} {admits : Tree → Bool} {announces : Token → Bool}
    (hnil : grower [] = nothing [])
    (hcons : ∀ t rest, grower (t :: rest) =
      if announces t then body rest else nothing (t :: rest))
    (h : body.Shaped [.one admits]) : grower.Shaped [.optional admits] := by
  intro tokens
  cases tokens with
  | nil =>
    rw [hnil]
    exact shaped_nothing_optional admits []
  | cons t rest =>
    rw [hcons]
    split_ifs
    · exact h.optional rest
    · exact shaped_nothing_optional admits (t :: rest)

/-- The base class is announced by `extends`. -/
lemma shaped_baseClass : baseClass.Shaped [.optional (ofKind .baseClass)] :=
  shaped_announced rfl (fun _ _ => rfl) (shaped_name _ rfl _)

/-- The node of a statement. -/
lemma givesStatements_node {kind : Kind} {body : Grower} (hkind : kind.isStatement = true)
    (h : body.Shaped kind.shape) : (node kind body).GivesStatements := by
  have hcarries : kind.carries none = true := by cases kind <;> first | rfl | cases hkind
  have hpart : kind.isExpressionPart = false := by cases kind <;> first | rfl | cases hkind
  exact (shaped_node hcarries hpart (fun _ => hkind) h).many

/-- A class has its name, perhaps a base class, and its members. -/
lemma shaped_classDeclaration (hstatement : statement.GivesStatements) :
    (classDeclaration statement).GivesStatements := by
  have hmembers : Grower.GivesStatements fun tokens => statements statement ["end"] tokens tokens :=
    fun tokens => shaped_statements hstatement ["end"] tokens tokens
  have hbody := (shaped_name .declarationName rfl .className).inOrder
    (shaped_baseClass.inOrder (hmembers.inOrder (shaped_close.inOrder shaped_inOrder_nil)))
  exact givesStatements_node rfl hbody

/-- Parameters go into one slot, and the tokens between them need none. -/
lemma shaped_parameters (bound : List Token) :
    (parameters bound).Shaped [.many (ofKind .parameter)] := by
  induction bound with
  | nil => exact fun tokens => Growth.shaped_of_fault _ _ tokens
  | cons _ bound ih =>
    have hclose : (silent (Reader.expect .delimiter ")")).Shaped [.many (ofKind .parameter)] :=
      fun tokens => (shaped_silent _ tokens).none_of_many
    intro tokens
    rw [parameters]
    refine ((shaped_name _ rfl _).many tokens).andThen_many fun tokens => ?_
    cases tokens with
    | nil => exact hclose []
    | cons t rest =>
      dsimp only
      split_ifs
      · exact ih rest
      · exact hclose (t :: rest)

/-- A parameter list is one node, with or without parameters. -/
lemma shaped_parameterList : parameterList.Shaped [.one (ofKind .parameterList)] := by
  refine shaped_node rfl rfl (fun _ => rfl) fun tokens => ?_
  cases tokens with
  | nil => exact shaped_parameters [] []
  | cons t rest =>
    dsimp only
    split_ifs
    · exact (shaped_nothing rest).none_of_many
    · exact shaped_parameters (t :: rest) (t :: rest)

/-- A function has its name, its parameters and its body. -/
lemma shaped_functionDeclaration (hstatement : statement.GivesStatements) :
    (functionDeclaration statement).GivesStatements := by
  have hbody := (shaped_name .declarationName rfl .functionName).inOrder
    ((shaped_silent (Reader.expect .delimiter "(")).inOrder (shaped_parameterList.inOrder
      ((shaped_block hstatement ["end"]).inOrder
        (shaped_close.inOrder shaped_inOrder_nil))))
  exact givesStatements_node rfl hbody

/-- The value of a variable is announced by `=`. -/
lemma shaped_initialValue (hexpression : ReadsExpressions expression) :
    (initialValue expression).Shaped [.optional ofExpression] :=
  shaped_announced rfl (fun _ _ => rfl) (shaped_one hexpression)

/-- A variable has its name and perhaps a value. -/
lemma shaped_variableDeclaration (hexpression : ReadsExpressions expression) :
    (variableDeclaration expression).GivesStatements := by
  have hbody := (shaped_name .declarationName rfl .variableName).inOrder
    ((shaped_initialValue hexpression).inOrder shaped_inOrder_nil)
  exact givesStatements_node rfl hbody

/-- The alternative of a conditional is announced by `else`. -/
lemma shaped_alternative (hstatement : statement.GivesStatements) :
    (alternative statement).Shaped [.optional (ofKind .block)] :=
  shaped_announced rfl (fun _ _ => rfl) (shaped_block hstatement _)

/-- A conditional has a condition, a block and perhaps another one. -/
lemma shaped_ifStatement (hstatement : statement.GivesStatements)
    (hexpression : ReadsExpressions expression) :
    (ifStatement statement expression).GivesStatements := by
  have hbody := (shaped_one hexpression).inOrder ((shaped_block hstatement ["else", "end"]).inOrder
    ((shaped_alternative hstatement).inOrder (shaped_close.inOrder shaped_inOrder_nil)))
  exact givesStatements_node rfl hbody

/-- A loop has a condition and a block. -/
lemma shaped_whileStatement (hstatement : statement.GivesStatements)
    (hexpression : ReadsExpressions expression) :
    (whileStatement statement expression).GivesStatements := by
  have hbody := (shaped_one hexpression).inOrder ((shaped_block hstatement ["end"]).inOrder
    (shaped_close.inOrder shaped_inOrder_nil))
  exact givesStatements_node rfl hbody

/-- A return has a value if the next token can begin one. -/
lemma shaped_returnStatement (hexpression : ReadsExpressions expression) :
    (returnStatement expression).GivesStatements := by
  refine givesStatements_node rfl fun tokens => ?_
  cases tokens with
  | nil => exact shaped_nothing_optional _ []
  | cons t rest =>
    dsimp only
    split_ifs
    · exact (shaped_one hexpression).optional (t :: rest)
    · exact shaped_nothing_optional _ (t :: rest)

/-- The node of an expression statement is made once its expression is there, so it is whole. -/
lemma shaped_expressionStatement (hexpression : ReadsExpressions expression) :
    (expressionStatement expression).GivesStatements := by
  refine (shaped_one (hexpression.bind fun _ value hvalue => Reader.ensures_pure ?_)).many
  refine ⟨.mk ⟨rfl, .one hvalue.2 .nil⟩ ?_, rfl⟩
  exact List.forall_mem_singleton.mpr hvalue.1

/-- Whatever its first token says, a statement gives nodes of statements, and a lone semicolon gives
none. -/
lemma shaped_statementOf (hstatement : statement.GivesStatements)
    (hexpression : ReadsExpressions expression) :
    (statementOf statement expression).GivesStatements := by
  intro tokens
  cases tokens with
  | nil => exact Growth.shaped_of_fault _ _ []
  | cons t rest =>
    rw [statementOf]
    cases Opening.ofToken t with
    | empty => exact (shaped_nothing rest).none_of_many
    | classDeclaration => exact shaped_classDeclaration hstatement rest
    | functionDeclaration => exact shaped_functionDeclaration hstatement rest
    | variableDeclaration => exact shaped_variableDeclaration hexpression rest
    | ifStatement => exact shaped_ifStatement hstatement hexpression rest
    | whileStatement => exact shaped_whileStatement hstatement hexpression rest
    | returnStatement => exact shaped_returnStatement hexpression rest
    | expression => exact shaped_expressionStatement hexpression (t :: rest)

end

/-- What is read as an expression is derived by the grammar, so it is whole. -/
lemma readsExpressions_expression (room : ℕ) : ReadsExpressions (expression room) :=
  (derives_expression_operand room).1.mono fun _ _ h =>
    ⟨h.2.isExpression.isWhole, h.2.isExpression.kind_isExpression⟩

/-- A statement makes nodes of statements. -/
lemma shaped_statement (room : ℕ) : (statement room).GivesStatements := by
  induction room with
  | zero => exact fun tokens => (shaped_silent _ tokens).none_of_many
  | succ room ih =>
    rw [statement_succ]
    exact shaped_statementOf ih (readsExpressions_expression room)

/-- A program fills one slot with all its statements. -/
lemma shaped_program (bound : List Token) : (program bound).GivesStatements := by
  have hnothing : nothing.GivesStatements :=
    fun tokens => (shaped_nothing tokens).none_of_many
  induction bound with
  | nil =>
    intro tokens
    cases tokens <;> exact hnothing _
  | cons _ bound ih =>
    intro tokens
    cases tokens with
    | nil => exact hnothing []
    | cons t rest => exact (shaped_statement nestingLimit (t :: rest)).andThen_many ih

/-! ### Every node of a tree -/

/-- The node that is reached from the root by a path, each step of which is the place of a child
among its siblings. -/
def subtreeAt? (tree : Tree) : (path : List ℕ) → Option Tree
  | [] => some tree
  | i :: path => tree.children[i]?.bind (·.subtreeAt? path)

/-- Each step of the path leads to the last child. -/
def isLastPath (tree : Tree) : (path : List ℕ) → Bool
  | [] => true
  | i :: path => i + 1 = tree.children.length && tree.children[i]?.any (·.isLastPath path)

/-- A path leads through a child of the root. -/
lemma subtreeAt?_cons_eq_some_iff {tree node : Tree} {i : ℕ} {path : List ℕ} :
    tree.subtreeAt? (i :: path) = some node ↔
      ∃ child, tree.children[i]? = some child ∧ child.subtreeAt? path = some node :=
  Option.bind_eq_some_iff

/-- A child comes before the last one or is the last one. -/
lemma mem_dropLast_or_getLast? {nodes : List Tree} {i : ℕ} {node : Tree}
    (h : nodes[i]? = some node) :
    node ∈ nodes.dropLast ∨ i + 1 = nodes.length ∧ nodes.getLast? = some node := by
  rcases nodes.eq_nil_or_concat with rfl | ⟨earlier, last, rfl⟩
  · cases h
  · rw [List.concat_eq_append] at h ⊢
    rcases Nat.lt_or_ge i earlier.length with hlt | hge
    · rw [List.getElem?_append_left hlt] at h
      rw [List.dropLast_concat]
      exact .inl (List.mem_of_getElem? h)
    · rw [List.getElem?_append_right hge] at h
      cases hindex : i - earlier.length with
      | zero =>
        rw [hindex] at h
        obtain rfl : last = node := Option.some.inj h
        have hlength : i = earlier.length := Nat.le_antisymm (Nat.le_of_sub_eq_zero hindex) hge
        exact .inr ⟨by simp [hlength], List.getLast?_concat⟩
      | succ k =>
        rw [hindex] at h
        cases h

/-- Wherever a path leads in a whole tree, the node is full. -/
lemma IsWhole.isFull_of_subtreeAt? {tree node : Tree} {path : List ℕ} (h : tree.IsWhole)
    (hnode : tree.subtreeAt? path = some node) : node.IsFull := by
  induction path generalizing tree with
  | nil =>
    obtain rfl : tree = node := Option.some.inj hnode
    exact h.isFull
  | cons i path ih =>
    obtain ⟨child, hchild, hnode⟩ := subtreeAt?_cons_eq_some_iff.mp hnode
    cases h with
    | mk _ hchildren => exact ih (hchildren child (List.mem_of_getElem? hchild)) hnode

/-- Wherever a path leads in a tree that was cut short, the node is begun; it is full as soon as one
step leads to an earlier child, or if it belongs to an expression. -/
lemma IsCut.of_subtreeAt? {tree node : Tree} {path : List ℕ} (h : tree.IsCut)
    (hnode : tree.subtreeAt? path = some node) :
    node.IsBegun ∧
      (tree.isLastPath path = false ∨ node.kind.isExpressionPart = true → node.IsFull) := by
  induction path generalizing tree with
  | nil =>
    obtain rfl : tree = node := Option.some.inj hnode
    cases h with
    | mk hbegun hpart _ _ =>
      exact ⟨hbegun, fun hor => hpart (hor.resolve_left fun hfalse => nomatch hfalse)⟩
  | cons i path ih =>
    obtain ⟨child, hchild, hnode⟩ := subtreeAt?_cons_eq_some_iff.mp hnode
    cases h with
    | mk _ _ hearlier hlast =>
      rcases mem_dropLast_or_getLast? hchild with hmem | ⟨hlength, hget⟩
      · have hfull := (hearlier child hmem).isFull_of_subtreeAt? hnode
        exact ⟨hfull.isBegun, fun _ => hfull⟩
      · have hsame : tree.isLastPath (i :: path) = child.isLastPath path := by
          rw [isLastPath, hchild, decide_eq_true hlength, Bool.true_and, Option.any_some]
        rw [hsame]
        exact ih (hlast child hget) hnode

/-! ### The tree of a stream -/

/-- The tree of a stream is cut short at most, and whole when the stream is complete. -/
lemma shaped_parse (tokens : List Token) :
    (parse tokens).value.IsCut ∧
      ((parse tokens).isComplete = true → (parse tokens).value.IsWhole) := by
  have hprogram := shaped_program tokens tokens
  unfold parse
  generalize program tokens tokens = growth at hprogram
  cases hprogram with
  | made hfills hwhole =>
    have hroot : IsWhole ⟨.root, none, _⟩ := .mk ⟨rfl, hfills⟩ hwhole
    exact ⟨hroot.isCut, fun _ => hroot⟩
  | stopped hbegins hcut =>
    refine ⟨.mk ⟨rfl, hbegins⟩ (fun h => nomatch h) hcut.earlier hcut.last, fun hcomplete => ?_⟩
    cases hcomplete

/-- Every node in the tree of a stream carries the token that belongs to its kind, and its children
fill its slots from the first one on.  It is full if it is not on the path of last children from the
root, if it is part of an expression, or if the stream is complete. -/
theorem parse_shaped (tokens : List Token) (path : List ℕ) (node : Tree)
    (hnode : (parse tokens).value.subtreeAt? path = some node) :
    node.IsBegun ∧
      ((parse tokens).value.isLastPath path = false ∨ node.kind.isExpressionPart = true ∨
        (parse tokens).isComplete = true → node.IsFull) := by
  obtain ⟨hcut, hwhole⟩ := shaped_parse tokens
  obtain ⟨hbegun, hfull⟩ := hcut.of_subtreeAt? hnode
  refine ⟨hbegun, ?_⟩
  rintro (hpath | hpart | hcomplete)
  · exact hfull (.inl hpath)
  · exact hfull (.inr hpart)
  · exact (hwhole hcomplete).isFull_of_subtreeAt? hnode

/-- A variable in the body of a function whose last statement is a conditional without a
condition. -/
theorem parse_shaped_unfinished :
    let tokens := (Token.tokenize ⟨"m"⟩ (Utf8.encode "class A function f(x) let y = x if")).value
    (parse tokens).isComplete = false ∧
      (∃ node, (parse tokens).value.subtreeAt? [0, 1, 2, 0] = some node ∧
        node.kind = .variableDeclaration ∧ node.IsFull) ∧
      ∃ node, (parse tokens).value.subtreeAt? [0, 1, 2, 1] = some node ∧
        node.kind = .ifStatement ∧ node.IsBegun := by
  intro tokens
  have hvariable : ((parse tokens).value.subtreeAt? [0, 1, 2, 0]).map Tree.kind =
      some .variableDeclaration := by
    decide +kernel
  have hpath : (parse tokens).value.isLastPath [0, 1, 2, 0] = false := by decide +kernel
  have hconditional : ((parse tokens).value.subtreeAt? [0, 1, 2, 1]).map Tree.kind =
      some .ifStatement := by
    decide +kernel
  obtain ⟨variableNode, hvariableNode, hvariableKind⟩ := Option.map_eq_some_iff.mp hvariable
  obtain ⟨ifNode, hifNode, hifKind⟩ := Option.map_eq_some_iff.mp hconditional
  refine ⟨by decide +kernel, ⟨variableNode, hvariableNode, hvariableKind, ?_⟩, ?_⟩
  · exact (parse_shaped tokens _ _ hvariableNode).2 (.inl hpath)
  · exact ⟨ifNode, hifNode, hifKind, (parse_shaped tokens _ _ hifNode).1⟩

end UvaAnalysis.Tree
