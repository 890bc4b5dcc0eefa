import UvaAnalysis.Proofs.Tree.Cursor.Expression
import UvaAnalysis.Proofs.Tree.Local.Statement

/-!
# Statements read with a cursor

The procedures that read statements add nodes to the node under construction, and what they have
added stays when they fail.  A computation *builds* what a grower gives if, from every cursor with
as many levels left as the grower has, it comes to an end with the fault of the grower or without
one, adds the nodes of the grower and leaves what the grower leaves (`Parser.Builds`).  The
procedures of statements and of whole programs do (`builds_statement`, `builds_program`).
-/

namespace UvaAnalysis

namespace Tree

/-- A growth as the result of a reader, which makes nothing of the tokens that it takes. -/
def Growth.result (growth : Growth) : EStateM.Result Fault (List Token) Unit :=
  match growth.fault with
  | some fault => .error fault growth.rest
  | none => .ok () growth.rest

namespace Parser

/-! ### Building what a grower gives -/

open Grower (nothing one silent inOrder node)

section

variable {tokens rest : List Token} {room most : ℕ} {s : Cursor} {t : Token}
  {m next : Parser Unit} {grower grower' following : Grower}

/-- The computation comes to an end as the growth does, adds its nodes and leaves what it leaves. -/
def EndsWith (tokens : List Token) (m : Parser Unit) (s : Cursor) (growth : Growth) : Prop :=
  Ends tokens m s growth.nodes growth.result

/-- From every cursor with `room` levels and no more than `most` tokens left, the computation builds
what the grower gives. -/
def Builds (tokens : List Token) (room most : ℕ) (m : Parser Unit) (grower : Grower) : Prop :=
  ∀ s, Ready tokens room most s → EndsWith tokens m s (grower (s.left tokens))

/-- A computation that builds from some cursors builds from fewer. -/
lemma Builds.mono {fewer : ℕ} (h : Builds tokens room most m grower) (hle : fewer ≤ most) :
    Builds tokens room fewer m grower :=
  fun s hs => h s (hs.mono hle)

/-- A call builds what the text of the procedure builds. -/
lemma Builds.call {procedure : Procedures → Motion Unit} (h : Builds tokens room most m grower)
    (hbody : ∀ calls, procedure (calls.next tokens) = m calls) :
    Builds tokens room most (Parser.call procedure) grower :=
  fun s hs => Ends.call (h s hs) hbody

/-- A computation that builds what a loop gives with every bound builds what it gives with the
tokens at hand. -/
lemma builds_bounded {loop : List Token → Grower}
    (h : ∀ bound, Builds tokens room bound.length m (loop bound)) :
    Builds tokens room most m fun tokens => loop tokens tokens :=
  fun s hs => h (s.left tokens) s hs.self

/-- The second computation builds what the second grower gives from wherever the first one has no
fault. -/
lemma Builds.bind_of_no_fault (h : Builds tokens room most m grower)
    (hnext : ∀ left, left.length ≤ most → (grower left).fault = none →
      (grower left).rest.length ≤ left.length →
      Builds tokens room (grower left).rest.length next following) :
    Builds tokens room most (m >>= fun _ => next) fun tokens =>
      (grower tokens).andThen following := by
  intro s hs
  have hends := h s hs
  unfold EndsWith Growth.result at hends
  dsimp only
  cases hfault : (grower (s.left tokens)).fault with
  | some fault =>
    rw [hfault] at hends
    rw [Growth.andThen_of_fault hfault, EndsWith, Growth.result, hfault]
    exact hends.bind_error
  | none =>
    rw [hfault] at hends
    rw [Growth.andThen_of_no_fault hfault]
    refine Ends.bind hends fun s' honward hleft => ?_
    have hle : (grower (s.left tokens)).rest.length ≤ (s.left tokens).length :=
      hleft ▸ honward.length_left_le
    have hready := hs.onward honward
    rw [hleft] at hready
    have hends' := hnext _ hs.length_left_le hfault hle s' hready
    rwa [hleft] at hends'

/-- Two computations in turn build what two growers in turn give. -/
lemma Builds.bind (h : Builds tokens room most m grower)
    (hnext : Builds tokens room most next following) :
    Builds tokens room most (m >>= fun _ => next) fun tokens =>
      (grower tokens).andThen following :=
  h.bind_of_no_fault fun _ hmost _ hle => hnext.mono (Nat.le_trans hle hmost)

/-- A computation that does nothing builds what no grower gives. -/
lemma builds_nothing : Builds tokens room most (pure ()) nothing :=
  fun _ hs => ends_pure hs.position_le rfl ()

/-- A single grower is what it is among no others. -/
lemma Builds.inOrder_singleton (h : Builds tokens room most m grower) :
    Builds tokens room most m (inOrder [grower]) := by
  intro s hs
  have hsame : inOrder [grower] (s.left tokens) = grower (s.left tokens) := by
    change (grower (s.left tokens)).andThen nothing = _
    cases hfault : (grower (s.left tokens)).fault with
    | some fault => exact Growth.andThen_of_fault hfault nothing
    | none => rw [Growth.andThen_of_no_fault hfault, nothing, List.append_nil, ← hfault]
  rw [hsame]
  exact h s hs

/-- A node that a reader makes is added. -/
lemma Follows.one {m : Parser Tree} {reader : Reader Tree}
    (h : Follows tokens room most m reader) :
    Builds tokens room most (add m) (one reader) := by
  intro s hs
  have hends := h s hs
  unfold EndsWith Grower.one
  cases heq : reader (s.left tokens) with
  | error fault rest =>
    rw [heq] at hends
    exact hends.bind_error
  | ok tree rest =>
    rw [heq] at hends
    refine hends.bind fun s' honward hleft => ?_
    exact ⟨_, endsAt_of_apply fun _ => rfl, ⟨Nat.le_refl _, honward.position_le_length, rfl, rfl,
      [], (List.append_nil _).symm, fun _ h => nomatch h⟩, hleft⟩

/-- What is read without a node builds no node. -/
lemma Follows.silent {m : Parser Unit} {reader : Reader Unit}
    (h : Follows tokens room most m reader) : Builds tokens room most m (silent reader) := by
  intro s hs
  have hends := h s hs
  unfold EndsWith Grower.silent
  cases heq : reader (s.left tokens) <;> rw [heq] at hends <;> exact hends

/-- The node is kept whatever comes of its children. -/
lemma Builds.build (h : Builds tokens room most m grower) (kind : Kind) :
    Builds tokens room most (Parser.build kind m) (node kind grower) := by
  intro s hs
  obtain ⟨s', hends, honward, hleft⟩ :=
    h s.opened ⟨hs.position_le, hs.depth_add, hs.length_left_le⟩
  have hnodes : s'.nodes = (grower (s.left tokens)).nodes := honward.nodes_eq
  have hbefore : EndsAt tokens (get : Parser Cursor) s (.ok s) s := endsAt_of_apply fun _ => rfl
  have hopened : EndsAt tokens (modify Cursor.opened : Parser Unit) s (.ok ()) s.opened :=
    endsAt_of_apply fun _ => rfl
  refine ⟨s'.closed kind s.nodes, hbefore.bind (hopened.bind (hends.ending _)),
    ⟨honward.position_le, honward.position_le_length, honward.depth_eq, ?_, honward.asked⟩, hleft⟩
  rw [Cursor.closed, hnodes]
  rfl

/-- A nested computation has one level less than the computation around it. -/
lemma Builds.nested {what : Expected} (h : Builds tokens room most m grower) :
    Builds tokens (room + 1) most (Parser.nested tokens what m) grower :=
  fun _ hs => Ends.nested hs.enter.1 (h _ hs.enter.2)

/-- After the first token a computation goes on as another grower does. -/
lemma Builds.after_advance (h : Builds tokens room rest.length m grower)
    (hs : Ready tokens room most s) (hleft : s.left tokens = t :: rest) :
    EndsWith tokens (advance >>= fun _ => m) s (grower rest) := by
  refine (ends_advance hleft).bind fun s' honward hrest => ?_
  obtain rfl := hrest
  exact h s' (hs.onward honward)

/-- A computation that accepts a token or does something else builds what a grower gives that takes
the token or does something else. -/
lemma builds_ite {category : Token.Category} {text : String} {other : Parser Unit}
    (hnext : ∀ fewer < most, Builds tokens room fewer next following)
    (hother : Builds tokens room most other grower') (hnil : grower [] = grower' [])
    (hcons : ∀ t rest, grower (t :: rest) =
      if t.is category text then following rest else grower' (t :: rest)) :
    Builds tokens room most (do if ← accept tokens category text then next else other) grower := by
  intro s hs
  cases hleft : s.left tokens with
  | nil =>
    have hends := hother s hs
    rw [hleft] at hends
    rw [hnil]
    exact .of_accept_nil hleft hends
  | cons t rest =>
    have haccept := follows_accept category text s hs
    have hlength := hs.length_left_le
    rw [hleft] at hlength
    rw [hleft, Reader.accept] at haccept
    rw [hcons]
    split_ifs at haccept ⊢ with h
    · refine Ends.bind haccept fun s' honward hrest => ?_
      obtain rfl := hrest
      exact hnext _ hlength s' (hs.onward honward)
    · refine Ends.bind haccept fun s' honward hrest => ?_
      have hends := hother.mono hlength s' (hrest ▸ hs.onward honward)
      rwa [hrest] at hends

/-- A computation that needs a next token builds what a grower gives that decides on it. -/
lemma builds_demand {expected : Expected} {next : Token → Parser Unit}
    (hnil : grower [] = ⟨[], some (.endOfInput expected), []⟩)
    (hcons : ∀ s t rest, Ready tokens room most s → s.left tokens = t :: rest →
      EndsWith tokens (next t) s (grower (t :: rest))) :
    Builds tokens room most (demand tokens expected >>= next) grower := by
  intro s hs
  cases hleft : s.left tokens with
  | nil =>
    rw [hnil]
    exact (ends_demand_nil hs.position_le hleft expected).bind_error
  | cons t rest => exact .of_demand hleft (hcons s t rest hs hleft)

/-- A name is added as soon as its token is taken. -/
lemma builds_name (kind : Kind) (expected : Expected) :
    Builds tokens room most (name tokens kind expected) (Grower.name kind expected) :=
  ((follows_identifier expected).bind fun t => follows_pure (leaf kind t)).one

/-- The closing keyword adds nothing. -/
lemma builds_close : Builds tokens room most (expect tokens .keyword "end") Grower.close :=
  (follows_expect _ _).silent

/-! ### Statements without statements in them -/

/-- The base class is added if its keyword is accepted. -/
lemma builds_baseClass : Builds tokens room most (baseClass tokens) Tree.baseClass :=
  builds_ite (fun _ _ => builds_name _ _) builds_nothing rfl fun _ _ => rfl

/-- The rounds of a parameter list, by the tokens that are left: each round takes a name. -/
lemma builds_parameters (bound : List Token) :
    Builds tokens room bound.length (parameters tokens) (Tree.parameters bound) := by
  induction bound with
  | nil =>
    intro s hs
    have hends := builds_name .parameter .parameterName s hs
    rw [parameters]
    rw [hs.left_eq_nil] at hends ⊢
    exact Ends.bind_error hends
  | cons _ bound ih =>
    rw [parameters]
    refine (builds_name _ _).bind ?_
    exact builds_ite (fun fewer hfewer => (ih.mono (Nat.le_of_lt_succ hfewer)).call fun _ => rfl)
      (follows_expect _ _).silent rfl fun _ _ => rfl

/-- A parameter list is a node of its own, with or without parameters. -/
lemma builds_parameterList :
    Builds tokens room most (parameterList tokens) Tree.parameterList := by
  have hparameters : Builds tokens room most (parameters tokens)
      fun tokens => Tree.parameters tokens tokens := builds_bounded builds_parameters
  refine Builds.build ?_ .parameterList
  exact builds_ite (fun _ _ => builds_nothing) hparameters rfl fun _ _ => rfl

section

variable {value : Reader Tree}
  (hvalue : ∀ most, Follows tokens room most (expression tokens) value)

include hvalue

/-- A variable, behind the keyword that announces it. -/
lemma builds_variableDeclaration (hs : Ready tokens room most s)
    (hleft : s.left tokens = t :: rest) :
    EndsWith tokens (variableDeclaration tokens) s (Tree.variableDeclaration value rest) := by
  have hinitial : Builds tokens room rest.length (initialValue tokens) (Tree.initialValue value) :=
    builds_ite (fun _ _ => (hvalue _).one) builds_nothing rfl fun _ _ => rfl
  exact (((builds_name _ _).bind hinitial.inOrder_singleton).build _).after_advance hs hleft

/-- A return, behind its keyword: it has a value if the next token can begin one. -/
lemma builds_returnStatement (hs : Ready tokens room most s) (hleft : s.left tokens = t :: rest) :
    EndsWith tokens (returnStatement tokens) s (Tree.returnStatement value rest) := by
  refine Builds.after_advance (Builds.build (fun s hs => .of_peek ?_) _) hs hleft
  cases hleft : s.left tokens with
  | nil => exact ends_pure hs.position_le hleft ()
  | cons t rest =>
    simp only [List.head?_cons]
    split_ifs with hstarts
    · have hends := (hvalue _).one s hs
      rwa [hleft] at hends
    · exact ends_pure hs.position_le hleft ()

/-- An expression statement is added once its expression is there. -/
lemma builds_expressionStatement :
    Builds tokens room most (expressionStatement tokens) (Tree.expressionStatement value) :=
  ((hvalue most).bind fun _ => follows_pure _).one

end

/-! ### Statements -/

section

variable {inner : Grower} (hinner : ∀ most, Builds tokens room most (call (·.statement)) inner)
  (htakes : inner.Takes)

include hinner htakes

/-- Statements up to a closing keyword, by the tokens that are left: each round takes a statement.
-/
lemma builds_statements (closers : List String) (bound : List Token) :
    Builds tokens room bound.length (statements tokens closers)
      (Tree.statements inner closers bound) := by
  induction bound with
  | nil =>
    rw [statements]
    exact builds_demand rfl fun s t rest hs hleft => nomatch hleft.symm.trans hs.left_eq_nil
  | cons _ bound ih =>
    rw [statements]
    refine builds_demand rfl fun s t rest hs hleft => ?_
    rw [Tree.statements]
    split_ifs with hcloser
    · exact ends_pure hs.position_le hleft ()
    · have hround : Builds tokens room (bound.length + 1)
          (do call (·.statement); call (·.statements closers))
          fun tokens => (inner tokens).andThen (Tree.statements inner closers bound) := by
        refine (hinner _).bind_of_no_fault fun left hmost hfault _ => ?_
        have hshorter := htakes hfault
        exact (ih.mono (by omega)).call fun _ => rfl
      have hends := hround s hs
      rwa [hleft] at hends

/-- The same with the tokens at hand as the bound of the grower. -/
lemma builds_statements_self (closers : List String) :
    Builds tokens room most (statements tokens closers)
      fun tokens => Tree.statements inner closers tokens tokens :=
  builds_bounded (builds_statements hinner htakes closers)

/-- A block is a node of its own around its statements. -/
lemma builds_block (closers : List String) :
    Builds tokens room most (build .block (statements tokens closers)) (block inner closers) :=
  (builds_statements_self hinner htakes closers).build .block

/-- A class, behind its keyword. -/
lemma builds_classDeclaration (hs : Ready tokens room most s)
    (hleft : s.left tokens = t :: rest) :
    EndsWith tokens (classDeclaration tokens) s (Tree.classDeclaration inner rest) := by
  rw [classDeclaration]
  exact (((builds_name _ _).bind (builds_baseClass.bind ((builds_statements_self hinner htakes
    _).bind builds_close.inOrder_singleton))).build _).after_advance hs hleft

/-- A function, behind its keyword. -/
lemma builds_functionDeclaration (hs : Ready tokens room most s)
    (hleft : s.left tokens = t :: rest) :
    EndsWith tokens (functionDeclaration tokens) s (Tree.functionDeclaration inner rest) := by
  rw [functionDeclaration]
  exact (((builds_name _ _).bind ((follows_expect _ _).silent.bind (builds_parameterList.bind
    ((builds_block hinner htakes _).bind builds_close.inOrder_singleton)))).build _).after_advance
    hs hleft

/-- The alternative of a conditional is added if its keyword is accepted. -/
lemma builds_alternative :
    Builds tokens room most (alternative tokens) (Tree.alternative inner) := by
  rw [alternative]
  exact builds_ite (fun _ _ => builds_block hinner htakes _) builds_nothing rfl fun _ _ => rfl

variable {value : Reader Tree}
  (hvalue : ∀ most, Follows tokens room most (expression tokens) value)

include hvalue

/-- A conditional, behind its keyword. -/
lemma builds_ifStatement (hs : Ready tokens room most s) (hleft : s.left tokens = t :: rest) :
    EndsWith tokens (ifStatement tokens) s (Tree.ifStatement inner value rest) := by
  rw [ifStatement]
  exact (((hvalue _).one.bind ((builds_block hinner htakes _).bind
    ((builds_alternative hinner htakes).bind builds_close.inOrder_singleton))).build
    _).after_advance hs hleft

/-- A loop, behind its keyword. -/
lemma builds_whileStatement (hs : Ready tokens room most s) (hleft : s.left tokens = t :: rest) :
    EndsWith tokens (whileStatement tokens) s (Tree.whileStatement inner value rest) := by
  rw [whileStatement]
  exact (((hvalue _).one.bind ((builds_block hinner htakes _).bind
    builds_close.inOrder_singleton)).build _).after_advance hs hleft

/-- A statement one level further out than the statements and the expressions in it. -/
lemma builds_statement_succ :
    Builds tokens (room + 1) most (statement tokens) (statementOf inner value) := by
  rw [statement]
  refine Builds.nested (builds_demand rfl fun s t rest hs hleft => ?_)
  rw [statementOf]
  cases hopening : Opening.ofToken t with
  | empty => exact ends_advance hleft
  | classDeclaration => exact builds_classDeclaration hinner htakes hs hleft
  | functionDeclaration => exact builds_functionDeclaration hinner htakes hs hleft
  | variableDeclaration => exact builds_variableDeclaration hvalue hs hleft
  | ifStatement => exact builds_ifStatement hinner htakes hvalue hs hleft
  | whileStatement => exact builds_whileStatement hinner htakes hvalue hs hleft
  | returnStatement => exact builds_returnStatement hvalue hs hleft
  | expression =>
    have hends := builds_expressionStatement hvalue s hs
    rwa [hleft] at hends

end

/-- With as many levels left as a grower has, statements are read as it reads them. -/
theorem builds_statement (tokens : List Token) (room most : ℕ) :
    Builds tokens room most (statement tokens) (Tree.statement room) := by
  induction room generalizing most with
  | zero =>
    rw [statement]
    exact (follows_nested_zero .statement _).silent
  | succ room ih =>
    rw [statement_succ]
    exact builds_statement_succ (fun most => (ih most).call fun _ => rfl)
      (local_statement room).takes fun most => (follows_expression_unary tokens room most).1

/-! ### Programs -/

/-- A whole program, by the tokens that are left: each round takes a statement. -/
lemma builds_program (bound : List Token) :
    Builds tokens nestingLimit bound.length (program tokens) (Tree.program bound) := by
  induction bound with
  | nil =>
    intro s hs
    rw [program]
    refine .of_peek ?_
    rw [hs.left_eq_nil]
    exact ends_pure hs.position_le hs.left_eq_nil ()
  | cons _ bound ih =>
    intro s hs
    rw [program]
    refine .of_peek ?_
    cases hleft : s.left tokens with
    | nil => exact ends_pure hs.position_le hleft ()
    | cons t rest =>
      have hround : Builds tokens nestingLimit (bound.length + 1)
          (do statement tokens; call (·.program))
          fun tokens => (Tree.statement nestingLimit tokens).andThen (Tree.program bound) := by
        refine (builds_statement _ _ _).bind_of_no_fault fun left hmost hfault _ => ?_
        have hshorter := (local_statement nestingLimit).takes hfault
        exact (ih.mono (by omega)).call fun _ => rfl
      have hends := hround s hs
      rwa [hleft] at hends

/-- The procedures make of all tokens the tree and the faults that the readers make. -/
theorem parseWithin_eq (tokens : List Token) :
    ∃ enough, ∀ number ≥ enough, parseWithin number tokens = some (Tree.parse tokens) := by
  obtain ⟨s', ⟨enough, heq⟩, honward, -⟩ := builds_program tokens .start
    ⟨Nat.zero_le _, rfl, Nat.le_refl tokens.length⟩
  have hnodes : s'.nodes = (Tree.program tokens tokens).nodes := honward.nodes_eq
  have hleft : Cursor.start.left tokens = tokens := rfl
  refine ⟨enough, fun number hnumber => ?_⟩
  rw [parseWithin, heq number hnumber, hleft, Tree.parse, Growth.result]
  cases (Tree.program tokens tokens).fault <;> simp only [Reader.outcome, hnodes] <;> rfl

end

end Parser

end Tree

end UvaAnalysis
