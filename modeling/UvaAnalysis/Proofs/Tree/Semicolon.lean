import UvaAnalysis.Proofs.Tree.FaultLocality
import UvaAnalysis.Proofs.Tree.Precedence

/-!
# A semicolon separates

No construct has a semicolon inside, so a semicolon ends all that is open before it.  What is made
of some tokens is also made of them when a semicolon follows, whatever comes after that.  For the
readers of expressions that takes looking at the token behind an expression only
(`endsBefore_expression`).  Growers that are not stopped go on from where the one before them
stopped, so it passes from one to the next (`Grower.EndsBefore`).

A stream that is complete is therefore read the same in front of a semicolon, and nothing of it
matters for what stands behind (`parse_append_semicolon`).
-/

namespace UvaAnalysis

/-! ### Semicolons -/

namespace Token

variable {s : Token}

/-- A semicolon is no token of any other category or text. -/
lemma is_of_semicolon (h : s.is .delimiter ";" = true) {category : Category} {text : String}
    (hne : category ≠ .delimiter ∨ text ≠ ";") : s.is category text = false := by
  obtain ⟨hcategory, htext⟩ := is_iff.mp h
  rw [Bool.eq_false_iff, ne_eq, is_iff, hcategory, htext]
  rintro ⟨rfl, rfl⟩
  rcases hne with hne | hne <;> exact hne rfl

/-- A semicolon ends every expression that is open before it. -/
lemma closesExpression_of_semicolon (h : s.is .delimiter ";" = true) :
    s.closesExpression = true := by
  rw [closesExpression, h, Bool.true_or, Bool.true_or, Bool.true_or]

/-- No expression begins with a semicolon. -/
lemma startsExpression_of_semicolon (h : s.is .delimiter ";" = true) :
    s.startsExpression = false := by
  obtain ⟨hcategory, htext⟩ := is_iff.mp h
  simp [startsExpression, hcategory, htext]

end Token

/-! ### Expressions -/

namespace Reader

variable {α : Type} {p q : Token → Prop} {reader : Reader α}

/-- A reader that ends before any of some tokens ends before fewer of them. -/
lemma EndsBefore.mono (h : reader.EndsBefore p) (hq : ∀ t, q t → p t) : reader.EndsBefore q :=
  fun _ _ heq t ht following => h heq (hq t ht) following

/-- A reader that leaves some of its tokens leaves what follows them too. -/
lemma EndsBefore.of_ok (h : reader.EndsBefore p) (hlocal : reader.Local)
    {tokens rest : List Token} {a : α} (heq : reader tokens = .ok a rest) {t : Token} (ht : p t)
    (following : List Token) :
    reader (tokens ++ t :: following) = .ok a (rest ++ t :: following) := by
  have hcontinues := hlocal.continues tokens (t :: following)
  rw [heq] at hcontinues
  cases rest with
  | nil => exact h heq ht following
  | cons u rest =>
    generalize reader (tokens ++ t :: following) = more at hcontinues ⊢
    cases hcontinues
    rfl

/-- A token that is asked for, and that the token behind is not. -/
lemma endsBefore_take?_of_not_wanted {wanted : Token → Bool} (h : ∀ t, p t → wanted t = false) :
    (take? wanted).EndsBefore p := by
  intro tokens found heq t ht following
  obtain ⟨_, rfl, ⟨u, rfl, hu, rfl⟩ | ⟨rfl, rfl⟩⟩ := ensures_take? wanted heq
  · exact take?_of_wanted hu (t :: following)
  · exact take?_of_not_wanted (h t ht) following

end Reader

namespace Tree

open Reader

section

variable {operand target value : Reader Tree}

/-- A token without a precedence is left, whatever precedence is asked for. -/
lemma endsBefore_binaryOperator? (least : ℕ) :
    (binaryOperator? least).EndsBefore (·.precedence? = none) := by
  intro tokens found heq t ht following
  obtain ⟨_, rfl, ⟨u, precedence, rfl, hu, hleast, rfl⟩ | ⟨rfl, rfl⟩⟩ :=
    ensures_binaryOperator? least heq
  · simp only [List.singleton_append, binaryOperator?, hu, if_pos hleast]
  · simp only [List.nil_append, binaryOperator?, ht]

/-- A chain of operators ends before a token that closes expressions, since that is no operator. -/
lemma endsBefore_climb (hlocal : operand.Local)
    (hends : operand.EndsBefore (·.closesExpression = true)) (bound : List Token) (least : ℕ)
    (left : Tree) :
    (climb operand bound least left).EndsBefore (·.closesExpression = true) := by
  induction bound generalizing least left with
  | nil => exact endsBefore_pure left
  | cons _ bound ih =>
    rw [climb]
    have hoperator : (binaryOperator? least).EndsBefore (·.closesExpression = true) :=
      (endsBefore_binaryOperator? least).mono fun _ => Token.precedence?_of_closesExpression
    refine hoperator.bind (local_binaryOperator? least) fun operator => ?_
    cases operator with
    | some operator =>
      exact hends.bind hlocal fun next =>
        (ih _ next).bind (local_climb hlocal _ _ _) fun right => ih least _
    | none => exact endsBefore_pure left

/-- So do operands that are joined by binary operators. -/
lemma endsBefore_binary (hlocal : operand.Local) (htakes : operand.Takes)
    (hends : operand.EndsBefore (·.closesExpression = true)) (least : ℕ) :
    (binary operand least).EndsBefore (·.closesExpression = true) := by
  refine hends.bind hlocal fun first => ?_
  exact endsBefore_bounded (fun bound => endsBefore_climb hlocal hends bound least first)
    fun bound tokens hbound => climb_bound hlocal htakes least first hbound (Nat.le_refl _)

/-- So does an assignment, whether or not it has a value. -/
lemma endsBefore_assignment (hlocal : target.Local) (hvalueLocal : value.Local)
    (htarget : target.EndsBefore (·.closesExpression = true))
    (hvalue : value.EndsBefore (·.closesExpression = true)) :
    (assignment target value).EndsBefore (·.closesExpression = true) := by
  have hoperator : (take? (·.is .operator "=")).EndsBefore (·.closesExpression = true) :=
    endsBefore_take?_of_not_wanted fun _ ht => Token.is_operator_of_closesExpression ht "="
  refine htarget.bind hlocal fun left => hoperator.bind (local_take? _) fun operator => ?_
  cases operator with
  | some operator => exact hvalue.bind hvalueLocal fun _ => endsBefore_pure _
  | none => exact endsBefore_pure left

end

/-- An expression ends before a token that closes it. -/
theorem endsBefore_expression (room : ℕ) :
    (expression room).EndsBefore (·.closesExpression = true) := by
  induction room with
  | zero =>
    intro tokens a heq
    cases tokens <;> cases heq
  | succ room ih =>
    have hlocal := (local_expression_operand room).2
    have htakes := takes_operand room
    have hends : (operand room).EndsBefore (·.closesExpression = true) :=
      (endsBefore_operand room).mono fun _ => Token.opensSuffix_of_closesExpression
    rw [expression_succ]
    exact endsBefore_assignment (local_binary hlocal htakes 1)
      (local_expression_operand room).1.isLocal (endsBefore_binary hlocal htakes hends 1) ih

/-! ### Statements -/

open Grower (nothing one silent inOrder node name close)

/-- What a grower that no fault stops makes of some tokens it also makes of them when `s` follows,
with anything after it, and it leaves `s`. -/
def Grower.EndsBefore (grower : Grower) (s : Token) : Prop :=
  ∀ ⦃tokens : List Token⦄ ⦃nodes : List Tree⦄ ⦃rest : List Token⦄,
    grower tokens = ⟨nodes, none, rest⟩ →
      ∀ following, grower (tokens ++ s :: following) = ⟨nodes, none, rest ++ s :: following⟩

/-- If no fault stops a grower and the next one, none stops either of them. -/
lemma Growth.of_andThen {growth : Growth} {next : Grower} {nodes : List Tree} {rest : List Token}
    (h : growth.andThen next = ⟨nodes, none, rest⟩) :
    ∃ earlier between later, growth = ⟨earlier, none, between⟩ ∧
      next between = ⟨later, none, rest⟩ ∧ nodes = earlier ++ later := by
  obtain ⟨earlier, fault, between⟩ := growth
  cases fault with
  | some fault =>
    rw [andThen_of_fault rfl] at h
    cases h
  | none =>
    rw [andThen_of_no_fault rfl] at h
    refine ⟨earlier, between, (next between).nodes, rfl, ?_⟩
    generalize next between = more at h ⊢
    obtain ⟨later, fault, left⟩ := more
    cases h
    exact ⟨rfl, rfl⟩

section

variable {statement grower next : Grower} {expression : Reader Tree} {s : Token}

/-- A grower that takes nothing leaves `s` too. -/
lemma endsBefore_nothing : nothing.EndsBefore s := by
  intro tokens nodes rest heq following
  cases heq
  rfl

/-- A grower that makes its nodes of what a reader gives. -/
lemma endsBefore_of_reader {α : Type} {reader : Reader α} {p : Token → Prop} {make : α → List Tree}
    (hok : ∀ tokens a rest, reader tokens = .ok a rest → grower tokens = ⟨make a, none, rest⟩)
    (herror : ∀ tokens fault rest, reader tokens = .error fault rest →
      grower tokens = ⟨[], some fault, rest⟩)
    (hlocal : reader.Local) (hends : reader.EndsBefore p) (hs : p s) : grower.EndsBefore s := by
  intro tokens nodes rest heq following
  cases hreader : reader tokens with
  | error fault left =>
    rw [herror _ _ _ hreader] at heq
    cases heq
  | ok a left =>
    rw [hok _ _ _ hreader] at heq
    cases heq
    exact hok _ _ _ (hends.of_ok hlocal hreader hs following)

/-- A grower that makes one node ends where its reader ends. -/
lemma endsBefore_one {reader : Reader Tree} {p : Token → Prop} (hlocal : reader.Local)
    (hends : reader.EndsBefore p) (hs : p s) : (one reader).EndsBefore s :=
  endsBefore_of_reader (fun _ _ _ h => by rw [one, h]) (fun _ _ _ h => by rw [one, h]) hlocal
    hends hs

/-- A grower that makes no node ends where its reader ends. -/
lemma endsBefore_silent {reader : Reader Unit} {p : Token → Prop} (hlocal : reader.Local)
    (hends : reader.EndsBefore p) (hs : p s) : (silent reader).EndsBefore s :=
  endsBefore_of_reader (fun _ _ _ h => by rw [silent, h]) (fun _ _ _ h => by rw [silent, h]) hlocal
    hends hs

/-- The next grower goes on where the first one ended, and both leave `s`. -/
lemma endsBefore_andThen (h : grower.EndsBefore s) (hnext : next.EndsBefore s) :
    Grower.EndsBefore (fun tokens => (grower tokens).andThen next) s := by
  intro tokens nodes rest heq following
  obtain ⟨earlier, between, later, hgrower, hlater, rfl⟩ := Growth.of_andThen heq
  dsimp only
  rw [h hgrower following, Growth.andThen_of_no_fault rfl, hnext hlater following]

/-- Growers in turn end before `s` if each of them does. -/
lemma endsBefore_inOrder {growers : List Grower} (h : ∀ grower ∈ growers, grower.EndsBefore s) :
    (inOrder growers).EndsBefore s := by
  induction growers with
  | nil => exact endsBefore_nothing
  | cons grower others ih =>
    obtain ⟨hgrower, hothers⟩ := List.forall_mem_cons.mp h
    exact endsBefore_andThen hgrower (ih hothers)

/-- Making a node of what was read does not change where the reading ends. -/
lemma endsBefore_node (kind : Kind) (h : grower.EndsBefore s) :
    (node kind grower).EndsBefore s := by
  intro tokens nodes rest heq following
  unfold node at heq ⊢
  cases hgrower : grower tokens with
  | mk children fault left =>
    rw [hgrower] at heq
    cases heq
    rw [h hgrower following]

/-- A name is one token, so it ends before anything. -/
lemma endsBefore_name (kind : Kind) (expected : Expected) : (name kind expected).EndsBefore s := by
  have hends : (do
      let t ← Reader.identifier expected
      return leaf kind t : Reader Tree).EndsBefore fun _ => True :=
    (endsBefore_identifier expected).bind (local_identifier expected) fun _ => endsBefore_pure _
  exact endsBefore_one ((local_identifier expected).bind fun _ => Reader.local_pure _) hends trivial

/-- A token that is asked for. -/
lemma endsBefore_silent_expect (category : Token.Category) (text : String) :
    (silent (Reader.expect category text)).EndsBefore s := by
  have hends : (Reader.expect category text).EndsBefore fun _ => True :=
    endsBefore_expect category text
  exact endsBefore_silent (local_expect category text) hends trivial

/-- So does the closing keyword. -/
lemma endsBefore_close : close.EndsBefore s :=
  endsBefore_silent_expect _ _

/-- A loop ends before `s` if it does with every bound, and if its bound does not matter. -/
lemma endsBefore_loop {loop : List Token → Grower} (h : ∀ bound, (loop bound).EndsBefore s)
    (hbound : ∀ bound tokens, tokens.length ≤ bound.length →
      loop bound tokens = loop tokens tokens) :
    Grower.EndsBefore (fun tokens => loop tokens tokens) s := by
  intro tokens nodes rest heq following
  -- The bound grows with the tokens that follow, and any bound that is large enough will do.
  have hlength : tokens.length ≤ (tokens ++ s :: following).length := by
    rw [List.length_append]
    exact Nat.le_add_right _ _
  have hsame : loop (tokens ++ s :: following) tokens = ⟨nodes, none, rest⟩ :=
    (hbound _ _ hlength).trans heq
  exact h _ hsame following

/-- What is read if a token announces it, and `s` does not. -/
lemma endsBefore_announced {body : Grower} {announces : Token → Bool}
    (hnil : grower [] = nothing [])
    (hcons : ∀ t rest, grower (t :: rest) =
      if announces t then body rest else nothing (t :: rest))
    (hs : announces s = false) (h : body.EndsBefore s) : grower.EndsBefore s := by
  intro tokens nodes rest heq following
  cases tokens with
  | nil =>
    rw [hnil] at heq
    cases heq
    rw [List.nil_append, hcons, hs]
    rfl
  | cons t others =>
    rw [hcons] at heq
    rw [List.cons_append, hcons]
    split_ifs at heq ⊢
    · exact h heq following
    · cases heq
      rfl

/-- Statements that are closed end at their closing keyword, before `s` is reached. -/
lemma endsBefore_statements (hstatement : statement.EndsBefore s) (closers : List String)
    (bound : List Token) : (statements statement closers bound).EndsBefore s := by
  induction bound with
  | nil =>
    intro tokens nodes rest heq
    cases heq
  | cons _ bound ih =>
    intro tokens nodes rest heq following
    cases tokens with
    | nil => cases heq
    | cons t others =>
      rw [statements] at heq
      rw [List.cons_append, statements]
      split_ifs at heq ⊢
      · cases heq
        rfl
      · exact endsBefore_andThen hstatement ih heq following

/-- The bound of the loop does not matter for that. -/
lemma endsBefore_statements_self (h : IsLocalStatement statement)
    (hstatement : statement.EndsBefore s) (closers : List String) :
    Grower.EndsBefore (fun tokens => statements statement closers tokens tokens) s :=
  endsBefore_loop (endsBefore_statements hstatement closers) fun _ _ hbound =>
    statements_bound h.takes closers hbound (Nat.le_refl _)

/-- A block ends where its statements end. -/
lemma endsBefore_block (h : IsLocalStatement statement) (hstatement : statement.EndsBefore s)
    (closers : List String) : (block statement closers).EndsBefore s :=
  endsBefore_node _ (endsBefore_statements_self h hstatement closers)

/-- A class ends at its own `end`, and a semicolon is no base class. -/
lemma endsBefore_classDeclaration (hs : s.is .delimiter ";" = true)
    (h : IsLocalStatement statement) (hstatement : statement.EndsBefore s) :
    (classDeclaration statement).EndsBefore s := by
  have hbase : baseClass.EndsBefore s :=
    endsBefore_announced rfl (fun _ _ => rfl) (Token.is_of_semicolon hs (by decide))
      (endsBefore_name _ _)
  refine endsBefore_node _ (endsBefore_inOrder ?_)
  simp only [List.forall_mem_cons, List.not_mem_nil, false_imp_iff, implies_true, and_true]
  exact ⟨endsBefore_name _ _, hbase, endsBefore_statements_self h hstatement _, endsBefore_close⟩

/-- Parameters end at their closing parenthesis. -/
lemma endsBefore_parameters (bound : List Token) : (parameters bound).EndsBefore s := by
  have hclose : (silent (Reader.expect .delimiter ")")).EndsBefore s :=
    endsBefore_silent_expect _ _
  induction bound with
  | nil =>
    intro tokens nodes rest heq
    cases heq
  | cons _ bound ih =>
    refine endsBefore_andThen (endsBefore_name _ _) ?_
    intro tokens nodes rest heq following
    cases tokens with
    | nil => cases heq
    | cons t others =>
      rw [List.cons_append]
      dsimp only at heq ⊢
      split_ifs at heq ⊢
      · exact ih heq following
      · exact hclose heq following

/-- A parameter list ends there too, also when it is empty. -/
lemma endsBefore_parameterList : parameterList.EndsBefore s := by
  have hparameters : Grower.EndsBefore (fun tokens => parameters tokens tokens) s :=
    endsBefore_loop endsBefore_parameters fun _ _ hbound => parameters_bound hbound (Nat.le_refl _)
  refine endsBefore_node _ fun tokens nodes rest heq following => ?_
  cases tokens with
  | nil => cases heq
  | cons t others =>
    rw [List.cons_append]
    dsimp only at heq ⊢
    split_ifs at heq ⊢
    · exact endsBefore_nothing heq following
    · exact hparameters heq following

/-- A function ends at its own `end`. -/
lemma endsBefore_functionDeclaration (h : IsLocalStatement statement)
    (hstatement : statement.EndsBefore s) : (functionDeclaration statement).EndsBefore s := by
  refine endsBefore_node _ (endsBefore_inOrder ?_)
  simp only [List.forall_mem_cons, List.not_mem_nil, false_imp_iff, implies_true, and_true]
  exact ⟨endsBefore_name _ _, endsBefore_silent_expect _ _, endsBefore_parameterList,
    endsBefore_block h hstatement _, endsBefore_close⟩

/-- A variable ends after its name or its value, and a semicolon gives it no value. -/
lemma endsBefore_variableDeclaration (hs : s.is .delimiter ";" = true)
    (hexpression : (one expression).EndsBefore s) :
    (variableDeclaration expression).EndsBefore s := by
  have hvalue : (initialValue expression).EndsBefore s :=
    endsBefore_announced rfl (fun _ _ => rfl) (Token.is_of_semicolon hs (by decide)) hexpression
  refine endsBefore_node _ (endsBefore_inOrder ?_)
  simp only [List.forall_mem_cons, List.not_mem_nil, false_imp_iff, implies_true, and_true]
  exact ⟨endsBefore_name _ _, hvalue⟩

/-- A conditional ends at its own `end`, and a semicolon gives it no alternative. -/
lemma endsBefore_ifStatement (hs : s.is .delimiter ";" = true) (h : IsLocalStatement statement)
    (hstatement : statement.EndsBefore s) (hexpression : (one expression).EndsBefore s) :
    (ifStatement statement expression).EndsBefore s := by
  have halternative : (alternative statement).EndsBefore s :=
    endsBefore_announced rfl (fun _ _ => rfl) (Token.is_of_semicolon hs (by decide))
      (endsBefore_block h hstatement _)
  refine endsBefore_node _ (endsBefore_inOrder ?_)
  simp only [List.forall_mem_cons, List.not_mem_nil, false_imp_iff, implies_true, and_true]
  exact ⟨hexpression, endsBefore_block h hstatement _, halternative, endsBefore_close⟩

/-- A loop ends at its own `end`. -/
lemma endsBefore_whileStatement (h : IsLocalStatement statement)
    (hstatement : statement.EndsBefore s) (hexpression : (one expression).EndsBefore s) :
    (whileStatement statement expression).EndsBefore s := by
  refine endsBefore_node _ (endsBefore_inOrder ?_)
  simp only [List.forall_mem_cons, List.not_mem_nil, false_imp_iff, implies_true, and_true]
  exact ⟨hexpression, endsBefore_block h hstatement _, endsBefore_close⟩

/-- A return ends after its value or without one, since no expression begins with a semicolon. -/
lemma endsBefore_returnStatement (hs : s.is .delimiter ";" = true)
    (hexpression : (one expression).EndsBefore s) : (returnStatement expression).EndsBefore s := by
  refine endsBefore_node _ fun tokens nodes rest heq following => ?_
  cases tokens with
  | nil =>
    cases heq
    dsimp only [List.nil_append]
    rw [Token.startsExpression_of_semicolon hs]
    rfl
  | cons t others =>
    rw [List.cons_append]
    dsimp only at heq ⊢
    split_ifs at heq ⊢
    · exact hexpression heq following
    · exact endsBefore_nothing heq following

/-- Every statement ends before a semicolon, whatever it begins with. -/
lemma endsBefore_statementOf (hs : s.is .delimiter ";" = true) (h : IsLocalStatement statement)
    (hstatement : statement.EndsBefore s) (hlocal : expression.Local)
    (hends : expression.EndsBefore (·.closesExpression = true)) :
    (statementOf statement expression).EndsBefore s := by
  have hcloses := Token.closesExpression_of_semicolon hs
  have hexpression : (one expression).EndsBefore s := endsBefore_one hlocal hends hcloses
  intro tokens nodes rest heq following
  cases tokens with
  | nil => cases heq
  | cons t others =>
    rw [statementOf] at heq
    rw [List.cons_append, statementOf]
    cases hopening : Opening.ofToken t <;> simp only [hopening] at heq ⊢
    case empty => exact endsBefore_nothing heq following
    case classDeclaration => exact endsBefore_classDeclaration hs h hstatement heq following
    case functionDeclaration => exact endsBefore_functionDeclaration h hstatement heq following
    case variableDeclaration => exact endsBefore_variableDeclaration hs hexpression heq following
    case ifStatement => exact endsBefore_ifStatement hs h hstatement hexpression heq following
    case whileStatement => exact endsBefore_whileStatement h hstatement hexpression heq following
    case returnStatement => exact endsBefore_returnStatement hs hexpression heq following
    case expression =>
      exact endsBefore_one (hlocal.bind fun _ => Reader.local_pure _)
        (hends.bind hlocal fun _ => Reader.endsBefore_pure _) hcloses heq following

end

/-- A statement ends before a semicolon, however many levels of nesting are left. -/
theorem endsBefore_statement {s : Token} (hs : s.is .delimiter ";" = true) (room : ℕ) :
    (statement room).EndsBefore s := by
  induction room with
  | zero =>
    intro tokens nodes rest heq
    cases tokens <;> cases heq
  | succ room ih =>
    rw [statement_succ]
    exact endsBefore_statementOf hs (local_statement room) ih
      (local_expression_operand room).1.isLocal (endsBefore_expression room)

/-! ### Programs -/

/-- A program is a statement and then the program behind it. -/
lemma programGrowth_cons (t : Token) (tokens : List Token) :
    programGrowth (t :: tokens) = (statement nestingLimit (t :: tokens)).andThen programGrowth := by
  have htakes := (local_statement nestingLimit).takes
  rw [programGrowth, program]
  refine Growth.andThen_congr fun hfault => ?_
  have hshorter := Nat.le_of_lt_succ (htakes hfault)
  exact program_bound htakes hshorter (Nat.le_refl _)

/-- A semicolon is a statement that makes no node. -/
lemma programGrowth_semicolon {s : Token} (hs : s.is .delimiter ";" = true) (more : List Token) :
    programGrowth (s :: more) = programGrowth more := by
  have hopening : Opening.ofToken s = .empty := if_pos hs
  have hstatement : statement nestingLimit (s :: more) = nothing more := by
    rw [nestingLimit, statement_succ, statementOf, hopening]
  rw [programGrowth_cons, hstatement, nothing, Growth.andThen_of_no_fault rfl, List.nil_append]

/-- A program that no fault stops is read the same in front of a semicolon, and the program behind
the semicolon as if it stood alone. -/
theorem programGrowth_append_semicolon {s : Token} (hs : s.is .delimiter ";" = true)
    {tokens rest : List Token} {nodes : List Tree}
    (h : programGrowth tokens = ⟨nodes, none, rest⟩) (more : List Token) :
    programGrowth (tokens ++ s :: more) =
      ⟨nodes ++ (programGrowth more).nodes, (programGrowth more).fault,
        (programGrowth more).rest⟩ := by
  induction hlength : tokens.length using Nat.strongRecOn generalizing tokens nodes with
  | _ length ih =>
    cases tokens with
    | nil =>
      cases h
      rw [List.nil_append, programGrowth_semicolon hs, List.nil_append]
    | cons t tokens =>
      rw [programGrowth_cons] at h
      obtain ⟨earlier, between, later, hstatement, hlater, rfl⟩ := Growth.of_andThen h
      -- The first statement takes a token, so what it leaves is covered by the induction.
      have hshorter : between.length < (t :: tokens).length := by
        have htakes := (local_statement nestingLimit).takes (congrArg Growth.fault hstatement)
        rwa [hstatement] at htakes
      have hmore := endsBefore_statement hs nestingLimit hstatement more
      rw [List.cons_append] at hmore ⊢
      rw [programGrowth_cons, hmore, Growth.andThen_of_no_fault rfl,
        ih _ (hlength ▸ hshorter) hlater rfl, List.append_assoc]

/-- A stream that is complete and a stream behind a semicolon are read independently: what stands
under the root is what each of them has there, and the faults are those of the second. -/
theorem parse_append_semicolon {tokens : List Token} (hcomplete : (parse tokens).isComplete = true)
    {s : Token} (hs : s.is .delimiter ";" = true) (more : List Token) :
    (parse (tokens ++ [s] ++ more)).value.children =
        (parse tokens).value.children ++ (parse more).value.children ∧
      (parse (tokens ++ [s] ++ more)).faults = (parse more).faults := by
  have hparse (tokens : List Token) : parse tokens =
      ⟨⟨.root, none, (programGrowth tokens).nodes⟩, (programGrowth tokens).fault.toList⟩ := rfl
  have hfault : (programGrowth tokens).fault = none :=
    Option.toList_eq_nil_iff.mp (Salvage.isComplete_iff.mp hcomplete)
  have hgrowth : programGrowth tokens =
      ⟨(programGrowth tokens).nodes, none, (programGrowth tokens).rest⟩ := by rw [← hfault]
  rw [List.append_assoc, List.singleton_append, hparse,
    programGrowth_append_semicolon hs hgrowth more]
  exact ⟨rfl, rfl⟩

/-- A return without a value in front of what could be its value, which is faulty. -/
theorem parse_append_semicolon_return :
    let tokens := (Token.tokenize ⟨"m"⟩ (Utf8.encode "class A end let x return")).value
    let more := (Token.tokenize ⟨"m"⟩ (Utf8.encode "(x) class B )")).value
    let s : Token := ⟨⟨"m"⟩, ⟨1, 25, 24⟩, .delimiter, .plain, ";", 1⟩
    (parse tokens).isComplete = true ∧ s.is .delimiter ";" = true ∧
      (parse (tokens ++ [s] ++ more)).value.children =
        (parse tokens).value.children ++ (parse more).value.children ∧
      (parse (tokens ++ [s] ++ more)).faults = (parse more).faults := by
  intro tokens more s
  have hcomplete : (parse tokens).isComplete = true := by decide +kernel
  have hs : s.is .delimiter ";" = true := by decide
  exact ⟨hcomplete, hs, parse_append_semicolon hcomplete hs more⟩

end Tree

end UvaAnalysis
