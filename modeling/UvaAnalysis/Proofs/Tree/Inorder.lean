import UvaAnalysis.Proofs.Tree.Local.Statement
import UvaAnalysis.Proofs.Tree.Traversal
import UvaAnalysis.Token.Lexer

/-!
# A tree keeps the order of the tokens

The tokens that the nodes of a tree carry, in order, are some of the tokens of the stream in their
order (`inorder_parse`).  What a reading leaves out is punctuation and the words that begin and end
a construct: every name, literal and operator is kept, unless a fault stops the reading.

A fault drops the expression that it stands in, so growers are described in two parts: the order of
what they keep, which a fault does not touch, and that nothing of significance is lost, which holds
only without one.
-/

namespace UvaAnalysis

/-! ### What is significant -/

namespace Token

/-- Names, literals and operators with operands. -/
def isSignificant (t : Token) : Bool :=
  t.category = .identifier || t.category = .literal || t.precedence?.isSome || t.isPrefixOperator

/-- Punctuation carries nothing. -/
lemma isSignificant_of_delimiter {t : Token} {text : String} (h : t.is .delimiter text = true) :
    t.isSignificant = false := by
  obtain ⟨hcategory, -⟩ := is_iff.mp h
  simp [isSignificant, precedence?, isPrefixOperator, isKeyword, is, hcategory]

/-- The dot before a member and the sign of assignment join nothing on a level of precedence. -/
lemma isSignificant_of_operator {t : Token} {text : String} (h : t.is .operator text = true)
    (htext : text = "." ∨ text = "=") : t.isSignificant = false := by
  obtain ⟨hcategory, rfl⟩ := is_iff.mp h
  rcases htext with htext | htext <;>
    simp [isSignificant, precedence?, isPrefixOperator, isKeyword, is, hcategory, htext]

/-- The words inside a construct carry nothing. -/
lemma isSignificant_of_keyword {t : Token} {text : String} (h : t.is .keyword text = true)
    (htext : text = "extends" ∨ text = "else" ∨ text = "end") : t.isSignificant = false := by
  obtain ⟨hcategory, rfl⟩ := is_iff.mp h
  rcases htext with htext | htext | htext <;>
    simp [isSignificant, precedence?, isPrefixOperator, isKeyword, is, hcategory, htext]

/-- The word that a statement begins with carries nothing, unless the statement is an expression. -/
lemma isSignificant_of_opening {t : Token} (h : Tree.Opening.ofToken t ≠ .expression) :
    t.isSignificant = false := by
  unfold Tree.Opening.ofToken at h
  split_ifs at h with hempty hkeyword hclass hfunction hvariable hif hwhile hreturn
  · exact isSignificant_of_delimiter hempty
  all_goals
    simp_all [isSignificant, precedence?, isPrefixOperator, isKeyword, is]
  rcases hvariable with hlet | hvar | hconst <;> simp_all

end Token

namespace Tree

open Token (isSignificant)

/-! ### Some tokens of a list, in order -/

/-- Tokens that are kept of those that were used: they are in the same order, and all that are
significant are kept. -/
structure Keeps (kept used : List Token) : Prop where
  sublist : kept.Sublist used
  significant : kept.filter isSignificant = used.filter isSignificant

namespace Keeps

variable {kept used kept' used' : List Token} {t : Token}

/-- All tokens may be kept. -/
lemma refl (tokens : List Token) : Keeps tokens tokens := ⟨List.Sublist.refl tokens, rfl⟩

/-- What is kept of two stretches is kept of both together. -/
lemma append (h : Keeps kept used) (h' : Keeps kept' used') :
    Keeps (kept ++ kept') (used ++ used') := by
  refine ⟨h.sublist.append h'.sublist, ?_⟩
  rw [List.filter_append, List.filter_append, h.significant, h'.significant]

/-- A token that is not kept. -/
lemma skip (ht : t.isSignificant = false) (h : Keeps kept used) : Keeps kept (t :: used) := by
  refine ⟨h.sublist.cons t, ?_⟩
  rw [List.filter_cons_of_neg (Bool.eq_false_iff.mp ht), h.significant]

/-- A single token that is not kept. -/
lemma skipped (ht : t.isSignificant = false) : Keeps [] [t] := (refl []).skip ht

/-- A token at the end that is not kept. -/
lemma skip_last (ht : t.isSignificant = false) (h : Keeps kept used) :
    Keeps kept (used ++ [t]) := by
  have hboth := h.append (skipped ht)
  rwa [List.append_nil] at hboth

/-- A token that is kept, before others. -/
lemma cons (t : Token) (h : Keeps kept used) : Keeps (t :: kept) (t :: used) :=
  (refl [t]).append h

end Keeps

/-! ### Expressions -/

/-- Of a list the commas are left out, and all else is kept that its elements keep. -/
lemma Joined.keeps {elements : List (List Token × Tree)} {used : List Token}
    (hjoined : Joined (elements.map Prod.fst) used)
    (h : ∀ element ∈ elements, Keeps element.2.inorder element.1) :
    Keeps ((elements.map Prod.snd).flatMap inorder) used := by
  generalize hstretches : elements.map Prod.fst = stretches at hjoined
  induction hjoined generalizing elements with
  | nil =>
    obtain rfl := List.map_eq_nil_iff.mp hstretches
    exact Keeps.refl []
  | singleton stretch =>
    obtain ⟨element, others, rfl, rfl, hothers⟩ := List.map_eq_cons_iff.mp hstretches
    obtain rfl := List.map_eq_nil_iff.mp hothers
    simpa using h element (List.mem_singleton_self element)
  | cons stretch hcomma _ ih =>
    obtain ⟨element, others, rfl, rfl, hothers⟩ := List.map_eq_cons_iff.mp hstretches
    obtain ⟨hfirst, hrest⟩ := List.forall_mem_cons.mp h
    rw [List.map_cons, List.flatMap_cons]
    exact hfirst.append ((ih hrest hothers).skip (Token.isSignificant_of_delimiter hcomma))

/-- An expression keeps all but its punctuation. -/
lemma Derives.keeps {room : ℕ} {used : List Token} {tree : Tree} (h : Derives room used tree) :
    Keeps tree.inorder used := by
  induction h with
  | literal _ | name _ =>
    rw [inorder_leaf]
    exact Keeps.refl _
  | parenthesized hfirst hlast _ _ ih =>
    have hclosed := ih.skip_last (Token.isSignificant_of_delimiter hlast)
    exact hclosed.skip (Token.isSignificant_of_delimiter hfirst)
  | @array _ _ first _ _ elements _ hlast hjoined _ _ ih =>
    have hclosed := (hjoined.keeps ih).skip_last (Token.isSignificant_of_delimiter hlast)
    rw [inorder_of_not_isInfix rfl]
    exact hclosed.cons first
  | @call _ _ _ _ _ _ subject elements hfirst hlast hjoined _ _ _ ihsubject ih =>
    have hclosed := (hjoined.keeps ih).skip_last (Token.isSignificant_of_delimiter hlast)
    have hcall := ihsubject.append (hclosed.skip (Token.isSignificant_of_delimiter hfirst))
    simpa [inorder_none] using hcall
  | @member _ _ name _ subject hdot _ _ ihsubject =>
    have hmember := ihsubject.append
      ((Keeps.refl [name]).skip (Token.isSignificant_of_operator hdot (.inl rfl)))
    simpa [inorder_none] using hmember
  | index hfirst hlast _ _ _ ihsubject ih =>
    have hclosed := ih.skip_last (Token.isSignificant_of_delimiter hlast)
    have hindex := ihsubject.append (hclosed.skip (Token.isSignificant_of_delimiter hfirst))
    simpa [inorder_none] using hindex
  | @unary _ _ operator _ _ _ _ _ ih =>
    rw [inorder_of_not_isInfix rfl]
    simpa using ih.cons operator
  | @binary _ _ operator _ _ _ _ _ _ _ ihleft ihright =>
    rw [inorder_of_isInfix rfl]
    exact ihleft.append (ihright.cons operator)
  | @assignment _ _ operator _ _ _ _ _ _ _ _ ihtarget ihvalue =>
    rw [inorder_of_isInfix rfl]
    exact ihtarget.append (ihvalue.cons operator)

/-- What is kept of the tokens of an expression that is read. -/
lemma keeps_expression (room : ℕ) :
    (expression room).Ensures fun used tree => Keeps tree.inorder used :=
  (derives_expression_operand room).1.mono fun _ _ h => h.2.keeps

/-! ### Growers -/

/-- Nodes that were made of the first of some tokens: their tokens are in the order of the source,
and all that are significant are among them unless a fault stopped the reading. -/
def Growth.Keeps (growth : Growth) (tokens : List Token) : Prop :=
  ∃ used, tokens = used ++ growth.rest ∧ (growth.nodes.flatMap inorder).Sublist used ∧
    (growth.fault = none →
      (growth.nodes.flatMap inorder).filter isSignificant = used.filter isSignificant)

/-- A grower that keeps the order, and all that is significant unless a fault stops it. -/
def Grower.Keeps (grower : Grower) : Prop :=
  ∀ tokens, (grower tokens).Keeps tokens

open Grower (nothing one silent inOrder node name close)

/-- A token before a growth may be left out if it carries nothing. -/
lemma Growth.Keeps.skip {growth : Growth} {tokens : List Token} {t : Token}
    (ht : t.isSignificant = false) (h : growth.Keeps tokens) : growth.Keeps (t :: tokens) := by
  obtain ⟨used, htokens, hsublist, hsignificant⟩ := h
  refine ⟨t :: used, by rw [htokens, List.cons_append], hsublist.cons t, fun hfault => ?_⟩
  rw [List.filter_cons_of_neg (Bool.eq_false_iff.mp ht), hsignificant hfault]

/-- What is read next comes behind; after a fault nothing is, and then nothing more has to be kept.
-/
lemma Growth.Keeps.andThen {growth : Growth} {tokens : List Token} {next : Grower}
    (h : growth.Keeps tokens) (hnext : next.Keeps) : (growth.andThen next).Keeps tokens := by
  cases hfault : growth.fault with
  | some fault =>
    rw [andThen_of_fault hfault]
    exact h
  | none =>
    rw [andThen_of_no_fault hfault]
    obtain ⟨used, htokens, hsublist, hsignificant⟩ := h
    obtain ⟨more, hrest, hmore, hmoreSignificant⟩ := hnext growth.rest
    refine ⟨used ++ more, ?_, ?_, fun hnone => ?_⟩
    · rw [htokens, List.append_assoc, ← hrest]
    · rw [List.flatMap_append]
      exact hsublist.append hmore
    · rw [List.flatMap_append, List.filter_append, List.filter_append, hsignificant hfault,
        hmoreSignificant hnone]

/-- Where nothing is taken, nothing is lost. -/
lemma keeps_nothing : nothing.Keeps :=
  fun _ => ⟨[], rfl, List.Sublist.refl [], fun _ => rfl⟩

/-- A fault that comes before a node is made leaves nothing to be out of order. -/
lemma Growth.keeps_of_fault {fault : Fault} {tokens rest : List Token} (h : rest <:+ tokens) :
    (⟨[], some fault, rest⟩ : Growth).Keeps tokens := by
  obtain ⟨used, rfl⟩ := h
  exact ⟨used, rfl, List.nil_sublist used, fun hfault => nomatch hfault⟩

/-- A node keeps what its reader keeps, and a reader that fails makes no node. -/
lemma keeps_one {reader : Reader Tree} (hsuffix : reader.LeavesSuffix)
    (h : reader.Ensures fun used tree => Tree.Keeps tree.inorder used) : (one reader).Keeps := by
  intro tokens
  unfold one
  cases heq : reader tokens with
  | ok tree rest =>
    obtain ⟨used, rfl, hkeeps⟩ := h heq
    refine ⟨used, rfl, ?_, fun _ => ?_⟩
    · rw [List.flatMap_singleton]
      exact hkeeps.sublist
    · rw [List.flatMap_singleton]
      exact hkeeps.significant
  | error fault rest => exact Growth.keeps_of_fault (hsuffix.of_error heq)

/-- A token may be taken without a node if it carries nothing. -/
lemma keeps_silent {category : Token.Category} {text : String}
    (h : ∀ t : Token, t.is category text = true → t.isSignificant = false) :
    (silent (Reader.expect category text)).Keeps := by
  intro tokens
  unfold silent
  cases heq : Reader.expect category text tokens with
  | ok _ rest =>
    obtain ⟨used, rfl, t, rfl, ht⟩ := Reader.ensures_expect category text heq
    have hskipped := Tree.Keeps.skipped (h t ht)
    exact ⟨[t], rfl, hskipped.sublist, fun _ => hskipped.significant⟩
  | error fault rest =>
    exact Growth.keeps_of_fault ((Reader.local_expect category text).suffix.of_error heq)

/-- Growers in turn keep the order if each of them does. -/
lemma keeps_inOrder {growers : List Grower} (h : ∀ grower ∈ growers, grower.Keeps) :
    (inOrder growers).Keeps := by
  induction growers with
  | nil => exact keeps_nothing
  | cons grower others ih =>
    obtain ⟨hgrower, hothers⟩ := List.forall_mem_cons.mp h
    exact fun tokens => (hgrower tokens).andThen (ih hothers)

/-- A node carries no token of its own, so it keeps what its children keep. -/
lemma keeps_node (kind : Kind) {body : Grower} (h : body.Keeps) : (node kind body).Keeps := by
  intro tokens
  have hbody := h tokens
  unfold Growth.Keeps at hbody ⊢
  simp only [node, List.flatMap_singleton, inorder_none]
  exact hbody

/-- A name is kept in its leaf. -/
lemma keeps_name (kind : Kind) (expected : Expected) : (name kind expected).Keeps := by
  have hsuffix := (Reader.local_identifier expected).suffix.bind fun t =>
    Reader.leavesSuffix_pure (leaf kind t)
  refine keeps_one hsuffix ((Reader.ensures_identifier expected).bind ?_)
  rintro _ t ⟨rfl, -⟩
  refine Reader.ensures_pure ?_
  rw [inorder_leaf]
  exact Tree.Keeps.refl [t]

/-- The closing keyword is left out. -/
lemma keeps_close : close.Keeps :=
  keeps_silent fun _ ht => Token.isSignificant_of_keyword ht (.inr (.inr rfl))

/-- So is a parenthesis. -/
lemma keeps_parenthesis (text : String) : (silent (Reader.expect .delimiter text)).Keeps :=
  keeps_silent fun _ => Token.isSignificant_of_delimiter

/-- A grower that may skip the first token and goes on with another grower. -/
lemma keeps_ite {condition : Bool} {grower other : Grower} (h : grower.Keeps) (hother : other.Keeps)
    {t : Token} (ht : condition = true → t.isSignificant = false) (tokens : List Token) :
    (if condition then grower tokens else other (t :: tokens)).Keeps (t :: tokens) := by
  cases condition with
  | true => exact (h tokens).skip (ht rfl)
  | false => exact hother (t :: tokens)

/-! ### Statements -/

section

variable {statement : Grower} {expression : Reader Tree}

/-- Statements keep the order, and the keyword after them is not taken. -/
lemma keeps_statements (hstatement : statement.Keeps) (closers : List String)
    (bound : List Token) : (statements statement closers bound).Keeps := by
  induction bound with
  | nil => exact fun tokens => Growth.keeps_of_fault (List.suffix_refl tokens)
  | cons _ bound ih =>
    intro tokens
    cases tokens with
    | nil => exact Growth.keeps_of_fault (List.suffix_refl [])
    | cons t tokens =>
      rw [statements]
      split_ifs
      · exact keeps_nothing (t :: tokens)
      · exact (hstatement (t :: tokens)).andThen ih

/-- A block keeps what its statements keep. -/
lemma keeps_block (hstatement : statement.Keeps) (closers : List String) :
    (block statement closers).Keeps :=
  keeps_node _ fun tokens => keeps_statements hstatement closers tokens tokens

/-- The word `extends` is left out, and the name of the base class is kept. -/
lemma keeps_baseClass : baseClass.Keeps := by
  intro tokens
  cases tokens with
  | nil => exact keeps_nothing []
  | cons t tokens =>
    exact keeps_ite (keeps_name _ _) keeps_nothing
      (fun ht => Token.isSignificant_of_keyword ht (.inl rfl)) tokens

/-- A class keeps its name, its base class and what its members keep. -/
lemma keeps_classDeclaration (hstatement : statement.Keeps) :
    (classDeclaration statement).Keeps := by
  refine keeps_node _ (keeps_inOrder ?_)
  simp only [List.forall_mem_cons, List.not_mem_nil, false_imp_iff, implies_true, and_true]
  exact ⟨keeps_name _ _, keeps_baseClass,
    fun tokens => keeps_statements hstatement _ tokens tokens, keeps_close⟩

/-- The names of parameters are kept without the commas between them. -/
lemma keeps_parameters (bound : List Token) : (parameters bound).Keeps := by
  induction bound with
  | nil => exact fun tokens => Growth.keeps_of_fault (List.suffix_refl tokens)
  | cons _ bound ih =>
    intro tokens
    rw [parameters]
    refine (keeps_name .parameter .parameterName tokens).andThen fun tokens => ?_
    cases tokens with
    | nil => exact keeps_parenthesis ")" []
    | cons t tokens =>
      exact keeps_ite ih (keeps_parenthesis ")") Token.isSignificant_of_delimiter tokens

/-- A parameter list keeps its names without the parentheses around them. -/
lemma keeps_parameterList : parameterList.Keeps := by
  refine keeps_node _ fun tokens => ?_
  cases tokens with
  | nil => exact keeps_parameters [] []
  | cons t tokens =>
    exact keeps_ite keeps_nothing (fun tokens => keeps_parameters tokens tokens)
      Token.isSignificant_of_delimiter tokens

/-- A function keeps its name, its parameters and what its body keeps. -/
lemma keeps_functionDeclaration (hstatement : statement.Keeps) :
    (functionDeclaration statement).Keeps := by
  refine keeps_node _ (keeps_inOrder ?_)
  simp only [List.forall_mem_cons, List.not_mem_nil, false_imp_iff, implies_true, and_true]
  exact ⟨keeps_name _ _, keeps_parenthesis "(", keeps_parameterList, keeps_block hstatement _,
    keeps_close⟩

/-- The sign of assignment before the value of a variable is left out. -/
lemma keeps_initialValue (hexpression : (one expression).Keeps) :
    (initialValue expression).Keeps := by
  intro tokens
  cases tokens with
  | nil => exact keeps_nothing []
  | cons t tokens =>
    exact keeps_ite hexpression keeps_nothing
      (fun ht => Token.isSignificant_of_operator ht (.inr rfl)) tokens

/-- A variable keeps its name and its value. -/
lemma keeps_variableDeclaration (hexpression : (one expression).Keeps) :
    (variableDeclaration expression).Keeps := by
  refine keeps_node _ (keeps_inOrder ?_)
  simp only [List.forall_mem_cons, List.not_mem_nil, false_imp_iff, implies_true, and_true]
  exact ⟨keeps_name _ _, keeps_initialValue hexpression⟩

/-- The word `else` is left out. -/
lemma keeps_alternative (hstatement : statement.Keeps) : (alternative statement).Keeps := by
  intro tokens
  cases tokens with
  | nil => exact keeps_nothing []
  | cons t tokens =>
    exact keeps_ite (keeps_block hstatement _) keeps_nothing
      (fun ht => Token.isSignificant_of_keyword ht (.inr (.inl rfl))) tokens

/-- A conditional keeps its condition and what its blocks keep. -/
lemma keeps_ifStatement (hstatement : statement.Keeps) (hexpression : (one expression).Keeps) :
    (ifStatement statement expression).Keeps := by
  refine keeps_node _ (keeps_inOrder ?_)
  simp only [List.forall_mem_cons, List.not_mem_nil, false_imp_iff, implies_true, and_true]
  exact ⟨hexpression, keeps_block hstatement _, keeps_alternative hstatement, keeps_close⟩

/-- A loop keeps its condition and what its block keeps. -/
lemma keeps_whileStatement (hstatement : statement.Keeps) (hexpression : (one expression).Keeps) :
    (whileStatement statement expression).Keeps := by
  refine keeps_node _ (keeps_inOrder ?_)
  simp only [List.forall_mem_cons, List.not_mem_nil, false_imp_iff, implies_true, and_true]
  exact ⟨hexpression, keeps_block hstatement _, keeps_close⟩

/-- A return keeps its value, if it has one. -/
lemma keeps_returnStatement (hexpression : (one expression).Keeps) :
    (returnStatement expression).Keeps := by
  refine keeps_node _ fun tokens => ?_
  cases tokens with
  | nil => exact keeps_nothing []
  | cons t tokens =>
    simp only
    split_ifs
    · exact hexpression (t :: tokens)
    · exact keeps_nothing (t :: tokens)

/-- An expression statement keeps what its expression keeps. -/
lemma keeps_expressionStatement (hsuffix : expression.LeavesSuffix)
    (h : expression.Ensures fun used tree => Tree.Keeps tree.inorder used) :
    (expressionStatement expression).Keeps := by
  refine keeps_one (hsuffix.bind fun _ => Reader.leavesSuffix_pure _) (h.bind ?_)
  intro used value hvalue
  refine Reader.ensures_pure ?_
  rw [inorder_none, List.flatMap_singleton, List.append_nil]
  exact hvalue

/-- A statement keeps the order, whatever it begins with: the opening word is left out unless the
statement is an expression. -/
lemma keeps_statementOf (hstatement : statement.Keeps) (hsuffix : expression.LeavesSuffix)
    (h : expression.Ensures fun used tree => Tree.Keeps tree.inorder used) :
    (statementOf statement expression).Keeps := by
  have hexpression := keeps_one hsuffix h
  intro tokens
  cases tokens with
  | nil => exact Growth.keeps_of_fault (List.suffix_refl [])
  | cons t tokens =>
    have hafter {grower : Grower} (hgrower : grower.Keeps)
        (hopening : Opening.ofToken t ≠ .expression) : (grower tokens).Keeps (t :: tokens) :=
      (hgrower tokens).skip (Token.isSignificant_of_opening hopening)
    rw [statementOf]
    cases hopening : Opening.ofToken t with
    | empty => exact hafter keeps_nothing (by simp [hopening])
    | classDeclaration =>
      exact hafter (keeps_classDeclaration hstatement) (by simp [hopening])
    | functionDeclaration =>
      exact hafter (keeps_functionDeclaration hstatement) (by simp [hopening])
    | variableDeclaration =>
      exact hafter (keeps_variableDeclaration hexpression) (by simp [hopening])
    | ifStatement =>
      exact hafter (keeps_ifStatement hstatement hexpression) (by simp [hopening])
    | whileStatement =>
      exact hafter (keeps_whileStatement hstatement hexpression) (by simp [hopening])
    | returnStatement =>
      exact hafter (keeps_returnStatement hexpression) (by simp [hopening])
    | expression => exact keeps_expressionStatement hsuffix h (t :: tokens)

end

/-- Statements keep the order, however many levels of nesting are left. -/
lemma keeps_statement (room : ℕ) : (statement room).Keeps := by
  induction room with
  | zero =>
    intro tokens
    cases tokens <;> exact Growth.keeps_of_fault (List.suffix_refl _)
  | succ room ih =>
    rw [statement_succ]
    exact keeps_statementOf ih (local_expression_operand room).1.isLocal.suffix
      (keeps_expression room)

/-- A program keeps what its statements keep. -/
lemma keeps_program (bound : List Token) : (program bound).Keeps := by
  induction bound with
  | nil => exact fun tokens => by cases tokens <;> exact keeps_nothing _
  | cons _ bound ih =>
    intro tokens
    cases tokens with
    | nil => exact keeps_nothing []
    | cons t tokens => exact (keeps_statement nestingLimit (t :: tokens)).andThen ih

/-- The tokens of the tree of a stream, in order, are tokens of the stream in their order.  If the
stream is read to its end, they have all its names, literals and operators, as often and in the same
order. -/
theorem inorder_parse (tokens : List Token) :
    (parse tokens).value.inorder.Sublist tokens ∧
      ((parse tokens).isComplete = true →
        (parse tokens).value.inorder.filter isSignificant = tokens.filter isSignificant) := by
  obtain ⟨used, htokens, hsublist, hsignificant⟩ := keeps_program tokens tokens
  have hinorder : (parse tokens).value.inorder = (program tokens tokens).nodes.flatMap inorder :=
    inorder_none .root _
  rw [hinorder]
  constructor
  · have hprefix : used.Sublist (used ++ (program tokens tokens).rest) :=
      List.sublist_append_left used _
    exact hsublist.trans (htokens ▸ hprefix)
  · intro hcomplete
    have hfault : (program tokens tokens).fault = none := by
      have hfaults : (program tokens tokens).fault.toList = [] :=
        Salvage.isComplete_iff.mp hcomplete
      exact Option.toList_eq_nil_iff.mp hfaults
    have hrest := program_rest_eq_nil (Nat.le_refl tokens.length) hfault
    rw [hrest, List.append_nil] at htokens
    rw [hsignificant hfault, ← htokens]

/-- The order of an assignment whose value has an operator of either kind. -/
theorem inorder_parse_assignment :
    let tokens := (Token.tokenize ⟨"m"⟩ (Utf8.encode "f(-a).b = [1, c] + d")).value
    (parse tokens).isComplete = true ∧
      (parse tokens).value.inorder.filter isSignificant = tokens.filter isSignificant := by
  intro tokens
  have hcomplete : (parse tokens).isComplete = true := by decide +kernel
  exact ⟨hcomplete, (inorder_parse tokens).2 hcomplete⟩

end Tree

end UvaAnalysis
