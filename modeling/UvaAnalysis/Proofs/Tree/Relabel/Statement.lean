import UvaAnalysis.Proofs.Tree.FaultLocality
import UvaAnalysis.Proofs.Tree.Relabel.Expression

/-!
# Statements of relabelled tokens

Growers pass on what readers do with mapped tokens, so the tree of a mapped stream is the mapped
tree of the stream, and the fault is the same one at the mapped token (`parse_map`).  Where the
tokens stand, in which file and of what kind they are has no part in it: the declarations of a
source are the same however it is laid out and whichever files it is put together from.
-/

namespace UvaAnalysis

namespace Fault

/-- The message of an unexpected token has its place and its text. -/
lemma message_unexpected (expected : Expected) (t : Token) :
    (unexpected expected t).message =
      located "parse error" t.origin t.position
        ("expected " ++ expected.text ++ ", found '" ++ t.text ++ "'") := rfl

/-- The message of a token that is too deep has its place and the limit. -/
lemma message_nestedTooDeep (what : Expected) (t : Token) :
    (nestedTooDeep what t).message =
      located "parse error" t.origin t.position
        (what.text ++ " nested deeper than " ++ toString nestingLimit ++ " levels") := rfl

end Fault

namespace Tree

variable {f : Token → Token}

/-! ### Pairs of growers -/

/-- What a grower gives with nodes, fault and rest mapped. -/
def Growth.relabel (f : Token → Token) (growth : Growth) : Growth :=
  ⟨growth.nodes.map (mapTokens f), growth.fault.map (Fault.mapToken f), growth.rest.map f⟩

/-- The second grower makes of mapped tokens what the first makes of the tokens, mapped. -/
def Grower.Relabels (f : Token → Token) (grower grower' : Grower) : Prop :=
  ∀ tokens, grower' (tokens.map f) = (grower tokens).relabel f

/-- A grower makes mapped nodes of mapped tokens. -/
abbrev Grower.RelabelsNodes (f : Token → Token) (grower : Grower) : Prop :=
  grower.Relabels f grower

open Grower (Relabels RelabelsNodes nothing one silent inOrder node name close)

section

variable {grower next other : Grower} {expression : Reader Tree}

/-- A mapped growth goes on as the growth does, mapped. -/
lemma Growth.relabel_andThen {next next' : Grower} (h : next.Relabels f next') (growth : Growth) :
    (growth.relabel f).andThen next' = (growth.andThen next).relabel f := by
  obtain ⟨nodes, fault, rest⟩ := growth
  cases fault with
  | some fault => rfl
  | none =>
    have hrest : next' (rest.map f) = (next rest).relabel f := h rest
    have hnone : (Growth.relabel f ⟨nodes, none, rest⟩).fault = none := rfl
    rw [andThen_of_no_fault hnone, andThen_of_no_fault rfl]
    simp only [Growth.relabel, hrest, List.map_append]

/-- What is read next is mapped too. -/
lemma relabels_andThen (h : grower.RelabelsNodes f) {next next' : Grower}
    (hnext : next.Relabels f next') (tokens : List Token) :
    (grower (tokens.map f)).andThen next' = ((grower tokens).andThen next).relabel f := by
  rw [h tokens]
  exact Growth.relabel_andThen hnext _

/-- Where nothing is made, nothing has to be mapped. -/
lemma relabels_nothing : nothing.RelabelsNodes f := fun _ => rfl

/-- The one node is the mapped tree that the reader makes. -/
lemma relabels_one {reader : Reader Tree} (h : RelabelsTree f reader) :
    (one reader).RelabelsNodes f := by
  intro tokens
  rw [one, one, h tokens]
  cases reader tokens <;> rfl

/-- What is read without a node leaves the mapped rest. -/
lemma relabels_silent {reader : Reader Unit} (h : Reader.Relabels f id reader reader) :
    (silent reader).RelabelsNodes f := by
  intro tokens
  rw [silent, silent, h tokens]
  cases reader tokens <;> rfl

/-- Growers in turn make mapped nodes if each of them does. -/
lemma relabels_inOrder {growers : List Grower} (h : ∀ grower ∈ growers, grower.RelabelsNodes f) :
    (inOrder growers).RelabelsNodes f := by
  induction growers with
  | nil => exact relabels_nothing
  | cons grower others ih =>
    obtain ⟨hgrower, hothers⟩ := List.forall_mem_cons.mp h
    exact relabels_andThen hgrower (ih hothers)

/-- A node carries no token of its own, so only its children are mapped. -/
lemma relabels_node (kind : Kind) (h : grower.RelabelsNodes f) :
    (node kind grower).RelabelsNodes f := by
  intro tokens
  unfold node
  rw [h tokens]
  simp only [Growth.relabel, List.map_singleton, mapTokens_mk, Option.map_none]

/-- An expression statement holds the mapped expression. -/
lemma relabels_expressionStatement (hexpression : RelabelsTree f expression) :
    (expressionStatement expression).RelabelsNodes f := by
  refine relabels_one (hexpression.bind fun value => ?_)
  have hstatement := Reader.relabels_pure (f := f) (g := mapTokens f)
    ⟨.expressionStatement, none, [value]⟩
  rw [mapTokens_mk, List.map_singleton] at hstatement
  exact hstatement

/-- A grower that takes the first token or leaves it, as a condition tells. -/
lemma relabel_ite {condition : Prop} [Decidable condition] {next next' : Grower}
    (hnext : next.Relabels f next') (hother : other.RelabelsNodes f) (t : Token)
    (rest : List Token) :
    (if condition then next' (rest.map f) else other (f t :: rest.map f)) =
      (if condition then next rest else other (t :: rest)).relabel f := by
  split_ifs
  · exact hnext rest
  · exact hother (t :: rest)

end

section

variable (hf : Token.KeepsWord f) {statement : Grower} {expression : Reader Tree}

include hf

/-- A name is the leaf of the mapped token. -/
lemma relabels_name (kind : Kind) (expected : Expected) : (name kind expected).RelabelsNodes f := by
  refine relabels_one ((Reader.relabels_identifier hf expected).bind fun t => ?_)
  rw [← mapTokens_leaf]
  exact Reader.relabels_pure _

/-- The closing keyword is the same keyword when it is mapped. -/
lemma relabels_close : close.RelabelsNodes f :=
  relabels_silent (Reader.relabels_expect hf _ _)

/-! ### Statements -/

/-- Statements are closed by the same keywords when these are mapped. -/
lemma relabels_statements (hstatement : statement.RelabelsNodes f) (closers : List String)
    (bound : List Token) :
    (statements statement closers bound).Relabels f
      (statements statement closers (bound.map f)) := by
  induction bound with
  | nil => exact fun _ => rfl
  | cons _ bound ih =>
    intro tokens
    cases tokens with
    | nil => rfl
    | cons t rest =>
      rw [List.map_cons, List.map_cons, statements, statements, hf.category_eq, hf.text_eq]
      split_ifs
      · rfl
      · exact relabels_andThen hstatement ih (t :: rest)

/-- The tokens at hand are a bound of the same length when they are mapped. -/
lemma relabels_statements_self (hstatement : statement.RelabelsNodes f) (closers : List String) :
    Grower.RelabelsNodes f fun tokens => statements statement closers tokens tokens :=
  fun tokens => relabels_statements hf hstatement closers tokens tokens

/-- A block holds the mapped statements. -/
lemma relabels_block (hstatement : statement.RelabelsNodes f) (closers : List String) :
    (block statement closers).RelabelsNodes f :=
  relabels_node _ (relabels_statements_self hf hstatement closers)

/-- A base class is announced by the mapped keyword. -/
lemma relabels_baseClass : baseClass.RelabelsNodes f := by
  intro tokens
  cases tokens with
  | nil => rfl
  | cons t rest =>
    rw [List.map_cons, baseClass, baseClass, hf.isKeyword_eq]
    exact relabel_ite (relabels_name hf _ _) relabels_nothing t rest

/-- A class is mapped part by part. -/
lemma relabels_classDeclaration (hstatement : statement.RelabelsNodes f) :
    (classDeclaration statement).RelabelsNodes f := by
  refine relabels_node _ (relabels_inOrder ?_)
  simp only [List.forall_mem_cons, List.not_mem_nil, false_imp_iff, implies_true, and_true]
  exact ⟨relabels_name hf _ _, relabels_baseClass hf, relabels_statements_self hf hstatement _,
    relabels_close hf⟩

/-- Parameters are separated by the mapped commas. -/
lemma relabels_parameters (bound : List Token) :
    (parameters bound).Relabels f (parameters (bound.map f)) := by
  have hclose := relabels_silent (Reader.relabels_expect hf .delimiter ")")
  induction bound with
  | nil => exact fun _ => rfl
  | cons _ bound ih =>
    intro tokens
    rw [List.map_cons, parameters, parameters]
    refine relabels_andThen (relabels_name hf _ _) (fun rest => ?_) tokens
    cases rest with
    | nil => rfl
    | cons t rest =>
      simp only [List.map_cons, hf.is_eq]
      exact relabel_ite ih hclose t rest

/-- A parameter list holds the mapped names. -/
lemma relabels_parameterList : parameterList.RelabelsNodes f := by
  refine relabels_node _ fun tokens => ?_
  cases tokens with
  | nil => rfl
  | cons t rest =>
    have hparameters : Grower.RelabelsNodes f fun tokens => parameters tokens tokens :=
      fun tokens => relabels_parameters hf tokens tokens
    simp only [List.map_cons, hf.is_eq]
    exact relabel_ite relabels_nothing hparameters t rest

/-- A function is mapped part by part. -/
lemma relabels_functionDeclaration (hstatement : statement.RelabelsNodes f) :
    (functionDeclaration statement).RelabelsNodes f := by
  refine relabels_node _ (relabels_inOrder ?_)
  simp only [List.forall_mem_cons, List.not_mem_nil, false_imp_iff, implies_true, and_true]
  exact ⟨relabels_name hf _ _, relabels_silent (Reader.relabels_expect hf _ _),
    relabels_parameterList hf, relabels_block hf hstatement _, relabels_close hf⟩

/-- A value is announced by the mapped sign of assignment. -/
lemma relabels_initialValue (hexpression : RelabelsTree f expression) :
    (initialValue expression).RelabelsNodes f := by
  intro tokens
  cases tokens with
  | nil => rfl
  | cons t rest =>
    rw [List.map_cons, initialValue, initialValue, hf.is_eq]
    exact relabel_ite (relabels_one hexpression) relabels_nothing t rest

/-- A variable is mapped part by part. -/
lemma relabels_variableDeclaration (hexpression : RelabelsTree f expression) :
    (variableDeclaration expression).RelabelsNodes f := by
  refine relabels_node _ (relabels_inOrder ?_)
  simp only [List.forall_mem_cons, List.not_mem_nil, false_imp_iff, implies_true, and_true]
  exact ⟨relabels_name hf _ _, relabels_initialValue hf hexpression⟩

/-- An alternative is announced by the mapped keyword. -/
lemma relabels_alternative (hstatement : statement.RelabelsNodes f) :
    (alternative statement).RelabelsNodes f := by
  intro tokens
  cases tokens with
  | nil => rfl
  | cons t rest =>
    rw [List.map_cons, alternative, alternative, hf.isKeyword_eq]
    exact relabel_ite (relabels_block hf hstatement _) relabels_nothing t rest

/-- A conditional is mapped part by part. -/
lemma relabels_ifStatement (hstatement : statement.RelabelsNodes f)
    (hexpression : RelabelsTree f expression) :
    (ifStatement statement expression).RelabelsNodes f := by
  refine relabels_node _ (relabels_inOrder ?_)
  simp only [List.forall_mem_cons, List.not_mem_nil, false_imp_iff, implies_true, and_true]
  exact ⟨relabels_one hexpression, relabels_block hf hstatement _,
    relabels_alternative hf hstatement, relabels_close hf⟩

/-- A loop is mapped part by part. -/
lemma relabels_whileStatement (hstatement : statement.RelabelsNodes f)
    (hexpression : RelabelsTree f expression) :
    (whileStatement statement expression).RelabelsNodes f := by
  refine relabels_node _ (relabels_inOrder ?_)
  simp only [List.forall_mem_cons, List.not_mem_nil, false_imp_iff, implies_true, and_true]
  exact ⟨relabels_one hexpression, relabels_block hf hstatement _, relabels_close hf⟩

/-- A return has a value if the mapped token can begin one. -/
lemma relabels_returnStatement (hexpression : RelabelsTree f expression) :
    (returnStatement expression).RelabelsNodes f := by
  refine relabels_node _ fun tokens => ?_
  cases tokens with
  | nil => rfl
  | cons t rest =>
    simp only [List.map_cons, hf.startsExpression_eq]
    split_ifs
    · exact relabels_one hexpression (t :: rest)
    · rfl

/-- A mapped token begins the same statement. -/
lemma ofToken_eq (t : Token) : Opening.ofToken (f t) = Opening.ofToken t := by
  rw [Opening.ofToken, Opening.ofToken, hf.is_eq, hf.category_eq, hf.text_eq]

/-- A statement is told by the mapped token and mapped as a whole. -/
lemma relabels_statementOf (hstatement : statement.RelabelsNodes f)
    (hexpression : RelabelsTree f expression) :
    (statementOf statement expression).RelabelsNodes f := by
  intro tokens
  cases tokens with
  | nil => rfl
  | cons t rest =>
    rw [List.map_cons, statementOf, statementOf, ofToken_eq hf]
    cases Opening.ofToken t with
    | empty => rfl
    | classDeclaration => exact relabels_classDeclaration hf hstatement rest
    | functionDeclaration => exact relabels_functionDeclaration hf hstatement rest
    | variableDeclaration => exact relabels_variableDeclaration hf hexpression rest
    | ifStatement => exact relabels_ifStatement hf hstatement hexpression rest
    | whileStatement => exact relabels_whileStatement hf hstatement hexpression rest
    | returnStatement => exact relabels_returnStatement hf hexpression rest
    | expression => exact relabels_expressionStatement hexpression (t :: rest)

/-- Statements, however many levels of nesting are left. -/
theorem relabels_statement (room : ℕ) : (Tree.statement room).RelabelsNodes f := by
  induction room with
  | zero => exact relabels_silent (Reader.relabels_tooDeep .statement)
  | succ room ih =>
    rw [statement_succ]
    exact relabels_statementOf hf ih (relabels_expression_operand hf room).1

/-- A program makes its mapped statements. -/
lemma relabels_program (bound : List Token) :
    (program bound).Relabels f (program (bound.map f)) := by
  induction bound with
  | nil => intro tokens; cases tokens <;> rfl
  | cons _ bound ih =>
    intro tokens
    cases tokens with
    | nil => rfl
    | cons t rest => exact relabels_andThen (relabels_statement hf nestingLimit) ih (t :: rest)

/-- All that is read of a stream is read of the mapped stream, mapped. -/
lemma programGrowth_map (tokens : List Token) :
    programGrowth (tokens.map f) = (programGrowth tokens).relabel f :=
  relabels_program hf tokens tokens

end

/-! ### Whole streams -/

/-- The tree and the fault of a mapped stream are those of the stream, mapped. -/
lemma parse_map_eq (hf : Token.KeepsWord f) (tokens : List Token) :
    parse (tokens.map f) =
      ⟨(parse tokens).value.mapTokens f, (parse tokens).faults.map (Fault.mapToken f)⟩ := by
  have hgrowth := programGrowth_map hf tokens
  have hparse (tokens : List Token) : parse tokens =
      ⟨⟨.root, none, (programGrowth tokens).nodes⟩, (programGrowth tokens).fault.toList⟩ := rfl
  rw [hparse, hparse, hgrowth]
  simp only [Growth.relabel, mapTokens_mk, Option.map_none]
  cases (programGrowth tokens).fault <;> rfl

/-- A fault at a token says where the token is and what is wrong, and the fault at the mapped token
says the same of it. -/
lemma exists_cause_of_found (hf : Token.KeepsWord f) {fault : Fault} {t : Token}
    (hfound : fault.found? = some t) :
    ∃ cause, fault.message = Fault.located "parse error" t.origin t.position cause ∧
      (fault.mapToken f).found? = some (f t) ∧
      (fault.mapToken f).message =
        Fault.located "parse error" (f t).origin (f t).position cause := by
  cases fault with
  | unexpected expected found =>
    cases hfound
    refine ⟨_, Fault.message_unexpected expected t, rfl, ?_⟩
    rw [Fault.mapToken, Fault.message_unexpected, hf.text_eq]
  | nestedTooDeep what found =>
    cases hfound
    exact ⟨_, Fault.message_nestedTooDeep what t, rfl, Fault.message_nestedTooDeep what (f t)⟩
  | _ => cases hfound

/-- A fault of a stream that is not at one of its tokens is that there should be more of them. -/
lemma eq_endOfInput_of_found {tokens : List Token} {fault : Fault}
    (h : fault ∈ (parse tokens).faults) (hfound : fault.found? = none) :
    ∃ expected, fault = .endOfInput expected := by
  have hstops := (continues_programGrowth tokens []).stopsAt (mem_faults_parse.mp h)
  generalize (programGrowth tokens).rest = left at hstops
  cases hstops with
  | atToken hsome => cases hfound.symm.trans hsome
  | atEnd expected => exact ⟨expected, rfl⟩

/-- A map of tokens that keeps category and text, whatever it does to the rest of them, maps the
tree of every stream and nothing else: the mapped stream is complete when the stream is, and its
fault is the fault of the stream, with the same message, at the mapped token of the same number. -/
theorem parse_map (hf : Token.KeepsWord f) (tokens : List Token) :
    (parse (tokens.map f)).isComplete = (parse tokens).isComplete ∧
      (parse (tokens.map f)).value = (parse tokens).value.mapTokens f ∧
      (parse (tokens.map f)).faults = (parse tokens).faults.map (Fault.mapToken f) ∧
      ∀ fault ∈ (parse tokens).faults,
        (∃ expected, fault = .endOfInput expected ∧ fault.mapToken f = fault) ∨
        ∃ (k : ℕ) (t : Token) (cause : String),
          tokens[k]? = some t ∧ fault.found? = some t ∧
          fault.message = Fault.located "parse error" t.origin t.position cause ∧
          (tokens.map f)[k]? = some (f t) ∧ (fault.mapToken f).found? = some (f t) ∧
          (fault.mapToken f).message =
            Fault.located "parse error" (f t).origin (f t).position cause := by
  have hmap := parse_map_eq hf tokens
  refine ⟨?_, congrArg Salvage.value hmap, congrArg Salvage.faults hmap, ?_⟩
  · rw [hmap, Salvage.isComplete, Salvage.isComplete, List.isEmpty_map]
  · intro fault hfault
    cases hfound : fault.found? with
    | none =>
      obtain ⟨expected, rfl⟩ := eq_endOfInput_of_found hfault hfound
      exact .inl ⟨expected, rfl, rfl⟩
    | some t =>
      obtain ⟨k, hk, -, -⟩ := exists_index_of_found hfault hfound
      obtain ⟨cause, hmessage, hmapped, hmappedMessage⟩ := exists_cause_of_found hf hfound
      have hmappedToken : (tokens.map f)[k]? = some (f t) := by
        rw [List.getElem?_map, hk, Option.map_some]
      exact .inr ⟨k, t, cause, hk, rfl, hmessage, hmappedToken, hmapped, hmappedMessage⟩

/-- A faulty source laid out anew, as if it were in another file. -/
theorem parse_map_elsewhere :
    let f (t : Token) : Token :=
      ⟨⟨"other"⟩, ⟨t.position.offset + 1, 1, 2 * t.position.offset⟩, t.category, .plain, t.text, 0⟩
    let tokens := (Token.tokenize ⟨"m"⟩ (Utf8.encode "class A end let x = 'a' + )")).value
    Token.KeepsWord f ∧ (parse tokens).isComplete = false ∧
      (parse (tokens.map f)).isComplete = false ∧
      (parse (tokens.map f)).value = (parse tokens).value.mapTokens f := by
  intro f tokens
  have hf : Token.KeepsWord f := ⟨fun _ => rfl, fun _ => rfl⟩
  have hcomplete : (parse tokens).isComplete = false := by decide +kernel
  obtain ⟨hsame, hvalue, -, -⟩ := parse_map hf tokens
  exact ⟨hf, hcomplete, hsame.trans hcomplete, hvalue⟩

end Tree

end UvaAnalysis
