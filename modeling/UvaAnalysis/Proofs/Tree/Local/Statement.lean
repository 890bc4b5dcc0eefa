import UvaAnalysis.Proofs.Tree.Local.Expression
import UvaAnalysis.Proofs.Tree.Traversal

/-!
# Growers look at one token at a time

A grower that stops before the last of its tokens has made all the nodes that it will make, and more
tokens at the end change nothing but what is left.  When all tokens are taken, more tokens may
change the nodes: an expression that is complete so far may turn out to be part of a larger one, and
that one may be faulty and so be dropped.  The names of declarations are never part of an
expression, and those that were made stay in front of any that follow (`Growth.Continues`).
-/

namespace UvaAnalysis.Tree

open Grower (nothing one silent inOrder node name close)

/-! ### Growths with more tokens -/

/-- How what a grower gives is related to what it gives with `extra` tokens at the end: it is the
same, but that more is left, if some token was left; otherwise the grower gets to the extra tokens
at least, and keeps the names that it made. -/
inductive Growth.Continues (extra : List Token) : Growth → Growth → Prop where
  | settled (nodes : List Tree) {fault : Option Fault} {t : Token} {rest : List Token}
      (hfault : ∀ f ∈ fault, f.StopsAt (t :: rest)) :
      Continues extra ⟨nodes, fault, t :: rest⟩ ⟨nodes, fault, t :: rest ++ extra⟩
  | reached {nodes : List Tree} {fault : Option Fault} {more : Growth}
      (hfault : ∀ f ∈ fault, f.StopsAt []) (hrest : more.rest <:+ extra)
      (hnames : nodes.flatMap startedNames <+: more.nodes.flatMap startedNames) :
      Continues extra ⟨nodes, fault, []⟩ more

/-- A grower that looks at one token at a time, and finds no names where there are no tokens. -/
structure Grower.Local (grower : Grower) : Prop where
  suffix : grower.LeavesSuffix
  continues : ∀ tokens extra, (grower tokens).Continues extra (grower (tokens ++ extra))
  startedNames_nil : (grower []).nodes.flatMap startedNames = []

section

variable {extra : List Token} {grower next : Grower}

/-- A growth is continued by the same growth with more left, if its fault is at what is left. -/
lemma Growth.continues_self {nodes : List Tree} {fault : Option Fault} {rest : List Token}
    (hfault : ∀ f ∈ fault, f.StopsAt rest) :
    Growth.Continues extra ⟨nodes, fault, rest⟩ ⟨nodes, fault, rest ++ extra⟩ := by
  cases rest with
  | nil => exact .reached hfault (List.suffix_refl extra) (List.prefix_refl _)
  | cons t rest => exact .settled nodes hfault

/-- What is left has the fault, if there is one, at its front or at the end of the input. -/
lemma Growth.Continues.stopsAt {growth more : Growth} (h : growth.Continues extra more) {f : Fault}
    (hf : growth.fault = some f) : f.StopsAt growth.rest := by
  cases h with
  | settled nodes hfault => exact hfault f hf
  | reached hfault _ _ => exact hfault f hf

/-- The names that were made stay in front. -/
lemma Growth.Continues.startedNames_prefix {growth more : Growth}
    (h : growth.Continues extra more) :
    growth.nodes.flatMap startedNames <+: more.nodes.flatMap startedNames := by
  cases h with
  | settled nodes _ => exact List.prefix_refl _
  | reached _ _ hnames => exact hnames

/-- Names that are kept when more nodes follow. -/
lemma startedNames_prefix_mono {nodes more : List Tree} (h : nodes <+: more) :
    nodes.flatMap startedNames <+: more.flatMap startedNames := by
  obtain ⟨others, rfl⟩ := h
  rw [List.flatMap_append]
  exact List.prefix_append _ _

/-- A growth and what continues it go on alike with a local grower. -/
lemma Growth.Continues.andThen {growth more : Growth} (h : growth.Continues extra more)
    (hnext : next.Local) : (growth.andThen next).Continues extra (more.andThen next) := by
  cases h with
  | @settled nodes fault t rest hfault =>
    cases fault with
    | some fault => exact .settled nodes hfault
    | none =>
      rw [andThen_of_no_fault rfl, andThen_of_no_fault rfl]
      have hcontinues := hnext.continues (t :: rest) extra
      generalize next (t :: rest) = growth at hcontinues ⊢
      generalize next (t :: rest ++ extra) = more at hcontinues ⊢
      cases hcontinues with
      | settled others hfault => exact .settled (nodes ++ others) hfault
      | reached hfault hrest hnames =>
        refine .reached hfault hrest ?_
        rw [List.flatMap_append, List.flatMap_append]
        exact (List.prefix_append_right_inj _).mpr hnames
  | @reached nodes fault more hfault hrest hnames =>
    have hmoreRest := (more.andThen_rest_suffix hnext.suffix).trans hrest
    have hmoreNames := hnames.trans
      (startedNames_prefix_mono (more.nodes_prefix_andThen next))
    cases fault with
    | some fault => exact .reached hfault hmoreRest hmoreNames
    | none =>
      rw [andThen_of_no_fault rfl]
      -- All tokens are taken, so there is none left for what comes next.
      have hnil : (next []).rest = [] := List.suffix_nil.mp (hnext.suffix [])
      have hstops : ∀ f ∈ (next []).fault, f.StopsAt [] := fun f hf =>
        hnil ▸ (hnext.continues [] []).stopsAt hf
      rw [hnil]
      refine .reached hstops hmoreRest ?_
      rw [List.flatMap_append, hnext.startedNames_nil, List.append_nil]
      exact hmoreNames

/-! ### The combinators -/

/-- A grower that takes nothing looks at no token. -/
lemma local_nothing : nothing.Local :=
  ⟨leavesSuffix_nothing, fun _ _ => Growth.continues_self (fun _ hf => nomatch hf), rfl⟩

/-- A grower that asks for more tokens. -/
lemma local_endOfInput (expected : Expected) :
    Grower.Local fun tokens => ⟨[], some (.endOfInput expected), tokens⟩ := by
  refine ⟨fun tokens => List.suffix_refl tokens, fun tokens extra => ?_, rfl⟩
  refine Growth.continues_self fun f hf => ?_
  obtain rfl := Option.some.inj hf
  exact .atEnd expected tokens

/-- A grower of one node is local if its reader is and makes no names. -/
lemma local_one {reader : Reader Tree} (h : reader.Local)
    (hnames : reader.Ensures fun _ tree => tree.startedNames = []) : (one reader).Local := by
  refine ⟨leavesSuffix_one h.suffix, fun tokens extra => ?_, ?_⟩
  · have hcontinues := h.continues tokens extra
    unfold one
    cases hresult : reader tokens with
    | ok tree rest =>
      obtain ⟨_, -, htree⟩ := hnames hresult
      rw [hresult] at hcontinues
      generalize reader (tokens ++ extra) = more at hcontinues ⊢
      cases hcontinues with
      | made _ t rest => exact .settled [tree] fun _ hf => nomatch hf
      | madeOfAll _ hrest =>
        -- With more tokens the node may be another one, so it must not make names.
        have hnone : [tree].flatMap startedNames = [] := by
          rw [List.flatMap_singleton, htree]
        refine .reached (fun _ hf => nomatch hf) ?_ (hnone ▸ List.nil_prefix)
        cases more <;> exact hrest
    | error fault rest =>
      rw [hresult] at hcontinues
      generalize reader (tokens ++ extra) = more at hcontinues ⊢
      cases hcontinues with
      | stopped hstops =>
        refine .settled [] fun f hf => ?_
        obtain rfl := Option.some.inj hf
        exact hstops
      | stoppedAtEnd expected hrest =>
        refine .reached (fun f hf => ?_) ?_ List.nil_prefix
        · obtain rfl := Option.some.inj hf
          exact .atEnd expected []
        · cases more <;> exact hrest
  · unfold one
    cases hresult : reader [] with
    | ok tree rest =>
      obtain ⟨_, -, htree⟩ := hnames hresult
      rw [List.flatMap_singleton, htree]
    | error fault rest => rfl

/-- A grower without a node is local if its reader is. -/
lemma local_silent {reader : Reader Unit} (h : reader.Local) : (silent reader).Local := by
  refine ⟨leavesSuffix_silent h.suffix, fun tokens extra => ?_, ?_⟩
  · have hcontinues := h.continues tokens extra
    unfold silent
    generalize reader tokens = result at hcontinues ⊢
    generalize reader (tokens ++ extra) = more at hcontinues ⊢
    cases hcontinues with
    | made _ t rest => exact .settled [] fun _ hf => nomatch hf
    | stopped hstops =>
      refine .settled [] fun f hf => ?_
      obtain rfl := Option.some.inj hf
      exact hstops
    | madeOfAll _ hrest =>
      refine .reached (fun _ hf => nomatch hf) ?_ List.nil_prefix
      cases more <;> exact hrest
    | stoppedAtEnd expected hrest =>
      refine .reached (fun f hf => ?_) ?_ List.nil_prefix
      · obtain rfl := Option.some.inj hf
        exact .atEnd expected []
      · cases more <;> exact hrest
  · unfold silent
    cases reader [] <;> rfl

/-- Of two local growers in turn, the second goes on from where the first stopped. -/
lemma local_andThen (h : grower.Local) (hnext : next.Local) :
    Grower.Local fun tokens => (grower tokens).andThen next := by
  refine ⟨fun tokens => ?_, fun tokens extra => (h.continues tokens extra).andThen hnext, ?_⟩
  · exact ((grower tokens).andThen_rest_suffix hnext.suffix).trans (h.suffix tokens)
  · have hcontinues := (h.continues [] []).andThen hnext
    cases hfault : (grower []).fault with
    | some fault =>
      rw [Growth.andThen_of_fault hfault]
      exact h.startedNames_nil
    | none =>
      have hrest : (grower []).rest = [] := List.suffix_nil.mp (h.suffix [])
      rw [Growth.andThen_of_no_fault hfault, hrest, List.flatMap_append, h.startedNames_nil,
        hnext.startedNames_nil, List.append_nil]

/-- Growers in turn are local if each of them is. -/
lemma local_inOrder {growers : List Grower} (h : ∀ grower ∈ growers, grower.Local) :
    (inOrder growers).Local := by
  induction growers with
  | nil => exact local_nothing
  | cons grower others ih =>
    obtain ⟨hgrower, hothers⟩ := List.forall_mem_cons.mp h
    exact local_andThen hgrower (ih hothers)

/-- Making a node of what was read keeps the names in it. -/
lemma local_node (kind : Kind) (h : grower.Local) : (node kind grower).Local := by
  refine ⟨fun tokens => h.suffix tokens, fun tokens extra => ?_, ?_⟩
  · have hcontinues := h.continues tokens extra
    unfold node
    generalize grower tokens = growth at hcontinues ⊢
    generalize grower (tokens ++ extra) = more at hcontinues ⊢
    cases hcontinues with
    | settled nodes hfault => exact .settled _ hfault
    | reached hfault hrest hnames =>
      refine .reached hfault hrest ?_
      simp only [List.flatMap_singleton, startedNames_none]
      exact hnames
  · unfold node
    rw [List.flatMap_singleton, startedNames_none]
    exact h.startedNames_nil

/-- A name is made of an identifier. -/
lemma name_cons_of_identifier (kind : Kind) (expected : Expected) {t : Token} (rest : List Token)
    (h : t.category = .identifier) :
    name kind expected (t :: rest) = ⟨[leaf kind t], none, rest⟩ := by
  have hread : Reader.identifier expected (t :: rest) = .ok t rest := if_pos h
  unfold name one
  simp only [Reader.bind_apply, hread, Reader.pure_apply]

/-- No name is made of any other token. -/
lemma name_cons_of_not_identifier (kind : Kind) (expected : Expected) {t : Token}
    (rest : List Token) (h : t.category ≠ .identifier) :
    name kind expected (t :: rest) = ⟨[], some (.unexpected expected t), t :: rest⟩ := by
  have hread : Reader.identifier expected (t :: rest) =
      .error (.unexpected expected t) (t :: rest) := if_neg h
  unfold name one
  simp only [Reader.bind_apply, hread]

/-- A name is made as soon as its token is there, and no token takes it back. -/
lemma local_name (kind : Kind) (expected : Expected) : (name kind expected).Local := by
  have hsuffix : (name kind expected).LeavesSuffix :=
    leavesSuffix_one ((Reader.local_identifier expected).suffix.bind fun _ =>
      Reader.leavesSuffix_pure _)
  refine ⟨hsuffix, fun tokens extra => ?_, rfl⟩
  cases tokens with
  | nil =>
    refine .reached (fun f hf => ?_) (hsuffix extra) List.nil_prefix
    obtain rfl := Option.some.inj hf
    exact .atEnd expected []
  | cons t rest =>
    by_cases h : t.category = .identifier
    · rw [List.cons_append, name_cons_of_identifier kind expected _ h,
        name_cons_of_identifier kind expected _ h]
      exact Growth.continues_self fun _ hf => nomatch hf
    · rw [List.cons_append, name_cons_of_not_identifier kind expected _ h,
        name_cons_of_not_identifier kind expected _ h]
      refine .settled [] fun f hf => ?_
      obtain rfl := Option.some.inj hf
      exact .atToken rfl

/-- The closing keyword is told by its own token. -/
lemma local_close : close.Local :=
  local_silent (Reader.local_expect _ _)

/-- What a grower may do with the first token: go on after it, or go on with it. -/
inductive Grower.Decides (grower : Grower) (t : Token) : Prop where
  | skip (next : Grower) (hnext : next.Local) (h : ∀ rest, grower (t :: rest) = next rest)
  | keep (next : Grower) (hnext : next.Local) (h : ∀ rest, grower (t :: rest) = next (t :: rest))

/-- A grower is local if it decides on the first token what to do. -/
lemma local_of_decides (hnil : ∃ next : Grower, next.Local ∧ grower [] = next [])
    (hcons : ∀ t, grower.Decides t) : grower.Local := by
  obtain ⟨atEnd, hatEnd, hnil⟩ := hnil
  have hsuffix : grower.LeavesSuffix := by
    intro tokens
    cases tokens with
    | nil =>
      rw [hnil]
      exact hatEnd.suffix []
    | cons t rest =>
      rcases hcons t with ⟨next, hnext, h⟩ | ⟨next, hnext, h⟩
      · rw [h]
        exact (hnext.suffix rest).trans (List.suffix_cons t rest)
      · rw [h]
        exact hnext.suffix (t :: rest)
  have hnames : (grower []).nodes.flatMap startedNames = [] := hnil ▸ hatEnd.startedNames_nil
  refine ⟨hsuffix, fun tokens extra => ?_, hnames⟩
  cases tokens with
  | nil =>
    have hrest : (grower []).rest = [] := List.suffix_nil.mp (hsuffix [])
    have hstops : ∀ f ∈ (grower []).fault, f.StopsAt [] := by
      rw [hnil] at hrest ⊢
      exact fun f hf => hrest ▸ (hatEnd.continues [] []).stopsAt hf
    generalize grower [] = growth at hnames hrest hstops ⊢
    obtain ⟨nodes, fault, rest⟩ := growth
    obtain rfl : rest = [] := hrest
    exact .reached hstops (hsuffix extra) (hnames ▸ List.nil_prefix)
  | cons t rest =>
    rw [List.cons_append]
    rcases hcons t with ⟨next, hnext, h⟩ | ⟨next, hnext, h⟩
    · rw [h, h]
      exact hnext.continues rest extra
    · rw [h, h]
      exact hnext.continues (t :: rest) extra

/-- A grower that takes the first token or leaves it, as a condition tells. -/
lemma decides_ite {condition : Bool} {other : Grower} {t : Token} (hnext : next.Local)
    (hother : other.Local)
    (h : ∀ rest, grower (t :: rest) = if condition then next rest else other (t :: rest)) :
    grower.Decides t := by
  cases condition with
  | true => exact .skip next hnext h
  | false => exact .keep other hother h

/-- A loop is local if it is with every bound, and if its bound does not matter. -/
lemma local_bounded {loop : List Token → Grower} (h : ∀ bound, (loop bound).Local)
    (hbound : ∀ bound tokens, tokens.length ≤ bound.length →
      loop bound tokens = loop tokens tokens) :
    Grower.Local fun tokens => loop tokens tokens := by
  refine ⟨fun tokens => (h tokens).suffix tokens, fun tokens extra => ?_,
    (h []).startedNames_nil⟩
  have hsame : loop tokens tokens = loop (tokens ++ extra) tokens := by
    refine (hbound (tokens ++ extra) tokens ?_).symm
    rw [List.length_append]
    exact Nat.le_add_right _ _
  simp only [hsame]
  exact (h (tokens ++ extra)).continues tokens extra

end

/-! ### Statements, with a fixed bound -/

/-- A grower that takes at least one token unless a fault stops it. -/
def Grower.Takes (grower : Grower) : Prop :=
  ∀ ⦃tokens : List Token⦄, (grower tokens).fault = none →
    (grower tokens).rest.length < tokens.length

section

variable {statement : Grower} {expression : Reader Tree} {bound bound' tokens : List Token}

/-- Statements are local: the next token tells whether they are closed. -/
lemma local_statements (hstatement : statement.Local) (closers : List String)
    (bound : List Token) : (statements statement closers bound).Local := by
  induction bound with
  | nil => exact local_endOfInput (.words closers)
  | cons _ bound ih =>
    refine local_of_decides ⟨_, local_endOfInput (.words closers), rfl⟩ fun t => ?_
    by_cases h : t.category = .keyword ∧ t.text ∈ closers
    · exact .keep nothing local_nothing fun rest => by rw [statements, if_pos h, nothing]
    · exact .keep _ (local_andThen hstatement ih) fun rest => by rw [statements, if_neg h]

/-- What follows the name of a parameter, given what follows a comma. -/
lemma local_parameters_next {more : Grower} (hmore : more.Local) :
    Grower.Local fun
      | [] => silent (Reader.expect .delimiter ")") []
      | t :: rest =>
        if t.is .delimiter "," then more rest
        else silent (Reader.expect .delimiter ")") (t :: rest) := by
  have hclose := local_silent (Reader.local_expect .delimiter ")")
  exact local_of_decides ⟨_, hclose, rfl⟩ fun t => decides_ite hmore hclose fun _ => rfl

/-- Parameters are local: the token behind a name tells whether there is another. -/
lemma local_parameters (bound : List Token) : (parameters bound).Local := by
  induction bound with
  | nil => exact local_endOfInput .parameterName
  | cons _ bound ih => exact local_andThen (local_name _ _) (local_parameters_next ih)

/-- A program is local: it ends only where the tokens do. -/
lemma local_program (hstatement : (Tree.statement nestingLimit).Local) (bound : List Token) :
    (program bound).Local := by
  induction bound with
  | nil =>
    exact local_of_decides ⟨_, local_nothing, rfl⟩ fun t => .keep _ local_nothing fun _ => rfl
  | cons _ bound ih =>
    exact local_of_decides ⟨_, local_nothing, rfl⟩ fun t =>
      .keep _ (local_andThen hstatement ih) fun _ => rfl

/-! ### Bounds that do not matter -/

/-- What is read next matters only if no fault came before. -/
lemma Growth.andThen_congr {growth : Growth} {next next' : Grower}
    (h : growth.fault = none → next growth.rest = next' growth.rest) :
    growth.andThen next = growth.andThen next' := by
  cases hfault : growth.fault with
  | some fault => rw [andThen_of_fault hfault, andThen_of_fault hfault]
  | none => rw [andThen_of_no_fault hfault, andThen_of_no_fault hfault, h hfault]

/-- Each statement takes a token, so a bound of as many tokens is never used up. -/
lemma statements_bound (htakes : statement.Takes) (closers : List String)
    (h : tokens.length ≤ bound.length) (h' : tokens.length ≤ bound'.length) :
    statements statement closers bound tokens = statements statement closers bound' tokens := by
  have hend (bound : List Token) :
      statements statement closers bound [] = ⟨[], some (.endOfInput (.words closers)), []⟩ := by
    cases bound <;> rfl
  induction bound generalizing bound' tokens with
  | nil =>
    obtain rfl := List.length_eq_zero_iff.mp (Nat.le_zero.mp h)
    rw [hend, hend]
  | cons _ bound ih =>
    cases tokens with
    | nil => rw [hend, hend]
    | cons t tokens =>
      obtain ⟨_, bound', rfl⟩ := List.exists_cons_of_length_pos (Nat.lt_of_lt_of_le (by simp) h')
      rw [statements, statements]
      split_ifs with hcloser
      · rfl
      · refine Growth.andThen_congr fun hfault => ?_
        have hshorter := htakes hfault
        simp only [List.length_cons] at h h' hshorter
        exact ih (by omega) (by omega)

/-- Each parameter takes its name, so a bound of as many tokens is never used up. -/
lemma parameters_bound (h : tokens.length ≤ bound.length) (h' : tokens.length ≤ bound'.length) :
    parameters bound tokens = parameters bound' tokens := by
  have hend (bound : List Token) :
      parameters bound [] = ⟨[], some (.endOfInput .parameterName), []⟩ := by
    cases bound <;> rfl
  induction bound generalizing bound' tokens with
  | nil =>
    obtain rfl := List.length_eq_zero_iff.mp (Nat.le_zero.mp h)
    rw [hend, hend]
  | cons _ bound ih =>
    cases tokens with
    | nil => rw [hend, hend]
    | cons t tokens =>
      obtain ⟨_, bound', rfl⟩ := List.exists_cons_of_length_pos (Nat.lt_of_lt_of_le (by simp) h')
      rw [parameters, parameters]
      refine Growth.andThen_congr fun _ => ?_
      have hle := ((local_name .parameter .parameterName).suffix (t :: tokens)).length_le
      generalize (name .parameter .parameterName (t :: tokens)).rest = rest at hle
      cases rest with
      | nil => rfl
      | cons u rest =>
        simp only [List.length_cons] at h h' hle
        simp only
        split_ifs
        · exact ih (by omega) (by omega)
        · rfl

/-- Each statement of a program takes a token, so a bound of as many tokens is never used up. -/
lemma program_bound (htakes : (Tree.statement nestingLimit).Takes)
    (h : tokens.length ≤ bound.length) (h' : tokens.length ≤ bound'.length) :
    program bound tokens = program bound' tokens := by
  induction bound generalizing bound' tokens with
  | nil =>
    obtain rfl := List.length_eq_zero_iff.mp (Nat.le_zero.mp h)
    rw [program, program]
  | cons _ bound ih =>
    cases tokens with
    | nil => rw [program, program]
    | cons t tokens =>
      obtain ⟨_, bound', rfl⟩ := List.exists_cons_of_length_pos (Nat.lt_of_lt_of_le (by simp) h')
      rw [program, program]
      refine Growth.andThen_congr fun hfault => ?_
      have hshorter := htakes hfault
      simp only [List.length_cons] at h h' hshorter
      exact ih (by omega) (by omega)

/-! ### Statements -/

/-- What it takes of the grower of an inner statement to make the growers around it local. -/
structure IsLocalStatement (statement : Grower) : Prop where
  isLocal : statement.Local
  takes : statement.Takes

/-- Statements that are bounded by the tokens at hand are local too. -/
lemma local_statements_self (h : IsLocalStatement statement) (closers : List String) :
    Grower.Local fun tokens => statements statement closers tokens tokens :=
  local_bounded (local_statements h.isLocal closers) fun _ _ hbound =>
    statements_bound h.takes closers hbound (Nat.le_refl _)

/-- A block is local, since its statements are. -/
lemma local_block (h : IsLocalStatement statement) (closers : List String) :
    (block statement closers).Local :=
  local_node _ (local_statements_self h closers)

/-- A base class is told by the keyword before it. -/
lemma local_baseClass : baseClass.Local :=
  local_of_decides ⟨_, local_nothing, rfl⟩ fun _ =>
    decides_ite (local_name _ _) local_nothing fun _ => rfl

/-- A class is local, part by part. -/
lemma local_classDeclaration (h : IsLocalStatement statement) :
    (classDeclaration statement).Local := by
  refine local_node _ (local_inOrder ?_)
  simp only [List.forall_mem_cons, List.not_mem_nil, false_imp_iff, implies_true, and_true]
  exact ⟨local_name _ _, local_baseClass, local_statements_self h _, local_close⟩

/-- Whether there are parameters is told by the token behind the parenthesis. -/
lemma local_parameterList : parameterList.Local := by
  have hparameters : Grower.Local fun tokens => parameters tokens tokens :=
    local_bounded local_parameters fun _ _ hbound => parameters_bound hbound (Nat.le_refl _)
  exact local_node _ (local_of_decides ⟨_, hparameters, rfl⟩ fun _ =>
    decides_ite local_nothing hparameters fun _ => rfl)

/-- A function is local, part by part. -/
lemma local_functionDeclaration (h : IsLocalStatement statement) :
    (functionDeclaration statement).Local := by
  refine local_node _ (local_inOrder ?_)
  simp only [List.forall_mem_cons, List.not_mem_nil, false_imp_iff, implies_true, and_true]
  exact ⟨local_name _ _, local_silent (Reader.local_expect _ _), local_parameterList,
    local_block h _, local_close⟩

/-- A value is told by the sign of assignment before it. -/
lemma local_initialValue (hexpression : (one expression).Local) :
    (initialValue expression).Local :=
  local_of_decides ⟨_, local_nothing, rfl⟩ fun _ =>
    decides_ite hexpression local_nothing fun _ => rfl

/-- A variable is local, part by part. -/
lemma local_variableDeclaration (hexpression : (one expression).Local) :
    (variableDeclaration expression).Local := by
  refine local_node _ (local_inOrder ?_)
  simp only [List.forall_mem_cons, List.not_mem_nil, false_imp_iff, implies_true, and_true]
  exact ⟨local_name _ _, local_initialValue hexpression⟩

/-- An alternative is told by the keyword before it. -/
lemma local_alternative (h : IsLocalStatement statement) : (alternative statement).Local :=
  local_of_decides ⟨_, local_nothing, rfl⟩ fun _ =>
    decides_ite (local_block h _) local_nothing fun _ => rfl

/-- A conditional is local, part by part. -/
lemma local_ifStatement (h : IsLocalStatement statement) (hexpression : (one expression).Local) :
    (ifStatement statement expression).Local := by
  refine local_node _ (local_inOrder ?_)
  simp only [List.forall_mem_cons, List.not_mem_nil, false_imp_iff, implies_true, and_true]
  exact ⟨hexpression, local_block h _, local_alternative h, local_close⟩

/-- A loop is local, part by part. -/
lemma local_whileStatement (h : IsLocalStatement statement)
    (hexpression : (one expression).Local) : (whileStatement statement expression).Local := by
  refine local_node _ (local_inOrder ?_)
  simp only [List.forall_mem_cons, List.not_mem_nil, false_imp_iff, implies_true, and_true]
  exact ⟨hexpression, local_block h _, local_close⟩

/-- Whether a return has a value is told by the token behind it. -/
lemma local_returnStatement (hexpression : (one expression).Local) :
    (returnStatement expression).Local := by
  refine local_node _ (local_of_decides ⟨_, local_nothing, rfl⟩ fun t => ?_)
  by_cases h : t.startsExpression = true
  · exact .keep _ hexpression fun _ => if_pos h
  · exact .keep _ local_nothing fun _ => if_neg h

/-- What it takes of the reader of an expression to make a statement of it. -/
lemma local_expressionStatement (hlocal : expression.Local)
    (hnames : expression.Ensures fun _ tree => tree.startedNames = []) :
    (expressionStatement expression).Local := by
  refine local_one (hlocal.bind fun _ => Reader.local_pure _) (hnames.bind ?_)
  intro _ value hvalue
  refine Reader.ensures_pure ?_
  rw [startedNames_none, List.flatMap_singleton, hvalue]

/-- Which statement it is is told by its first token. -/
lemma local_statementOf (h : IsLocalStatement statement) (hlocal : expression.Local)
    (hnames : expression.Ensures fun _ tree => tree.startedNames = []) :
    (statementOf statement expression).Local := by
  have hexpression := local_one hlocal hnames
  refine local_of_decides ⟨_, local_endOfInput .statement, rfl⟩ fun t => ?_
  have hskip {next : Grower} (hnext : next.Local)
      (heq : ∀ rest, statementOf statement expression (t :: rest) = next rest) :
      (statementOf statement expression).Decides t := .skip next hnext heq
  cases hopening : Opening.ofToken t with
  | empty =>
    exact hskip local_nothing fun _ => by simp only [statementOf, hopening]
  | classDeclaration =>
    exact hskip (local_classDeclaration h) fun _ => by simp only [statementOf, hopening]
  | functionDeclaration =>
    exact hskip (local_functionDeclaration h) fun _ => by simp only [statementOf, hopening]
  | variableDeclaration =>
    exact hskip (local_variableDeclaration hexpression) fun _ => by
      simp only [statementOf, hopening]
  | ifStatement =>
    exact hskip (local_ifStatement h hexpression) fun _ => by simp only [statementOf, hopening]
  | whileStatement =>
    exact hskip (local_whileStatement h hexpression) fun _ => by simp only [statementOf, hopening]
  | returnStatement =>
    exact hskip (local_returnStatement hexpression) fun _ => by simp only [statementOf, hopening]
  | expression =>
    exact .keep _ (local_expressionStatement hlocal hnames) fun _ => by
      simp only [statementOf, hopening]

/-- A statement that is read takes a token, whatever it is, so the loops around it come to an end.
-/
lemma takes_statementOf (h : IsLocalStatement statement) (hexpression : (one expression).Local)
    (htakes : expression.Takes) : (statementOf statement expression).Takes := by
  intro tokens hfault
  cases tokens with
  | nil => cases hfault
  | cons t tokens =>
    have hafter {grower : Grower} (hgrower : grower.Local) :
        (grower tokens).rest.length < (t :: tokens).length :=
      Nat.lt_succ_of_le (hgrower.suffix tokens).length_le
    rw [statementOf] at hfault ⊢
    cases hopening : Opening.ofToken t with
    | empty => exact hafter local_nothing
    | classDeclaration => exact hafter (local_classDeclaration h)
    | functionDeclaration => exact hafter (local_functionDeclaration h)
    | variableDeclaration => exact hafter (local_variableDeclaration hexpression)
    | ifStatement => exact hafter (local_ifStatement h hexpression)
    | whileStatement => exact hafter (local_whileStatement h hexpression)
    | returnStatement => exact hafter (local_returnStatement hexpression)
    | expression =>
      simp only [hopening, expressionStatement, one, Reader.bind_apply] at hfault ⊢
      cases heq : expression (t :: tokens) with
      | ok value rest =>
        simp only [Reader.pure_apply]
        exact htakes heq
      | error fault rest =>
        simp only [heq] at hfault
        cases hfault

end

/-- An expression names nothing that is declared. -/
lemma Derives.startedNames_eq_nil {room : ℕ} {used : List Token} {tree : Tree}
    (h : Derives room used tree) : tree.startedNames = [] := by
  have hall {elements : List (List Token × Tree)}
      (h : ∀ element ∈ elements, element.2.startedNames = []) :
      (elements.map Prod.snd).flatMap startedNames = [] :=
    List.flatMap_eq_nil_iff.mpr (List.forall_mem_map.mpr h)
  induction h with
  | literal _ | name _ => rfl
  | parenthesized _ _ _ _ ih => exact ih
  | array _ _ _ _ _ ih =>
    rw [startedNames_of_not rfl]
    exact hall ih
  | call _ _ _ _ _ _ ihsubject ih => simp [startedNames_none, ihsubject, hall ih]
  | member _ _ _ ihsubject =>
    rw [startedNames_none, List.flatMap_cons, ihsubject]
    rfl
  | index _ _ _ _ _ ihsubject ih => simp [startedNames_none, ihsubject, ih]
  | unary _ _ _ ih =>
    rw [startedNames_of_not rfl, List.flatMap_singleton, ih]
  | binary _ _ _ ihleft ihright =>
    rw [startedNames_of_not rfl, List.flatMap_cons, List.flatMap_singleton, ihleft, ihright,
      List.append_nil]
  | assignment _ _ _ _ ihtarget ihvalue =>
    rw [startedNames_of_not rfl, List.flatMap_cons, List.flatMap_singleton, ihtarget, ihvalue,
      List.append_nil]

/-- No name of a declaration is part of an expression. -/
lemma startedNames_expression (room : ℕ) :
    (expression room).Ensures fun _ tree => tree.startedNames = [] :=
  (derives_expression_operand room).1.mono fun _ _ h => h.2.startedNames_eq_nil

/-- Statements are read one token at a time, however many levels of nesting are left. -/
theorem local_statement (room : ℕ) : IsLocalStatement (statement room) := by
  induction room with
  | zero =>
    refine ⟨local_silent (Reader.local_tooDeep .statement), fun tokens hfault => ?_⟩
    cases tokens <;> cases hfault
  | succ room ih =>
    have hlocal := (local_expression_operand room).1.isLocal
    have hnames := startedNames_expression room
    rw [statement_succ]
    exact ⟨local_statementOf ih hlocal hnames,
      takes_statementOf ih (local_one hlocal hnames) (takes_expression room)⟩

/-- A program is read one token at a time. -/
theorem local_program_self : Grower.Local fun tokens => program tokens tokens :=
  have hstatement := local_statement nestingLimit
  local_bounded (local_program hstatement.isLocal) fun _ _ hbound =>
    program_bound hstatement.takes hbound (Nat.le_refl _)

/-- A program that no fault stops is read up to the end. -/
theorem program_rest_eq_nil {bound tokens : List Token} (hbound : tokens.length ≤ bound.length)
    (hfault : (program bound tokens).fault = none) : (program bound tokens).rest = [] := by
  induction bound generalizing tokens with
  | nil =>
    obtain rfl := List.length_eq_zero_iff.mp (Nat.le_zero.mp hbound)
    rfl
  | cons _ bound ih =>
    cases tokens with
    | nil => rfl
    | cons t tokens =>
      rw [program] at hfault ⊢
      cases hstatement : (statement nestingLimit (t :: tokens)).fault with
      | some fault =>
        rw [Growth.andThen_of_fault hstatement, hstatement] at hfault
        cases hfault
      | none =>
        rw [Growth.andThen_of_no_fault hstatement] at hfault ⊢
        have hshorter := (local_statement nestingLimit).takes hstatement
        exact ih (Nat.le_of_lt_succ (Nat.lt_of_lt_of_le hshorter hbound)) hfault

end UvaAnalysis.Tree
