import Mathlib.Data.List.Basic
import UvaAnalysis.Tree.Statement

/-!
# What expressions are made of

A grammar for expressions that says which tokens make up which tree, and how many levels of nesting
that takes.  It knows nothing of precedence, so it gives one list of tokens many trees; the readers
of `Tree` choose among them.  Whatever they make of the tokens that they take, the grammar derives
(`derives_expression`), so a fact about all expressions that are read is an induction on a
derivation.
-/

namespace UvaAnalysis

/-! ### What a reader ensures -/

namespace Reader

variable {α β : Type} {post : List Token → α → Prop}

/-- Whenever the reader succeeds, `post` relates the tokens that it took to what it made of them. -/
def Ensures (reader : Reader α) (post : List Token → α → Prop) : Prop :=
  ∀ ⦃tokens rest : List Token⦄ ⦃a : α⦄, reader tokens = .ok a rest →
    ∃ used, tokens = used ++ rest ∧ post used a

/-- What is ensured may be weakened. -/
lemma Ensures.mono {reader : Reader α} {weaker : List Token → α → Prop} (h : reader.Ensures post)
    (hpost : ∀ used a, post used a → weaker used a) : reader.Ensures weaker := by
  intro tokens rest a heq
  obtain ⟨used, htokens, hused⟩ := h heq
  exact ⟨used, htokens, hpost used a hused⟩

/-- A reader that takes nothing ensures what holds without tokens. -/
lemma ensures_pure {a : α} (h : post [] a) : (pure a : Reader α).Ensures post := by
  intro tokens rest b heq
  obtain ⟨rfl, rfl⟩ := EStateM.Result.ok.inj heq
  exact ⟨[], rfl, h⟩

/-- Of two readers in turn, the second may rely on what the first ensures, and together they took
the tokens of both. -/
lemma Ensures.bind {reader : Reader α} {next : α → Reader β} {last : List Token → β → Prop}
    (h : reader.Ensures post)
    (hnext : ∀ used a, post used a → (next a).Ensures fun more b => last (used ++ more) b) :
    (reader >>= next).Ensures last := by
  intro tokens rest b heq
  rw [bind_apply] at heq
  cases hreader : reader tokens with
  | error fault between =>
    rw [hreader] at heq
    cases heq
  | ok a between =>
    rw [hreader] at heq
    obtain ⟨used, rfl, hused⟩ := h hreader
    obtain ⟨more, rfl, hmore⟩ := hnext used a hused heq
    exact ⟨used ++ more, (List.append_assoc used more rest).symm, hmore⟩

/-- A reader that is given the tokens at hand as a bound. -/
lemma ensures_bounded {loop : List Token → Reader α} (h : ∀ bound, (loop bound).Ensures post) :
    Ensures (fun tokens => loop tokens tokens) post :=
  fun tokens _ _ heq => h tokens heq

/-- A reader that takes at least one token when it succeeds. -/
def Takes (reader : Reader α) : Prop :=
  ∀ ⦃tokens rest : List Token⦄ ⦃a : α⦄, reader tokens = .ok a rest → rest.length < tokens.length

/-- A reader that ensures that it took something makes progress. -/
lemma Ensures.takes {reader : Reader α} (h : reader.Ensures post)
    (hpost : ∀ used a, post used a → used ≠ []) : reader.Takes := by
  intro tokens rest a heq
  obtain ⟨used, rfl, hused⟩ := h heq
  rw [List.length_append]
  exact Nat.lt_add_of_pos_left (List.length_pos_of_ne_nil (hpost used a hused))

/-- A reader that always fails ensures anything. -/
lemma ensures_tooDeep (what : Expected) : (tooDeep what : Reader α).Ensures post := by
  intro tokens rest a heq
  cases tokens <;> cases heq

/-- A token that is asked for is taken, or nothing is. -/
lemma ensures_take? (wanted : Token → Bool) :
    (take? wanted).Ensures fun used found =>
      (∃ t, used = [t] ∧ wanted t = true ∧ found = some t) ∨ (used = [] ∧ found = none) := by
  intro tokens rest found heq
  cases tokens with
  | nil =>
    obtain ⟨rfl, rfl⟩ := EStateM.Result.ok.inj heq
    exact ⟨[], rfl, .inr ⟨rfl, rfl⟩⟩
  | cons t others =>
    rw [take?] at heq
    split_ifs at heq with hwanted <;> obtain ⟨rfl, rfl⟩ := EStateM.Result.ok.inj heq
    · exact ⟨[t], rfl, .inl ⟨t, rfl, hwanted, rfl⟩⟩
    · exact ⟨[], rfl, .inr ⟨rfl, rfl⟩⟩

/-- A token that is accepted is taken, or nothing is. -/
lemma ensures_accept (category : Token.Category) (text : String) :
    (accept category text).Ensures fun used found =>
      (∃ t, used = [t] ∧ t.is category text = true ∧ found = true) ∨
        (used = [] ∧ found = false) := by
  intro tokens rest found heq
  cases tokens with
  | nil =>
    obtain ⟨rfl, rfl⟩ := EStateM.Result.ok.inj heq
    exact ⟨[], rfl, .inr ⟨rfl, rfl⟩⟩
  | cons t others =>
    rw [accept] at heq
    split_ifs at heq with his <;> obtain ⟨rfl, rfl⟩ := EStateM.Result.ok.inj heq
    · exact ⟨[t], rfl, .inl ⟨t, rfl, his, rfl⟩⟩
    · exact ⟨[], rfl, .inr ⟨rfl, rfl⟩⟩

/-- A token that is expected is the only one that is taken. -/
lemma ensures_expect (category : Token.Category) (text : String) :
    (expect category text).Ensures fun used _ => ∃ t, used = [t] ∧ t.is category text = true := by
  intro tokens rest a heq
  cases tokens with
  | nil => cases heq
  | cons t others =>
    rw [expect] at heq
    split_ifs at heq with his
    obtain ⟨rfl, rfl⟩ := EStateM.Result.ok.inj heq
    exact ⟨[t], rfl, t, rfl, his⟩

/-- A name that is read is the only token that is taken. -/
lemma ensures_identifier (expected : Expected) :
    (identifier expected).Ensures fun used t => used = [t] ∧ t.category = .identifier := by
  intro tokens rest t heq
  cases tokens with
  | nil => cases heq
  | cons u others =>
    rw [identifier] at heq
    split_ifs at heq with hidentifier
    obtain ⟨rfl, rfl⟩ := EStateM.Result.ok.inj heq
    exact ⟨[u], rfl, rfl, hidentifier⟩

end Reader

namespace Tree

open Reader

/-! ### The grammar -/

/-- Stretches of tokens with a comma between each and the next. -/
inductive Joined : List (List Token) → List Token → Prop where
  | nil : Joined [] []
  | singleton (stretch : List Token) : Joined [stretch] stretch
  | cons (stretch : List Token) {comma : Token} {next used : List Token}
      {others : List (List Token)} (hcomma : comma.is .delimiter ",")
      (h : Joined (next :: others) used) :
      Joined (stretch :: next :: others) (stretch ++ comma :: used)

/-- The tokens are an expression with the given tree, and need no more than `room` levels of nesting
inside it.  The elements of a list are given as the tokens and the tree of each. -/
inductive Derives : (room : ℕ) → List Token → Tree → Prop where
  | literal {room : ℕ} {t : Token} (ht : t.category = .literal) : Derives room [t] (leaf .literal t)
  | name {room : ℕ} {t : Token} (ht : t.category = .identifier ∨ t.isKeyword "self") :
      Derives room [t] (leaf .identifier t)
  | parenthesized {inner room : ℕ} {first last : Token} {used : List Token} {tree : Tree}
      (hfirst : first.is .delimiter "(") (hlast : last.is .delimiter ")") (hroom : inner < room)
      (h : Derives inner used tree) : Derives room (first :: (used ++ [last])) tree
  | array {inner room : ℕ} {first last : Token} {used : List Token}
      {elements : List (List Token × Tree)} (hfirst : first.is .delimiter "[")
      (hlast : last.is .delimiter "]") (hjoined : Joined (elements.map Prod.fst) used)
      (hroom : ∀ element ∈ elements, inner < room)
      (h : ∀ element ∈ elements, Derives inner element.1 element.2) :
      Derives room (first :: (used ++ [last])) ⟨.arrayLiteral, some first, elements.map Prod.snd⟩
  | call {inner room : ℕ} {first last : Token} {before used : List Token} {subject : Tree}
      {elements : List (List Token × Tree)} (hfirst : first.is .delimiter "(")
      (hlast : last.is .delimiter ")") (hjoined : Joined (elements.map Prod.fst) used)
      (hroom : ∀ element ∈ elements, inner < room) (hsubject : Derives room before subject)
      (h : ∀ element ∈ elements, Derives inner element.1 element.2) :
      Derives room (before ++ first :: (used ++ [last]))
        ⟨.call, none, [subject, ⟨.argumentList, none, elements.map Prod.snd⟩]⟩
  | member {room : ℕ} {dot name : Token} {before : List Token} {subject : Tree}
      (hdot : dot.is .operator ".") (hname : name.category = .identifier)
      (hsubject : Derives room before subject) :
      Derives room (before ++ [dot, name])
        ⟨.memberAccess, none, [subject, leaf .identifier name]⟩
  | index {inner room : ℕ} {first last : Token} {before used : List Token}
      {subject subscript : Tree} (hfirst : first.is .delimiter "[")
      (hlast : last.is .delimiter "]") (hroom : inner < room)
      (hsubject : Derives room before subject) (h : Derives inner used subscript) :
      Derives room (before ++ first :: (used ++ [last])) ⟨.index, none, [subject, subscript]⟩
  | unary {inner room : ℕ} {operator : Token} {used : List Token} {operand : Tree}
      (hoperator : operator.isPrefixOperator) (hroom : inner < room)
      (h : Derives inner used operand) :
      Derives room (operator :: used) ⟨.unaryExpression, some operator, [operand]⟩
  | binary {room precedence : ℕ} {operator : Token} {before after : List Token} {left right : Tree}
      (hoperator : operator.precedence? = some precedence) (hleft : Derives room before left)
      (hright : Derives room after right) :
      Derives room (before ++ operator :: after)
        ⟨.binaryExpression, some operator, [left, right]⟩
  | assignment {inner room : ℕ} {operator : Token} {before after : List Token}
      {target value : Tree} (hoperator : operator.is .operator "=") (hroom : inner < room)
      (htarget : Derives room before target) (hvalue : Derives inner after value) :
      Derives room (before ++ operator :: after) ⟨.assignment, some operator, [target, value]⟩

/-- An expression takes at least one token. -/
lemma Derives.ne_nil {room : ℕ} {used : List Token} {tree : Tree} (h : Derives room used tree) :
    used ≠ [] := by
  cases h <;> simp

/-! ### What the readers make -/

section

variable {inner room : ℕ} {expression operand target value : Reader Tree}

/-- An expression one level further in than an expression that has `room` levels inside. -/
def DerivesWithin (inner room : ℕ) (used : List Token) (tree : Tree) : Prop :=
  inner < room ∧ Derives inner used tree

/-- The elements of a list with the closing token after them. -/
def DerivesList (inner room : ℕ) (close : String) (used : List Token) (trees : List Tree) : Prop :=
  ∃ (elements : List (List Token × Tree)) (joined : List Token) (last : Token),
    used = joined ++ [last] ∧ last.is .delimiter close = true ∧
      Joined (elements.map Prod.fst) joined ∧ trees = elements.map Prod.snd ∧
      ∀ element ∈ elements, DerivesWithin inner room element.1 element.2

/-- The rounds of a list make its elements with commas between them, at least one, and take the
closing token. -/
lemma ensures_elements (hexpression : expression.Ensures (DerivesWithin inner room))
    (close : String) (bound : List Token) :
    (elements expression close bound).Ensures fun used trees =>
      trees ≠ [] ∧ DerivesList inner room close used trees := by
  induction bound with
  | nil => exact fun _ _ _ heq => nomatch heq
  | cons _ bound ih =>
    rw [elements]
    refine hexpression.bind fun used first hfirst => (ensures_accept _ _).bind ?_
    rintro _ more (⟨comma, rfl, hcomma, rfl⟩ | ⟨rfl, rfl⟩)
    · refine ih.bind fun after others hothers => ensures_pure ⟨List.cons_ne_nil _ _, ?_⟩
      obtain ⟨hne, elements, joined, last, rfl, hlast, hjoined, rfl, helements⟩ := hothers
      obtain ⟨second, elements, rfl⟩ := List.exists_cons_of_ne_nil (mt List.map_eq_nil_iff.mpr hne)
      exact ⟨(used, first) :: second :: elements, used ++ comma :: joined, last, by simp, hlast,
        .cons used hcomma hjoined, rfl, List.forall_mem_cons.mpr ⟨hfirst, helements⟩⟩
    · refine (ensures_expect _ _).bind ?_
      rintro _ _ ⟨last, rfl, hlast⟩
      refine ensures_pure ⟨List.cons_ne_nil _ _, [(used, first)], used, last, by simp, hlast,
        .singleton used, rfl, ?_⟩
      exact List.forall_mem_singleton.mpr hfirst

/-- A list is the closing token alone, or elements before it. -/
lemma ensures_list (hexpression : expression.Ensures (DerivesWithin inner room))
    (close : String) : (list expression close).Ensures (DerivesList inner room close) := by
  refine (ensures_accept _ _).bind ?_
  rintro _ closed (⟨last, rfl, hlast, rfl⟩ | ⟨rfl, rfl⟩)
  · exact ensures_pure ⟨[], [], last, rfl, hlast, .nil, rfl, fun _ h => nomatch h⟩
  · have helements := ensures_bounded fun bound =>
      (ensures_elements hexpression close bound).mono fun _ _ h => h.2
    exact helements

/-- What stands before the rest of a reader's work. -/
lemma ensures_after_token {α : Type} {reader : Reader α} {post : List Token → α → Prop} {t : Token}
    (h : reader.Ensures fun used a => post (t :: used) a) {tokens rest : List Token} {a : α}
    (heq : reader tokens = .ok a rest) : ∃ used, t :: tokens = used ++ rest ∧ post used a := by
  obtain ⟨used, rfl, hused⟩ := h heq
  exact ⟨t :: used, rfl, hused⟩

/-- A primary expression is a single token, or it is bracketed and its inside is one level further
in. -/
lemma ensures_primary (hexpression : expression.Ensures (DerivesWithin inner room)) :
    (primary expression).Ensures (Derives room) := by
  intro tokens rest tree heq
  cases tokens with
  | nil => cases heq
  | cons t tokens =>
    rw [primary] at heq
    split_ifs at heq with hliteral hname hparenthesis hbracket
    · obtain ⟨rfl, rfl⟩ := EStateM.Result.ok.inj heq
      exact ⟨[t], rfl, .literal hliteral⟩
    · obtain ⟨rfl, rfl⟩ := EStateM.Result.ok.inj heq
      exact ⟨[t], rfl, .name hname⟩
    · refine ensures_after_token (hexpression.bind fun used inner h => ?_) heq
      refine (ensures_expect _ _).bind ?_
      rintro _ _ ⟨last, rfl, hlast⟩
      refine ensures_pure ?_
      rw [List.append_nil]
      exact .parenthesized hparenthesis hlast h.1 h.2
    · refine ensures_after_token ((ensures_list hexpression "]").bind ?_) heq
      rintro _ _ ⟨elements, joined, last, rfl, hlast, hjoined, rfl, helements⟩
      refine ensures_pure ?_
      rw [List.append_nil]
      exact .array hbracket hlast hjoined (fun element h => (helements element h).1)
        fun element h => (helements element h).2

/-- Each round of a chain of suffixes derives a larger expression from the subject and the tokens so
far. -/
lemma ensures_suffixes (hexpression : expression.Ensures (DerivesWithin inner room))
    (bound : List Token) {before : List Token} {subject : Tree}
    (hsubject : Derives room before subject) :
    (suffixes expression bound subject).Ensures fun used tree =>
      Derives room (before ++ used) tree := by
  have hnothing {before : List Token} {subject : Tree} (h : Derives room before subject) :
      (pure subject : Reader Tree).Ensures fun used tree => Derives room (before ++ used) tree :=
    ensures_pure ((List.append_nil before).symm ▸ h)
  -- Each round extends the subject and the tokens that derive it.
  induction bound generalizing before subject with
  | nil => exact hnothing hsubject
  | cons _ bound ih =>
    rw [suffixes]
    refine (ensures_accept _ _).bind ?_
    rintro _ _ (⟨first, rfl, hfirst, rfl⟩ | ⟨rfl, rfl⟩)
    · refine (ensures_list hexpression ")").bind ?_
      rintro _ _ ⟨elements, joined, last, rfl, hlast, hjoined, rfl, helements⟩
      refine (ih (.call hfirst hlast hjoined (fun element h => (helements element h).1) hsubject
        fun element h => (helements element h).2)).mono fun more tree h => ?_
      simpa using h
    refine (ensures_accept _ _).bind ?_
    rintro _ _ (⟨dot, rfl, hdot, rfl⟩ | ⟨rfl, rfl⟩)
    · refine (ensures_identifier _).bind ?_
      rintro _ name ⟨rfl, hname⟩
      refine (ih (.member hdot hname hsubject)).mono fun more tree h => ?_
      simpa using h
    refine (ensures_accept _ _).bind ?_
    rintro _ _ (⟨first, rfl, hfirst, rfl⟩ | ⟨rfl, rfl⟩)
    · refine hexpression.bind fun used subscript hsubscript => (ensures_expect _ _).bind ?_
      rintro _ _ ⟨last, rfl, hlast⟩
      refine (ih (.index hfirst hlast hsubscript.1 hsubject hsubscript.2)).mono
        fun more tree h => ?_
      simpa using h
    · exact hnothing hsubject

/-- A primary expression is the first subject of its suffixes. -/
lemma ensures_suffixed (hexpression : expression.Ensures (DerivesWithin inner room)) :
    (suffixed expression).Ensures (Derives room) :=
  (ensures_primary hexpression).bind fun _ _ hsubject =>
    ensures_bounded fun bound => ensures_suffixes hexpression bound hsubject

/-- An operand has a prefix operator before an operand one level further in, or suffixes. -/
lemma ensures_unary (hexpression : expression.Ensures (DerivesWithin inner room))
    (hoperand : operand.Ensures (DerivesWithin inner room)) :
    (unary expression operand).Ensures (Derives room) := by
  refine (ensures_take? _).bind ?_
  rintro _ _ (⟨operator, rfl, hoperator, rfl⟩ | ⟨rfl, rfl⟩)
  · refine hoperand.bind fun used tree h => ensures_pure ?_
    rw [List.append_nil]
    exact .unary hoperator h.1 h.2
  · exact ensures_suffixed hexpression

/-- A binary operator is taken only if it binds tightly enough. -/
lemma ensures_binaryOperator? (least : ℕ) :
    (binaryOperator? least).Ensures fun used found =>
      (∃ t precedence, used = [t] ∧ t.precedence? = some precedence ∧ least ≤ precedence ∧
        found = some (t, precedence)) ∨ (used = [] ∧ found = none) := by
  intro tokens rest found heq
  cases tokens with
  | nil =>
    obtain ⟨rfl, rfl⟩ := EStateM.Result.ok.inj heq
    exact ⟨[], rfl, .inr ⟨rfl, rfl⟩⟩
  | cons t others =>
    rw [binaryOperator?] at heq
    cases hprecedence : t.precedence? with
    | none =>
      simp only [hprecedence] at heq
      obtain ⟨rfl, rfl⟩ := EStateM.Result.ok.inj heq
      exact ⟨[], rfl, .inr ⟨rfl, rfl⟩⟩
    | some precedence =>
      simp only [hprecedence] at heq
      split_ifs at heq with hleast <;> obtain ⟨rfl, rfl⟩ := EStateM.Result.ok.inj heq
      · exact ⟨[t], rfl, .inl ⟨t, precedence, rfl, hprecedence, hleast, rfl⟩⟩
      · exact ⟨[], rfl, .inr ⟨rfl, rfl⟩⟩

/-- Each round of a chain of operators derives a larger expression, whatever the precedence. -/
lemma ensures_climb (hoperand : operand.Ensures (Derives room)) (bound : List Token) (least : ℕ)
    {before : List Token} {left : Tree} (hleft : Derives room before left) :
    (climb operand bound least left).Ensures fun used tree =>
      Derives room (before ++ used) tree := by
  have hnothing {before : List Token} {left : Tree} (h : Derives room before left) :
      (pure left : Reader Tree).Ensures fun used tree => Derives room (before ++ used) tree :=
    ensures_pure ((List.append_nil before).symm ▸ h)
  induction bound generalizing least before left with
  | nil => exact hnothing hleft
  | cons _ bound ih =>
    rw [climb]
    refine (ensures_binaryOperator? _).bind ?_
    rintro _ _ (⟨operator, precedence, rfl, hoperator, -, rfl⟩ | ⟨rfl, rfl⟩)
    · refine hoperand.bind fun used next hnext => ?_
      refine (ih (precedence + 1) hnext).bind fun more right hright => ?_
      refine (ih least (.binary hoperator hleft hright)).mono fun rest tree h => ?_
      simpa using h
    · exact hnothing hleft

/-- The first operand is the left side that a chain begins with. -/
lemma ensures_binary (hoperand : operand.Ensures (Derives room)) (least : ℕ) :
    (binary operand least).Ensures (Derives room) :=
  hoperand.bind fun _ _ hfirst =>
    ensures_bounded fun bound => ensures_climb hoperand bound least hfirst

/-- The value of an assignment is one level further in, and without a value there is only the
target. -/
lemma ensures_assignment (htarget : target.Ensures (Derives room))
    (hvalue : value.Ensures (DerivesWithin inner room)) :
    (assignment target value).Ensures (Derives room) := by
  refine htarget.bind fun used left hleft => (ensures_take? _).bind ?_
  rintro _ _ (⟨operator, rfl, hoperator, rfl⟩ | ⟨rfl, rfl⟩)
  · refine hvalue.bind fun more right hright => ensures_pure ?_
    rw [List.append_nil]
    exact .assignment hoperator hright.1 hleft hright.2
  · refine ensures_pure ?_
    simpa using hleft

end

/-- Whatever is read as an expression or as an operand is derived by the grammar, with as many
levels of nesting as the reader has left. -/
theorem derives_expression_operand (room : ℕ) :
    (expression room).Ensures (DerivesWithin (room - 1) room) ∧
      (operand room).Ensures (Derives room) := by
  induction room with
  | zero =>
    have hdeep : (tooDeep .expression : Reader Tree).Ensures (DerivesWithin 0 0) :=
      ensures_tooDeep .expression
    exact ⟨hdeep, ensures_unary hdeep hdeep⟩
  | succ room ih =>
    have hwithin {reader : Reader Tree} (h : reader.Ensures (Derives room)) :
        reader.Ensures (DerivesWithin room (room + 1)) :=
      h.mono fun _ _ hderives => ⟨Nat.lt_succ_self room, hderives⟩
    have hexpression : (expression (room + 1)).Ensures (DerivesWithin room (room + 1)) := by
      rw [expression_succ]
      exact hwithin (ensures_assignment (ensures_binary ih.2 1) ih.1)
    refine ⟨hexpression, ?_⟩
    rw [operand_succ]
    exact ensures_unary hexpression (hwithin ih.2)

/-- No expression is empty, so reading one makes progress. -/
lemma takes_expression (room : ℕ) : (expression room).Takes :=
  (derives_expression_operand room).1.takes fun _ _ h => h.2.ne_nil

/-- Nor is an operand. -/
lemma takes_operand (room : ℕ) : (operand room).Takes :=
  (derives_expression_operand room).2.takes fun _ _ h => h.ne_nil

end Tree

end UvaAnalysis
