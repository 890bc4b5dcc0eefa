import Mathlib.Data.List.Induction
import Mathlib.Data.List.TakeWhile
import UvaAnalysis.Proofs.Tree.Local.Expression
import UvaAnalysis.Proofs.Tree.RoundTrip.Expression

/-!
# Chains of binary operators

The grammar of binary operators has six levels.  What a chain of operands with operators between
them means there is told by its last operator of the least precedence: all that stands before it is
its left operand, and all that stands after it is its right operand (`Chain.tree`).  The reader
never looks for that operator.  It climbs from one operator to the next and calls itself for what
binds more tightly.  It makes the same tree all the same (`binary_chain`).

An operand that is read whole is read in the same way before a token that opens no suffix
(`endsBefore_operand`), so the operands of a chain may be any tokens that are read whole alone.
-/

namespace UvaAnalysis

/-! ### Levels of operators -/

namespace Token

/-- The texts of the binary operators of each precedence. -/
def operatorsOf : (precedence : ℕ) → List String
  | 1 => ["or", "||"]
  | 2 => ["and", "&&"]
  | 3 => ["==", "!="]
  | 4 => ["<", "<=", ">", ">="]
  | 5 => ["+", "-"]
  | 6 => ["*", "/", "%"]
  | _ => []

/-- A text is an operator of one level at most. -/
lemma eq_of_mem_operatorsOf {t : Token} {precedence level : ℕ}
    (h : t.precedence? = some precedence) (ht : t.text ∈ operatorsOf level) :
    precedence = level := by
  unfold precedence? at h
  rcases level with _ | _ | _ | _ | _ | _ | _ | level <;>
    simp only [operatorsOf, List.mem_cons, List.not_mem_nil, or_false] at ht <;>
    grind

end Token

/-! ### Readers that end before a token -/

namespace Reader

variable {α β : Type} {p : Token → Prop}

/-- When the reader takes all of some tokens, it makes the same of them before a token that
satisfies `p`, and leaves that token. -/
def EndsBefore (reader : Reader α) (p : Token → Prop) : Prop :=
  ∀ ⦃tokens : List Token⦄ ⦃a : α⦄, reader tokens = .ok a [] → ∀ ⦃t : Token⦄, p t →
    ∀ following, reader (tokens ++ t :: following) = .ok a (t :: following)

/-- A reader that takes nothing ends before every token. -/
lemma endsBefore_pure (a : α) : (pure a : Reader α).EndsBefore p := by
  intro tokens b heq t _ following
  obtain ⟨rfl, rfl⟩ := EStateM.Result.ok.inj heq
  rfl

/-- One reader after another.  If the first one takes all the tokens, either it ends before the
token that follows, or the second one asks for more. -/
lemma endsBefore_bind {reader : Reader α} {next : α → Reader β} (h : reader.Local)
    (hreader : ∀ ⦃tokens a⦄, reader tokens = .ok a [] →
      (∀ ⦃t⦄, p t → ∀ following, reader (tokens ++ t :: following) = .ok a (t :: following)) ∨
        ∀ b, next a [] ≠ .ok b [])
    (hnext : ∀ a, (next a).EndsBefore p) : (reader >>= next).EndsBefore p := by
  intro tokens b heq t ht following
  rw [bind_apply] at heq ⊢
  have hcontinues := h.continues tokens (t :: following)
  cases hresult : reader tokens with
  | error fault middle =>
    rw [hresult] at heq
    cases heq
  | ok a middle =>
    rw [hresult] at heq hcontinues
    cases middle with
    | nil =>
      rcases hreader hresult with hends | hfails
      · rw [hends ht following]
        exact hnext a heq ht following
      · exact absurd heq (hfails b)
    | cons u middle =>
      generalize reader (tokens ++ t :: following) = more at hcontinues ⊢
      cases hcontinues
      exact hnext a heq ht following

/-- Of two readers in turn, the first ends before the token if the second takes nothing, and the
second ends there. -/
lemma EndsBefore.bind {reader : Reader α} {next : α → Reader β} (hends : reader.EndsBefore p)
    (h : reader.Local) (hnext : ∀ a, (next a).EndsBefore p) : (reader >>= next).EndsBefore p :=
  endsBefore_bind h (fun _ _ heq => .inl (hends heq)) hnext

section

variable {category : Token.Category} {text : String} {wanted : Token → Bool}

/-- A token that is expected is taken by itself, whatever follows. -/
lemma endsBefore_expect (category : Token.Category) (text : String) :
    (expect category text).EndsBefore p := by
  intro tokens a heq t _ following
  obtain ⟨_, rfl, u, rfl, hu⟩ := ensures_expect category text heq
  exact expect_of_is hu (t :: following)

/-- So is a name. -/
lemma endsBefore_identifier (expected : Expected) : (identifier expected).EndsBefore p := by
  intro tokens a heq t _ following
  obtain ⟨_, rfl, rfl, ha⟩ := ensures_identifier expected heq
  exact if_pos ha

/-- A token that may be missing: either it does not satisfy `p`, so that what follows is not that
token, or the reader goes on to ask for more when it is missing. -/
lemma endsBefore_accept {next : Bool → Reader β}
    (hmissing : (∀ t, p t → t.is category text = false) ∨ ∀ b, next false [] ≠ .ok b [])
    (hnext : ∀ found, (next found).EndsBefore p) :
    (accept category text >>= next).EndsBefore p := by
  refine endsBefore_bind (local_accept category text) (fun tokens found heq => ?_) hnext
  obtain ⟨_, rfl, ⟨u, rfl, hu, rfl⟩ | ⟨rfl, rfl⟩⟩ := ensures_accept category text heq
  · exact .inl fun t _ following => accept_of_is hu (t :: following)
  · exact hmissing.imp_left fun hother t ht following => accept_of_not_is (hother t ht) following

/-- A token that may be missing, when the reader asks for more without it. -/
lemma endsBefore_take? {next : Option Token → Reader β} (hmissing : ∀ b, next none [] ≠ .ok b [])
    (hnext : ∀ found, (next found).EndsBefore p) : (take? wanted >>= next).EndsBefore p := by
  refine endsBefore_bind (local_take? wanted) (fun tokens found heq => ?_) hnext
  obtain ⟨_, rfl, ⟨u, rfl, hu, rfl⟩ | ⟨rfl, rfl⟩⟩ := ensures_take? wanted heq
  · exact .inl fun t _ following => take?_of_wanted hu (t :: following)
  · exact .inr hmissing

/-- A reader that goes on in a way that depends on the first token. -/
lemma endsBefore_of_cons {reader : Reader α} (hnil : ∀ a, reader [] ≠ .ok a [])
    (hcons : ∀ t, ∃ next : Reader α, next.EndsBefore p ∧ ∀ rest, reader (t :: rest) = next rest) :
    reader.EndsBefore p := by
  intro tokens a heq t ht following
  cases tokens with
  | nil => exact absurd heq (hnil a)
  | cons u tokens =>
    obtain ⟨next, hnext, hrest⟩ := hcons u
    rw [hrest] at heq
    rw [List.cons_append, hrest]
    exact hnext heq ht following

/-- A loop ends before a token if it does with every bound, and if its bound does not matter. -/
lemma endsBefore_bounded {loop : List Token → Reader α} (h : ∀ bound, (loop bound).EndsBefore p)
    (hbound : ∀ bound tokens, tokens.length ≤ bound.length →
      loop bound tokens = loop tokens tokens) :
    EndsBefore (fun tokens => loop tokens tokens) p := by
  intro tokens a heq t ht following
  have hlength : tokens.length ≤ (tokens ++ t :: following).length := by
    rw [List.length_append]
    exact Nat.le_add_right _ _
  exact h _ ((hbound _ tokens hlength).trans heq) ht following

end

end Reader

namespace Tree

open Reader

/-! ### Operands that end before a token -/

section

variable {expression operand : Reader Tree} {p : Token → Prop}

/-- The elements of a list end at the closing token, so what follows does not matter. -/
lemma endsBefore_elements (hexpression : expression.Local) (close : String) (bound : List Token) :
    (elements expression close bound).EndsBefore p := by
  induction bound with
  | nil =>
    intro tokens a heq
    cases heq
  | cons _ bound ih =>
    rw [elements]
    refine endsBefore_bind hexpression (fun tokens first heq => .inr fun b h => by cases h) ?_
    intro first
    refine endsBefore_accept (.inr fun b h => by cases h) fun more => ?_
    cases more with
    | true => exact ih.bind (local_elements hexpression close bound) fun _ => endsBefore_pure _
    | false =>
      exact (endsBefore_expect _ _).bind (local_expect _ _) fun _ => endsBefore_pure _

/-- A list ends at its closing token, also when it is empty. -/
lemma endsBefore_list (h : IsLocalExpression expression) (close : String) :
    (list expression close).EndsBefore p := by
  have helements : EndsBefore (fun tokens => elements expression close tokens tokens) p :=
    endsBefore_bounded (endsBefore_elements h.isLocal close) fun bound tokens hbound =>
      elements_bound h.apply_nil h.takes close hbound (Nat.le_refl _)
  refine endsBefore_accept (.inr fun b heq => by cases heq) fun closed => ?_
  cases closed with
  | true => exact endsBefore_pure _
  | false => exact helements

/-- A primary expression ends with its own last token. -/
lemma endsBefore_primary (h : IsLocalExpression expression) :
    (primary expression).EndsBefore p := by
  refine endsBefore_of_cons (fun a heq => by cases heq) fun t => ?_
  by_cases hliteral : t.category = .literal
  · refine ⟨pure (leaf .literal t), endsBefore_pure _, fun rest => ?_⟩
    rw [primary, if_pos hliteral, pure_apply]
  by_cases hname : t.category = .identifier ∨ t.isKeyword "self" = true
  · refine ⟨pure (leaf .identifier t), endsBefore_pure _, fun rest => ?_⟩
    rw [primary, if_neg hliteral, if_pos hname, pure_apply]
  by_cases hparenthesis : t.is .delimiter "(" = true
  · refine ⟨_, ?_, primary_of_parenthesis hparenthesis expression⟩
    refine endsBefore_bind h.isLocal (fun _ _ _ => .inr fun b heq => by cases heq) fun inner => ?_
    exact (endsBefore_expect _ _).bind (local_expect _ _) fun _ => endsBefore_pure _
  by_cases hbracket : t.is .delimiter "[" = true
  · refine ⟨_, ?_, primary_of_bracket hbracket expression⟩
    exact (endsBefore_list h "]").bind (local_list h "]") fun _ => endsBefore_pure _
  · refine ⟨fun rest => .error (.unexpected .expression t) (t :: rest), ?_, fun rest => ?_⟩
    · intro tokens a heq
      cases heq
    · rw [primary, if_neg hliteral, if_neg hname, if_neg hparenthesis, if_neg hbracket]

/-- A chain of suffixes ends before a token that opens none. -/
lemma endsBefore_suffixes (h : IsLocalExpression expression) (bound : List Token)
    (subject : Tree) :
    (suffixes expression bound subject).EndsBefore (·.opensSuffix = false) := by
  -- Such a token announces none of the three suffixes.
  have hopens (t : Token) (ht : t.opensSuffix = false) : t.is .delimiter "(" = false ∧
      t.is .operator "." = false ∧ t.is .delimiter "[" = false := by
    simp only [Token.opensSuffix, Bool.or_eq_false_iff] at ht
    exact ⟨ht.1.1, ht.1.2, ht.2⟩
  induction bound generalizing subject with
  | nil => exact endsBefore_pure subject
  | cons _ bound ih =>
    rw [suffixes]
    refine endsBefore_accept (.inl fun t ht => (hopens t ht).1) fun call => ?_
    cases call with
    | true => exact (endsBefore_list h ")").bind (local_list h ")") fun _ => ih _
    | false =>
      refine endsBefore_accept (.inl fun t ht => (hopens t ht).2.1) fun member => ?_
      cases member with
      | true => exact (endsBefore_identifier _).bind (local_identifier _) fun _ => ih _
      | false =>
        refine endsBefore_accept (.inl fun t ht => (hopens t ht).2.2) fun subscript => ?_
        cases subscript with
        | true =>
          refine endsBefore_bind h.isLocal (fun _ _ _ => .inr fun b heq => by cases heq) ?_
          intro inner
          exact (endsBefore_expect _ _).bind (local_expect _ _) fun _ => ih _
        | false => exact endsBefore_pure subject

/-- So does a primary expression with its suffixes. -/
lemma endsBefore_suffixed (h : IsLocalExpression expression) :
    (suffixed expression).EndsBefore (·.opensSuffix = false) := by
  refine (endsBefore_primary h).bind (local_primary h) fun subject => ?_
  exact endsBefore_bounded (fun bound => endsBefore_suffixes h bound subject)
    fun bound tokens hbound =>
      suffixes_bound h.isLocal.suffix (fun close => (local_list h close).suffix) subject hbound
        (Nat.le_refl _)

/-- So does an operand, behind any number of prefix operators. -/
lemma endsBefore_unary (h : IsLocalExpression expression) (hoperand : operand.Local)
    (hends : operand.EndsBefore (·.opensSuffix = false)) :
    (unary expression operand).EndsBefore (·.opensSuffix = false) := by
  refine endsBefore_take? (fun b heq => by cases heq) fun operator => ?_
  cases operator with
  | some operator => exact hends.bind hoperand fun _ => endsBefore_pure _
  | none => exact endsBefore_suffixed h

end

/-- An operand ends before a token that opens no suffix. -/
theorem endsBefore_operand (room : ℕ) : (operand room).EndsBefore (·.opensSuffix = false) := by
  induction room with
  | zero =>
    have hends : (tooDeep .expression : Reader Tree).EndsBefore (·.opensSuffix = false) := by
      intro tokens a heq
      cases tokens <;> cases heq
    exact endsBefore_unary (local_expression_operand 0).1 (local_tooDeep .expression) hends
  | succ room ih =>
    rw [operand_succ]
    exact endsBefore_unary (local_expression_operand (room + 1)).1
      (local_expression_operand room).2 ih

/-! ### Chains -/

/-- Tokens that are read whole as an operand when `room` levels of nesting are left, and the tree
that is made of them. -/
structure Operand (room : ℕ) where
  tokens : List Token
  tree : Tree
  reads : operand room tokens = .ok tree []

/-- A binary operator and the operand after it. -/
structure Link (room : ℕ) where
  operator : Token
  precedence : ℕ
  isOperator : operator.precedence? = some precedence
  operand : Operand room

/-- Operands with binary operators between them. -/
structure Chain (room : ℕ) where
  first : Operand room
  links : List (Link room)

/-- The operator of a link and the tokens of its operand. -/
def Link.tokens {room : ℕ} (link : Link room) : List Token :=
  link.operator :: link.operand.tokens

/-- All tokens of a chain. -/
def Chain.tokens {room : ℕ} (chain : Chain room) : List Token :=
  chain.first.tokens ++ chain.links.flatMap Link.tokens

/-- The operation of a link between two operands. -/
def Link.join {room : ℕ} (link : Link room) (left right : Tree) : Tree :=
  ⟨.binaryExpression, some link.operator, [left, right]⟩

/-- A list of links cut at the last of those with the least precedence. -/
structure Split {room : ℕ} (links : List (Link room)) where
  before : List (Link room)
  weakest : Link room
  after : List (Link room)
  eq_append : links = before ++ weakest :: after
  le_before : ∀ link ∈ before, weakest.precedence ≤ link.precedence
  lt_after : ∀ link ∈ after, weakest.precedence < link.precedence

section

variable {room : ℕ} {links : List (Link room)}

/-- No link binds less tightly than the one at the cut. -/
lemma Split.weakest_le (split : Split links) {link : Link room} (hlink : link ∈ links) :
    split.weakest.precedence ≤ link.precedence := by
  rw [split.eq_append, List.mem_append, List.mem_cons] at hlink
  rcases hlink with hbefore | rfl | hafter
  · exact split.le_before link hbefore
  · exact Nat.le_refl _
  · exact Nat.le_of_lt (split.lt_after link hafter)

/-- No cut is before another one: the link at the first would be weaker than the one at the second,
and that one at least as weak as the first. -/
lemma Split.length_before_le (split other : Split links) :
    other.before.length ≤ split.before.length := by
  rcases List.append_eq_append_iff.mp (split.eq_append.symm.trans other.eq_append) with
    ⟨more, hbefore, hafter⟩ | ⟨more, hbefore, -⟩
  · cases more with
    | nil => exact Nat.le_of_eq (by rw [hbefore, List.append_nil])
    | cons link more =>
      obtain ⟨rfl, hrest⟩ := List.cons.inj hafter
      have hle : other.weakest.precedence ≤ split.weakest.precedence :=
        other.le_before _ (by simp [hbefore])
      have hlt : split.weakest.precedence < other.weakest.precedence :=
        split.lt_after _ (by simp [hrest])
      omega
  · rw [hbefore, List.length_append]
    exact Nat.le_add_right _ _

/-- A list is cut in one way only. -/
instance : Subsingleton (Split links) where
  allEq := by
    intro split other
    have hlength := Nat.le_antisymm (other.length_before_le split) (split.length_before_le other)
    obtain ⟨hbefore, hrest⟩ :=
      List.append_inj (split.eq_append.symm.trans other.eq_append) hlength
    obtain ⟨hweakest, hafter⟩ := List.cons.inj hrest
    cases split
    cases other
    cases hbefore
    cases hweakest
    cases hafter
    rfl

/-- More links before a cut, none of them weaker than the link at the cut. -/
def Split.prepend (split : Split links) (front : List (Link room))
    (h : ∀ link ∈ front, split.weakest.precedence ≤ link.precedence) : Split (front ++ links) where
  before := front ++ split.before
  weakest := split.weakest
  after := split.after
  eq_append := by rw [List.append_assoc, ← split.eq_append]
  le_before := List.forall_mem_append.mpr ⟨h, split.le_before⟩
  lt_after := split.lt_after

/-- What stands before a cut begins with what the links begin with. -/
lemma Split.mem_head?_of_before (split : Split links) {link : Link room}
    (h : link ∈ split.before.head?) : link ∈ links.head? := by
  obtain ⟨more, hmore⟩ := List.head?_eq_some_iff.mp h
  rw [split.eq_append, hmore]
  rfl

/-- Both sides of a cut are shorter than the list. -/
lemma Split.length_eq (split : Split links) :
    links.length = split.before.length + split.after.length + 1 := by
  have hlength := congrArg List.length split.eq_append
  rwa [List.length_append, List.length_cons, ← Nat.add_assoc] at hlength

/-- The links that begin with a given one, cut at the last with the least precedence. -/
def splitAtWeakest : (first : Link room) → (others : List (Link room)) → Split (first :: others)
  | first, [] => ⟨[], first, [], rfl, by simp, by simp⟩
  | first, next :: others =>
    let later := splitAtWeakest next others
    if h : later.weakest.precedence ≤ first.precedence then
      later.prepend [first] (List.forall_mem_singleton.mpr h)
    else
      ⟨[], first, next :: others, rfl, by simp,
        fun _ hlink => Nat.lt_of_lt_of_le (Nat.not_le.mp h) (later.weakest_le hlink)⟩

/-- The tree of an operand and the links after it: the operation of the last link of the least
precedence, between the tree of what stands before and the tree of what stands after. -/
def grouped (first : Tree) : List (Link room) → Tree
  | [] => first
  | link :: links =>
    let split := splitAtWeakest link links
    split.weakest.join (grouped first split.before)
      (grouped split.weakest.operand.tree split.after)
termination_by links => links.length
decreasing_by
  all_goals
    have hlength := (splitAtWeakest link links).length_eq
    omega

/-- The tree of a chain. -/
def Chain.tree (chain : Chain room) : Tree :=
  grouped chain.first.tree chain.links

/-- An operand without links is its own tree. -/
@[simp] lemma grouped_nil (first : Tree) : grouped first ([] : List (Link room)) = first := by
  rw [grouped]

/-- Any cut at the last link of the least precedence gives the tree, since there is only one. -/
lemma grouped_of_split (first : Tree) (split : Split links) :
    grouped first links = split.weakest.join (grouped first split.before)
      (grouped split.weakest.operand.tree split.after) := by
  cases links with
  | nil => simpa using split.eq_append
  | cons link links => rw [grouped, Subsingleton.elim (splitAtWeakest link links) split]

/-- Operators of one level group to the left. -/
lemma grouped_eq_foldl (first : Tree) (precedence : ℕ)
    (h : ∀ link ∈ links, link.precedence = precedence) :
    grouped first links =
      links.foldl (fun left link => link.join left link.operand.tree) first := by
  induction links using List.reverseRecOn with
  | nil => rw [grouped_nil, List.foldl_nil]
  | append_singleton links last ih =>
    have hlast : last.precedence = precedence := h last (by simp)
    have hlinks (link : Link room) (hlink : link ∈ links) : link.precedence = precedence :=
      h link (List.mem_append_left [last] hlink)
    have hsplit := grouped_of_split first
      (⟨links, last, [], rfl,
        fun link hlink => Nat.le_of_eq (hlast.trans (hlinks link hlink).symm), by simp⟩ :
        Split (links ++ [last]))
    rw [hsplit, List.foldl_append, List.foldl_cons, List.foldl_nil, ih hlinks, grouped_nil]

/-- What binds more tightly than the operator before it is the right operand of that operator, and
the operation of the two is the left operand of what comes next. -/
lemma grouped_cons_append (left : Tree) (link : Link room) {tighter rest : List (Link room)}
    (htighter : ∀ other ∈ tighter, link.precedence < other.precedence)
    (hrest : ∀ next ∈ rest.head?, next.precedence ≤ link.precedence) :
    grouped left (link :: (tighter ++ rest)) =
      grouped (link.join left (grouped link.operand.tree tighter)) rest := by
  -- By the number of links in `rest`: what is before its weakest link is shorter.
  induction hlength : rest.length using Nat.strongRecOn generalizing rest with
  | _ length ih =>
  cases rest with
  | nil =>
    have hsplit := grouped_of_split left
      (⟨[], link, tighter, rfl, by simp, htighter⟩ : Split (link :: tighter))
    rw [List.append_nil, hsplit, grouped_nil, grouped_nil]
  | cons next rest =>
    let split := splitAtWeakest next rest
    have hweakest : split.weakest.precedence ≤ link.precedence :=
      Nat.le_trans (split.weakest_le List.mem_cons_self) (hrest next rfl)
    have hfront : ∀ other ∈ link :: tighter, split.weakest.precedence ≤ other.precedence := by
      refine List.forall_mem_cons.mpr ⟨hweakest, fun other hother => ?_⟩
      exact Nat.le_of_lt (Nat.lt_of_le_of_lt hweakest (htighter other hother))
    have hshorter : split.before.length < length := by
      have hsplit := split.length_eq
      omega
    have hbefore := ih _ hshorter
      (fun other hother => hrest other (split.mem_head?_of_before hother)) rfl
    have hgrouped := grouped_of_split left (split.prepend (link :: tighter) hfront)
    rw [← List.cons_append, hgrouped, grouped_of_split _ split, ← hbefore]
    rfl

end

/-! ### Climbing -/

section

variable {room : ℕ} {following : List Token}

/-- A chain before these tokens does not go on with them: they begin with no binary operator, and
with nothing that opens a suffix. -/
def EndsChain (following : List Token) : Prop :=
  ∀ t ∈ following.head?, t.precedence? = none ∧ t.opensSuffix = false

/-- The links of a chain and what follows open no suffix. -/
lemma opensSuffix_head?_links (h : EndsChain following) (links : List (Link room)) :
    ∀ t ∈ (links.flatMap Link.tokens ++ following).head?, t.opensSuffix = false := by
  intro t ht
  cases links with
  | nil => exact (h t ht).2
  | cons link links =>
    obtain rfl : link.operator = t := Option.some.inj ht
    exact Token.opensSuffix_of_precedence? link.isOperator

/-- An operand is read as it is alone before tokens that open no suffix. -/
lemma Operand.reads_append (next : Operand room) {rest : List Token}
    (hrest : ∀ t ∈ rest.head?, t.opensSuffix = false) :
    operand room (next.tokens ++ rest) = .ok next.tree rest := by
  cases rest with
  | nil =>
    rw [List.append_nil]
    exact next.reads
  | cons t rest => exact endsBefore_operand room next.reads (hrest t rfl) rest

/-- An operator is taken where it binds tightly enough. -/
lemma binaryOperator?_of_le {least : ℕ} (link : Link room) (h : least ≤ link.precedence)
    (rest : List Token) :
    binaryOperator? least (link.operator :: rest) =
      .ok (some (link.operator, link.precedence)) rest := by
  rw [binaryOperator?, link.isOperator]
  exact if_pos h

/-- No operator is taken where the next one binds too loosely, or where there is none. -/
lemma binaryOperator?_of_lt (hfollowing : EndsChain following) {least : ℕ}
    {links : List (Link room)} (h : ∀ next ∈ links.head?, next.precedence < least) :
    binaryOperator? least (links.flatMap Link.tokens ++ following) =
      .ok none (links.flatMap Link.tokens ++ following) := by
  cases links with
  | nil =>
    cases following with
    | nil => rfl
    | cons t following =>
      change binaryOperator? least (t :: following) = .ok none (t :: following)
      rw [binaryOperator?, (hfollowing t rfl).1]
  | cons link links =>
    rw [List.flatMap_cons, Link.tokens, List.cons_append, List.cons_append, binaryOperator?,
      link.isOperator]
    exact if_neg (Nat.not_le.mpr (h link rfl))

/-- Links are those that bind more tightly than a given precedence, and then the others. -/
lemma exists_tighter_append (precedence : ℕ) (links : List (Link room)) :
    ∃ tighter looser, links = tighter ++ looser ∧
      (∀ link ∈ tighter, precedence < link.precedence) ∧
        ∀ next ∈ looser.head?, next.precedence ≤ precedence := by
  let bindsTighter (link : Link room) : Bool := precedence < link.precedence
  refine ⟨links.takeWhile bindsTighter, links.dropWhile bindsTighter,
    List.takeWhile_append_dropWhile.symm, fun link hlink => ?_, fun next hnext => ?_⟩
  · exact of_decide_eq_true (List.mem_takeWhile_imp (p := bindsTighter) hlink)
  · rw [← List.find?_not_eq_head?_dropWhile] at hnext
    have hnot : bindsTighter next = false := by simpa using List.find?_some hnext
    exact Nat.not_lt.mp (of_decide_eq_false hnot)

/-- Climbing takes the links up to the first operator that binds too loosely, and groups them. -/
lemma climb_links (hfollowing : EndsChain following) (bound : List Token) (least : ℕ) (left : Tree)
    (taken rest : List (Link room)) (hbound : (taken ++ rest).length ≤ bound.length)
    (htaken : ∀ link ∈ taken, least ≤ link.precedence)
    (hrest : ∀ next ∈ rest.head?, next.precedence < least) :
    climb (operand room) bound least left ((taken ++ rest).flatMap Link.tokens ++ following) =
      .ok (grouped left taken) (rest.flatMap Link.tokens ++ following) := by
  induction bound generalizing least left taken rest with
  | nil =>
    have hnil := List.length_eq_zero_iff.mp (Nat.le_zero.mp hbound)
    obtain ⟨rfl, rfl⟩ := List.append_eq_nil_iff.mp hnil
    rw [grouped_nil]
    rfl
  | cons _ bound ih =>
    cases taken with
    | nil =>
      rw [List.nil_append, climb, bind_of_ok (binaryOperator?_of_lt hfollowing hrest), grouped_nil]
      rfl
    | cons link taken =>
      obtain ⟨hlink, htaken⟩ := List.forall_mem_cons.mp htaken
      obtain ⟨tighter, looser, rfl, htighter, hlooser⟩ :=
        exists_tighter_append link.precedence taken
      obtain ⟨-, hothers⟩ := List.forall_mem_append.mp htaken
      simp only [List.cons_append, List.append_assoc, List.length_cons, List.length_append]
        at hbound
      have hmiddle : ∀ next ∈ (looser ++ rest).head?, next.precedence < link.precedence + 1 := by
        intro next hnext
        rw [List.head?_append] at hnext
        rcases Option.or_eq_some_iff.mp hnext with hnext | ⟨-, hnext⟩
        · exact Nat.lt_succ_of_le (hlooser next hnext)
        · exact Nat.lt_succ_of_lt (Nat.lt_of_lt_of_le (hrest next hnext) hlink)
      -- The right operand is what binds more tightly than the operator; with it the operation is
      -- the left operand of what is left.
      have hoperand := link.operand.reads_append
        (opensSuffix_head?_links hfollowing (tighter ++ (looser ++ rest)))
      have hright := ih (link.precedence + 1) link.operand.tree tighter (looser ++ rest)
        (by simp only [List.length_append]; omega) htighter hmiddle
      have hleft := ih least (link.join left (grouped link.operand.tree tighter)) looser rest
        (by rw [List.length_append]; omega) hothers hrest
      have htokens : (link :: (tighter ++ looser) ++ rest).flatMap Link.tokens ++ following =
          link.operator :: (link.operand.tokens ++
            ((tighter ++ (looser ++ rest)).flatMap Link.tokens ++ following)) := by
        simp [Link.tokens]
      rw [htokens, climb, bind_of_ok (binaryOperator?_of_le link hlink _)]
      refine (bind_of_ok hoperand _).trans ((bind_of_ok hright _).trans (hleft.trans ?_))
      rw [grouped_cons_append left link htighter hlooser]

/-- Every link takes a token. -/
lemma length_links_le (links : List (Link room)) (following : List Token) :
    links.length ≤ (links.flatMap Link.tokens ++ following).length := by
  induction links with
  | nil => exact Nat.zero_le _
  | cons link links ih =>
    simp only [List.flatMap_cons, Link.tokens, List.cons_append, List.append_assoc,
      List.length_cons, List.length_append] at ih ⊢
    omega

end

/-- A chain is read whole, and as the grammar of six levels has it: its tree is cut at the last
operator of the least precedence, and so are the parts before and after it.  In particular operators
of one level, however they are spelled, group to the left. -/
theorem binary_chain {room : ℕ} (chain : Chain room) {following : List Token}
    (hfollowing : EndsChain following) :
    binary (operand room) 1 (chain.tokens ++ following) = .ok chain.tree following ∧
      ∀ level, (∀ link ∈ chain.links, link.operator.text ∈ Token.operatorsOf level) →
        chain.tree =
          chain.links.foldl (fun left link => link.join left link.operand.tree)
            chain.first.tree := by
  constructor
  · have hfirst := chain.first.reads_append (opensSuffix_head?_links hfollowing chain.links)
    have hclimb := climb_links hfollowing (chain.links.flatMap Link.tokens ++ following) 1
      chain.first.tree chain.links [] (by simpa using length_links_le chain.links following)
      (fun link _ => Token.one_le_of_precedence? link.isOperator)
      (fun next hnext => by cases hnext)
    rw [List.append_nil] at hclimb
    rw [Chain.tokens, List.append_assoc]
    exact (bind_of_ok hfirst _).trans hclimb
  · intro level hlevel
    refine grouped_eq_foldl chain.first.tree level fun link hlink => ?_
    exact Token.eq_of_mem_operatorsOf link.isOperator (hlevel link hlink)

/-- A name is an operand. -/
def Operand.ofName {room : ℕ} (t : Token) (h : t.category = .identifier) : Operand room where
  tokens := [t]
  tree := leaf .identifier t
  reads := by
    have hprefix : t.isPrefixOperator = false := by
      simp [Token.isPrefixOperator, Token.is, Token.isKeyword, h]
    have hprimary (expression : Reader Tree) :
        primary expression [t] = .ok (leaf .identifier t) [] := by
      simp [primary, h]
    have hunary (expression operand : Reader Tree) :
        unary expression operand [t] = .ok (leaf .identifier t) [] := by
      refine (bind_of_ok (take?_of_not_wanted hprefix []) _).trans ?_
      exact (bind_of_ok (hprimary expression) _).trans rfl
    cases room with
    | zero => exact hunary _ _
    | succ room => exact hunary _ _

/-- Two spellings of one level, and a level that binds more tightly between them. -/
theorem binary_chain_mixed :
    let name (text : String) : Token := ⟨⟨"m"⟩, .start, .identifier, .plain, text, 1⟩
    let sign (text : String) : Token := ⟨⟨"m"⟩, .start, .operator, .plain, text, 1⟩
    let word (text : String) : Token := ⟨⟨"m"⟩, .start, .keyword, .plain, text, 2⟩
    let close : Token := ⟨⟨"m"⟩, .start, .delimiter, .plain, ")", 1⟩
    let join (operator : Token) (left right : Tree) : Tree :=
      ⟨.binaryExpression, some operator, [left, right]⟩
    let a := leaf .identifier (name "a")
    let b := leaf .identifier (name "b")
    let c := leaf .identifier (name "c")
    let d := leaf .identifier (name "d")
    binary (operand nestingLimit) 1
        [name "a", sign "||", name "b", sign "-", name "c", word "or", name "d", close] =
      .ok (join (word "or") (join (sign "||") a (join (sign "-") b c)) d) [close] := by
  intro name sign word close join a b c d
  let chain : Chain nestingLimit := ⟨.ofName (name "a") rfl,
    [⟨sign "||", 1, by decide, .ofName (name "b") rfl⟩,
      ⟨sign "-", 5, by decide, .ofName (name "c") rfl⟩,
      ⟨word "or", 1, by decide, .ofName (name "d") rfl⟩]⟩
  have hclose : EndsChain [close] := by
    intro t ht
    obtain rfl : close = t := Option.some.inj ht
    decide
  have htree : chain.tree = join (word "or") (join (sign "||") a (join (sign "-") b c)) d := by
    simp [chain, Chain.tree, grouped, splitAtWeakest, Split.prepend, Link.join, Operand.ofName,
      join, a, b, c, d]
  rw [← htree]
  exact (binary_chain chain hclose).1

end Tree

end UvaAnalysis
