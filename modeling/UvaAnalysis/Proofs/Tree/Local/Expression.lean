import UvaAnalysis.Proofs.Tree.Derivation
import UvaAnalysis.Proofs.Tree.Suffix

/-!
# Readers look at one token at a time

A reader decides by the token that comes next and by nothing after it.  So when it stops before the
last of its tokens, it has made all its decisions, and more tokens at the end change nothing but
what is left: `Continues` says so of two results, the second of them with more tokens.  When all
tokens are taken the reader may go on, but it has found nothing wrong with the tokens so far.

Readers are put together from a few that take at most one token, so being `Local` passes through one
combinator after another.  A loop is local when its bound is held fixed, and the bound does not
matter as long as the tokens do not outnumber it; so a loop whose bound is the tokens at hand is
local too.
-/

namespace UvaAnalysis

namespace Fault

/-- The token at which a stream departs from the grammar, if that is the fault. -/
def found? : Fault → Option Token
  | .unexpected _ found => some found
  | .nestedTooDeep _ found => some found
  | _ => none

/-- A fault of a reader: the first of the tokens that are left is wrong, or there should be more of
them. -/
inductive StopsAt : Fault → List Token → Prop where
  | atToken {fault : Fault} {t : Token} {rest : List Token} (h : fault.found? = some t) :
      StopsAt fault (t :: rest)
  | atEnd (expected : Expected) (rest : List Token) : StopsAt (.endOfInput expected) rest

end Fault

namespace Reader

variable {α β : Type} {extra : List Token}

/-! ### Results with more tokens -/

/-- The tokens that a result leaves. -/
def remaining : EStateM.Result Fault (List Token) α → List Token
  | .ok _ rest => rest
  | .error _ rest => rest

/-- What a reader leaves is what its result leaves. -/
lemma rest_eq_remaining (reader : Reader α) (tokens : List Token) :
    reader.rest tokens = remaining (reader tokens) := by
  unfold rest remaining
  cases reader tokens <;> rfl

/-- How the result of a reader is related to its result with `extra` tokens at the end: it is the
same, but that more is left, if some token was left; otherwise the reader gets to the extra tokens
at least. -/
inductive Continues (extra : List Token) :
    EStateM.Result Fault (List Token) α → EStateM.Result Fault (List Token) α → Prop where
  | made (a : α) (t : Token) (rest : List Token) :
      Continues extra (.ok a (t :: rest)) (.ok a (t :: rest ++ extra))
  | stopped {fault : Fault} {t : Token} {rest : List Token} (h : fault.StopsAt (t :: rest)) :
      Continues extra (.error fault (t :: rest)) (.error fault (t :: rest ++ extra))
  | madeOfAll (a : α) {result : EStateM.Result Fault (List Token) α}
      (h : remaining result <:+ extra) : Continues extra (.ok a []) result
  | stoppedAtEnd (expected : Expected) {result : EStateM.Result Fault (List Token) α}
      (h : remaining result <:+ extra) : Continues extra (.error (.endOfInput expected) []) result

/-- A success is continued by the same success with more left. -/
lemma continues_ok (a : α) (rest : List Token) :
    Continues extra (.ok a rest) (.ok a (rest ++ extra)) := by
  cases rest with
  | nil => exact .madeOfAll a (List.suffix_refl extra)
  | cons t rest => exact .made a t rest

/-- A fault is continued by the same fault if it stops at what is left. -/
lemma continues_error {fault : Fault} {rest : List Token} (h : fault.StopsAt rest) :
    Continues extra (.error fault rest : EStateM.Result Fault (List Token) α)
      (.error fault (rest ++ extra)) := by
  cases rest with
  | nil =>
    cases h with
    | atEnd expected => exact .stoppedAtEnd expected (List.suffix_refl extra)
  | cons t rest => exact .stopped h

/-- A result that leaves nothing can be continued by whatever gets to the extra tokens. -/
lemma Continues.of_remaining_nil {other : List Token}
    {result more new : EStateM.Result Fault (List Token) α} (h : Continues extra result more)
    (hnil : remaining result = []) (hnew : remaining new <:+ other) :
    Continues other result new := by
  cases h with
  | made a t rest => cases hnil
  | stopped h => cases hnil
  | madeOfAll a _ => exact .madeOfAll a hnew
  | stoppedAtEnd expected _ => exact .stoppedAtEnd expected hnew

/-- A reader that looks at one token at a time. -/
structure Local (reader : Reader α) : Prop where
  suffix : reader.LeavesSuffix
  continues : ∀ tokens extra, Continues extra (reader tokens) (reader (tokens ++ extra))

/-- A reader that stops leaves the tokens from the fault on. -/
lemma Local.stopsAt {reader : Reader α} (h : reader.Local) {tokens rest : List Token}
    {fault : Fault} (heq : reader tokens = .error fault rest) : fault.StopsAt rest := by
  have hcontinues := h.continues tokens []
  rw [heq] at hcontinues
  generalize reader (tokens ++ []) = more at hcontinues
  cases hcontinues with
  | stopped hstops => exact hstops
  | stoppedAtEnd expected _ => exact .atEnd expected []

/-! ### The readers of at most one token -/

/-- A reader that takes nothing looks at no token. -/
lemma local_pure (a : α) : (pure a : Reader α).Local :=
  ⟨leavesSuffix_pure a, fun tokens _ => continues_ok a tokens⟩

/-- Of two local readers in turn, the second goes on from where the first stopped, with more tokens
or without. -/
lemma Local.bind {reader : Reader α} {next : α → Reader β} (h : reader.Local)
    (hnext : ∀ a, (next a).Local) : (reader >>= next).Local := by
  refine ⟨h.suffix.bind fun a => (hnext a).suffix, fun tokens extra => ?_⟩
  have hcontinues := h.continues tokens extra
  have hreach {result : EStateM.Result Fault (List Token) α}
      (hresult : remaining result <:+ extra) : remaining (match result with
        | .ok a rest => next a rest
        | .error fault rest => .error fault rest) <:+ extra := by
    cases result with
    | ok a rest =>
      have hsuffix := (hnext a).suffix rest
      rw [rest_eq_remaining] at hsuffix
      exact hsuffix.trans hresult
    | error fault rest => exact hresult
  rw [bind_apply, bind_apply]
  generalize reader tokens = result at hcontinues ⊢
  generalize reader (tokens ++ extra) = more at hcontinues ⊢
  cases hcontinues with
  | made a t rest => exact (hnext a).continues (t :: rest) extra
  | stopped hstops => exact .stopped hstops
  | madeOfAll a hmore =>
    have hnil := List.suffix_nil.mp ((hnext a).suffix [])
    rw [rest_eq_remaining] at hnil
    exact ((hnext a).continues [] []).of_remaining_nil hnil (hreach hmore)
  | stoppedAtEnd expected hmore => exact .stoppedAtEnd expected (hreach hmore)

/-- What a reader may do with the first token: take it and go on, leave it, or stop at it. -/
inductive Decides (reader : Reader α) (t : Token) : Prop where
  | take (next : Reader α) (hnext : next.Local) (h : ∀ rest, reader (t :: rest) = next rest)
  | leave (a : α) (h : ∀ rest, reader (t :: rest) = .ok a (t :: rest))
  | stop (fault : Fault) (hfound : fault.found? = some t)
      (h : ∀ rest, reader (t :: rest) = .error fault (t :: rest))

/-- A reader is local if it decides on the first token what to do. -/
lemma local_of_decides {reader : Reader α}
    (hnil : (∃ a, reader [] = .ok a []) ∨ ∃ expected, reader [] = .error (.endOfInput expected) [])
    (hcons : ∀ t, reader.Decides t) : reader.Local := by
  have hsuffix (tokens : List Token) : remaining (reader tokens) <:+ tokens := by
    cases tokens with
    | nil => rcases hnil with ⟨a, h⟩ | ⟨expected, h⟩ <;> rw [h] <;> exact List.suffix_refl []
    | cons t rest =>
      rcases hcons t with ⟨next, hnext, h⟩ | ⟨a, h⟩ | ⟨fault, -, h⟩ <;> rw [h]
      · have hrest := hnext.suffix rest
        rw [rest_eq_remaining] at hrest
        exact hrest.trans (List.suffix_cons t rest)
      · exact List.suffix_refl (t :: rest)
      · exact List.suffix_refl (t :: rest)
  refine ⟨fun tokens => ?_, fun tokens extra => ?_⟩
  · rw [rest_eq_remaining]
    exact hsuffix tokens
  · cases tokens with
    | nil =>
      rcases hnil with ⟨a, h⟩ | ⟨expected, h⟩ <;> rw [h]
      · exact .madeOfAll a (hsuffix extra)
      · exact .stoppedAtEnd expected (hsuffix extra)
    | cons t tokens =>
      rw [List.cons_append]
      rcases hcons t with ⟨next, hnext, h⟩ | ⟨a, h⟩ | ⟨fault, hfound, h⟩ <;> rw [h, h]
      · exact hnext.continues tokens extra
      · exact continues_ok a (t :: tokens)
      · exact continues_error (.atToken hfound)

/-- A reader that refuses to go deeper stops at the first token, whatever it is. -/
lemma local_tooDeep (what : Expected) : (tooDeep what : Reader α).Local :=
  local_of_decides (.inr ⟨what, rfl⟩) fun t => .stop (.nestedTooDeep what t) rfl fun _ => rfl

/-- Whether a token is taken is decided by that token. -/
lemma local_take? (wanted : Token → Bool) : (take? wanted).Local := by
  refine local_of_decides (.inl ⟨none, rfl⟩) fun t => ?_
  by_cases h : wanted t = true
  · exact .take (pure (some t)) (local_pure _) fun rest => by rw [take?, if_pos h, pure_apply]
  · exact .leave none fun rest => by rw [take?, if_neg h]

/-- So is whether it is accepted. -/
lemma local_accept (category : Token.Category) (text : String) : (accept category text).Local := by
  refine local_of_decides (.inl ⟨false, rfl⟩) fun t => ?_
  by_cases h : t.is category text = true
  · exact .take (pure true) (local_pure _) fun rest => by rw [accept, if_pos h, pure_apply]
  · exact .leave false fun rest => by rw [accept, if_neg h]

/-- An unexpected token is a fault at that token, and a missing one at the end of the input. -/
lemma local_expect (category : Token.Category) (text : String) : (expect category text).Local := by
  refine local_of_decides (.inr ⟨.words [text], rfl⟩) fun t => ?_
  by_cases h : t.is category text = true
  · exact .take (pure ()) (local_pure _) fun rest => by rw [expect, if_pos h, pure_apply]
  · exact .stop (.unexpected (.words [text]) t) rfl fun rest => by rw [expect, if_neg h]

/-- So it is when a name is asked for. -/
lemma local_identifier (expected : Expected) : (identifier expected).Local := by
  refine local_of_decides (.inr ⟨expected, rfl⟩) fun t => ?_
  by_cases h : t.category = .identifier
  · exact .take (pure t) (local_pure _) fun rest => by rw [identifier, if_pos h, pure_apply]
  · exact .stop (.unexpected expected t) rfl fun rest => by rw [identifier, if_neg h]

/-- It is enough for two second readers to agree on what the first one may hand them. -/
lemma bind_congr {reader : Reader α} {next next' : α → Reader β} {tokens : List Token}
    (h : ∀ a rest, reader tokens = .ok a rest → next a rest = next' a rest) :
    (reader >>= next) tokens = (reader >>= next') tokens := by
  rw [bind_apply, bind_apply]
  cases heq : reader tokens with
  | ok a rest => exact h a rest heq
  | error fault rest => rfl

/-- A token that is accepted is one token less. -/
lemma length_of_accept_true {category : Token.Category} {text : String} {tokens rest : List Token}
    (h : accept category text tokens = .ok true rest) : rest.length < tokens.length := by
  obtain ⟨used, rfl, ⟨t, rfl, -, -⟩ | ⟨-, hfalse⟩⟩ := ensures_accept category text h
  · exact Nat.lt_succ_self _
  · cases hfalse

/-- If a token is not accepted, no token is taken. -/
lemma eq_of_accept_false {category : Token.Category} {text : String} {tokens rest : List Token}
    (h : accept category text tokens = .ok false rest) : rest = tokens := by
  obtain ⟨used, rfl, ⟨t, -, -, hfalse⟩ | ⟨rfl, -⟩⟩ := ensures_accept category text h
  · cases hfalse
  · rfl

/-- A loop is local if it is with every bound, and if its bound does not matter. -/
lemma local_bounded {loop : List Token → Reader α} (h : ∀ bound, (loop bound).Local)
    (hbound : ∀ bound tokens, tokens.length ≤ bound.length →
      loop bound tokens = loop tokens tokens) :
    Local fun tokens => loop tokens tokens := by
  refine ⟨fun tokens => (h tokens).suffix tokens, fun tokens extra => ?_⟩
  have hsame : loop tokens tokens = loop (tokens ++ extra) tokens := by
    refine (hbound (tokens ++ extra) tokens ?_).symm
    rw [List.length_append]
    exact Nat.le_add_right _ _
  rw [hsame]
  exact (h (tokens ++ extra)).continues tokens extra

end Reader

namespace Tree

open Reader

variable {expression operand target value : Reader Tree}

/-! ### Expressions, with a fixed bound -/

/-- The rounds of a list are local: after each element the next token tells whether there is
another. -/
lemma local_elements (hexpression : expression.Local) (close : String) (bound : List Token) :
    (elements expression close bound).Local := by
  induction bound with
  | nil =>
    refine ⟨fun tokens => List.suffix_refl tokens, fun tokens extra => ?_⟩
    exact continues_error (.atEnd .expression tokens)
  | cons _ bound ih =>
    rw [elements]
    refine hexpression.bind fun first => (local_accept _ _).bind fun more => ?_
    cases more with
    | true => exact ih.bind fun others => local_pure _
    | false => exact (local_expect _ _).bind fun _ => local_pure _

/-- The rounds of a chain of suffixes are local: the next token tells which suffix it is, if any. -/
lemma local_suffixes (hexpression : expression.Local)
    (hlist : ∀ close, (list expression close).Local) (bound : List Token) (subject : Tree) :
    (suffixes expression bound subject).Local := by
  induction bound generalizing subject with
  | nil => exact local_pure _
  | cons _ bound ih =>
    rw [suffixes]
    refine (local_accept _ _).bind fun call => ?_
    cases call with
    | true => exact (hlist _).bind fun _ => ih _
    | false =>
      refine (local_accept _ _).bind fun member => ?_
      cases member with
      | true => exact (local_identifier _).bind fun _ => ih _
      | false =>
        refine (local_accept _ _).bind fun subscript => ?_
        cases subscript with
        | true => exact hexpression.bind fun _ => (local_expect _ _).bind fun _ => ih _
        | false => exact local_pure _

/-- A binary operator is told by its own token. -/
lemma local_binaryOperator? (least : ℕ) : (binaryOperator? least).Local := by
  refine local_of_decides (.inl ⟨none, rfl⟩) fun t => ?_
  cases hprecedence : t.precedence? with
  | none => exact .leave none fun rest => by simp only [binaryOperator?, hprecedence]
  | some precedence =>
    by_cases h : least ≤ precedence
    · exact .take (pure (some (t, precedence))) (local_pure _) fun rest => by
        simp only [binaryOperator?, hprecedence, if_pos h, pure_apply]
    · exact .leave none fun rest => by simp only [binaryOperator?, hprecedence, if_neg h]

/-- The rounds of a chain of operators are local, at any precedence. -/
lemma local_climb (hoperand : operand.Local) (bound : List Token) (least : ℕ) (left : Tree) :
    (climb operand bound least left).Local := by
  induction bound generalizing least left with
  | nil => exact local_pure _
  | cons _ bound ih =>
    rw [climb]
    refine (local_binaryOperator? _).bind fun operator => ?_
    cases operator with
    | some operator => exact hoperand.bind fun _ => (ih _ _).bind fun _ => ih _ _
    | none => exact local_pure _

/-! ### Bounds that do not matter

Each round of a loop takes a token and spends one token of the bound.  A loop that has used up its
bound has used up its tokens too, and without tokens every bound gives the same. -/

section

variable {bound bound' tokens : List Token}

/-- Each element takes a token, so a bound of as many tokens is never used up. -/
lemma elements_bound (hnil : expression [] = .error (.endOfInput .expression) [])
    (htakes : expression.Takes) (close : String) (h : tokens.length ≤ bound.length)
    (h' : tokens.length ≤ bound'.length) :
    elements expression close bound tokens = elements expression close bound' tokens := by
  have hend (bound : List Token) :
      elements expression close bound [] = .error (.endOfInput .expression) [] := by
    cases bound with
    | nil => rfl
    | cons _ bound => rw [elements, bind_apply, hnil]
  -- Both bounds become shorter together, and never faster than the tokens.
  induction bound generalizing bound' tokens with
  | nil =>
    obtain rfl := List.length_eq_zero_iff.mp (Nat.le_zero.mp h)
    rw [hend, hend]
  | cons _ bound ih =>
    cases bound' with
    | nil =>
      obtain rfl := List.length_eq_zero_iff.mp (Nat.le_zero.mp h')
      rw [hend, hend]
    | cons _ bound' =>
      rw [elements, elements]
      refine bind_congr fun first rest hfirst => bind_congr fun more rest' hmore => ?_
      have hshorter := htakes hfirst
      have hle := ((local_accept _ _).suffix.of_ok hmore).length_le
      simp only [List.length_cons] at h h'
      cases more with
      | true =>
        have hbound : rest'.length ≤ bound.length := by omega
        have hbound' : rest'.length ≤ bound'.length := by omega
        rw [if_pos rfl, if_pos rfl, bind_apply, bind_apply, ih hbound hbound']
      | false => rfl

/-- Each suffix takes the token that announces it, so a bound of as many tokens is never used up. -/
lemma suffixes_bound (hsuffix : expression.LeavesSuffix)
    (hlist : ∀ close, (list expression close).LeavesSuffix) (subject : Tree)
    (h : tokens.length ≤ bound.length) (h' : tokens.length ≤ bound'.length) :
    suffixes expression bound subject tokens = suffixes expression bound' subject tokens := by
  have hend (bound : List Token) (subject : Tree) :
      suffixes expression bound subject [] = .ok subject [] := by
    cases bound <;> rfl
  induction bound generalizing bound' subject tokens with
  | nil =>
    obtain rfl := List.length_eq_zero_iff.mp (Nat.le_zero.mp h)
    rw [hend, hend]
  | cons _ bound ih =>
    cases bound' with
    | nil =>
      obtain rfl := List.length_eq_zero_iff.mp (Nat.le_zero.mp h')
      rw [hend, hend]
    | cons _ bound' =>
      simp only [List.length_cons] at h h'
      rw [suffixes, suffixes]
      refine bind_congr fun call rest hcall => ?_
      cases call with
      | true =>
        have hshorter := length_of_accept_true hcall
        refine bind_congr fun arguments rest' harguments => ?_
        have hle := ((hlist _).of_ok harguments).length_le
        exact ih _ (by omega) (by omega)
      | false =>
        obtain rfl := eq_of_accept_false hcall
        refine bind_congr fun member rest' hmember => ?_
        cases member with
        | true =>
          have hshorter := length_of_accept_true hmember
          refine bind_congr fun name rest'' hname => ?_
          have hle := ((local_identifier _).suffix.of_ok hname).length_le
          exact ih _ (by omega) (by omega)
        | false =>
          obtain rfl := eq_of_accept_false hmember
          refine bind_congr fun subscript rest'' hsubscript => ?_
          cases subscript with
          | true =>
            have hshorter := length_of_accept_true hsubscript
            refine bind_congr fun inner rest₁ hinner => bind_congr fun _ rest₂ hclose => ?_
            have hle := (hsuffix.of_ok hinner).length_le
            have hle' := ((local_expect _ _).suffix.of_ok hclose).length_le
            exact ih _ (by omega) (by omega)
          | false => rfl

/-- Each operator is a token, so a bound of as many tokens is never used up. -/
lemma climb_bound (hoperand : operand.Local) (htakes : operand.Takes) (least : ℕ) (left : Tree)
    (h : tokens.length ≤ bound.length) (h' : tokens.length ≤ bound'.length) :
    climb operand bound least left tokens = climb operand bound' least left tokens := by
  have hend (bound : List Token) (least : ℕ) (left : Tree) :
      climb operand bound least left [] = .ok left [] := by
    cases bound <;> rfl
  induction bound generalizing bound' least left tokens with
  | nil =>
    obtain rfl := List.length_eq_zero_iff.mp (Nat.le_zero.mp h)
    rw [hend, hend]
  | cons _ bound ih =>
    cases bound' with
    | nil =>
      obtain rfl := List.length_eq_zero_iff.mp (Nat.le_zero.mp h')
      rw [hend, hend]
    | cons _ bound' =>
      simp only [List.length_cons] at h h'
      rw [climb, climb]
      refine bind_congr fun operator rest hoperator => ?_
      have hle := ((local_binaryOperator? _).suffix.of_ok hoperator).length_le
      cases operator with
      | some operator =>
        refine bind_congr fun next rest₁ hnext => ?_
        -- Two rounds start here: for the right side, and for what is behind it.
        have hshorter := htakes hnext
        have hbound : rest₁.length ≤ bound.length := by omega
        have hbound' : rest₁.length ≤ bound'.length := by omega
        rw [bind_apply, bind_apply, ih _ _ hbound hbound']
        cases hright : climb operand bound' (operator.2 + 1) next rest₁ with
        | ok right rest₂ =>
          have hle' := ((local_climb hoperand _ _ _).suffix.of_ok hright).length_le
          exact ih _ _ (by omega) (by omega)
        | error fault rest₂ => rfl
      | none => rfl

end

/-! ### Expressions -/

/-- What it takes of the reader of an inner expression to make the readers around it local. -/
structure IsLocalExpression (expression : Reader Tree) : Prop where
  isLocal : expression.Local
  takes : expression.Takes
  apply_nil : expression [] = .error (.endOfInput .expression) []

/-- A list is local, since the bound of its rounds does not matter. -/
lemma local_list (h : IsLocalExpression expression) (close : String) :
    (list expression close).Local := by
  have helements : Local fun tokens => elements expression close tokens tokens :=
    local_bounded (local_elements h.isLocal close) fun bound tokens hbound =>
      elements_bound h.apply_nil h.takes close hbound (Nat.le_refl _)
  refine (local_accept _ _).bind fun closed => ?_
  cases closed with
  | true => exact local_pure _
  | false => exact helements

/-- A primary expression is told by its first token. -/
lemma local_primary (h : IsLocalExpression expression) : (primary expression).Local := by
  have hparentheses : (do
      let inner ← expression
      Reader.expect .delimiter ")"
      return inner : Reader Tree).Local :=
    h.isLocal.bind fun _ => (local_expect _ _).bind fun _ => local_pure _
  have harray (t : Token) : (do
      let items ← list expression "]"
      return ⟨.arrayLiteral, some t, items⟩ : Reader Tree).Local :=
    (local_list h "]").bind fun _ => local_pure _
  refine local_of_decides (.inr ⟨.expression, rfl⟩) fun t => ?_
  by_cases hliteral : t.category = .literal
  · exact .take (pure _) (local_pure _) fun rest => by rw [primary, if_pos hliteral, pure_apply]
  by_cases hname : t.category = .identifier ∨ t.isKeyword "self" = true
  · exact .take (pure _) (local_pure _) fun rest => by
      rw [primary, if_neg hliteral, if_pos hname, pure_apply]
  by_cases hparenthesis : t.is .delimiter "(" = true
  · exact .take _ hparentheses fun rest => by
      rw [primary, if_neg hliteral, if_neg hname, if_pos hparenthesis]
  by_cases hbracket : t.is .delimiter "[" = true
  · exact .take _ (harray t) fun rest => by
      rw [primary, if_neg hliteral, if_neg hname, if_neg hparenthesis, if_pos hbracket]
  · exact .stop (.unexpected .expression t) rfl fun rest => by
      rw [primary, if_neg hliteral, if_neg hname, if_neg hparenthesis, if_neg hbracket]

/-- So is a primary expression with its suffixes, each by the token that announces it. -/
lemma local_suffixed (h : IsLocalExpression expression) : (suffixed expression).Local := by
  refine (local_primary h).bind fun subject => ?_
  exact local_bounded
    (fun bound => local_suffixes h.isLocal (local_list h) bound subject)
    fun bound tokens hbound =>
      suffixes_bound h.isLocal.suffix (fun close => (local_list h close).suffix) subject hbound
        (Nat.le_refl _)

/-- A prefix operator is told by its own token. -/
lemma local_unary (h : IsLocalExpression expression) (hoperand : operand.Local) :
    (unary expression operand).Local := by
  refine (local_take? _).bind fun operator => ?_
  cases operator with
  | some operator => exact hoperand.bind fun _ => local_pure _
  | none => exact local_suffixed h

/-- A chain of binary operators is local, since the bound of its rounds does not matter. -/
lemma local_binary (hoperand : operand.Local) (htakes : operand.Takes) (least : ℕ) :
    (binary operand least).Local := by
  refine hoperand.bind fun first => ?_
  exact local_bounded (fun bound => local_climb hoperand bound least first)
    fun bound tokens hbound => climb_bound hoperand htakes least first hbound (Nat.le_refl _)

/-- Whether a value follows is decided by the token behind the target. -/
lemma local_assignment (htarget : target.Local) (hvalue : value.Local) :
    (assignment target value).Local := by
  refine htarget.bind fun left => (local_take? _).bind fun operator => ?_
  cases operator with
  | some operator => exact hvalue.bind fun _ => local_pure _
  | none => exact local_pure _

/-- An expression is asked for where the tokens end. -/
lemma expression_nil (room : ℕ) :
    Tree.expression room [] = .error (.endOfInput .expression) [] := by
  rcases room with _ | _ | room <;> rfl

/-- Expressions and operands are read one token at a time, however many levels of nesting are
left. -/
theorem local_expression_operand (room : ℕ) :
    IsLocalExpression (Tree.expression room) ∧ (Tree.operand room).Local := by
  induction room with
  | zero =>
    have hdeep : (tooDeep .expression : Reader Tree).Local := local_tooDeep .expression
    have hexpression : IsLocalExpression (Tree.expression 0) :=
      ⟨hdeep, takes_expression 0, expression_nil 0⟩
    exact ⟨hexpression, local_unary hexpression hdeep⟩
  | succ room ih =>
    have hexpression : IsLocalExpression (Tree.expression (room + 1)) := by
      refine ⟨?_, takes_expression (room + 1), expression_nil (room + 1)⟩
      rw [expression_succ]
      exact local_assignment (local_binary ih.2 (takes_operand room) 1) ih.1.isLocal
    refine ⟨hexpression, ?_⟩
    rw [operand_succ]
    exact local_unary hexpression ih.2

end Tree

end UvaAnalysis
