import UvaAnalysis.Proofs.Tree.Print

/-!
# Printed expressions are read back

What a printed expression is read as does not depend on what follows it, as long as the expression
ends there.  With enough levels of nesting the reader makes the same tree again and leaves what
follows; with fewer it stops at one of the printed tokens, because it is too deep (`Reads`).

An expression is read in three ways: as an expression, up to a token that closes it; as an operand,
up to a token that opens no suffix; and, with parentheses around it unless it is primary, as a
primary expression, whatever follows.  Each way builds on the next.
-/

namespace UvaAnalysis

namespace Token

/-- A token that opens a suffix: a call, a member or a subscript. -/
def opensSuffix (t : Token) : Bool :=
  t.is .delimiter "(" || t.is .operator "." || t.is .delimiter "["

/-- The delimiters that stand after a printed expression. -/
def closesExpression (t : Token) : Bool :=
  t.is .delimiter ";" || t.is .delimiter ")" || t.is .delimiter "]" || t.is .delimiter ","

variable {t : Token}

/-- What closes an expression opens no suffix of it. -/
lemma opensSuffix_of_closesExpression (h : t.closesExpression = true) : t.opensSuffix = false := by
  simp only [closesExpression, Bool.or_eq_true, is_iff] at h
  rcases h with ((⟨hcategory, htext⟩ | ⟨hcategory, htext⟩) | ⟨hcategory, htext⟩) |
    ⟨hcategory, htext⟩ <;> simp [opensSuffix, is, hcategory, htext]

/-- Only delimiters close expressions. -/
lemma category_of_closesExpression (h : t.closesExpression = true) : t.category = .delimiter := by
  simp only [closesExpression, Bool.or_eq_true, is_iff] at h
  tauto

/-- A delimiter is no binary operator. -/
lemma precedence?_of_closesExpression (h : t.closesExpression = true) : t.precedence? = none := by
  simp [precedence?, category_of_closesExpression h]

/-- What closes an expression is no operator. -/
lemma is_operator_of_closesExpression (h : t.closesExpression = true) (text : String) :
    t.is .operator text = false := by
  simp [is, category_of_closesExpression h]

/-- A binary operator opens no suffix. -/
lemma opensSuffix_of_precedence? {precedence : ℕ} (h : t.precedence? = some precedence) :
    t.opensSuffix = false := by
  unfold opensSuffix
  by_contra hopens
  simp only [Bool.not_eq_false, Bool.or_eq_true, is_iff] at hopens
  obtain (⟨hcategory, htext⟩ | ⟨hcategory, htext⟩) | ⟨hcategory, htext⟩ := hopens <;>
    simp [precedence?, hcategory, htext] at h

/-- The loosest operators are on level one. -/
lemma one_le_of_precedence? {precedence : ℕ} (h : t.precedence? = some precedence) :
    1 ≤ precedence := by
  unfold precedence? at h
  split_ifs at h <;> cases h <;> decide

/-- The sign of an assignment is neither a binary operator nor opens a suffix. -/
lemma precedence?_of_assignment (h : t.is .operator "=" = true) : t.precedence? = none := by
  obtain ⟨hcategory, htext⟩ := is_iff.mp h
  simp [precedence?, hcategory, htext]

/-- The sign of assignment opens no suffix. -/
lemma opensSuffix_of_assignment (h : t.is .operator "=" = true) : t.opensSuffix = false := by
  obtain ⟨hcategory, htext⟩ := is_iff.mp h
  simp [opensSuffix, is, hcategory, htext]

/-- An expression can begin with a prefix operator. -/
lemma startsExpression_of_isPrefixOperator (h : t.isPrefixOperator = true) :
    t.startsExpression = true := by
  simp only [isPrefixOperator, isKeyword, Bool.or_eq_true, is_iff] at h
  obtain (⟨hcategory, htext⟩ | ⟨hcategory, htext⟩) | ⟨hcategory, htext⟩ := h <;>
    simp [startsExpression, hcategory, htext]

/-- A token that an expression begins with closes nothing. -/
lemma is_of_startsExpression (h : t.startsExpression = true) {close : String}
    (hclose : close = ")" ∨ close = "]") : t.is .delimiter close = false := by
  by_contra his
  obtain ⟨hcategory, htext⟩ := is_iff.mp (Bool.not_eq_false _ ▸ his)
  rcases hclose with rfl | rfl <;> simp [startsExpression, hcategory, htext] at h

end Token

namespace Reader

variable {α β : Type} {fits fits' : Prop} {printed more following : List Token} {a : α} {b : β}
  {t : Token}

/-- What comes of printed tokens: if they fit, `a` is made of them and what follows is left; and if
they do not, one of them is too deep. -/
inductive Outcome (fits : Prop) (printed : List Token) (a : α) (following : List Token) :
    EStateM.Result Fault (List Token) α → Prop where
  | made (h : fits) : Outcome fits printed a following (.ok a following)
  | tooDeep (h : ¬fits) {found : Token} (hfound : found ∈ printed) (rest : List Token) :
      Outcome fits printed a following (.error (.nestedTooDeep .expression found) rest)

/-- More tokens may be too deep where some of them are. -/
lemma Outcome.mono {result : EStateM.Result Fault (List Token) α}
    (h : Outcome fits printed a following result) (hmore : printed ⊆ more) :
    Outcome fits more a following result := by
  cases h with
  | made h => exact .made h
  | tooDeep h hfound rest => exact .tooDeep h (hmore hfound) rest

/-- The reader makes `a` of the printed tokens before `following`, if they fit. -/
def Reads (reader : Reader α) (fits : Prop) (printed : List Token) (a : α)
    (following : List Token) : Prop :=
  Outcome fits printed a following (reader (printed ++ following))

/-- A reader that succeeds on printed tokens that fit reads them. -/
lemma reads_of_ok {reader : Reader α} (hfits : fits)
    (h : reader (printed ++ following) = .ok a following) :
    reader.Reads fits printed a following := by
  unfold Reads
  rw [h]
  exact .made hfits

/-- A reader that refuses to go deeper stops at the first of the printed tokens. -/
lemma reads_tooDeep (hprinted : printed ≠ []) (hfits : ¬fits) :
    (tooDeep .expression : Reader α).Reads fits printed a following := by
  cases printed with
  | nil => exact absurd rfl hprinted
  | cons t printed => exact .tooDeep hfits List.mem_cons_self _

/-- Whether the tokens fit may be said in another way. -/
lemma Reads.congr_fits {reader : Reader α} (h : reader.Reads fits printed a following)
    (hfits : fits ↔ fits') : reader.Reads fits' printed a following :=
  propext hfits ▸ h

/-- Two readers that do the same with the printed tokens and what follows. -/
lemma Reads.congr {reader reader' : Reader α} (h : reader.Reads fits printed a following)
    (heq : reader' (printed ++ following) = reader (printed ++ following)) :
    reader'.Reads fits printed a following := by
  unfold Reads
  rw [heq]
  exact h

/-- A reader that goes on like another one after the first token. -/
lemma reads_cons {reader reader' : Reader α}
    (heq : reader' (t :: (printed ++ following)) = reader (printed ++ following))
    (h : reader.Reads fits printed a following) :
    reader'.Reads fits (t :: printed) a following := by
  unfold Reads
  rw [List.cons_append, heq]
  exact h.mono (List.subset_cons_self t printed)

/-- One reader after another: what the second one reads follows what the first one reads. -/
lemma Reads.bind {reader : Reader α} {next : α → Reader β}
    (h : reader.Reads fits printed a (more ++ following))
    (hnext : (next a).Reads fits' more b following) :
    (reader >>= next).Reads (fits ∧ fits') (printed ++ more) b following := by
  unfold Reads at h hnext ⊢
  rw [List.append_assoc, bind_apply]
  generalize reader (printed ++ (more ++ following)) = result at h ⊢
  cases h with
  | tooDeep hfits hfound rest =>
    exact .tooDeep (fun hboth => hfits hboth.1) (List.mem_append_left more hfound) rest
  | made hfits =>
    have hmore := hnext.mono (List.subset_append_right printed more)
    change Outcome (fits ∧ fits') (printed ++ more) b following (next a (more ++ following))
    generalize next a (more ++ following) = result at hmore ⊢
    cases hmore with
    | made hfits' => exact .made ⟨hfits, hfits'⟩
    | tooDeep hfits' hfound rest => exact .tooDeep (fun hboth => hfits' hboth.2) hfound rest

/-- A second reader for which nothing is too deep. -/
lemma Reads.bind_ok {reader : Reader α} {next : α → Reader β}
    (h : reader.Reads fits printed a (more ++ following))
    (hnext : next a (more ++ following) = .ok b following) :
    (reader >>= next).Reads fits (printed ++ more) b following :=
  (h.bind (reads_of_ok trivial hnext)).congr_fits (and_iff_left trivial)

/-- A second reader that takes nothing. -/
lemma Reads.bind_nothing {reader : Reader α} {next : α → Reader β}
    (h : reader.Reads fits printed a following) (hnext : next a following = .ok b following) :
    (reader >>= next).Reads fits printed b following := by
  have hboth : (reader >>= next).Reads fits (printed ++ []) b following := h.bind_ok hnext
  rwa [List.append_nil] at hboth

/-- A second reader that takes one token. -/
lemma Reads.bind_token {reader : Reader α} {next : α → Reader β}
    (h : reader.Reads fits printed a (t :: following))
    (hnext : next a (t :: following) = .ok b following) :
    (reader >>= next).Reads fits (printed ++ [t]) b following :=
  h.bind_ok hnext

/-! ### Single tokens -/

/-- After a success the next reader goes on with what is left. -/
lemma bind_of_ok {reader : Reader α} {tokens rest : List Token} (h : reader tokens = .ok a rest)
    (next : α → Reader β) : (reader >>= next) tokens = next a rest := by
  rw [bind_apply, h]

section

variable {category : Token.Category} {text : String} {wanted : Token → Bool}

/-- A token that is asked for is accepted. -/
lemma accept_of_is (h : t.is category text = true) (rest : List Token) :
    accept category text (t :: rest) = .ok true rest :=
  if_pos h

/-- Any other token is left. -/
lemma accept_of_not_is (h : t.is category text = false) (rest : List Token) :
    accept category text (t :: rest) = .ok false (t :: rest) :=
  if_neg (Bool.eq_false_iff.mp h)

/-- A token that is expected is taken. -/
lemma expect_of_is (h : t.is category text = true) (rest : List Token) :
    expect category text (t :: rest) = .ok () rest :=
  if_pos h

/-- A token that is wanted is taken. -/
lemma take?_of_wanted (h : wanted t = true) (rest : List Token) :
    take? wanted (t :: rest) = .ok (some t) rest :=
  if_pos h

/-- Any other token is left. -/
lemma take?_of_not_wanted (h : wanted t = false) (rest : List Token) :
    take? wanted (t :: rest) = .ok none (t :: rest) :=
  if_neg (Bool.eq_false_iff.mp h)

end

end Reader

namespace Tree

open Reader

/-! ### Loops that stop -/

section

variable {reader target value : Reader Tree} {fits fits' : Prop}
  {printed more following : List Token} {tree : Tree} {t : Token}

/-- A chain of suffixes ends before a token that opens none. -/
lemma suffixes_stop (h : t.opensSuffix = false) (bound : List Token) (subject : Tree)
    (following : List Token) :
    suffixes reader bound subject (t :: following) = .ok subject (t :: following) := by
  cases bound with
  | nil => rfl
  | cons _ bound =>
    simp only [Token.opensSuffix, Bool.or_eq_false_iff] at h
    obtain ⟨⟨hcall, hmember⟩, hindex⟩ := h
    rw [suffixes, bind_of_ok (accept_of_not_is hcall following)]
    exact (bind_of_ok (accept_of_not_is hmember following) _).trans
      (bind_of_ok (accept_of_not_is hindex following) _)

/-- A chain of binary operators ends before a token that is none. -/
lemma climb_stop (h : t.precedence? = none) (bound : List Token) (least : ℕ) (left : Tree)
    (following : List Token) :
    climb reader bound least left (t :: following) = .ok left (t :: following) := by
  cases bound with
  | nil => rfl
  | cons _ bound =>
    have hnone : binaryOperator? least (t :: following) = .ok none (t :: following) := by
      rw [binaryOperator?, h]
    rw [climb, bind_of_ok hnone]
    rfl

/-- What is read as an operand is read as operands with no operator between them. -/
lemma reads_binary (h : reader.Reads fits printed tree (t :: following)) (least : ℕ)
    (ht : t.precedence? = none) : (binary reader least).Reads fits printed tree (t :: following) :=
  h.bind_nothing (climb_stop ht _ least tree following)

/-- What is read as a target is an expression if no value is assigned to it. -/
lemma reads_assignment_target (h : target.Reads fits printed tree (t :: following))
    (ht : t.is .operator "=" = false) :
    (assignment target value).Reads fits printed tree (t :: following) :=
  h.bind_nothing (bind_of_ok (take?_of_not_wanted ht following) _)

/-- An operator between two operands. -/
lemma reads_binary_operator {operator : Token} {precedence : ℕ} {left right : Tree}
    (hoperator : operator.precedence? = some precedence)
    (hleft : reader.Reads fits printed left (operator :: (more ++ t :: following)))
    (hright : reader.Reads fits' more right (t :: following)) (ht : t.precedence? = none) :
    (binary reader 1).Reads (fits ∧ fits') (printed ++ operator :: more)
      ⟨.binaryExpression, some operator, [left, right]⟩ (t :: following) := by
  have htakes : binaryOperator? 1 (operator :: (more ++ t :: following)) =
      .ok (some (operator, precedence)) (more ++ t :: following) := by
    rw [binaryOperator?, hoperator]
    exact if_pos (Token.one_le_of_precedence? hoperator)
  refine hleft.bind (reads_cons (bind_of_ok htakes _) (hright.bind_nothing ?_))
  exact (bind_of_ok (climb_stop ht _ _ right following) _).trans (climb_stop ht _ _ _ following)

/-- A target and the value assigned to it. -/
lemma reads_assignment_value {operator : Token} {left right : Tree}
    (hoperator : operator.is .operator "=" = true)
    (htarget : target.Reads fits printed left (operator :: (more ++ t :: following)))
    (hvalue : value.Reads fits' more right (t :: following)) :
    (assignment target value).Reads (fits ∧ fits') (printed ++ operator :: more)
      ⟨.assignment, some operator, [left, right]⟩ (t :: following) := by
  refine htarget.bind (reads_cons (bind_of_ok (take?_of_wanted hoperator _) _) ?_)
  exact hvalue.bind_nothing rfl

/-- What is read inside an expression needs one level more to be read as an expression. -/
lemma reads_expression {levels : ℕ} (hprinted : printed ≠ [])
    (h : ∀ room, (assignment (binary (operand room) 1) (expression room)).Reads (levels ≤ room)
      printed tree following) (room : ℕ) :
    (expression room).Reads (levels + 1 ≤ room) printed tree following := by
  cases room with
  | zero => exact reads_tooDeep hprinted (Nat.not_succ_le_zero levels)
  | succ room =>
    rw [expression_succ]
    exact (h room).congr_fits Nat.succ_le_succ_iff.symm

/-- What is read as an operand is read as an expression. -/
lemma reads_expression_of_operand {levels : ℕ} (hprinted : printed ≠ [])
    (h : ∀ room, (operand room).Reads (levels ≤ room) printed tree (t :: following))
    (ht : t.closesExpression = true) (room : ℕ) :
    (expression room).Reads (levels + 1 ≤ room) printed tree (t :: following) := by
  refine reads_expression hprinted (fun room => ?_) room
  refine reads_assignment_target (reads_binary (h room) 1 ?_) ?_
  · exact Token.precedence?_of_closesExpression ht
  · exact Token.is_operator_of_closesExpression ht "="

end

/-! ### What an expression begins with -/

section

variable {tree : Tree} (stamp : Token)

/-- An operand begins an expression, but not with a prefix operator. -/
lemma IsExpression.printOperand_eq_cons (h : IsExpression tree) :
    ∃ t rest, tree.printOperand stamp = t :: rest ∧ t.startsExpression = true ∧
      t.isPrefixOperator = false := by
  have hparenthesis : (stamp.mark .delimiter "(").startsExpression = true ∧
      (stamp.mark .delimiter "(").isPrefixOperator = false := ⟨rfl, rfl⟩
  cases hprimary : tree.kind.isPrimary with
  | false =>
    exact ⟨_, _, printOperand_of_not_isPrimary stamp hprimary, hparenthesis⟩
  | true =>
    rw [printOperand_of_isPrimary stamp hprimary]
    cases h with
    | literal ht =>
      exact ⟨_, _, rfl, by simp [Token.startsExpression, ht],
        by simp [Token.isPrefixOperator, Token.isKeyword, Token.is, ht]⟩
    | @name t ht =>
      refine ⟨t, [], rfl, ?_⟩
      rcases ht with ht | ht
      · simp [Token.startsExpression, Token.isPrefixOperator, Token.isKeyword, Token.is, ht]
      · obtain ⟨hcategory, htext⟩ := Token.is_iff.mp ht
        simp [Token.startsExpression, Token.isPrefixOperator, Token.isKeyword, Token.is, hcategory,
          htext]
    | array hopening _ =>
      obtain ⟨hcategory, htext⟩ := Token.is_iff.mp hopening
      refine ⟨_, _, print_array stamp _ _, ?_⟩
      simp [Token.startsExpression, Token.isPrefixOperator, Token.isKeyword, Token.is, hcategory,
        htext]
    | _ => cases hprimary

/-- A printed expression begins with a token that an expression can begin with. -/
lemma IsExpression.print_eq_cons (h : IsExpression tree) :
    ∃ t rest, tree.print stamp = t :: rest ∧ t.startsExpression = true := by
  have hoperand {subject : Tree} (hsubject : IsExpression subject) (more : List Token) :
      ∃ t rest, subject.printOperand stamp ++ more = t :: rest ∧ t.startsExpression = true := by
    obtain ⟨t, rest, heq, ht, -⟩ := hsubject.printOperand_eq_cons stamp
    exact ⟨t, rest ++ more, congrArg (· ++ more) heq, ht⟩
  have hself (hprimary : tree.kind.isPrimary = true) :
      ∃ t rest, tree.print stamp = t :: rest ∧ t.startsExpression = true := by
    obtain ⟨t, rest, heq, ht, -⟩ := h.printOperand_eq_cons stamp
    exact ⟨t, rest, (printOperand_of_isPrimary stamp hprimary).symm.trans heq, ht⟩
  cases h with
  | literal _ => exact hself rfl
  | name _ => exact hself rfl
  | array _ _ => exact hself rfl
  | call hsubject _ => exact print_call stamp _ _ ▸ hoperand hsubject _
  | member hsubject _ => exact hoperand hsubject _
  | index hsubject _ => exact hoperand hsubject _
  | unary hoperator _ => exact ⟨_, _, rfl, Token.startsExpression_of_isPrefixOperator hoperator⟩
  | binary _ hleft _ => exact hoperand hleft _
  | assignment _ htarget _ => exact hoperand htarget _

/-- A printed expression is not empty. -/
lemma IsExpression.print_ne_nil (h : IsExpression tree) : tree.print stamp ≠ [] := by
  obtain ⟨t, rest, heq, -⟩ := h.print_eq_cons stamp
  exact heq ▸ List.cons_ne_nil t rest

/-- Nor is a printed operand. -/
lemma IsExpression.printOperand_ne_nil (h : IsExpression tree) : tree.printOperand stamp ≠ [] := by
  obtain ⟨t, rest, heq, -⟩ := h.printOperand_eq_cons stamp
  exact heq ▸ List.cons_ne_nil t rest

end

/-! ### Lists of expressions -/

/-- A printed list has at least as many tokens as items. -/
lemma length_le_length_commas (stamp : Token) {ι : Type} {items : List ι} {f : ι → List Token}
    (h : ∀ item ∈ items, f item ≠ []) (more : List Token) :
    items.length ≤ (commas stamp (items.map f) ++ more).length := by
  induction items with
  | nil => exact Nat.zero_le _
  | cons first others ih =>
    have hfirst := List.length_pos_of_ne_nil (h first List.mem_cons_self)
    have hrest := ih fun item hitem => h item (List.mem_cons_of_mem first hitem)
    cases others with
    | nil =>
      rw [List.map_singleton, commas_singleton, List.length_append]
      exact Nat.le_add_right_of_le hfirst
    | cons second others =>
      simp only [List.map_cons, commas_cons_cons, List.length_append, List.length_cons] at hrest ⊢
      omega

/-- A list begins like the first of its stretches. -/
lemma exists_commas_eq_cons (stamp t : Token) (rest : List Token) (others : List (List Token)) :
    ∃ more, commas stamp ((t :: rest) :: others) = t :: more := by
  cases others with
  | nil => exact ⟨rest, commas_singleton stamp _⟩
  | cons second others => exact ⟨_, commas_cons_cons stamp _ _ _⟩

section

variable {stamp : Token} {reader : Reader Tree} {fits : Tree → Prop} {close : String}
  {items : List Tree}

/-- The rounds of a list, if the bound is no shorter than the list. -/
lemma reads_elements (hclose : close = ")" ∨ close = "]")
    (h : ∀ item ∈ items, ∀ t following, t.closesExpression = true →
      reader.Reads (fits item) (item.print stamp) item (t :: following))
    (hitems : items ≠ []) (bound : List Token) (hbound : items.length ≤ bound.length)
    (following : List Token) :
    (elements reader close bound).Reads (∀ item ∈ items, fits item)
      (commas stamp (items.map (print stamp)) ++ [stamp.mark .delimiter close]) items
      following := by
  induction items generalizing bound with
  | nil => exact absurd rfl hitems
  | cons first others ih =>
    cases bound with
    | nil => exact absurd hbound (Nat.not_succ_le_zero others.length)
    | cons u bound =>
      have hfirst := h first List.mem_cons_self
      rw [elements]
      -- The closing token is behind the last item, and a comma behind any other.
      cases others with
      | nil =>
        have hcloses : (stamp.mark .delimiter close).closesExpression = true := by
          rcases hclose with rfl | rfl <;> rfl
        have hcomma : (stamp.mark .delimiter close).is .delimiter "," = false := by
          rcases hclose with rfl | rfl <;> rfl
        have hexpect : (stamp.mark .delimiter close).is .delimiter close = true := by simp
        rw [List.map_singleton, commas_singleton]
        refine ((hfirst _ following hcloses).bind_token ?_).congr_fits
          List.forall_mem_singleton.symm
        rw [bind_of_ok (accept_of_not_is hcomma following)]
        exact bind_of_ok (expect_of_is hexpect following) _
      | cons second others =>
        have hrest := ih (fun item hitem => h item (List.mem_cons_of_mem first hitem))
          (List.cons_ne_nil second others) bound (Nat.le_of_succ_le_succ hbound)
        rw [List.map_cons, List.map_cons, commas_cons_cons, List.append_assoc, List.cons_append]
        have hcomma : (stamp.mark .delimiter ",").is .delimiter "," = true := rfl
        refine Reads.congr_fits ?_ List.forall_mem_cons.symm
        refine (hfirst (stamp.mark .delimiter ",") _ rfl).bind ?_
        refine reads_cons (bind_of_ok (accept_of_is hcomma _) _) ?_
        exact hrest.bind_nothing rfl

/-- A list of expressions. -/
lemma reads_list (hclose : close = ")" ∨ close = "]") (hitems : ∀ item ∈ items, IsExpression item)
    (h : ∀ item ∈ items, ∀ t following, t.closesExpression = true →
      reader.Reads (fits item) (item.print stamp) item (t :: following))
    (following : List Token) :
    (list reader close).Reads (∀ item ∈ items, fits item)
      (commas stamp (items.map (print stamp)) ++ [stamp.mark .delimiter close]) items
      following := by
  cases items with
  | nil =>
    have his : (stamp.mark .delimiter close).is .delimiter close = true := by simp
    refine reads_of_ok (fun item hitem => nomatch hitem) ?_
    exact bind_of_ok (accept_of_is his following) _
  | cons first others =>
    obtain ⟨t, rest, heq, ht⟩ := (hitems first List.mem_cons_self).print_eq_cons stamp
    obtain ⟨more, hcommas⟩ := exists_commas_eq_cons stamp t rest (others.map (print stamp))
    rw [← heq, ← List.map_cons] at hcommas
    have hlength := length_le_length_commas stamp
      (fun item hitem => (hitems item hitem).print_ne_nil stamp)
      ([stamp.mark .delimiter close] ++ following)
    rw [← List.append_assoc] at hlength
    refine (reads_elements hclose h (List.cons_ne_nil first others) _ hlength following).congr ?_
    rw [hcommas]
    exact bind_of_ok (accept_of_not_is (Token.is_of_startsExpression ht hclose) _) _

end

/-! ### Operands -/

section

variable {stamp : Token} {printed more following : List Token} {fits fits' : Prop}
  {reader : Reader Tree} {subject tree : Tree} {t : Token}

/-- After a parenthesis a primary expression is an expression up to the other parenthesis. -/
lemma primary_of_parenthesis (h : t.is .delimiter "(" = true) (reader : Reader Tree)
    (rest : List Token) :
    primary reader (t :: rest) =
      (reader >>= fun inner => do
        Reader.expect .delimiter ")"
        return inner) rest := by
  obtain ⟨hcategory, htext⟩ := Token.is_iff.mp h
  simp [primary, Token.is, Token.isKeyword, hcategory, htext]

/-- After a bracket a primary expression is a list. -/
lemma primary_of_bracket (h : t.is .delimiter "[" = true) (reader : Reader Tree)
    (rest : List Token) :
    primary reader (t :: rest) =
      (list reader "]" >>= fun items => pure ⟨.arrayLiteral, some t, items⟩) rest := by
  obtain ⟨hcategory, htext⟩ := Token.is_iff.mp h
  simp [primary, Token.is, Token.isKeyword, hcategory, htext]

/-- An operand without a prefix operator is a primary expression with its suffixes. -/
lemma reads_operand {room : ℕ} (h : (suffixed (expression room)).Reads fits printed tree following)
    (hprinted : ∃ t rest, printed = t :: rest ∧ t.isPrefixOperator = false) :
    (operand room).Reads fits printed tree following := by
  refine h.congr ?_
  obtain ⟨t, rest, rfl, ht⟩ := hprinted
  cases room with
  | zero => exact bind_of_ok (take?_of_not_wanted ht _) _
  | succ room =>
    rw [operand_succ]
    exact bind_of_ok (take?_of_not_wanted ht _) _

/-- The operand of a prefix operator is one level further in. -/
lemma reads_unary {levels : ℕ} {operator : Token} (hoperator : operator.isPrefixOperator = true)
    (h : ∀ room, (operand room).Reads (levels ≤ room) printed tree following)
    (hprinted : printed ≠ []) (room : ℕ) :
    (operand room).Reads (levels + 1 ≤ room) (operator :: printed)
      ⟨.unaryExpression, some operator, [tree]⟩ following := by
  cases room with
  | zero =>
    have hdeep : (tooDeep .expression : Reader Tree).Reads (levels + 1 ≤ 0) printed tree
        following := reads_tooDeep hprinted (Nat.not_succ_le_zero levels)
    refine reads_cons (bind_of_ok (take?_of_wanted hoperator _) _) ?_
    exact hdeep.bind_nothing rfl
  | succ room =>
    have hinner := (h room).congr_fits Nat.succ_le_succ_iff.symm
    rw [operand_succ]
    refine reads_cons (bind_of_ok (take?_of_wanted hoperator _) _) ?_
    exact hinner.bind_nothing rfl

/-- A call of what stands before. -/
lemma reads_call {arguments : List Tree} {opening : Token}
    (hopening : opening.is .delimiter "(" = true)
    (h : (list reader ")").Reads fits printed arguments (t :: following))
    (ht : t.opensSuffix = false) (u : Token) (bound : List Token) :
    (suffixes reader (u :: bound) subject).Reads fits (opening :: printed)
      ⟨.call, none, [subject, ⟨.argumentList, none, arguments⟩]⟩ (t :: following) := by
  rw [suffixes]
  refine reads_cons (bind_of_ok (accept_of_is hopening _) _) ?_
  exact h.bind_nothing (suffixes_stop ht bound _ following)

/-- A member of what stands before. -/
lemma reads_member {dot name : Token} (hdot : dot.is .operator "." = true)
    (hname : name.category = .identifier) (ht : t.opensSuffix = false) (u : Token)
    (bound : List Token) :
    (suffixes reader (u :: bound) subject).Reads True [dot, name]
      ⟨.memberAccess, none, [subject, leaf .identifier name]⟩ (t :: following) := by
  have hcall : dot.is .delimiter "(" = false := by
    simp [Token.is, (Token.is_iff.mp hdot).1]
  have hread : Reader.identifier .memberName (name :: t :: following) =
      .ok name (t :: following) := if_pos hname
  refine reads_of_ok trivial ?_
  rw [suffixes, List.cons_append, bind_of_ok (accept_of_not_is hcall _)]
  refine (bind_of_ok (accept_of_is hdot _) _).trans ((bind_of_ok hread _).trans ?_)
  exact suffixes_stop ht bound _ following

/-- A subscript of what stands before. -/
lemma reads_index {opening closing : Token} {subscript : Tree}
    (hopening : opening.is .delimiter "[" = true) (hclosing : closing.is .delimiter "]" = true)
    (h : reader.Reads fits printed subscript (closing :: t :: following))
    (ht : t.opensSuffix = false) (u : Token) (bound : List Token) :
    (suffixes reader (u :: bound) subject).Reads fits (opening :: (printed ++ [closing]))
      ⟨.index, none, [subject, subscript]⟩ (t :: following) := by
  have hcall : opening.is .delimiter "(" = false := by
    simp [Token.is, (Token.is_iff.mp hopening).2]
  have hmember : opening.is .operator "." = false := by
    simp [Token.is, (Token.is_iff.mp hopening).1]
  rw [suffixes]
  refine reads_cons ((bind_of_ok (accept_of_not_is hcall _) _).trans
    ((bind_of_ok (accept_of_not_is hmember _) _).trans (bind_of_ok (accept_of_is hopening _) _))) ?_
  exact h.bind_token ((bind_of_ok (expect_of_is hclosing _) _).trans
    (suffixes_stop ht bound _ following))

/-! ### Expressions -/

/-- How the tree of an expression is read back from its tokens. -/
structure Readable (stamp : Token) (tree : Tree) : Prop where
  expression : ∀ room t following, t.closesExpression = true →
    (expression room).Reads (tree.nesting + 1 ≤ room) (tree.print stamp) tree (t :: following)
  primary : ∀ room following, (primary (Tree.expression room)).Reads (tree.operandNesting ≤ room)
    (tree.printOperand stamp) tree following

/-- An expression that is printed as an operand is read as one. -/
lemma Readable.operand (h : Readable stamp tree) (htree : IsExpression tree)
    (ht : t.opensSuffix = false) (following : List Token) (room : ℕ) :
    (operand room).Reads (tree.operandNesting ≤ room) (tree.printOperand stamp) tree
      (t :: following) := by
  refine reads_operand ?_ ?_
  · exact (h.primary room _).bind_nothing (suffixes_stop ht _ tree following)
  · obtain ⟨t, rest, heq, -, hprefix⟩ := htree.printOperand_eq_cons stamp
    exact ⟨t, rest, heq, hprefix⟩

/-- An expression in parentheses is primary. -/
lemma readable_of_expression (htree : tree.kind.isPrimary = false)
    (h : ∀ room t following, t.closesExpression = true →
      (Tree.expression room).Reads (tree.nesting + 1 ≤ room) (tree.print stamp) tree
        (t :: following)) : Readable stamp tree := by
  refine ⟨h, fun room following => ?_⟩
  rw [printOperand_of_not_isPrimary stamp htree, operandNesting_of_not_isPrimary htree]
  have hinner := h room (stamp.mark .delimiter ")") following rfl
  have hclosing : (stamp.mark .delimiter ")").is .delimiter ")" = true := rfl
  refine reads_cons (primary_of_parenthesis rfl _ _) ?_
  exact hinner.bind_token (bind_of_ok (expect_of_is hclosing following) _)

/-- What is read as an operand is read as an expression. -/
lemma readable_of_operand (htree : tree.kind.isPrimary = false) (hexpression : IsExpression tree)
    (h : ∀ room t following, t.opensSuffix = false →
      (Tree.operand room).Reads (tree.nesting ≤ room) (tree.print stamp) tree (t :: following)) :
    Readable stamp tree := by
  refine readable_of_expression htree fun room t following ht => ?_
  have hoperand (room : ℕ) := h room t following (Token.opensSuffix_of_closesExpression ht)
  exact reads_expression_of_operand (hexpression.print_ne_nil stamp) hoperand ht room

/-- A primary expression is read as an expression. -/
lemma readable_of_primary (htree : tree.kind.isPrimary = true) (hexpression : IsExpression tree)
    (h : ∀ room following, (Tree.primary (Tree.expression room)).Reads (tree.nesting ≤ room)
      (tree.print stamp) tree following) : Readable stamp tree := by
  refine ⟨fun room t following ht => ?_, ?_⟩
  · refine reads_expression_of_operand (hexpression.print_ne_nil stamp)
      (fun room => reads_operand ?_ ?_) ht room
    · have hstop := Token.opensSuffix_of_closesExpression ht
      exact (h room _).bind_nothing (suffixes_stop hstop _ tree following)
    · obtain ⟨t, rest, heq, -, hprefix⟩ := hexpression.printOperand_eq_cons stamp
      exact ⟨t, rest, (printOperand_of_isPrimary stamp htree).symm.trans heq, hprefix⟩
  · rwa [printOperand_of_isPrimary stamp htree, operandNesting_of_isPrimary htree]

/-- A primary expression with one suffix is read as an operand. -/
lemma Readable.suffixed {room : ℕ} (h : Readable stamp subject) (hsubject : IsExpression subject)
    (hsuffix : ∀ u bound, (suffixes (Tree.expression room) (u :: bound) subject).Reads fits
      (t :: more) tree following) :
    (Tree.operand room).Reads (subject.operandNesting ≤ room ∧ fits)
      (subject.printOperand stamp ++ t :: more) tree following := by
  refine reads_operand ((h.primary room _).bind (hsuffix t (more ++ following))) ?_
  obtain ⟨u, rest, heq, -, hprefix⟩ := hsubject.printOperand_eq_cons stamp
  exact ⟨u, rest ++ t :: more, congrArg (· ++ t :: more) heq, hprefix⟩

end

/-- Every expression is read back from its tokens. -/
theorem IsExpression.readable {tree : Tree} (h : IsExpression tree) (stamp : Token) :
    Readable stamp tree := by
  -- Primaries, then other operands, then the two kinds that are operands in parentheses only.
  induction h with
  | @literal t ht =>
    refine readable_of_primary rfl (.literal ht) fun room following => ?_
    have hread : primary (expression room) (t :: following) = .ok (leaf .literal t) following :=
      if_pos ht
    exact reads_of_ok (Nat.zero_le room) hread
  | @name t ht =>
    refine readable_of_primary rfl (.name ht) fun room following => ?_
    have hliteral : t.category ≠ .literal := by
      rcases ht with ht | ht
      · simp [ht]
      · simp [(Token.is_iff.mp ht).1]
    have hread : primary (expression room) (t :: following) = .ok (leaf .identifier t) following :=
      (if_neg hliteral).trans (if_pos ht)
    exact reads_of_ok (Nat.zero_le room) hread
  | @array opening items hopening hitems ih =>
    refine readable_of_primary rfl (.array hopening hitems) fun room following => ?_
    have hlist := reads_list (.inr rfl) hitems (fun item hitem => (ih item hitem).expression room)
      following
    rw [print_array]
    refine (reads_cons (primary_of_bracket hopening _ _) ?_).congr_fits nesting_array_le.symm
    exact hlist.bind_nothing rfl
  | @call subject arguments hsubject harguments ihsubject iharguments =>
    refine readable_of_operand rfl (.call hsubject harguments) fun room t following ht => ?_
    have hlist := reads_list (.inl rfl) harguments
      (fun argument hargument => (iharguments argument hargument).expression room) (t :: following)
    rw [print_call]
    exact (ihsubject.suffixed hsubject (reads_call rfl hlist ht)).congr_fits nesting_call_le.symm
  | @member subject name hsubject hname ihsubject =>
    refine readable_of_operand rfl (.member hsubject hname) fun room t following ht => ?_
    rw [print_member, nesting_member]
    exact (ihsubject.suffixed hsubject (reads_member rfl hname ht)).congr_fits
      (and_iff_left trivial)
  | @index subject subscript hsubject hsubscript ihsubject ihsubscript =>
    refine readable_of_operand rfl (.index hsubject hsubscript) fun room t following ht => ?_
    have hinner := ihsubscript.expression room (stamp.mark .delimiter "]") (t :: following) rfl
    rw [print_index, nesting_index]
    exact (ihsubject.suffixed hsubject (reads_index rfl rfl hinner ht)).congr_fits
      Nat.max_le.symm
  | @unary operator inner hoperator hinner ih =>
    refine readable_of_operand rfl (.unary hoperator hinner) fun room t following ht => ?_
    rw [print_unary, nesting_unary]
    exact reads_unary hoperator (ih.operand hinner ht following)
      (hinner.printOperand_ne_nil stamp) room
  | @binary operator precedence left right hoperator hleft hright ihleft ihright =>
    have hbinary := IsExpression.binary hoperator hleft hright
    refine readable_of_expression rfl fun room t following ht => ?_
    refine reads_expression (hbinary.print_ne_nil stamp) (fun room => ?_) room
    have hopens := Token.opensSuffix_of_precedence? hoperator
    have hcloses := Token.opensSuffix_of_closesExpression ht
    have hoperands := reads_binary_operator hoperator (ihleft.operand hleft hopens _ room)
      (ihright.operand hright hcloses following room) (Token.precedence?_of_closesExpression ht)
    rw [print_binary, nesting_binary, Nat.max_le]
    exact reads_assignment_target hoperands (Token.is_operator_of_closesExpression ht "=")
  | @assignment operator target value hoperator htarget hvalue ihtarget ihvalue =>
    have hassignment := IsExpression.assignment hoperator htarget hvalue
    refine readable_of_expression rfl fun room t following ht => ?_
    refine reads_expression (hassignment.print_ne_nil stamp) (fun room => ?_) room
    have hopens := Token.opensSuffix_of_assignment hoperator
    have hcloses := Token.opensSuffix_of_closesExpression ht
    have hright := reads_expression_of_operand (hvalue.printOperand_ne_nil stamp)
      (ihvalue.operand hvalue hcloses following) ht room
    rw [print_assignment, nesting_assignment, Nat.max_le]
    refine reads_assignment_value hoperator (reads_binary ?_ 1 ?_) hright
    · exact ihtarget.operand htarget hopens _ room
    · exact Token.precedence?_of_assignment hoperator

end Tree

end UvaAnalysis
