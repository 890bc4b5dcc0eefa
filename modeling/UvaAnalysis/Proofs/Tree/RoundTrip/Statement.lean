import Mathlib.Logic.Function.Iterate
import UvaAnalysis.Proofs.Tree.RoundTrip.Expression
import UvaAnalysis.Tree.Statement

/-!
# Printed programs are read back

A grower makes the same nodes again of the tokens that they are printed as, if the levels of nesting
suffice, and stops at one of those tokens otherwise (`Grows`).  That passes through the combinators,
so each kind of statement follows the order of its parts.  Every statement is read up to the
semicolon after it, and that semicolon is read as a statement that makes no node.
-/

namespace UvaAnalysis

/-- The keywords that only stand inside a statement that was begun before. -/
def Token.continuesStatement (t : Token) : Bool :=
  t.isKeyword "extends" || t.isKeyword "else" || t.isKeyword "end"

/-- No expression begins with one of those keywords. -/
lemma Token.continuesStatement_of_startsExpression {t : Token} (h : t.startsExpression = true) :
    t.continuesStatement = false := by
  by_contra hcontinues
  simp only [continuesStatement, isKeyword, Bool.not_eq_false, Bool.or_eq_true, is_iff]
    at hcontinues
  obtain (⟨hcategory, htext⟩ | ⟨hcategory, htext⟩) | ⟨hcategory, htext⟩ := hcontinues <;>
    simp [startsExpression, hcategory, htext] at h

namespace Tree

open Grower (nothing one silent inOrder node name close)

/-! ### What comes of printed tokens -/

/-- What comes of printed tokens: if they fit, the nodes are made of them and what follows is left;
and if they do not, one of them is too deep. -/
inductive Growth.Outcome (fits : Prop) (printed : List Token) (nodes : List Tree)
    (following : List Token) : Growth → Prop where
  | made (h : fits) : Outcome fits printed nodes following ⟨nodes, none, following⟩
  | tooDeep (h : ¬fits) {what : Expected} (hwhat : what ∈ [.statement, .expression])
      {found : Token} (hfound : found ∈ printed) (kept : List Tree) (rest : List Token) :
      Outcome fits printed nodes following ⟨kept, some (.nestedTooDeep what found), rest⟩

/-- The grower makes the nodes of the printed tokens before `following`, if they fit. -/
def Grower.Grows (grower : Grower) (fits : Prop) (printed : List Token) (nodes : List Tree)
    (following : List Token) : Prop :=
  (grower (printed ++ following)).Outcome fits printed nodes following

section

variable {fits fits' : Prop} {printed more following : List Token} {nodes others : List Tree}
  {t : Token} {grower grower' next : Grower} {growth : Growth}

/-- More tokens may be too deep where some of them are. -/
lemma Growth.Outcome.mono (h : growth.Outcome fits printed nodes following)
    (hmore : printed ⊆ more) : growth.Outcome fits more nodes following := by
  cases h with
  | made h => exact .made h
  | tooDeep h hwhat hfound kept rest => exact .tooDeep h hwhat (hmore hfound) kept rest

/-- A grower that makes the nodes of printed tokens that fit grows them. -/
lemma grows_of_eq (hfits : fits) (h : grower (printed ++ following) = ⟨nodes, none, following⟩) :
    grower.Grows fits printed nodes following := by
  unfold Grower.Grows
  rw [h]
  exact .made hfits

/-- Whether the tokens fit may be said in another way. -/
lemma Grower.Grows.congr_fits (h : grower.Grows fits printed nodes following)
    (hfits : fits ↔ fits') : grower.Grows fits' printed nodes following :=
  propext hfits ▸ h

/-- Two growers that do the same with the printed tokens and what follows. -/
lemma Grower.Grows.congr (h : grower.Grows fits printed nodes following)
    (heq : grower' (printed ++ following) = grower (printed ++ following)) :
    grower'.Grows fits printed nodes following := by
  unfold Grower.Grows
  rw [heq]
  exact h

/-- A grower that goes on like another one after the first token. -/
lemma grows_cons (heq : grower' (t :: (printed ++ following)) = grower (printed ++ following))
    (h : grower.Grows fits printed nodes following) :
    grower'.Grows fits (t :: printed) nodes following := by
  unfold Grower.Grows
  rw [List.cons_append, heq]
  exact h.mono (List.subset_cons_self t printed)

/-- One grower after another: what the second one reads follows what the first one reads. -/
lemma Grower.Grows.andThen (h : grower.Grows fits printed nodes (more ++ following))
    (hnext : next.Grows fits' more others following) :
    Grower.Grows (fun tokens => (grower tokens).andThen next) (fits ∧ fits') (printed ++ more)
      (nodes ++ others) following := by
  unfold Grower.Grows at h hnext ⊢
  rw [List.append_assoc]
  change Growth.Outcome (fits ∧ fits') (printed ++ more) (nodes ++ others) following
    ((grower (printed ++ (more ++ following))).andThen next)
  generalize grower (printed ++ (more ++ following)) = growth at h ⊢
  cases h with
  | tooDeep hfits hwhat hfound kept rest =>
    exact .tooDeep (fun hboth => hfits hboth.1) hwhat (List.mem_append_left more hfound) kept rest
  | made hfits =>
    have hmore := hnext.mono (List.subset_append_right printed more)
    rw [Growth.andThen_of_no_fault rfl]
    change Growth.Outcome (fits ∧ fits') (printed ++ more) (nodes ++ others) following
      ⟨nodes ++ (next (more ++ following)).nodes, (next (more ++ following)).fault,
        (next (more ++ following)).rest⟩
    generalize next (more ++ following) = growth at hmore ⊢
    cases hmore with
    | made hfits' => exact .made ⟨hfits, hfits'⟩
    | tooDeep hfits' hwhat hfound kept rest =>
      exact .tooDeep (fun hboth => hfits' hboth.2) hwhat hfound (nodes ++ kept) rest

/-! ### The combinators -/

/-- The parts of a construct are grown in their order, and fit if each of them does. -/
lemma Grower.Grows.inOrder {growers : List Grower}
    (h : grower.Grows fits printed nodes (more ++ following))
    (hothers : (Grower.inOrder growers).Grows fits' more others following) :
    (Grower.inOrder (grower :: growers)).Grows (fits ∧ fits') (printed ++ more) (nodes ++ others)
      following :=
  h.andThen hothers

/-- A part of which nothing can be too deep. -/
lemma Grower.Grows.inOrder_of_true {growers : List Grower}
    (h : grower.Grows True printed nodes (more ++ following))
    (hothers : (Grower.inOrder growers).Grows fits' more others following) :
    (Grower.inOrder (grower :: growers)).Grows fits' (printed ++ more) (nodes ++ others)
      following :=
  (h.inOrder hothers).congr_fits (iff_of_eq (true_and fits'))

/-- The last part. -/
lemma Grower.Grows.inOrder_singleton (h : grower.Grows fits printed nodes following) :
    (Grower.inOrder [grower]).Grows fits printed nodes following := by
  have hnothing : (Grower.inOrder []).Grows True [] [] following := grows_of_eq trivial rfl
  have hboth : (Grower.inOrder [grower]).Grows (fits ∧ True) (printed ++ []) (nodes ++ [])
      following := h.inOrder hnothing
  rw [List.append_nil, List.append_nil, and_true] at hboth
  exact hboth

/-- A node is grown around its children, and nothing besides has to fit. -/
lemma Grower.Grows.node (h : grower.Grows fits printed nodes following) (kind : Kind) :
    (Grower.node kind grower).Grows fits printed [⟨kind, none, nodes⟩] following := by
  unfold Grower.Grows Grower.node at *
  generalize grower (printed ++ following) = growth at h ⊢
  cases h with
  | made h => exact .made h
  | tooDeep h hwhat hfound kept rest => exact .tooDeep h hwhat hfound _ rest

/-- A grower of one node grows what its reader reads. -/
lemma grows_one {reader : Reader Tree} {tree : Tree}
    (h : reader.Reads fits printed tree following) :
    (one reader).Grows fits printed [tree] following := by
  unfold Grower.Grows one
  unfold Reader.Reads at h
  generalize reader (printed ++ following) = result at h ⊢
  cases h with
  | made h => exact .made h
  | tooDeep h hfound rest =>
    exact .tooDeep h (List.mem_cons_of_mem _ List.mem_cons_self) hfound [] rest

/-- A name is grown from its one token, which always fits. -/
lemma grows_name (kind : Kind) (expected : Expected) (ht : t.category = .identifier) :
    (name kind expected).Grows True [t] [leaf kind t] following := by
  have hread : Reader.identifier expected (t :: following) = .ok t following := if_pos ht
  exact grows_one (Reader.reads_of_ok trivial (Reader.bind_of_ok hread _))

/-- A token that is expected grows no node, and it always fits. -/
lemma grows_expect {category : Token.Category} {text : String} (ht : t.is category text = true) :
    (silent (Reader.expect category text)).Grows True [t] [] following := by
  refine grows_of_eq trivial ?_
  unfold silent
  rw [List.singleton_append, Reader.expect_of_is ht]

/-- The part before the keyword that ends a construct. -/
lemma Grower.Grows.inOrder_close {stamp : Token}
    (h : grower.Grows fits printed nodes (stamp.mark .keyword "end" :: following)) :
    (Grower.inOrder [grower, close]).Grows fits (printed ++ [stamp.mark .keyword "end"]) nodes
      following := by
  have hclose : (Grower.inOrder [close]).Grows True [stamp.mark .keyword "end"] [] following :=
    (grows_expect rfl).inOrder_singleton
  have hboth : (Grower.inOrder [grower, close]).Grows (fits ∧ True)
      (printed ++ [stamp.mark .keyword "end"]) (nodes ++ []) following :=
    Grower.Grows.inOrder h hclose
  rwa [List.append_nil, and_true] at hboth

end

/-! ### What a statement begins with -/

section

variable {tree : Tree}

/-- A printed statement begins with a token that does not go on with the one before. -/
lemma IsStatement.print_eq_cons (stamp : Token) (h : IsStatement tree) :
    ∃ t rest, tree.print stamp = t :: rest ∧ t.continuesStatement = false := by
  cases h with
  | classDeclaration _ _ hmembers => exact ⟨_, _, print_class stamp _ _ hmembers, rfl⟩
  | functionDeclaration _ _ hbody => exact ⟨_, _, print_function stamp _ _ hbody, rfl⟩
  | variableDeclaration _ _ => exact ⟨_, _, print_variable stamp _ _, rfl⟩
  | ifStatement _ hbody halternative => exact ⟨_, _, print_if stamp _ hbody halternative, rfl⟩
  | whileStatement _ hbody => exact ⟨_, _, print_while stamp _ hbody, rfl⟩
  | returnStatement _ => exact ⟨_, _, print_return stamp _, rfl⟩
  | expressionStatement hvalue =>
    obtain ⟨t, rest, heq, ht⟩ := hvalue.print_eq_cons stamp
    exact ⟨t, rest, heq, Token.continuesStatement_of_startsExpression ht⟩

/-- Every statement is one level. -/
lemma IsStatement.nesting_pos (h : IsStatement tree) : 0 < tree.nesting := by
  cases h <;> exact Nat.succ_pos _

end

/-! ### Several statements -/

/-- How the tree of a statement is read back from its tokens, when `room` levels are left. -/
def Regrows (stamp : Token) (room : ℕ) (tree : Tree) : Prop :=
  ∀ following, (statement room).Grows (tree.nesting ≤ room) (tree.print stamp) [tree]
    (stamp.mark .delimiter ";" :: following)

section

variable {stamp : Token} {room : ℕ} {trees : List Tree} {closers : List String}
  {fits fits' : Prop} {printed more following : List Token} {nodes others : List Tree} {t : Token}

/-- A semicolon is a statement by itself. -/
lemma grows_semicolon (stamp : Token) (room : ℕ) :
    (statement room).Grows (1 ≤ room) [stamp.mark .delimiter ";"] [] following := by
  cases room with
  | zero => exact .tooDeep (Nat.not_succ_le_zero 0) List.mem_cons_self List.mem_cons_self [] _
  | succ room =>
    exact grows_of_eq (Nat.succ_pos room) rfl

/-- One round of a sequence of statements. -/
lemma grows_statements_cons {grower : Grower} {bound : List Token}
    (hclosers : closers ⊆ ["else", "end"])
    (hprinted : ∃ t rest, printed = t :: rest ∧ t.continuesStatement = false)
    (h : grower.Grows fits printed nodes (more ++ following))
    (hmore : (statements grower closers bound).Grows fits' more others following) (u : Token) :
    (statements grower closers (u :: bound)).Grows (fits ∧ fits') (printed ++ more)
      (nodes ++ others) following := by
  refine (h.andThen hmore).congr ?_
  obtain ⟨t, rest, rfl, ht⟩ := hprinted
  refine if_neg ?_
  rintro ⟨hcategory, htext⟩
  have hkeyword := hclosers htext
  simp only [List.mem_cons, List.not_mem_nil, or_false] at hkeyword
  rcases hkeyword with hkeyword | hkeyword <;>
    simp [Token.continuesStatement, Token.isKeyword, Token.is, hcategory, hkeyword] at ht

/-- A printed statement and its semicolon are two tokens at least. -/
lemma two_mul_length_le (stamp : Token) (h : ∀ tree ∈ trees, IsStatement tree) :
    2 * trees.length ≤ (printStatements stamp trees).length := by
  induction trees with
  | nil => exact Nat.zero_le _
  | cons tree others ih =>
    obtain ⟨t, rest, heq, -⟩ := (h tree List.mem_cons_self).print_eq_cons stamp
    have hothers := ih fun other hother => h other (List.mem_cons_of_mem tree hother)
    simp only [printStatements_cons, heq, List.length_append, List.length_cons]
    omega

/-- A statement and the semicolon after it need no more levels than the statement. -/
lemma fits_cons {tree : Tree} (h : IsStatement tree) :
    (tree.nesting ≤ room ∧ 1 ≤ room ∧ ∀ other ∈ trees, other.nesting ≤ room) ↔
      ∀ other ∈ tree :: trees, other.nesting ≤ room := by
  have hpos := h.nesting_pos
  rw [List.forall_mem_cons]
  constructor
  · rintro ⟨htree, -, htrees⟩
    exact ⟨htree, htrees⟩
  · rintro ⟨htree, htrees⟩
    exact ⟨htree, Nat.le_trans hpos htree, htrees⟩

/-- A loop that reads one statement in each round, with `spare` rounds for its end, makes the trees
of printed statements again: each statement takes a round, and so does the semicolon after it. -/
lemma grows_rounds {loop : List Token → Grower} {spare : ℕ}
    (hround : ∀ {fits fits' : Prop} {printed more bound : List Token} {nodes others : List Tree},
      (∃ t rest, printed = t :: rest ∧ t.continuesStatement = false) →
      (statement room).Grows fits printed nodes (more ++ following) →
      (loop bound).Grows fits' more others following → ∀ u,
      (loop (u :: bound)).Grows (fits ∧ fits') (printed ++ more) (nodes ++ others) following)
    (hend : ∀ bound, spare ≤ bound.length → (loop bound).Grows True [] [] following)
    (htrees : ∀ tree ∈ trees, IsStatement tree) (h : ∀ tree ∈ trees, Regrows stamp room tree)
    (bound : List Token) (hbound : 2 * trees.length + spare ≤ bound.length) :
    (loop bound).Grows (∀ tree ∈ trees, tree.nesting ≤ room) (printStatements stamp trees) trees
      following := by
  induction trees generalizing bound with
  | nil =>
    have hnothing := hend bound (Nat.le_trans (Nat.le_add_left spare _) hbound)
    exact hnothing.congr_fits (iff_of_true trivial fun tree htree => nomatch htree)
  | cons tree others ih =>
    rw [List.length_cons] at hbound
    -- Two rounds are used up, by the statement and by its semicolon.
    match bound, hbound with
    | [], hbound => exact absurd hbound (by rw [List.length_nil]; omega)
    | [_], hbound => exact absurd hbound (by rw [List.length_singleton]; omega)
    | u :: v :: bound, hbound =>
      have htree := htrees tree List.mem_cons_self
      have hlonger : 2 * others.length + spare ≤ bound.length := by
        rw [List.length_cons, List.length_cons] at hbound
        omega
      have hothers := ih (fun other hother => htrees other (List.mem_cons_of_mem tree hother))
        (fun other hother => h other (List.mem_cons_of_mem tree hother)) bound hlonger
      have hsemicolon := hround ⟨_, [], rfl, rfl⟩ (grows_semicolon stamp room) hothers v
      rw [printStatements_cons]
      refine Grower.Grows.congr_fits ?_ (fits_cons htree)
      exact hround (htree.print_eq_cons stamp) (h tree List.mem_cons_self _) hsemicolon u

/-- Statements up to a keyword that ends them, if the bound is longer than twice their number. -/
lemma grows_statements (hclosers : closers ⊆ ["else", "end"])
    (htrees : ∀ tree ∈ trees, IsStatement tree) (h : ∀ tree ∈ trees, Regrows stamp room tree)
    (hcategory : t.category = .keyword) (htext : t.text ∈ closers) (bound : List Token)
    (hbound : 2 * trees.length + 1 ≤ bound.length) :
    (statements (statement room) closers bound).Grows (∀ tree ∈ trees, tree.nesting ≤ room)
      (printStatements stamp trees) trees (t :: following) := by
  refine grows_rounds (grows_statements_cons hclosers) ?_ htrees h bound hbound
  intro bound hspare
  cases bound with
  | nil => exact absurd hspare (Nat.not_succ_le_zero 0)
  | cons u bound => exact grows_of_eq trivial (if_pos ⟨hcategory, htext⟩)

/-- Statements up to a keyword that ends them, with the tokens at hand as the bound. -/
lemma grows_statements_self (hclosers : closers ⊆ ["else", "end"])
    (htrees : ∀ tree ∈ trees, IsStatement tree) (h : ∀ tree ∈ trees, Regrows stamp room tree)
    (hcategory : t.category = .keyword) (htext : t.text ∈ closers) :
    Grower.Grows (fun tokens => statements (statement room) closers tokens tokens)
      (∀ tree ∈ trees, tree.nesting ≤ room) (printStatements stamp trees) trees
      (t :: following) := by
  have hlength := two_mul_length_le stamp htrees
  refine grows_statements hclosers htrees h hcategory htext
    (printStatements stamp trees ++ t :: following) ?_
  rw [List.length_append, List.length_cons]
  omega

/-- A block. -/
lemma grows_block (hclosers : closers ⊆ ["else", "end"])
    (htrees : ∀ tree ∈ trees, IsStatement tree) (h : ∀ tree ∈ trees, Regrows stamp room tree)
    (hcategory : t.category = .keyword) (htext : t.text ∈ closers) :
    (block (statement room) closers).Grows (∀ tree ∈ trees, tree.nesting ≤ room)
      (printStatements stamp trees) [⟨.block, none, trees⟩] (t :: following) :=
  (grows_statements_self hclosers htrees h hcategory htext).node .block

/-- A block after a condition, with the semicolon between them. -/
lemma grows_block_semicolon (hclosers : closers ⊆ ["else", "end"])
    (htrees : ∀ tree ∈ trees, IsStatement tree) (h : ∀ tree ∈ trees, Regrows stamp room tree)
    (hcategory : t.category = .keyword) (htext : t.text ∈ closers) :
    (block (statement room) closers).Grows (1 ≤ room ∧ ∀ tree ∈ trees, tree.nesting ≤ room)
      (stamp.mark .delimiter ";" :: printStatements stamp trees) [⟨.block, none, trees⟩]
      (t :: following) := by
  have hlength := two_mul_length_le stamp htrees
  refine Grower.Grows.node ?_ .block
  refine grows_statements_cons hclosers ⟨_, [], rfl, rfl⟩ (grows_semicolon stamp room)
    (grows_statements hclosers htrees h hcategory htext
      (printStatements stamp trees ++ t :: following) ?_) (stamp.mark .delimiter ";")
  rw [List.length_append, List.length_cons]
  omega

end

/-! ### Parameters -/

section

variable {stamp : Token} {names following : List Token}

/-- The rounds of a parameter list, if the bound is no shorter than the list. -/
lemma grows_parameters (hnames : names ≠ []) (h : ∀ t ∈ names, t.category = .identifier)
    (bound : List Token) (hbound : names.length ≤ bound.length) :
    (parameters bound).Grows True
      (commas stamp (names.map fun t => [t]) ++ [stamp.mark .delimiter ")"])
      (names.map (leaf .parameter)) following := by
  induction names generalizing bound with
  | nil => exact absurd rfl hnames
  | cons first others ih =>
    cases bound with
    | nil => exact absurd hbound (Nat.not_succ_le_zero others.length)
    | cons u bound =>
      have hfirst := h first List.mem_cons_self
      refine Grower.Grows.congr_fits ?_ (iff_of_eq (and_true True))
      cases others with
      | nil =>
        refine (grows_name .parameter .parameterName hfirst).andThen ?_
        exact grows_of_eq trivial rfl
      | cons second others =>
        have hrest := ih (List.cons_ne_nil second others)
          (fun t ht => h t (List.mem_cons_of_mem first ht)) bound (Nat.le_of_succ_le_succ hbound)
        rw [List.map_cons, List.map_cons, commas_cons_cons, List.append_assoc, List.cons_append]
        refine (grows_name .parameter .parameterName hfirst).andThen ?_
        exact grows_cons rfl hrest

/-- The parameters of a function, after the opening parenthesis. -/
lemma grows_parameterList (h : ∀ t ∈ names, t.category = .identifier) :
    parameterList.Grows True
      (commas stamp (names.map fun t => [t]) ++ [stamp.mark .delimiter ")"])
      [⟨.parameterList, none, names.map (leaf .parameter)⟩] following := by
  refine Grower.Grows.node ?_ .parameterList
  cases names with
  | nil => exact grows_of_eq trivial rfl
  | cons first others =>
    have hfirst := h first List.mem_cons_self
    obtain ⟨more, hcommas⟩ := exists_commas_eq_cons stamp first [] (others.map fun t => [t])
    have hnames : ∀ t ∈ first :: others, [t] ≠ [] := fun t _ => List.cons_ne_nil t []
    have hlength := length_le_length_commas stamp hnames ([stamp.mark .delimiter ")"] ++ following)
    rw [← List.append_assoc] at hlength
    refine (grows_parameters (List.cons_ne_nil first others) h _ hlength).congr ?_
    rw [List.map_cons, hcommas]
    exact if_neg (by simp [Token.is, hfirst])

end

/-! ### The kinds of statements -/

section

variable {stamp : Token} {room : ℕ} {following : List Token} {t : Token}

/-- An initial value, or none. -/
lemma grows_initialValue {value : Option Tree} (hvalue : ∀ e ∈ value, IsExpression e) :
    (initialValue (expression room)).Grows (∀ e ∈ value, e.nesting + 1 ≤ room)
      (value.toList.flatMap fun e => stamp.mark .operator "=" :: e.print stamp) value.toList
      (stamp.mark .delimiter ";" :: following) := by
  cases value with
  | none =>
    exact grows_of_eq (fun e he => nomatch he) rfl
  | some e =>
    have hread := ((hvalue e rfl).readable stamp).expression room (stamp.mark .delimiter ";")
      following rfl
    rw [Option.toList_some, List.flatMap_singleton]
    exact (grows_cons rfl (grows_one hread)).congr_fits (by simp)

variable (stamp room following) in
/-- The value of a return, or none. -/
lemma grows_returnStatement {value : Option Tree} (hvalue : ∀ e ∈ value, IsExpression e) :
    (returnStatement (expression room)).Grows (∀ e ∈ value, e.nesting + 1 ≤ room)
      (value.toList.flatMap (print stamp)) [⟨.returnStatement, none, value.toList⟩]
      (stamp.mark .delimiter ";" :: following) := by
  refine Grower.Grows.node ?_ .returnStatement
  cases value with
  | none =>
    exact grows_of_eq (fun e he => nomatch he) rfl
  | some e =>
    have hread := ((hvalue e rfl).readable stamp).expression room (stamp.mark .delimiter ";")
      following rfl
    obtain ⟨t, rest, heq, ht⟩ := (hvalue e rfl).print_eq_cons stamp
    rw [Option.toList_some, List.flatMap_singleton]
    refine ((grows_one hread).congr ?_).congr_fits (by simp)
    rw [heq]
    exact if_pos ht

/-- The base class, or none. -/
lemma grows_baseClass {base : Option Token} (hbase : ∀ t ∈ base, t.category = .identifier)
    (ht : t.isKeyword "extends" = false) :
    baseClass.Grows True (base.toList.flatMap fun t => [stamp.mark .keyword "extends", t])
      (base.toList.map (leaf .baseClass)) (t :: following) := by
  cases base with
  | none => exact grows_of_eq trivial (if_neg (Bool.eq_false_iff.mp ht))
  | some name =>
    have hname : (Grower.name .baseClass .baseClassName).Grows True [name] [leaf .baseClass name]
        (t :: following) := grows_name .baseClass .baseClassName (hbase name rfl)
    exact grows_cons rfl hname

/-- The members of a class do not begin with a base class. -/
lemma exists_members_eq_cons (stamp : Token) (following : List Token) {members : List Tree}
    (h : ∀ member ∈ members, IsStatement member) :
    ∃ t rest, printStatements stamp members ++ [stamp.mark .keyword "end"] ++ following =
      t :: rest ∧ t.isKeyword "extends" = false := by
  cases members with
  | nil => exact ⟨_, _, rfl, rfl⟩
  | cons member others =>
    obtain ⟨t, rest, heq, ht⟩ := (h member List.mem_cons_self).print_eq_cons stamp
    simp only [Token.continuesStatement, Bool.or_eq_false_iff] at ht
    rw [printStatements_cons, heq]
    exact ⟨t, _, rfl, ht.1.1⟩

variable (following) in
/-- A class, after its keyword. -/
lemma grows_classDeclaration {name : Token} {base : Option Token} {members : List Tree}
    (hname : name.category = .identifier) (hbase : ∀ t ∈ base, t.category = .identifier)
    (hmembers : ∀ member ∈ members, IsStatement member)
    (h : ∀ member ∈ members, Regrows stamp room member) :
    (classDeclaration (statement room)).Grows (∀ member ∈ members, member.nesting ≤ room)
      (name :: (base.toList.flatMap (fun t => [stamp.mark .keyword "extends", t]) ++
        (printStatements stamp members ++ [stamp.mark .keyword "end"])))
      [⟨.classDeclaration, none,
        leaf .declarationName name :: (base.toList.map (leaf .baseClass) ++ members)⟩]
      following := by
  obtain ⟨t, rest, heq, ht⟩ := exists_members_eq_cons stamp following hmembers
  refine Grower.Grows.node ?_ .classDeclaration
  refine Grower.Grows.inOrder_of_true (grows_name .declarationName .className hname) ?_
  refine Grower.Grows.inOrder_of_true ?_ ?_
  · rw [heq]
    exact grows_baseClass hbase ht
  · refine Grower.Grows.inOrder_close ?_
    exact grows_statements_self (List.subset_cons_self _ _) hmembers h rfl List.mem_cons_self

variable (following) in
/-- A function, after its keyword. -/
lemma grows_functionDeclaration {name : Token} {parameters : List Token} {body : List Tree}
    (hname : name.category = .identifier) (hparameters : ∀ t ∈ parameters, t.category = .identifier)
    (hbody : ∀ statement ∈ body, IsStatement statement)
    (h : ∀ statement ∈ body, Regrows stamp room statement) :
    (functionDeclaration (statement room)).Grows (∀ statement ∈ body, statement.nesting ≤ room)
      (name :: stamp.mark .delimiter "(" ::
        (commas stamp (parameters.map fun t => [t]) ++ stamp.mark .delimiter ")" ::
          (printStatements stamp body ++ [stamp.mark .keyword "end"])))
      [⟨.functionDeclaration, none, [leaf .declarationName name,
        ⟨.parameterList, none, parameters.map (leaf .parameter)⟩, ⟨.block, none, body⟩]⟩]
      following := by
  have hopening : (stamp.mark .delimiter "(").is .delimiter "(" = true := rfl
  rw [List.append_cons]
  refine Grower.Grows.node ?_ .functionDeclaration
  refine Grower.Grows.inOrder_of_true (grows_name .declarationName .functionName hname) ?_
  refine Grower.Grows.inOrder_of_true (grows_expect hopening) ?_
  refine Grower.Grows.inOrder_of_true (grows_parameterList hparameters) ?_
  refine Grower.Grows.inOrder_close ?_
  exact grows_block (List.subset_cons_self _ _) hbody h rfl List.mem_cons_self

variable (stamp room following) in
/-- A variable, after its keyword. -/
lemma grows_variableDeclaration {name : Token} {value : Option Tree}
    (hname : name.category = .identifier) (hvalue : ∀ e ∈ value, IsExpression e) :
    (variableDeclaration (expression room)).Grows (∀ e ∈ value, e.nesting + 1 ≤ room)
      (name :: value.toList.flatMap fun e => stamp.mark .operator "=" :: e.print stamp)
      [⟨.variableDeclaration, none, leaf .declarationName name :: value.toList⟩]
      (stamp.mark .delimiter ";" :: following) := by
  refine Grower.Grows.node ?_ .variableDeclaration
  refine Grower.Grows.inOrder_of_true (grows_name .declarationName .variableName hname) ?_
  exact (grows_initialValue hvalue).inOrder_singleton

/-- The alternative of a conditional, or none. -/
lemma grows_alternative {alternative : Option (List Tree)}
    (halternative : ∀ other ∈ alternative, ∀ statement ∈ other, IsStatement statement)
    (h : ∀ other ∈ alternative, ∀ statement ∈ other, Regrows stamp room statement) :
    (Tree.alternative (statement room)).Grows
      (∀ other ∈ alternative, ∀ statement ∈ other, statement.nesting ≤ room)
      (alternative.toList.flatMap
        fun other => stamp.mark .keyword "else" :: printStatements stamp other)
      (alternative.toList.map (mk .block none)) (stamp.mark .keyword "end" :: following) := by
  cases alternative with
  | none =>
    exact grows_of_eq (fun other hother => nomatch hother) rfl
  | some other =>
    have hblock : (block (statement room) ["end"]).Grows
        (∀ statement ∈ other, statement.nesting ≤ room) (printStatements stamp other)
        [⟨.block, none, other⟩] (stamp.mark .keyword "end" :: following) :=
      grows_block (List.subset_cons_self _ _) (halternative other rfl) (h other rfl) rfl
        List.mem_cons_self
    rw [Option.toList_some, List.flatMap_singleton]
    exact (grows_cons rfl hblock).congr_fits (by simp)

/-- The first block of a conditional ends at one of two keywords. -/
lemma exists_alternative_eq_cons (stamp : Token) (following : List Token)
    (alternative : Option (List Tree)) :
    ∃ t rest, alternative.toList.flatMap
        (fun other => stamp.mark .keyword "else" :: printStatements stamp other) ++
          [stamp.mark .keyword "end"] ++ following = t :: rest ∧
      t.category = .keyword ∧ t.text ∈ ["else", "end"] := by
  cases alternative with
  | none => exact ⟨_, _, rfl, rfl, List.mem_cons_of_mem _ List.mem_cons_self⟩
  | some other => exact ⟨_, _, rfl, rfl, List.mem_cons_self⟩

variable (following) in
/-- A conditional, after its keyword. -/
lemma grows_ifStatement {condition : Tree} {body : List Tree} {alternative : Option (List Tree)}
    (hcondition : IsExpression condition) (hbody : ∀ statement ∈ body, IsStatement statement)
    (halternative : ∀ other ∈ alternative, ∀ statement ∈ other, IsStatement statement)
    (h : ∀ statement ∈ body, Regrows stamp room statement)
    (hother : ∀ other ∈ alternative, ∀ statement ∈ other, Regrows stamp room statement) :
    (ifStatement (statement room) (expression room)).Grows
      (condition.nesting + 1 ≤ room ∧ (∀ statement ∈ body, statement.nesting ≤ room) ∧
        ∀ other ∈ alternative, ∀ statement ∈ other, statement.nesting ≤ room)
      (condition.print stamp ++ stamp.mark .delimiter ";" :: (printStatements stamp body ++
        (alternative.toList.flatMap
            (fun other => stamp.mark .keyword "else" :: printStatements stamp other) ++
          [stamp.mark .keyword "end"])))
      [⟨.ifStatement, none,
        condition :: ⟨.block, none, body⟩ :: alternative.toList.map (mk .block none)⟩]
      following := by
  obtain ⟨t, rest, heq, hcategory, htext⟩ := exists_alternative_eq_cons stamp following alternative
  have hread (following : List Token) :=
    (hcondition.readable stamp).expression room (stamp.mark .delimiter ";") following rfl
  have hblock : (block (statement room) ["else", "end"]).Grows
      (1 ≤ room ∧ ∀ statement ∈ body, statement.nesting ≤ room)
      (stamp.mark .delimiter ";" :: printStatements stamp body) [⟨.block, none, body⟩]
      (alternative.toList.flatMap
          (fun other => stamp.mark .keyword "else" :: printStatements stamp other) ++
        [stamp.mark .keyword "end"] ++ following) := by
    rw [heq]
    exact grows_block_semicolon (List.Subset.refl _) hbody h hcategory htext
  have hrest := hblock.inOrder (grows_alternative halternative hother).inOrder_close
  refine Grower.Grows.node ?_ .ifStatement
  refine ((grows_one (hread _)).inOrder hrest).congr_fits ?_
  constructor
  · rintro ⟨hcondition, ⟨-, hbody⟩, halternative⟩
    exact ⟨hcondition, hbody, halternative⟩
  · rintro ⟨hcondition, hbody, halternative⟩
    exact ⟨hcondition, ⟨Nat.le_of_add_left_le hcondition, hbody⟩, halternative⟩

variable (following) in
/-- A loop, after its keyword. -/
lemma grows_whileStatement {condition : Tree} {body : List Tree}
    (hcondition : IsExpression condition) (hbody : ∀ statement ∈ body, IsStatement statement)
    (h : ∀ statement ∈ body, Regrows stamp room statement) :
    (whileStatement (statement room) (expression room)).Grows
      (condition.nesting + 1 ≤ room ∧ ∀ statement ∈ body, statement.nesting ≤ room)
      (condition.print stamp ++ stamp.mark .delimiter ";" ::
        (printStatements stamp body ++ [stamp.mark .keyword "end"]))
      [⟨.whileStatement, none, [condition, ⟨.block, none, body⟩]⟩] following := by
  have hread (following : List Token) :=
    (hcondition.readable stamp).expression room (stamp.mark .delimiter ";") following rfl
  have hblock : (block (statement room) ["end"]).Grows
      (1 ≤ room ∧ ∀ statement ∈ body, statement.nesting ≤ room)
      (stamp.mark .delimiter ";" :: printStatements stamp body) [⟨.block, none, body⟩]
      (stamp.mark .keyword "end" :: following) :=
    grows_block_semicolon (List.subset_cons_self _ _) hbody h rfl List.mem_cons_self
  refine Grower.Grows.node ?_ .whileStatement
  refine ((grows_one (hread _)).inOrder hblock.inOrder_close).congr_fits ?_
  constructor
  · rintro ⟨hcondition, -, hbody⟩
    exact ⟨hcondition, hbody⟩
  · rintro ⟨hcondition, hbody⟩
    exact ⟨hcondition, Nat.le_of_add_left_le hcondition, hbody⟩

/-- A token that an expression begins with begins no other statement. -/
lemma ofToken_of_startsExpression (h : t.startsExpression = true) :
    Opening.ofToken t = .expression := by
  have hsemicolon : t.is .delimiter ";" = false := by
    by_contra his
    obtain ⟨hcategory, htext⟩ := Token.is_iff.mp (Bool.not_eq_false _ ▸ his)
    simp [Token.startsExpression, hcategory, htext] at h
  unfold Opening.ofToken
  rw [hsemicolon]
  by_cases hkeyword : t.category = .keyword
  · simp only [Token.startsExpression, hkeyword, Bool.or_eq_true, decide_eq_true_eq] at h
    rcases h with htext | htext <;> simp [hkeyword, htext]
  · simp [hkeyword]

variable (stamp room following) in
/-- An expression as a statement. -/
lemma grows_expressionStatement {value : Tree} (hvalue : IsExpression value) :
    (expressionStatement (expression room)).Grows (value.nesting + 1 ≤ room) (value.print stamp)
      [⟨.expressionStatement, none, [value]⟩] (stamp.mark .delimiter ";" :: following) := by
  have hread := (hvalue.readable stamp).expression room (stamp.mark .delimiter ";") following rfl
  exact grows_one (hread.bind_nothing rfl)

end

/-! ### Whole programs -/

section

variable {stamp : Token} {tree : Tree} {following : List Token}

/-- A statement is read back at every room if it is wherever a level is left for it. -/
lemma regrows_of_succ (htree : IsStatement tree)
    (h : ∀ room following, (statement (room + 1)).Grows (tree.nesting ≤ room + 1)
      (tree.print stamp) [tree] (stamp.mark .delimiter ";" :: following)) (room : ℕ) :
    Regrows stamp room tree := by
  intro following
  cases room with
  | succ room => exact h room following
  | zero =>
    obtain ⟨t, rest, heq, -⟩ := htree.print_eq_cons stamp
    have hdeep : ¬tree.nesting ≤ 0 := Nat.not_le_of_lt htree.nesting_pos
    rw [heq]
    exact .tooDeep hdeep List.mem_cons_self List.mem_cons_self [] _

/-- Every statement is read back from its tokens. -/
theorem IsStatement.regrows (h : IsStatement tree) (stamp : Token) (room : ℕ) :
    Regrows stamp room tree := by
  -- The levels vary, since members and bodies are read with one level less.
  induction h generalizing room with
  | classDeclaration hname hbase hmembers ih =>
    refine regrows_of_succ (.classDeclaration hname hbase hmembers) ?_ room
    intro room following
    have hclass := grows_classDeclaration (stamp.mark .delimiter ";" :: following) hname hbase
      hmembers fun member hmember => ih member hmember room
    rw [print_class stamp _ _ hmembers]
    exact (grows_cons rfl hclass).congr_fits nesting_class_le.symm
  | functionDeclaration hname hparameters hbody ih =>
    refine regrows_of_succ (.functionDeclaration hname hparameters hbody) ?_ room
    intro room following
    have hfunction := grows_functionDeclaration (stamp.mark .delimiter ";" :: following) hname
      hparameters hbody fun statement hstatement => ih statement hstatement room
    rw [print_function stamp _ _ hbody]
    exact (grows_cons rfl hfunction).congr_fits nesting_function_le.symm
  | variableDeclaration hname hvalue =>
    refine regrows_of_succ (.variableDeclaration hname hvalue) ?_ room
    intro room following
    have hvariable := grows_variableDeclaration stamp room following hname hvalue
    rw [print_variable]
    exact (grows_cons rfl hvariable).congr_fits nesting_variable_le.symm
  | ifStatement hcondition hbody halternative ihbody ihalternative =>
    refine regrows_of_succ (.ifStatement hcondition hbody halternative) ?_ room
    intro room following
    have hif := grows_ifStatement (stamp.mark .delimiter ";" :: following) hcondition hbody
      halternative (fun statement hstatement => ihbody statement hstatement room)
      fun other hother statement hstatement => ihalternative other hother statement hstatement room
    rw [print_if stamp _ hbody halternative]
    exact (grows_cons rfl hif).congr_fits nesting_if_le.symm
  | whileStatement hcondition hbody ih =>
    refine regrows_of_succ (.whileStatement hcondition hbody) ?_ room
    intro room following
    have hwhile := grows_whileStatement (stamp.mark .delimiter ";" :: following) hcondition hbody
      fun statement hstatement => ih statement hstatement room
    rw [print_while stamp _ hbody]
    exact (grows_cons rfl hwhile).congr_fits nesting_while_le.symm
  | returnStatement hvalue =>
    refine regrows_of_succ (.returnStatement hvalue) ?_ room
    intro room following
    have hreturn := grows_returnStatement stamp room following hvalue
    rw [print_return]
    exact (grows_cons rfl hreturn).congr_fits nesting_return_le.symm
  | expressionStatement hvalue =>
    refine regrows_of_succ (.expressionStatement hvalue) ?_ room
    intro room following
    obtain ⟨t, rest, heq, ht⟩ := hvalue.print_eq_cons stamp
    have hexpression := grows_expressionStatement stamp room following hvalue
    rw [print_expressionStatement]
    rw [nesting_expressionStatement]
    refine (hexpression.congr ?_).congr_fits Nat.succ_le_succ_iff.symm
    rw [heq, statement_succ, List.cons_append, statementOf, ofToken_of_startsExpression ht]

/-- Statements up to the end of the tokens, if the bound is no shorter than twice their number. -/
lemma grows_program (stamp : Token) {trees : List Tree}
    (htrees : ∀ tree ∈ trees, IsStatement tree) (bound : List Token)
    (hbound : 2 * trees.length ≤ bound.length) :
    (program bound).Grows (∀ tree ∈ trees, tree.nesting ≤ nestingLimit)
      (printStatements stamp trees) trees [] := by
  have hspare : 2 * trees.length + 0 ≤ bound.length := hbound
  have hregrows : ∀ tree ∈ trees, Regrows stamp nestingLimit tree :=
    fun tree htree => (htrees tree htree).regrows stamp nestingLimit
  refine grows_rounds ?_ ?_ htrees hregrows bound hspare
  · intro fits fits' printed more bound nodes others hprinted h hmore u
    refine (h.andThen hmore).congr ?_
    obtain ⟨t, rest, rfl, -⟩ := hprinted
    rfl
  · intro bound _
    cases bound <;> exact grows_of_eq trivial rfl

end

/-- A program is read back from the tokens that it is printed as, whole and without a fault, if
statements and expressions are nested no deeper in them than the limit.  If they are, the only fault
is that one of the tokens is too deep. -/
theorem parse_print (stamp : Token) {tree : Tree} (h : IsProgram tree) :
    (tree.nesting ≤ nestingLimit → parse (tree.print stamp) = ⟨tree, []⟩) ∧
      (nestingLimit < tree.nesting →
        ∃ what ∈ [Expected.statement, .expression], ∃ found ∈ tree.print stamp,
          (parse (tree.print stamp)).faults = [.nestedTooDeep what found]) := by
  cases h with
  | @root statements hstatements =>
    have hlength := two_mul_length_le stamp hstatements
    have hgrows := (grows_program stamp hstatements _ hlength).congr_fits nesting_root_le.symm
    unfold Grower.Grows at hgrows
    rw [List.append_nil] at hgrows
    rw [print_root stamp hstatements]
    unfold parse
    generalize program (printStatements stamp statements) (printStatements stamp statements) =
      growth at hgrows ⊢
    cases hgrows with
    | made hfits =>
      exact ⟨fun _ => rfl, fun hdeep => absurd hfits (Nat.not_le_of_lt hdeep)⟩
    | tooDeep hfits hwhat hfound kept rest =>
      exact ⟨fun hle => absurd hle hfits, fun _ => ⟨_, hwhat, _, hfound, rfl⟩⟩

/-- Brackets around a literal: as many as fit, and one more. -/
theorem parse_print_brackets :
    let stamp : Token := ⟨⟨"m"⟩, ⟨1, 1, 0⟩, .delimiter, .plain, ";", 1⟩
    let literal : Token := ⟨⟨"m"⟩, ⟨1, 1, 0⟩, .literal, .integer, "1", 1⟩
    let bracketed (depth : ℕ) : Tree :=
      (fun inner => ⟨.arrayLiteral, some (stamp.mark .delimiter "["), [inner]⟩)^[depth]
        (leaf .literal literal)
    let program (depth : ℕ) : Tree :=
      ⟨.root, none, [⟨.expressionStatement, none, [bracketed depth]⟩]⟩
    parse ((program 126).print stamp) = ⟨program 126, []⟩ ∧
      ∃ what ∈ [Expected.statement, .expression], ∃ found ∈ (program 127).print stamp,
        (parse ((program 127).print stamp)).faults = [.nestedTooDeep what found] := by
  intro stamp literal bracketed program
  have hbracketed (depth : ℕ) : IsExpression (bracketed depth) := by
    have hliteral : IsExpression (leaf .literal literal) := .literal rfl
    refine Function.Iterate.rec IsExpression hliteral ?_ depth
    intro inner hinner
    exact .array rfl fun item hitem => List.mem_singleton.mp hitem ▸ hinner
  have hprogram (depth : ℕ) : IsProgram (program depth) := by
    refine .root fun statement hstatement => ?_
    exact List.mem_singleton.mp hstatement ▸ .expressionStatement (hbracketed depth)
  have hfits : (program 126).nesting ≤ nestingLimit := by decide +kernel
  have hdeep : nestingLimit < (program 127).nesting := by decide +kernel
  exact ⟨(parse_print stamp (hprogram 126)).1 hfits, (parse_print stamp (hprogram 127)).2 hdeep⟩

end Tree

end UvaAnalysis
