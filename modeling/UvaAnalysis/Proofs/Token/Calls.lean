import Mathlib.Logic.Relation
import UvaAnalysis.Proofs.Path
import UvaAnalysis.Proofs.Token.Lossless
import UvaAnalysis.Token.Expansion

/-!
# The files that an expansion goes through

`expandWithin` is a recursion with three arguments, and together they are a `Call`.  A call asks for
the files that its include directives name, save those that are on the stack, and enters the ones
that can be read; `Reaches` follows this from call to call.  The tokens that an expansion comes to
are those that stand outside directives in the calls that it reaches (`mem_expand_iff`), so what
holds of every reached call holds of the stream.  And an expansion depends on the files only
through what its reached calls ask for (`expand_congr`).
-/

namespace UvaAnalysis

/-- What was salvaged from several items was salvaged from one of them. -/
lemma Salvage.mem_flatMap {α β : Type} {items : List α} {f : α → Salvage (List β)} {b : β} :
    b ∈ (Salvage.flatMap items f).value ↔ ∃ item ∈ items, b ∈ (f item).value := by
  simp [Salvage.flatMap, Salvage.concat]

/-- Salvaging the same from each item. -/
lemma Salvage.flatMap_congr {α β : Type} {items : List α} {f g : α → Salvage (List β)}
    (h : ∀ item ∈ items, f item = g item) : Salvage.flatMap items f = Salvage.flatMap items g := by
  rw [flatMap, flatMap, List.map_congr_left h]

namespace Token

/-! ### Items -/

/-- The token that an item begins with. -/
def Item.head : Item → Token
  | .token t => t
  | .inclusion directive _ => directive
  | .includeWithoutPath directive => directive
  | .unknown directive => directive

/-- Every item of a stream begins with a token of the stream. -/
lemma Item.head_mem {tokens : List Token} {item : Item} (h : item ∈ Item.ofTokens tokens) :
    item.head ∈ tokens := by
  have hfirst {first : Item} {t : Token} {items : List Item} {rest : List Token}
      (hmem : item ∈ first :: items) (heq : first.head = t)
      (hrest : item ∈ items → item.head ∈ rest) : item.head ∈ t :: rest := by
    rcases List.mem_cons.mp hmem with rfl | hmem
    · rw [heq]
      exact List.mem_cons_self ..
    · exact List.mem_cons_of_mem _ (hrest hmem)
  fun_induction Item.ofTokens tokens with
  | case1 => cases h
  | case2 | case3 | case4 => exact hfirst h rfl (fun hmem => nomatch hmem)
  | case5 t next rest _ _ ih =>
    exact hfirst h rfl fun hmem => List.mem_cons_of_mem _ (ih hmem)
  | case6 _ _ _ _ _ ih | case7 _ _ _ _ _ ih | case8 _ _ _ _ _ ih => exact hfirst h rfl ih

/-- What an item comes to: a token comes to itself, and an inclusion to what is spliced for a file
that is not on the stack. -/
lemma Item.mem_expand_iff {stack : List Path} {splice : Path → Salvage (List Token)} {item : Item}
    {t : Token} :
    t ∈ (item.expand stack splice).value ↔ item = .token t ∨
      ∃ directive target, item = .inclusion directive target ∧
        stack.any (·.sameAs (includedPath directive target)) = false ∧
        t ∈ (splice (includedPath directive target)).value := by
  cases item with
  | token u =>
    have hvalue : t ∈ ((Item.token u).expand stack splice).value ↔ t = u := List.mem_singleton
    rw [hvalue]
    constructor
    · rintro rfl
      exact .inl rfl
    · rintro (heq | ⟨_, _, heq, _⟩)
      · exact (Item.token.inj heq).symm
      · cases heq
  | inclusion directive target =>
    simp only [Item.expand]
    by_cases hstack : stack.any (·.sameAs (includedPath directive target)) = true
    · rw [if_pos hstack]
      constructor
      · intro h
        cases h
      · rintro (heq | ⟨_, _, heq, hfree, _⟩)
        · cases heq
        · cases heq
          rw [hstack] at hfree
          cases hfree
    · rw [if_neg hstack]
      rw [Bool.not_eq_true] at hstack
      constructor
      · intro h
        exact .inr ⟨directive, target, rfl, hstack, h⟩
      · rintro (heq | ⟨_, _, heq, _, h⟩)
        · cases heq
        · cases heq
          exact h
  | includeWithoutPath directive => simp [Item.expand]
  | unknown directive => simp [Item.expand]

/-! ### Calls -/

/-- Tokens of a file that are being expanded, the files above it and itself, and the number of files
that may still be opened below it. -/
structure Call where
  room : ℕ
  stack : List Path
  tokens : List Token

namespace Call

/-- What a call comes to. -/
def expand (files : Files) (call : Call) : Salvage (List Token) :=
  expandWithin files call.room call.stack call.tokens

/-- A call asks for a file when one of its includes names it, no file that is being expanded is the
same, and there is room. -/
structure Asks (call : Call) (path : Path) : Prop where
  room_pos : 0 < call.room
  not_on_stack : call.stack.any (·.sameAs path) = false
  exists_inclusion : ∃ directive target, .inclusion directive target ∈ Item.ofTokens call.tokens ∧
    path = includedPath directive target

/-- The call below a call for a file that has a given content. -/
def below (call : Call) (path : Path) (source : List UInt8) : Call :=
  ⟨call.room - 1, path :: call.stack, (tokenize path source).value⟩

/-- A call enters a file that it asks for when the file can be read. -/
def Enters (files : Files) (call inner : Call) : Prop :=
  ∃ path source, call.Asks path ∧ files.read path = .ok source ∧ inner = call.below path source

/-- A call reaches itself and whatever is entered from a call that it reaches. -/
abbrev Reaches (files : Files) : Call → Call → Prop :=
  Relation.ReflTransGen (Enters files)

variable {files : Files} {call : Call}

/-- A call without room reaches nothing else. -/
lemma Reaches.eq_of_no_room {inner : Call} (h : Reaches files call inner) (hroom : call.room = 0) :
    inner = call := by
  rcases Relation.ReflTransGen.cases_head h with heq | ⟨_, ⟨_, _, hasks, _⟩, _⟩
  · exact heq.symm
  · have hpos := hasks.room_pos
    omega

/-- The tokens of an expansion stand outside directives in the calls that it reaches. -/
theorem mem_expand_iff {t : Token} :
    t ∈ (call.expand files).value ↔
      ∃ inner, Reaches files call inner ∧ Item.token t ∈ Item.ofTokens inner.tokens := by
  obtain ⟨room, stack, tokens⟩ := call
  induction room generalizing stack tokens with
  | zero =>
    have hvalue : t ∈ (Call.expand files ⟨0, stack, tokens⟩).value ↔
        Item.token t ∈ Item.ofTokens tokens := by
      rw [Call.expand, expandWithin, Salvage.mem_flatMap]
      constructor
      · rintro ⟨item, hitem, ht⟩
        rcases Item.mem_expand_iff.mp ht with rfl | ⟨_, _, _, _, ht⟩
        · exact hitem
        · cases ht
      · intro h
        exact ⟨_, h, Item.mem_expand_iff.mpr (.inl rfl)⟩
    rw [hvalue]
    constructor
    · intro h
      exact ⟨_, .refl, h⟩
    · rintro ⟨inner, hreaches, h⟩
      rw [Reaches.eq_of_no_room hreaches rfl] at h
      exact h
  | succ room ih =>
    rw [Call.expand, expandWithin, Salvage.mem_flatMap]
    constructor
    · rintro ⟨item, hitem, ht⟩
      rcases Item.mem_expand_iff.mp ht with rfl | ⟨directive, target, rfl, hstack, ht⟩
      · exact ⟨_, .refl, hitem⟩
      · cases hread : files.read (includedPath directive target) with
        | error cause => simp [hread] at ht
        | ok source =>
          simp only [hread] at ht
          obtain ⟨inner, hreaches, hinner⟩ := (ih _ _).mp ht
          refine ⟨inner, .head ⟨_, source, ⟨?_, hstack, _, _, hitem, rfl⟩, hread, rfl⟩ hreaches,
            hinner⟩
          exact Nat.succ_pos _
    -- Either the call itself has the token, or a call that is reached from one it enters.
    · rintro ⟨inner, hreaches, hinner⟩
      rcases Relation.ReflTransGen.cases_head hreaches with rfl | ⟨next, henters, hnext⟩
      · exact ⟨_, hinner, Item.mem_expand_iff.mpr (.inl rfl)⟩
      · obtain ⟨path, source, hasks, hread, rfl⟩ := henters
        obtain ⟨directive, target, hitem, rfl⟩ := hasks.exists_inclusion
        refine ⟨_, hitem, Item.mem_expand_iff.mpr (.inr ⟨_, _, rfl, hasks.not_on_stack, ?_⟩)⟩
        simp only [hread]
        exact (ih _ _).mpr ⟨inner, hnext, hinner⟩

/-- An expansion comes to the same when what its calls ask for is the same. -/
theorem expand_congr {files' : Files}
    (h : ∀ inner path, Reaches files call inner → inner.Asks path →
      files'.read path = files.read path) :
    call.expand files' = call.expand files := by
  obtain ⟨room, stack, tokens⟩ := call
  induction room generalizing stack tokens with
  | zero => rw [Call.expand, Call.expand, expandWithin, expandWithin]
  | succ room ih =>
    rw [Call.expand, Call.expand, expandWithin, expandWithin]
    refine Salvage.flatMap_congr fun item hitem => ?_
    cases item with
    | token t => rw [Item.expand, Item.expand]
    | includeWithoutPath directive => rw [Item.expand, Item.expand]
    | unknown directive => rw [Item.expand, Item.expand]
    | inclusion directive target =>
      rw [Item.expand, Item.expand]
      -- A file that is being expanded is not asked for.
      by_cases hstack : stack.any (·.sameAs (includedPath directive target)) = true
      · rw [if_pos hstack, if_pos hstack]
      · rw [if_neg hstack, if_neg hstack]
        have hasks : Asks ⟨room + 1, stack, tokens⟩ (includedPath directive target) :=
          ⟨Nat.succ_pos _, Bool.eq_false_iff.mpr hstack, _, _, hitem, rfl⟩
        rw [h _ _ .refl hasks]
        cases hread : files.read (includedPath directive target) with
        | error cause => rfl
        | ok source =>
          have hrest := ih (includedPath directive target :: stack)
            (tokenize (includedPath directive target) source).value
            fun inner path hreaches => h inner path (.head ⟨_, source, hasks, hread, rfl⟩ hreaches)
          simp only [Call.expand] at hrest
          simp only [hrest]

end Call

end Token

end UvaAnalysis
