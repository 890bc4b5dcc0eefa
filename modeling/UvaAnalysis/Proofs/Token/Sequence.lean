import Mathlib.Data.List.Basic
import UvaAnalysis.Token.Expansion

/-!
# Expansion of one part after the other

An expansion has no memory: what one item comes to is not changed by the items before it, by their
faults or by the files that were opened for them.  Two streams joined together therefore expand to
what each of them comes to (`expandWithin_append`), unless an include directive at the end of the
first one takes its path from the second.

How a stream falls into items is given as a relation with one case for each item (`Divides`), so
that facts about whole streams are inductions on it.
-/

namespace UvaAnalysis

/-! ### Salvaged lists, one after the other -/

namespace Salvage

variable {α β : Type}

/-- What was salvaged first, and then what was salvaged next. -/
instance : Append (Salvage (List α)) :=
  ⟨fun first next => ⟨first.value ++ next.value, first.faults ++ next.faults⟩⟩

/-- What several things were salvaged to can be joined in any grouping. -/
lemma append_assoc (first second third : Salvage (List α)) :
    first ++ second ++ third = first ++ (second ++ third) :=
  congrArg₂ Salvage.mk (List.append_assoc ..) (List.append_assoc ..)

/-- Nothing in front adds nothing. -/
lemma empty_append (s : Salvage (List α)) : ⟨[], []⟩ ++ s = s :=
  rfl

/-- Nothing behind adds nothing. -/
lemma append_empty (s : Salvage (List α)) : s ++ ⟨[], []⟩ = s :=
  congrArg₂ Salvage.mk (List.append_nil _) (List.append_nil _)

/-- Several things are joined from the first on. -/
lemma concat_cons (first : Salvage (List α)) (others : List (Salvage (List α))) :
    concat (first :: others) = first ++ concat others :=
  rfl

/-- What several items come to begins with what the first comes to. -/
lemma flatMap_cons (item : α) (items : List α) (f : α → Salvage (List β)) :
    flatMap (item :: items) f = f item ++ flatMap items f :=
  rfl

/-- A single item comes to what it comes to by itself. -/
lemma flatMap_singleton (item : α) (f : α → Salvage (List β)) : flatMap [item] f = f item :=
  append_empty (f item)

end Salvage

namespace Token

/-! ### How a stream falls into items -/

/-- An include directive and its path. -/
structure IsInclusion (directive target : Token) : Prop where
  isInclude : directive.isInclude = true
  isStringLiteral : target.isStringLiteral = true

/-- The stream falls into the items, from its front. -/
inductive Divides : List Token → List Item → Prop where
  | nil : Divides [] []
  | token {t : Token} {rest : List Token} {items : List Item} (ht : t.category ≠ .directive)
      (h : Divides rest items) : Divides (t :: rest) (.token t :: items)
  | inclusion {directive target : Token} {rest : List Token} {items : List Item}
      (hinclusion : IsInclusion directive target) (h : Divides rest items) :
      Divides (directive :: target :: rest) (.inclusion directive target :: items)
  | includeWithoutPath {directive : Token} {rest : List Token} {items : List Item}
      (hdirective : directive.isInclude = true)
      (hrest : rest.head?.any isStringLiteral = false) (h : Divides rest items) :
      Divides (directive :: rest) (.includeWithoutPath directive :: items)
  | unknown {directive : Token} {rest : List Token} {items : List Item}
      (hdirective : directive.category = .directive) (hinclude : directive.isInclude = false)
      (h : Divides rest items) : Divides (directive :: rest) (.unknown directive :: items)

/-- Every stream falls into the items that are made of it. -/
lemma divides_ofTokens (tokens : List Token) : Divides tokens (Item.ofTokens tokens) := by
  fun_induction Item.ofTokens tokens with
  | case1 => exact .nil
  | case2 t hinclude => exact .includeWithoutPath hinclude rfl .nil
  | case3 t hinclude hdirective =>
    exact .unknown hdirective (Bool.eq_false_iff.mpr hinclude) .nil
  | case4 t _ hdirective => exact .token hdirective .nil
  | case5 t next rest hinclude hliteral ih => exact .inclusion ⟨hinclude, hliteral⟩ ih
  | case6 t next rest hinclude hliteral ih =>
    exact .includeWithoutPath hinclude (Bool.eq_false_iff.mpr hliteral) ih
  | case7 t next rest hinclude hdirective ih =>
    exact .unknown hdirective (Bool.eq_false_iff.mpr hinclude) ih
  | case8 t next rest _ hdirective ih => exact .token hdirective ih

/-- An include directive is a directive. -/
lemma category_of_isInclude {t : Token} (h : t.isInclude = true) : t.category = .directive :=
  (is_iff.mp h).1

/-- A string literal is no directive. -/
lemma category_ne_of_isStringLiteral {t : Token} (h : t.isStringLiteral = true) :
    t.category ≠ .directive := by
  rw [(isStringLiteral_iff.mp h).1]
  exact fun hcategory => nomatch hcategory

/-- A token that is no directive is no include directive. -/
lemma isInclude_of_category_ne {t : Token} (h : t.category ≠ .directive) : t.isInclude = false :=
  Bool.eq_false_iff.mpr fun hinclude => h (category_of_isInclude hinclude)

/-- A stream falls into its items in one way. -/
lemma Divides.eq_ofTokens {tokens : List Token} {items : List Item} (h : Divides tokens items) :
    items = Item.ofTokens tokens := by
  induction h with
  | nil => rfl
  | @token t rest items ht _ ih =>
    have hinclude := isInclude_of_category_ne ht
    cases rest <;> simp [Item.ofTokens, hinclude, ht, ih]
  | inclusion hinclusion _ ih =>
    simp [Item.ofTokens, hinclusion.isInclude, hinclusion.isStringLiteral, ih]
  | @includeWithoutPath directive rest items hdirective hrest _ ih =>
    cases rest with
    | nil => simp [Item.ofTokens, hdirective, ih]
    | cons next rest =>
      have hnext : next.isStringLiteral = false := hrest
      simp [Item.ofTokens, hdirective, hnext, ih]
  | @unknown directive rest items hdirective hinclude _ ih =>
    cases rest <;> simp [Item.ofTokens, hdirective, hinclude, ih]

/-! ### Streams that are joined -/

/-- An include directive at the end of the first stream would take its path from the second one. -/
def Entangled (tokens more : List Token) : Prop :=
  tokens.getLast?.any isInclude = true ∧ more.head?.any isStringLiteral = true

instance (tokens more : List Token) : Decidable (Entangled tokens more) :=
  inferInstanceAs (Decidable (_ ∧ _))

/-- A stream after which an include directive could take a path is not changed by one in front. -/
lemma Entangled.cons {t : Token} {tokens more : List Token} (h : Entangled tokens more) :
    Entangled (t :: tokens) more := by
  refine ⟨?_, h.2⟩
  cases tokens with
  | nil => cases h.1
  | cons next rest => exact h.1

/-- Two streams that are joined fall into the items of both, unless the first takes a path from the
second. -/
lemma Divides.append {tokens more : List Token} {items others : List Item}
    (h : Divides tokens items) (hmore : Divides more others) (hfree : ¬Entangled tokens more) :
    Divides (tokens ++ more) (items ++ others) := by
  induction h with
  | nil => exact hmore
  | token ht _ ih => exact .token ht (ih (mt Entangled.cons hfree))
  | inclusion hinclusion _ ih =>
    exact .inclusion hinclusion (ih (mt (Entangled.cons ∘ Entangled.cons) hfree))
  | @includeWithoutPath directive rest items hdirective hrest _ ih =>
    refine .includeWithoutPath hdirective ?_ (ih (mt Entangled.cons hfree))
    cases rest with
    | nil => exact Bool.eq_false_iff.mpr fun hliteral => hfree ⟨hdirective, hliteral⟩
    | cons next rest => exact hrest
  | unknown hdirective hinclude _ ih =>
    exact .unknown hdirective hinclude (ih (mt Entangled.cons hfree))

/-! ### Expansion -/

/-- What stands in the place of a file that is included, while the files on `stack` are being
expanded and `room` more may be opened. -/
def contentOf (files : Files) : (room : ℕ) → (stack : List Path) → Path → Salvage (List Token)
  | 0, _, path => ⟨[], [.includeTooDeep path]⟩
  | room + 1, stack, path =>
    match files.read path with
    | .error cause => ⟨[], [.includeUnreadable path cause]⟩
    | .ok source =>
      let lexed := tokenize path source
      let expanded := expandWithin files room (path :: stack) lexed.value
      ⟨expanded.value, lexed.faults ++ expanded.faults⟩

variable {files : Files} {room : ℕ} {stack : List Path}

/-- A file that can be read is expanded with less room. -/
lemma contentOf_of_read_eq_ok {path : Path} {source : List UInt8}
    (h : files.read path = .ok source) :
    contentOf files (room + 1) stack path =
      ⟨(expandWithin files room (path :: stack) (tokenize path source).value).value,
        (tokenize path source).faults ++
          (expandWithin files room (path :: stack) (tokenize path source).value).faults⟩ := by
  rw [contentOf, h]

/-- A stream expands item by item. -/
lemma expandWithin_eq (files : Files) (room : ℕ) (stack : List Path) (tokens : List Token) :
    expandWithin files room stack tokens =
      Salvage.flatMap (Item.ofTokens tokens) (Item.expand stack (contentOf files room stack)) := by
  cases room <;> rfl

/-- A stream expands item by item, whatever way it was found to fall into them. -/
lemma Divides.expandWithin_eq {tokens : List Token} {items : List Item}
    (h : Divides tokens items) (files : Files) (room : ℕ) (stack : List Path) :
    expandWithin files room stack tokens =
      Salvage.flatMap items (Item.expand stack (contentOf files room stack)) := by
  rw [h.eq_ofTokens, Token.expandWithin_eq]

/-- Two streams expand one after the other, at any depth of includes. -/
lemma expandWithin_append {tokens more : List Token} (hfree : ¬Entangled tokens more) :
    expandWithin files room stack (tokens ++ more) =
      expandWithin files room stack tokens ++ expandWithin files room stack more := by
  have hdivides := (divides_ofTokens tokens).append (divides_ofTokens more) hfree
  rw [hdivides.expandWithin_eq, Salvage.flatMap_append, expandWithin_eq, expandWithin_eq]
  rfl

section

variable {directive target : Token}

/-- An inclusion by itself comes to what its one item comes to. -/
lemma IsInclusion.expandWithin_eq (h : IsInclusion directive target) :
    expandWithin files room stack [directive, target] =
      Item.expand stack (contentOf files room stack) (.inclusion directive target) := by
  have hdivides : Divides [directive, target] [.inclusion directive target] :=
    .inclusion h .nil
  rw [hdivides.expandWithin_eq, Salvage.flatMap_singleton]

/-- An inclusion takes no path from the stream behind it. -/
lemma IsInclusion.not_entangled (h : IsInclusion directive target) (more : List Token) :
    ¬Entangled [directive, target] more := by
  rintro ⟨hinclude, -⟩
  exact category_ne_of_isStringLiteral h.isStringLiteral (category_of_isInclude hinclude)

/-- An inclusion does not give its path to a stream in front of it. -/
lemma IsInclusion.not_entangled_left (h : IsInclusion directive target) (tokens : List Token) :
    ¬Entangled tokens [directive, target] := by
  rintro ⟨-, hliteral⟩
  exact category_ne_of_isStringLiteral hliteral (category_of_isInclude h.isInclude)

/-- Inclusions of one file come to the same. -/
lemma IsInclusion.expandWithin_congr {directive' target' : Token}
    (h : IsInclusion directive target) (h' : IsInclusion directive' target')
    (hpath : includedPath directive' target' = includedPath directive target) :
    expandWithin files room stack [directive', target'] =
      expandWithin files room stack [directive, target] := by
  rw [h.expandWithin_eq, h'.expandWithin_eq, Item.expand, Item.expand, hpath]

end

/-- Two streams expand one after the other, to the tokens and to the faults of each, unless an
include directive at the end of the first one takes its path from the second.  So a file that is
included twice comes to the same both times, whatever stands between. -/
theorem expand_append (files : Files) (primary : Path) :
    (∀ tokens more : List Token, ¬Entangled tokens more →
      expand files primary (tokens ++ more) =
        expand files primary tokens ++ expand files primary more) ∧
      ∀ (directive target directive' target' : Token) (between : List Token),
        IsInclusion directive target → IsInclusion directive' target' →
        includedPath directive' target' = includedPath directive target →
        expand files primary ([directive, target] ++ between ++ [directive', target']) =
          expand files primary [directive, target] ++ expand files primary between ++
            expand files primary [directive, target] := by
  refine ⟨fun tokens more hfree => expandWithin_append hfree, ?_⟩
  intro directive target directive' target' between h h' hpath
  have hbetween : ¬Entangled ([directive, target] ++ between) [directive', target'] :=
    h'.not_entangled_left _
  rw [expand, expandWithin_append hbetween, expandWithin_append (h.not_entangled between),
    h.expandWithin_congr h' hpath]
  rfl

/-- A file that includes the one it is included in, and is included twice under two spellings; and
two streams that an include directive stands between. -/
theorem expand_append_cycle :
    let main : Path := ⟨"/home/project/m.uva"⟩
    let files := (Files.empty ["home", "project"]).writeFile ⟨"a.uva"⟩
      (Utf8.encode "x #include 'm.uva' y")
    let directive : Token := ⟨main, ⟨1, 1, 0⟩, .directive, .plain, "include", 8⟩
    let target : Token := ⟨main, ⟨1, 10, 9⟩, .literal, .string, "a.uva", 7⟩
    let target' : Token := ⟨main, ⟨1, 10, 9⟩, .literal, .string, "b/../a.uva", 12⟩
    let between := (tokenize main (Utf8.encode "z #unknown #include")).value
    ¬Entangled between [directive, target] ∧
      IsInclusion directive target ∧ IsInclusion directive target' ∧
      includedPath directive target' = includedPath directive target ∧
      (expand files main [directive, target]).value.map text = ["x", "y"] ∧
      (expand files main [directive, target]).faults = [.includeCycle main] ∧
      expand files main (between ++ [directive, target]) =
        expand files main between ++ expand files main [directive, target] ∧
      expand files main ([directive, target] ++ between ++ [directive, target']) =
        expand files main [directive, target] ++ expand files main between ++
          expand files main [directive, target] := by
  intro main files directive target target' between
  have hfree : ¬Entangled between [directive, target] := by decide +kernel
  have h : IsInclusion directive target := ⟨by decide, by decide⟩
  have h' : IsInclusion directive target' := ⟨by decide, by decide⟩
  have hpath : includedPath directive target' = includedPath directive target := by decide +kernel
  exact ⟨hfree, h, h', hpath, by decide +kernel, by decide +kernel,
    (expand_append files main).1 between [directive, target] hfree,
    (expand_append files main).2 directive target directive target' between h h' hpath⟩

end Token

end UvaAnalysis
