import Mathlib.Data.List.Nodup
import UvaAnalysis.Proofs.Token.Lossless
import UvaAnalysis.Proofs.Tree.ClassName
import UvaAnalysis.Proofs.Tree.Inorder

/-!
# The references of a declaration

The references of a class are the identifiers of its name, in the order of the stream, and its own
name is one of them (`declarations_references`).  Nothing puts it there: it is one because the name
of a class is an identifier of the stream, in the tree of any stream.

In the tokens of one source everything is in the order of the bytes.  The names of the classes are
there in the order of the stream since a tree keeps that order, and since no two tokens begin at the
same byte a class is referred to once at its own place.
-/

namespace UvaAnalysis

namespace Token

/-- The place of a token. -/
def reference (t : Token) : Reference := ⟨t.origin, t.position⟩

/-- An identifier is among the references to its text. -/
lemma reference_mem_references {t : Token} {tokens : List Token} (hmem : t ∈ tokens)
    (hcategory : t.category = .identifier) : t.reference ∈ references t.text tokens :=
  List.mem_map.mpr ⟨t, List.mem_filter.mpr ⟨hmem, is_iff.mpr ⟨hcategory, rfl⟩⟩, rfl⟩

/-- The references to a name are the places of the identifiers of that text. -/
lemma references_eq_map_filter (name : String) (tokens : List Token) :
    references name tokens =
      (tokens.filter fun t => t.category = .identifier ∧ t.text = name).map reference := by
  have his : (fun t : Token => t.is .identifier name) =
      fun t => decide (t.category = .identifier ∧ t.text = name) := by
    funext t
    rw [Bool.eq_iff_iff, is_iff, decide_eq_true_iff]
  rw [references, his]
  rfl

/-! ### The order of the bytes -/

/-- The tokens of a source begin at ever greater offsets. -/
lemma pairwise_offset_tokenize (origin : Path) (source : List UInt8) :
    (tokenize origin source).value.Pairwise fun t u => t.position.offset < u.position.offset := by
  obtain ⟨stop, _, hread, hgaps⟩ := layout_tokenize origin source
  have hdisjoint := pairwise_of_gaps fun gap hgap => (hgaps gap hgap).1
  refine hdisjoint.imp_of_mem fun {t u} ht _ hstop => ?_
  have hpos := (hread t ht).length_pos
  rw [Token.stop] at hstop
  omega

/-- The references to a name in a source are at ever greater offsets. -/
lemma pairwise_offset_references (name : String) (origin : Path) (source : List UInt8) :
    (references name (tokenize origin source).value).Pairwise
      fun r s => r.position.offset < s.position.offset :=
  List.pairwise_map.mpr ((pairwise_offset_tokenize origin source).filter _)

end Token

namespace Tree

/-! ### The names of the classes in the order of the stream -/

/-- The name that a class declares is the token of a node below it. -/
lemma className?_sublist_inorder (tree : Tree) :
    tree.className?.toList.Sublist tree.inorder := by
  obtain ⟨kind, token, children⟩ := tree
  rw [className?]
  split_ifs with hkind
  · obtain rfl : kind = .classDeclaration := hkind
    rw [inorder_of_not_isInfix rfl, child?]
    cases hchild : children.find? (·.kind = .declarationName) with
    | none => exact List.nil_sublist _
    | some name =>
      obtain ⟨nameKind, nameToken, below⟩ := name
      obtain rfl : nameKind = .declarationName := by simpa using List.find?_some hchild
      have hname : nameToken.toList.Sublist (inorder ⟨.declarationName, nameToken, below⟩) := by
        rw [inorder_of_not_isInfix rfl]
        exact List.sublist_append_left _ _
      have hbelow := List.sublist_flatten_of_mem
        (List.mem_map_of_mem (f := inorder) (List.mem_of_find?_eq_some hchild))
      rw [← List.flatMap_def] at hbelow
      exact (hname.trans hbelow).trans (List.sublist_append_right _ _)
  · exact List.nil_sublist _

/-- The names of some classes are in the order of the source. -/
lemma classNames_sublist_inorder (nodes : List Tree) :
    (classNames nodes).Sublist (nodes.flatMap inorder) := by
  induction nodes with
  | nil => exact List.Sublist.refl []
  | cons tree nodes ih =>
    have hcons : classNames (tree :: nodes) = tree.className?.toList ++ classNames nodes := by
      rw [classNames, List.filterMap_cons]
      cases tree.className? <;> rfl
    rw [hcons, List.flatMap_cons]
    exact (className?_sublist_inorder tree).append ih

/-- The names of the classes that a stream declares are some of its tokens, in order. -/
lemma classNames_parse_sublist (tokens : List Token) :
    (classNames (parse tokens).value.children).Sublist tokens := by
  obtain ⟨used, htokens, hsublist, -⟩ := keeps_program tokens tokens
  have hused : used.Sublist (used ++ (program tokens tokens).rest) :=
    List.sublist_append_left used _
  rw [← htokens] at hused
  exact ((classNames_sublist_inorder _).trans hsublist).trans hused

/-! ### Declarations -/

/-- A declaration is that of a class named by an identifier of the stream. -/
lemma exists_of_mem_declarations {tokens : List Token} {declaration : Declaration}
    (h : declaration ∈ (parse tokens).value.declarations tokens) :
    ∃ t ∈ tokens, t.category = .identifier ∧ declaration = declarationOf tokens t := by
  obtain ⟨t, ht, rfl⟩ := List.mem_map.mp h
  obtain ⟨tree, htree, hname⟩ := List.mem_filterMap.mp ht
  obtain ⟨hmem, hcategory⟩ := mem_of_className?_parse htree hname
  exact ⟨t, hmem, hcategory, rfl⟩

/-- Every declaration of a stream is among its own references.  These are the identifiers of its
name in the order of the stream, so declarations of one name have the same references.  In the
tokens of one source, references and declarations are at ever greater offsets, and a declaration is
referred to once at its own position. -/
theorem declarations_references (tokens : List Token) (origin : Path) (source : List UInt8) :
    (∀ declaration ∈ (parse tokens).value.declarations tokens,
      (⟨declaration.file, declaration.position⟩ : Reference) ∈ declaration.references ∧
      declaration.references =
        (tokens.filter fun t => t.category = .identifier ∧ t.text = declaration.name).map
          Token.reference ∧
      declaration.references.length =
        tokens.countP (fun t => t.category = .identifier ∧ t.text = declaration.name) ∧
      ∀ other ∈ (parse tokens).value.declarations tokens, other.name = declaration.name →
        other.references = declaration.references) ∧
    let lexed := (Token.tokenize origin source).value
    ((parse lexed).value.declarations lexed).Pairwise
      (fun d e => d.position.offset < e.position.offset) ∧
    ∀ declaration ∈ (parse lexed).value.declarations lexed,
      declaration.references.Pairwise (fun r s => r.position.offset < s.position.offset) ∧
      (declaration.references.map Reference.position).count declaration.position = 1 := by
  constructor
  · intro declaration hdeclaration
    obtain ⟨t, hmem, hcategory, rfl⟩ := exists_of_mem_declarations hdeclaration
    have hreferences := Token.references_eq_map_filter t.text tokens
    refine ⟨Token.reference_mem_references hmem hcategory, hreferences, ?_, ?_⟩
    · change (references t.text tokens).length = _
      rw [hreferences, List.length_map, List.countP_eq_length_filter]
      rfl
    · intro other hother hname
      obtain ⟨u, -, -, rfl⟩ := exists_of_mem_declarations hother
      exact congrArg (references · tokens) hname
  · intro lexed
    have hordered := Token.pairwise_offset_tokenize origin source
    constructor
    · exact List.pairwise_map.mpr (hordered.sublist (classNames_parse_sublist lexed))
    · intro declaration hdeclaration
      obtain ⟨t, hmem, hcategory, rfl⟩ := exists_of_mem_declarations hdeclaration
      have hreferences := Token.pairwise_offset_references t.text origin source
      -- Two references at one position would have one offset.
      refine ⟨hreferences, List.count_eq_one_of_mem ?_ ?_⟩
      · refine List.pairwise_map.mpr (hreferences.imp fun {r s} hlt heq => ?_)
        exact absurd (congrArg Position.offset heq) (Nat.ne_of_lt hlt)
      · exact List.mem_map_of_mem (f := Reference.position)
          (Token.reference_mem_references hmem hcategory)

/-- A class that is named before its declaration and after it. -/
theorem declarations_references_around :
    let tokens := (Token.tokenize ⟨"m"⟩ (Utf8.encode "A class A end A")).value
    let declaration : Declaration := ⟨"A", ⟨"m"⟩, ⟨1, 9, 8⟩,
      [⟨⟨"m"⟩, ⟨1, 1, 0⟩⟩, ⟨⟨"m"⟩, ⟨1, 9, 8⟩⟩, ⟨⟨"m"⟩, ⟨1, 15, 14⟩⟩]⟩
    declaration ∈ (parse tokens).value.declarations tokens ∧
      declaration.references.length =
        tokens.countP (fun t => t.category = .identifier ∧ t.text = declaration.name) ∧
      (declaration.references.map Reference.position).count declaration.position = 1 := by
  intro tokens declaration
  have hmem : declaration ∈ (parse tokens).value.declarations tokens := by decide +kernel
  obtain ⟨hany, -, hlexed⟩ :=
    declarations_references tokens ⟨"m"⟩ (Utf8.encode "A class A end A")
  exact ⟨hmem, (hany declaration hmem).2.2.1, (hlexed declaration hmem).2⟩

end Tree

end UvaAnalysis
