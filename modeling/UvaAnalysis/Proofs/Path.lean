import Mathlib.Data.List.Basic
import UvaAnalysis.Path

/-!
# Normalized paths

What `Path.Component.collapseOnto` leaves has a simple shape: perhaps the root, perhaps one `..`,
and then names.  `Collapsed` describes it the way it is built, last component first.  Such
components are written as a path and read back without change (`components_ofComponents`), and
collapsing leaves them as they are (`Collapsed.collapse_reverse`).  So a path that was normalized
once is its own normal form, and the files that an include names are all of this kind
(`normalize_locate`).
-/

namespace UvaAnalysis

/-! ### Joining and cutting -/

/-- Stretches without a separator, joined by it, are cut apart again. -/
lemma Text.cut_intercalate {α : Type} [DecidableEq α] {separator : α} {stretches : List (List α)}
    (hne : stretches ≠ []) (h : ∀ stretch ∈ stretches, separator ∉ stretch) :
    cut separator ([separator].intercalate stretches) = stretches := by
  induction stretches with
  | nil => exact absurd rfl hne
  | cons stretch others ih =>
    obtain ⟨hs, hothers⟩ := List.forall_mem_cons.mp h
    cases others with
    | nil => rw [List.intercalate_singleton, cut_of_notMem hs]
    | cons other others =>
      rw [List.intercalate_cons_cons, List.append_assoc, List.singleton_append,
        cut_append_separator hs, ih (List.cons_ne_nil _ _) hothers]

namespace Path

/-! ### The components of a path -/

/-- A name that a stretch of a path can be. -/
def IsName (text : String) : Prop :=
  text ≠ "" ∧ text ≠ "." ∧ text ≠ ".." ∧ '/' ∉ text.toList

/-- Two dots or a name: what a stretch of a path can make wherever it stands. -/
inductive Component.IsStep : Component → Prop
  | parent : IsStep .parent
  | name {text : String} (h : IsName text) : IsStep (.name text)

/-- A stretch without a slash makes two dots or a name. -/
lemma isStep_of_ofStretch? {stretch : String} {c : Component} (hslash : '/' ∉ stretch.toList)
    (h : Component.ofStretch? stretch = some c) : c.IsStep := by
  unfold Component.ofStretch? at h
  split_ifs at h with hnone hparent
  · cases h
    exact .parent
  · cases h
    rw [not_or] at hnone
    exact .name ⟨hnone.1, hnone.2, hparent, hslash⟩

/-- A step is made again by its text. -/
lemma ofStretch?_text {c : Component} (h : c.IsStep) : Component.ofStretch? c.text = some c := by
  cases h with
  | parent => rfl
  | name h =>
    unfold Component.ofStretch? Component.text
    rw [if_neg (by simp [h.1, h.2.1]), if_neg h.2.2.1]

/-- The text of a step has no slash, so it cannot be cut in two. -/
lemma slash_notMem_text {c : Component} (h : c.IsStep) : '/' ∉ c.text.toList := by
  cases h with
  | parent => decide
  | name h => exact h.2.2.2

/-- The text of a step is neither empty nor `.`, so it is not left out when a path is read. -/
lemma text_ne {c : Component} (h : c.IsStep) : c.text ≠ "" ∧ c.text ≠ "." := by
  cases h with
  | parent => decide
  | name h => exact ⟨h.1, h.2.1⟩

/-- The components that the stretches of a path make. -/
def body (p : Path) : List Component :=
  p.stretches.filterMap Component.ofStretch?

/-- A path is cut at every slash. -/
lemma slash_notMem_stretch {p : Path} {stretch : String} (h : stretch ∈ p.stretches) :
    '/' ∉ stretch.toList := by
  obtain ⟨chars, hchars, rfl⟩ := List.mem_map.mp h
  rw [String.toList_ofList]
  exact Text.separator_notMem_of_mem_cut hchars

/-- What follows the first component of a path is a step each time. -/
lemma isStep_of_mem_body {p : Path} {c : Component} (h : c ∈ p.body) : c.IsStep := by
  obtain ⟨stretch, hstretch, hc⟩ := List.mem_filterMap.mp h
  exact isStep_of_ofStretch? (slash_notMem_stretch hstretch) hc

/-- An absolute path has the root before its steps. -/
lemma components_of_isAbsolute {p : Path} (h : p.isAbsolute = true) :
    p.components = .root :: p.body := by
  rw [components, if_pos h]
  rfl

/-- A relative path may have a dot before its steps. -/
lemma components_of_not_isAbsolute {p : Path} (h : p.isAbsolute = false) :
    p.components = .current :: p.body ∨ p.components = p.body := by
  rw [components, if_neg (by simp [h])]
  by_cases hdot : p.stretches.head? = some "."
  · rw [if_pos hdot]
    exact .inl rfl
  · rw [if_neg hdot]
    exact .inr rfl

/-- The steps of a path are of the kind that can be collapsed. -/
lemma steps_of_mem_body (p : Path) : ∀ c ∈ p.body, c = .current ∨ c.IsStep :=
  fun _ hc => .inr (isStep_of_mem_body hc)

/-- The components of a relative path are steps and perhaps a dot. -/
lemma steps_of_not_isAbsolute {p : Path} (h : p.isAbsolute = false) :
    ∀ c ∈ p.components, c = .current ∨ c.IsStep := by
  rcases components_of_not_isAbsolute h with heq | heq
  · rw [heq]
    exact List.forall_mem_cons.mpr ⟨.inl rfl, steps_of_mem_body p⟩
  · rw [heq]
    exact steps_of_mem_body p

/-! ### Writing components and reading them back -/

/-- Texts without slashes that are joined by slashes are cut into the same texts. -/
lemma stretches_intercalate {components : List Component} (hne : components ≠ [])
    (h : ∀ c ∈ components, '/' ∉ c.text.toList) :
    stretches ⟨"/".intercalate (components.map Component.text)⟩ =
      components.map Component.text := by
  have hslash : "/".toList = ['/'] := rfl
  rw [stretches, String.toList_intercalate, hslash, Text.cut_intercalate]
  · rw [List.map_map, List.map_map]
    exact List.map_congr_left fun c _ => String.ofList_toList
  · simpa using hne
  · intro stretch hstretch
    obtain ⟨text, htext, rfl⟩ := List.mem_map.mp hstretch
    obtain ⟨c, hc, rfl⟩ := List.mem_map.mp htext
    exact h c hc

/-- Steps are read back from their texts. -/
lemma filterMap_text {steps : List Component} (h : ∀ c ∈ steps, c.IsStep) :
    (steps.map Component.text).filterMap Component.ofStretch? = steps := by
  rw [List.filterMap_map]
  have hsome : ∀ c ∈ steps, (Component.ofStretch? ∘ Component.text) c = some c :=
    fun c hc => ofStretch?_text (h c hc)
  rw [List.filterMap_congr hsome, List.filterMap_some]

/-- A path is absolute when an empty stretch comes first and is not the only one. -/
lemma isAbsolute_iff_stretches {p : Path} :
    p.isAbsolute = true ↔ ∃ others, others ≠ [] ∧ p.stretches = "" :: others := by
  obtain ⟨text⟩ := p
  rw [isAbsolute, stretches, decide_eq_true_eq]
  cases text.toList with
  | nil => simp
  | cons x xs =>
    obtain ⟨stretch, others, hcut⟩ : ∃ stretch others, Text.cut '/' xs = stretch :: others :=
      List.exists_cons_of_ne_nil (Text.cut_ne_nil xs)
    by_cases hx : x = '/'
    · subst hx
      rw [Text.cut_separator, hcut]
      simp
    · rw [Text.cut, if_neg hx, hcut]
      simp [hx]

/-- Unless it is the root alone, a path is written with a slash between components. -/
lemma ofComponents_of_ne {components : List Component} (h : components ≠ [.root]) :
    ofComponents components = ⟨"/".intercalate (components.map Component.text)⟩ := by
  unfold ofComponents
  split
  · exact absurd rfl h
  · rfl

/-- Steps that are written as a relative path are its components. -/
lemma components_ofComponents_steps {steps : List Component} (h : ∀ c ∈ steps, c.IsStep) :
    (ofComponents steps).components = steps := by
  cases steps with
  | nil => rfl
  | cons c steps =>
    have hc : c.IsStep := h c (List.mem_cons_self ..)
    have hne : c :: steps ≠ [.root] := by
      intro heq
      obtain ⟨rfl, _⟩ := List.cons.inj heq
      cases hc
    have hstretches := stretches_intercalate (List.cons_ne_nil c steps)
      fun c hc => slash_notMem_text (h c hc)
    rw [ofComponents_of_ne hne]
    generalize (⟨"/".intercalate ((c :: steps).map Component.text)⟩ : Path) = p at hstretches
    have hrelative : p.isAbsolute = false := by
      rw [Bool.eq_false_iff]
      intro habsolute
      obtain ⟨others, _, heq⟩ := isAbsolute_iff_stretches.mp habsolute
      rw [hstretches] at heq
      exact (text_ne hc).1 (List.cons.inj heq).1
    have hdot : p.stretches.head? ≠ some "." := by
      rw [hstretches]
      exact fun heq => (text_ne hc).2 (Option.some.inj heq)
    rw [components, if_neg (by simp [hrelative]), if_neg hdot, hstretches, filterMap_text h]

/-- Steps that are written as an absolute path are its components after the root. -/
lemma components_ofComponents_root {steps : List Component} (h : ∀ c ∈ steps, c.IsStep) :
    (ofComponents (.root :: steps)).components = .root :: steps := by
  cases steps with
  | nil => rfl
  | cons c steps =>
    have hne : .root :: c :: steps ≠ [Component.root] := by
      intro heq
      cases heq
    have hstretches : stretches ⟨"/".intercalate ((.root :: c :: steps).map Component.text)⟩ =
        (.root :: c :: steps).map Component.text := by
      refine stretches_intercalate (List.cons_ne_nil _ _) (List.forall_mem_cons.mpr ⟨?_, ?_⟩)
      · decide
      · exact fun c hc => slash_notMem_text (h c hc)
    rw [ofComponents_of_ne hne]
    generalize (⟨"/".intercalate ((.root :: c :: steps).map Component.text)⟩ : Path) = p
      at hstretches
    have habsolute : p.isAbsolute = true :=
      isAbsolute_iff_stretches.mpr ⟨_, List.cons_ne_nil _ _, hstretches⟩
    rw [components_of_isAbsolute habsolute, body, hstretches, List.map_cons,
      List.filterMap_cons_none rfl, filterMap_text h]

/-! ### Collapsed components -/

/-- What is left of components after collapsing them, the last one first. -/
inductive Collapsed : List Component → Prop
  | nil : Collapsed []
  | root : Collapsed [.root]
  | parent : Collapsed [.parent]
  | rootParent : Collapsed [.parent, .root]
  | name {text : String} {before : List Component} (h : IsName text) (rest : Collapsed before) :
    Collapsed (.name text :: before)

/-- One more component leaves collapsed components; the root comes before all others. -/
lemma Collapsed.collapseOnto {before : List Component} (h : Collapsed before) {c : Component}
    (hroot : c = .root → before = []) (hname : ∀ text, c = .name text → IsName text) :
    Collapsed (Component.collapseOnto before c) := by
  cases c with
  | root =>
    rw [hroot rfl]
    exact .root
  | current => cases h <;> (unfold Component.collapseOnto; constructor <;> assumption)
  | parent =>
    cases h with
    | nil => exact .parent
    | root => exact .rootParent
    | parent => exact .nil
    | rootParent => exact .root
    | name _ rest => exact rest
  | name text =>
    have htext := hname text rfl
    cases h <;> exact .name htext (by constructor <;> assumption)

/-- Components in which the root can only come first. -/
inductive Spelled : List Component → Prop
  | relative {components : List Component} (h : ∀ c ∈ components, c = .current ∨ c.IsStep) :
    Spelled components
  | absolute {components : List Component} (h : ∀ c ∈ components, c = .current ∨ c.IsStep) :
    Spelled (.root :: components)

/-- Collapsing more components onto collapsed ones gives collapsed ones. -/
lemma collapsed_foldl {components before : List Component} (hbefore : Collapsed before)
    (h : ∀ c ∈ components, c = .current ∨ c.IsStep) :
    Collapsed (components.foldl Component.collapseOnto before) := by
  induction components generalizing before with
  | nil => exact hbefore
  | cons c components ih =>
    obtain ⟨hc, hrest⟩ := List.forall_mem_cons.mp h
    refine ih (hbefore.collapseOnto ?_ ?_) hrest
    · rintro rfl
      rcases hc with hc | hc <;> cases hc
    · rintro text rfl
      rcases hc with hc | hc
      · cases hc
      · cases hc with
        | name h => exact h

/-- Collapsing spelled components leaves collapsed ones. -/
lemma Spelled.collapsed {components : List Component} (h : Spelled components) :
    Collapsed (collapse components).reverse := by
  rw [collapse, List.reverse_reverse]
  cases h with
  | relative h => exact collapsed_foldl .nil h
  | absolute h =>
    rw [List.foldl_cons]
    exact collapsed_foldl .root h

/-- Collapsed components stay as they are. -/
lemma Collapsed.collapse_reverse {before : List Component} (h : Collapsed before) :
    collapse before.reverse = before.reverse := by
  rw [collapse]
  congr 1
  induction h with
  | nil => rfl
  | root => rfl
  | parent => rfl
  | rootParent => rfl
  | @name text before _ h ih =>
    rw [List.reverse_cons, List.foldl_append, ih]
    cases h <;> rfl

/-- Collapsed components are steps, perhaps after the root. -/
lemma Collapsed.exists_steps {before : List Component} (h : Collapsed before) :
    ∃ steps, (∀ c ∈ steps, c.IsStep) ∧
      (before.reverse = steps ∨ before.reverse = .root :: steps) := by
  induction h with
  | nil => exact ⟨[], by simp, .inl rfl⟩
  | root => exact ⟨[], by simp, .inr rfl⟩
  | parent => exact ⟨[.parent], List.forall_mem_singleton.mpr .parent, .inl rfl⟩
  | rootParent => exact ⟨[.parent], List.forall_mem_singleton.mpr .parent, .inr rfl⟩
  | @name text before h _ ih =>
    obtain ⟨steps, hsteps, heq⟩ := ih
    refine ⟨steps ++ [.name text], ?_, ?_⟩
    · exact List.forall_mem_append.mpr ⟨hsteps, List.forall_mem_singleton.mpr (.name h)⟩
    · rw [List.reverse_cons]
      exact heq.imp (fun heq => by rw [heq]) (fun heq => by rw [heq, List.cons_append])

/-- Collapsed components are written as a path and read back. -/
lemma Collapsed.components_ofComponents {before : List Component} (h : Collapsed before) :
    (ofComponents before.reverse).components = before.reverse := by
  obtain ⟨steps, hsteps, heq | heq⟩ := h.exists_steps
  · rw [heq, components_ofComponents_steps hsteps]
  · rw [heq, components_ofComponents_root hsteps]

/-! ### Normalized paths -/

/-- The path that is written with collapsed components is its own normal form, and those are its
components. -/
lemma Spelled.normalize_ofComponents {components : List Component} (h : Spelled components) :
    (ofComponents (collapse components)).components = collapse components ∧
      (ofComponents (collapse components)).normalize = ofComponents (collapse components) := by
  have hcollapsed := h.collapsed
  have hcomponents := hcollapsed.components_ofComponents
  have hcollapse := hcollapsed.collapse_reverse
  rw [List.reverse_reverse] at hcomponents hcollapse
  refine ⟨hcomponents, ?_⟩
  rw [normalize, hcomponents, hcollapse]

/-- Among the components of a path the root can only come first. -/
lemma spelled_components (p : Path) : Spelled p.components := by
  cases habsolute : p.isAbsolute with
  | true =>
    rw [components_of_isAbsolute habsolute]
    exact .absolute (steps_of_mem_body p)
  | false => exact .relative (steps_of_not_isAbsolute habsolute)

/-- Components with a relative target after them instead of the last one. -/
lemma Spelled.dropLast_append {components : List Component} (h : Spelled components)
    {target : Path} (htarget : target.isAbsolute = false) :
    Spelled (components.dropLast ++ target.components) := by
  have hsteps := steps_of_not_isAbsolute htarget
  cases h with
  | relative h =>
    refine .relative (List.forall_mem_append.mpr ⟨fun c hc => ?_, hsteps⟩)
    exact h c (List.dropLast_subset _ hc)
  | @absolute steps h =>
    cases steps with
    | nil => exact .relative hsteps
    | cons c steps =>
      refine .absolute (List.forall_mem_append.mpr ⟨fun c hc => ?_, hsteps⟩)
      exact h c (List.dropLast_subset _ hc)

/-- Where an include leads is written with the collapse of spelled components. -/
lemma exists_spelled_locate (origin target : Path) :
    ∃ components, Spelled components ∧
      origin.locate target = ofComponents (collapse components) := by
  unfold locate
  cases htarget : target.isAbsolute with
  | true => exact ⟨_, spelled_components target, rfl⟩
  | false => exact ⟨_, (spelled_components origin).dropLast_append htarget, rfl⟩

/-- The path that an include leads to is its own normal form. -/
theorem normalize_locate (origin target : Path) :
    (origin.locate target).normalize = origin.locate target := by
  obtain ⟨components, hspelled, heq⟩ := exists_spelled_locate origin target
  rw [heq]
  exact hspelled.normalize_ofComponents.2

/-- A path that is its own normal form has collapsed components. -/
lemma collapse_components {p : Path} (h : p.normalize = p) :
    collapse p.components = p.components := by
  have hcomponents := (spelled_components p).normalize_ofComponents.1
  rw [← normalize, h] at hcomponents
  exact hcomponents.symm

/-- Paths with the same components have the same normal form. -/
lemma normalize_eq_of_sameAs {p q : Path} (h : p.sameAs q = true) : p.normalize = q.normalize := by
  rw [normalize, normalize, sameAs_iff.mp h]

/-! ### Absolute forms -/

/-- A path is absolute when its text begins with a slash. -/
lemma isAbsolute_iff_cons {p : Path} :
    p.isAbsolute = true ↔ ∃ rest, p.text.toList = '/' :: rest := by
  rw [isAbsolute, decide_eq_true_eq, List.head?_eq_some_iff]

/-- Appending to an absolute path leaves it absolute. -/
lemma isAbsolute_append {p : Path} (h : p.isAbsolute = true) (stretch : String) :
    (p.append stretch).isAbsolute = true := by
  obtain ⟨rest, hrest⟩ := isAbsolute_iff_cons.mp h
  rw [isAbsolute_iff_cons, append]
  split_ifs
  · exact ⟨rest ++ stretch.toList, by rw [String.toList_append, hrest, List.cons_append]⟩
  · exact ⟨rest ++ "/".toList ++ stretch.toList, by
      rw [String.toList_append, String.toList_append, hrest, List.cons_append, List.cons_append]⟩

/-- The absolute form of a path is absolute when the working directory is. -/
lemma isAbsolute_of_absolute? {p q workingDirectory : Path}
    (hworking : workingDirectory.isAbsolute = true) (h : p.absolute? workingDirectory = some q) :
    q.isAbsolute = true := by
  have hanchor : (p.anchor workingDirectory).isAbsolute = true := by
    unfold anchor
    split_ifs
    · exact hworking
    · decide
    · decide
  have hfold (stretches : List String) {start : Path} (hstart : start.isAbsolute = true) :
      (stretches.foldl append start).isAbsolute = true := by
    induction stretches generalizing start with
    | nil => exact hstart
    | cons stretch stretches ih => exact ih (isAbsolute_append hstart stretch)
  unfold absolute? at h
  split_ifs at h with hempty hslash
  · obtain rfl := Option.some.inj h
    exact isAbsolute_append (hfold _ hanchor) ""
  · obtain rfl := Option.some.inj h
    exact hfold _ hanchor

end Path

end UvaAnalysis
