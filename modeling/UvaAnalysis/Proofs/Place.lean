import UvaAnalysis.Files
import UvaAnalysis.Proofs.Path

/-!
# Where absolute paths lead

Without links, the place that an absolute path leads to can be told from the path: it is the list of
names that collapsing leaves (`Files.leads_of_find`).  But two normalized paths lead to each place,
since `..` right after the root is kept and stays at the root.  Each is the twin of the other
(`Files.eq_normalize_or_twin`).
-/

namespace UvaAnalysis

namespace Path

/-! ### Collapsed components and places -/

/-- Collapsed components of an absolute path, the last one first, and the place that their names
lead to. -/
inductive Leads : List Component → Place → Prop
  | root : Leads [.root] []
  | rootParent : Leads [.parent, .root] []
  | name {text : String} {before : List Component} {place : Place} (rest : Leads before place) :
    Leads (.name text :: before) (place ++ [text])

/-- Two dots lead to the directory that a place is in. -/
lemma Leads.parent {before : List Component} {place : Place} (h : Leads before place) :
    Leads (Component.collapseOnto before .parent) place.dropLast := by
  cases h with
  | root => exact .rootParent
  | rootParent => exact .root
  | name rest =>
    rw [List.dropLast_concat]
    exact rest

/-- A name leads one place further. -/
lemma Leads.descend {before : List Component} {place : Place} (h : Leads before place)
    (text : String) : Leads (Component.collapseOnto before (.name text)) (place ++ [text]) := by
  cases h with
  | root => exact .name .root
  | rootParent => exact .name .rootParent
  | name rest => exact .name (.name rest)

/-- There are two ways to lead to a place. -/
lemma Leads.reverse_eq {before : List Component} {place : Place} (h : Leads before place) :
    before.reverse = .root :: place.map .name ∨
      before.reverse = .root :: .parent :: place.map .name := by
  induction h with
  | root => exact .inl rfl
  | rootParent => exact .inr rfl
  | @name text before place _ ih =>
    rw [List.reverse_cons, List.map_append]
    exact ih.imp (fun heq => by rw [heq]; rfl) (fun heq => by rw [heq]; rfl)

/-- Whatever steps follow the root, they lead somewhere. -/
lemma exists_leads {steps : List Component} (h : ∀ c ∈ steps, c = .current ∨ c.IsStep) :
    ∃ place, Leads (collapse (.root :: steps)).reverse place := by
  have hfold {before : List Component} {place : Place} (hbefore : Leads before place) :
      ∃ place, Leads (steps.foldl Component.collapseOnto before) place := by
    induction steps generalizing before place with
    | nil => exact ⟨place, hbefore⟩
    | cons c steps ih =>
      obtain ⟨hc, hrest⟩ := List.forall_mem_cons.mp h
      rw [List.foldl_cons]
      rcases hc with rfl | hc
      · have hcurrent : Component.collapseOnto before .current = before := by
          unfold Component.collapseOnto
          rfl
        rw [hcurrent]
        exact ih hrest hbefore
      · cases hc with
        | parent => exact ih hrest hbefore.parent
        | @name text _ => exact ih hrest (hbefore.descend text)
  rw [collapse, List.reverse_reverse, List.foldl_cons]
  exact hfold .root

/-- Collapsing keeps the root. -/
lemma exists_collapse_eq_root_cons {steps : List Component}
    (h : ∀ c ∈ steps, c = .current ∨ c.IsStep) :
    ∃ rest, collapse (.root :: steps) = .root :: rest := by
  obtain ⟨place, hleads⟩ := exists_leads h
  have hreverse := hleads.reverse_eq
  rw [List.reverse_reverse] at hreverse
  rcases hreverse with heq | heq
  · exact ⟨_, heq⟩
  · exact ⟨_, heq⟩

/-- The other collapsed components that lead to the same place. -/
def Component.twin : List Component → List Component
  | .root :: .parent :: names => .root :: names
  | .root :: names => .root :: .parent :: names
  | components => components

/-- The twin of the root and names has `..` between them. -/
lemma twin_root_names (place : Place) :
    Component.twin (.root :: place.map .name) = .root :: .parent :: place.map .name := by
  cases place <;> rfl

/-- Collapsed components that lead to the same place are equal or twins. -/
lemma Leads.eq_or_twin {before other : List Component} {place : Place} (h : Leads before place)
    (hother : Leads other place) :
    other.reverse = before.reverse ∨ other.reverse = Component.twin before.reverse := by
  rcases h.reverse_eq with heq | heq <;> rcases hother.reverse_eq with heq' | heq'
  · exact .inl (heq'.trans heq.symm)
  · rw [heq, heq', twin_root_names]
    exact .inr rfl
  · rw [heq, heq']
    exact .inr rfl
  · exact .inl (heq'.trans heq.symm)

/-- The other normalized path that leads where a path leads, with `..` right after the root where
the normal form has none, and without it where it has one. -/
def twin (p : Path) : Path :=
  ofComponents (Component.twin (collapse p.components))

/-- A path whose first component is the root is absolute. -/
lemma isAbsolute_of_components {p : Path} {steps : List Component}
    (h : p.components = .root :: steps) : p.isAbsolute = true := by
  by_contra hrelative
  rw [Bool.not_eq_true] at hrelative
  rcases components_of_not_isAbsolute hrelative with heq | heq
  · rw [h] at heq
    cases heq
  · rw [h] at heq
    have hroot := isStep_of_mem_body (heq ▸ List.mem_cons_self ..)
    cases hroot

/-- Twins lead to one place. -/
lemma Leads.eq_of_twin {before other : List Component} {place place' : Place}
    (h : Leads before place) (hother : Leads other place')
    (heq : other.reverse = Component.twin before.reverse) : place' = place := by
  have hinjective : Function.Injective (List.map Component.name) :=
    List.map_injective_iff.mpr fun _ _ => Component.name.inj
  have hparent (names others : Place) : .parent :: names.map Component.name ≠
      others.map Component.name := by
    cases others with
    | nil => exact List.cons_ne_nil _ _
    | cons other others =>
      intro hcons
      cases (List.cons.inj hcons).1
  rcases h.reverse_eq with hbefore | hbefore <;> rcases hother.reverse_eq with hafter | hafter
  · rw [hbefore, hafter, twin_root_names] at heq
    exact absurd (List.cons.inj heq).2.symm (hparent _ _)
  · rw [hbefore, hafter, twin_root_names] at heq
    exact hinjective (List.cons.inj (List.cons.inj heq).2).2
  · rw [hbefore, hafter] at heq
    exact hinjective (List.cons.inj heq).2
  · rw [hbefore, hafter] at heq
    exact absurd (List.cons.inj heq).2 (hparent _ _)

/-- The twin of an absolute path is written with its components. -/
lemma components_twin {p : Path} (h : p.isAbsolute = true) :
    p.twin.components = Component.twin (collapse p.components) ∧ p.twin.isAbsolute = true := by
  have hwritten {steps : List Component} (hsteps : ∀ c ∈ steps, c.IsStep)
      (htwin : Component.twin (collapse p.components) = .root :: steps) :
      p.twin.components = Component.twin (collapse p.components) ∧ p.twin.isAbsolute = true := by
    have hcomponents := components_ofComponents_root hsteps
    rw [twin, htwin]
    exact ⟨hcomponents, isAbsolute_of_components hcomponents⟩
  obtain ⟨rest, hrest⟩ := exists_collapse_eq_root_cons (steps_of_mem_body p)
  rw [← components_of_isAbsolute h] at hrest
  obtain ⟨steps, hsteps, heq⟩ := (spelled_components p).collapsed.exists_steps
  rw [List.reverse_reverse] at heq
  -- The path is absolute, so the root comes first and nowhere else.
  have hroot : collapse p.components = .root :: steps := by
    rcases heq with heq | heq
    · have hmem : Component.root ∈ steps := by
        rw [← heq, hrest]
        exact List.mem_cons_self ..
      cases hsteps _ hmem
    · exact heq
  rw [hroot] at hwritten ⊢
  cases steps with
  | nil => exact hwritten (List.forall_mem_singleton.mpr .parent) rfl
  | cons c steps =>
    have hc := hsteps c (List.mem_cons_self ..)
    cases hc with
    | parent => exact hwritten (fun c hc => hsteps c (List.mem_cons_of_mem _ hc)) rfl
    | name _ => exact hwritten (List.forall_mem_cons.mpr ⟨.parent, hsteps⟩) rfl

/-- An include in a file leads to an absolute path when the file has one. -/
lemma isAbsolute_locate {origin : Path} (h : origin.isAbsolute = true) (hbody : origin.body ≠ [])
    (target : Path) : (origin.locate target).isAbsolute = true := by
  have habsolute {steps : List Component} (hsteps : ∀ c ∈ steps, c = .current ∨ c.IsStep) :
      (ofComponents (collapse (.root :: steps))).isAbsolute = true := by
    obtain ⟨rest, hrest⟩ := exists_collapse_eq_root_cons hsteps
    have hcomponents := (Spelled.absolute hsteps).normalize_ofComponents.1
    exact isAbsolute_of_components (hcomponents.trans hrest)
  unfold locate
  cases htarget : target.isAbsolute with
  | true =>
    rw [if_pos rfl, normalize, components_of_isAbsolute htarget]
    exact habsolute (steps_of_mem_body target)
  | false =>
    rw [if_neg Bool.false_ne_true, components_of_isAbsolute h, List.dropLast_cons_of_ne_nil hbody,
      List.cons_append]
    refine habsolute (List.forall_mem_append.mpr ⟨fun c hc => ?_, ?_⟩)
    · exact steps_of_mem_body origin c (List.dropLast_subset _ hc)
    · exact steps_of_not_isAbsolute htarget

end Path

namespace Files

open UvaAnalysis.Path (Leads Component)

variable {files : Files}

/-! ### Following a path -/

/-- From a directory a stretch stays, ascends or looks up a name. -/
lemma follow_directory (place : Place) (stretch : String) :
    files.follow (place, .directory) stretch =
      if stretch = "" ∨ stretch = "." then .ok (place, .directory)
      else if stretch = ".." then .ok (place.dropLast, .directory)
      else if nameLimit < stretch.utf8ByteSize then .error .nameTooLong
      else
        match files.entryAt? (place ++ [stretch]) with
        | some entry => .ok (place ++ [stretch], entry)
        | none => .error .notFound := rfl

/-- What one stretch can do: stay in a directory, ascend from it or descend into it. -/
lemma of_follow {here there : Place × Entry} {stretch : String}
    (h : files.follow here stretch = .ok there) :
    (Component.ofStretch? stretch = none ∧ there = (here.1, .directory)) ∨
      (Component.ofStretch? stretch = some .parent ∧ there = (here.1.dropLast, .directory)) ∨
      (Component.ofStretch? stretch = some (.name stretch) ∧ there.1 = here.1 ++ [stretch] ∧
        files.entryAt? there.1 = some there.2) := by
  obtain ⟨place, entry⟩ := here
  cases entry with
  | file content => cases h
  | directory =>
    rw [follow_directory] at h
    unfold Component.ofStretch?
    split_ifs at h ⊢ with hdot hparent hlong
    · obtain rfl := Except.ok.inj h
      exact .inl ⟨rfl, rfl⟩
    · obtain rfl := Except.ok.inj h
      exact .inr (.inl ⟨rfl, rfl⟩)
    · cases hentry : files.entryAt? (place ++ [stretch]) with
      | none => simp [hentry] at h
      | some entry =>
        simp only [hentry, Except.ok.injEq] at h
        obtain rfl := h
        exact .inr (.inr ⟨rfl, rfl, hentry⟩)

/-- Following several stretches is following the first and then the others. -/
lemma exists_of_foldlM_cons {stretch : String} {stretches : List String}
    {here there : Place × Entry} (h : (stretch :: stretches).foldlM files.follow here = .ok there) :
    ∃ next, files.follow here stretch = .ok next ∧
      stretches.foldlM files.follow next = .ok there := by
  rw [List.foldlM_cons] at h
  cases hfollow : files.follow here stretch with
  | error e =>
    rw [hfollow] at h
    cases h
  | ok next =>
    rw [hfollow] at h
    exact ⟨next, rfl, h⟩

/-- Following stretches leads where collapsing their components leads. -/
lemma leads_of_foldlM {stretches : List String} {here there : Place × Entry}
    {before : List Component} (hleads : Leads before here.1)
    (h : stretches.foldlM files.follow here = .ok there) :
    Leads ((stretches.filterMap Component.ofStretch?).foldl Component.collapseOnto before)
      there.1 := by
  induction stretches generalizing here before with
  | nil =>
    obtain rfl := Except.ok.inj h
    exact hleads
  | cons stretch stretches ih =>
    obtain ⟨next, hfollow, hrest⟩ := exists_of_foldlM_cons h
    rcases of_follow hfollow with ⟨hstretch, rfl⟩ | ⟨hstretch, rfl⟩ | ⟨hstretch, hnext, _⟩
    · rw [List.filterMap_cons_none hstretch]
      refine ih ?_ hrest
      exact hleads
    · rw [List.filterMap_cons_some hstretch]
      refine ih ?_ hrest
      exact hleads.parent
    · rw [List.filterMap_cons_some hstretch]
      refine ih ?_ hrest
      rw [hnext]
      exact hleads.descend stretch

/-- What is found by a path is found by following its stretches. -/
lemma foldlM_of_find {path : Path} {there : Place × Entry} (h : files.find path = .ok there) :
    path.stretches.foldlM files.follow
      (if path.isAbsolute then [] else files.workingPlace, .directory) = .ok there := by
  unfold find at h
  split_ifs at h ⊢ <;> exact h

/-- An absolute path leads to the names that collapsing it leaves. -/
theorem leads_of_find {path : Path} (habsolute : path.isAbsolute = true) {there : Place × Entry}
    (h : files.find path = .ok there) : Leads (Path.collapse path.components).reverse there.1 := by
  have hfold := foldlM_of_find h
  rw [if_pos habsolute] at hfold
  have hstart : Leads [.root] (([], .directory) : Place × Entry).1 := .root
  rw [Path.collapse, List.reverse_reverse, Path.components_of_isAbsolute habsolute, List.foldl_cons]
  exact leads_of_foldlM hstart hfold

/-- A normalized path that leads where another path leads is the normal form of that or its twin. -/
theorem eq_normalize_or_twin {path other : Path} (habsolute : path.isAbsolute = true)
    (hother : other.isAbsolute = true) (hnormal : other.normalize = other) {place : Place}
    {entry entry' : Entry} (h : files.find path = .ok (place, entry))
    (h' : files.find other = .ok (place, entry')) :
    other = path.normalize ∨ other = path.twin := by
  have hplace : Leads (Path.collapse path.components).reverse place := leads_of_find habsolute h
  have hleads := hplace.eq_or_twin (leads_of_find hother h')
  rw [List.reverse_reverse, List.reverse_reverse] at hleads
  rw [Path.normalize] at hnormal
  rcases hleads with heq | heq
  · rw [heq] at hnormal
    exact .inl hnormal.symm
  · rw [heq] at hnormal
    exact .inr hnormal.symm

/-- The twin of a path leads where the path leads. -/
theorem place_eq_of_find_twin {path : Path} (habsolute : path.isAbsolute = true)
    (hnormal : path.twin.normalize = path.twin) {place place' : Place} {entry entry' : Entry}
    (h : files.find path = .ok (place, entry)) (h' : files.find path.twin = .ok (place', entry')) :
    place' = place := by
  obtain ⟨hcomponents, htwin⟩ := Path.components_twin habsolute
  have hplace : Leads (Path.collapse path.components).reverse place := leads_of_find habsolute h
  have hplace' : Leads (Path.collapse path.twin.components).reverse place' := leads_of_find htwin h'
  refine hplace.eq_of_twin hplace' ?_
  rw [List.reverse_reverse, List.reverse_reverse, Path.collapse_components hnormal, hcomponents]

/-! ### Finding files -/

/-- The working directory has an absolute path. -/
lemma isAbsolute_workingDirectory (files : Files) :
    files.workingDirectory.isAbsolute = true := by
  rw [workingDirectory]
  cases files.workingPlace with
  | nil => decide
  | cons name names =>
    have hne : .root :: (name :: names).map Path.Component.name ≠ [Path.Component.root] := by
      intro heq
      cases heq
    rw [Path.ofComponents_of_ne hne, Path.isAbsolute_iff_cons, String.toList_intercalate]
    exact ⟨_, rfl⟩

/-- What is found to be a file is stored as one, below the root. -/
lemma entryAt?_of_foldlM {stretches : List String} {here there : Place × Entry}
    (hhere : here.2 = .directory ∨ here.1 ≠ [] ∧ files.entryAt? here.1 = some here.2)
    (h : stretches.foldlM files.follow here = .ok there) :
    there.2 = .directory ∨ there.1 ≠ [] ∧ files.entryAt? there.1 = some there.2 := by
  induction stretches generalizing here with
  | nil =>
    obtain rfl := Except.ok.inj h
    exact hhere
  | cons stretch stretches ih =>
    obtain ⟨next, hfollow, hrest⟩ := exists_of_foldlM_cons h
    refine ih ?_ hrest
    rcases of_follow hfollow with ⟨_, rfl⟩ | ⟨_, rfl⟩ | ⟨_, hnext, hentry⟩
    · exact .inl rfl
    · exact .inl rfl
    · exact .inr ⟨by simp [hnext], hentry⟩

/-- A file that is found is stored at its place, which is not the root. -/
theorem entryAt?_of_find {path : Path} {place : Place} {content : List UInt8}
    (h : files.find path = .ok (place, .file content)) :
    place ≠ [] ∧ files.entryAt? place = some (.file content) := by
  rcases entryAt?_of_foldlM (.inl rfl) (foldlM_of_find h) with hdirectory | hfile
  · cases hdirectory
  · exact hfile

/-- An absolute path that leads to a file has a component after the root. -/
lemma body_ne_nil_of_find {path : Path} (habsolute : path.isAbsolute = true) {place : Place}
    {content : List UInt8} (h : files.find path = .ok (place, .file content)) :
    path.body ≠ [] := by
  intro hbody
  have hleads := leads_of_find habsolute h
  rw [Path.components_of_isAbsolute habsolute, hbody] at hleads
  have hplace : place = [] := by
    have hroot : (Path.collapse [.root]).reverse = [Component.root] := rfl
    rw [hroot] at hleads
    cases hleads
    rfl
  exact (entryAt?_of_find h).1 hplace

/-- A file that is found is read with its content. -/
lemma read_of_find {path : Path} {place : Place} {content : List UInt8}
    (h : files.find path = .ok (place, .file content)) : files.read path = .ok content := by
  rw [read, h]

/-- Only a file that is found can be read. -/
lemma exists_find_of_read {path : Path} {content : List UInt8}
    (h : files.read path = .ok content) :
    ∃ place, files.find path = .ok (place, .file content) := by
  rw [read] at h
  split at h
  · rename_i place stored hfind
    obtain rfl := Except.ok.inj h
    exact ⟨place, hfind⟩
  · cases h
  · cases h

end Files

end UvaAnalysis
