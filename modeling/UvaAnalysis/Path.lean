import UvaAnalysis.Text.Cut

/-!
# Paths

A path is a text, and it is shown as it was written.  What it names is decided by its components:
the root, names, `..` for the parent, and a `.` that stands at its very beginning.  Repeated
slashes, a slash at the end and every other `.` make no component, so paths that differ in these
alone are the same path.

Two operations change how a path is written, and neither asks a file system.  `normalize` lets each
`..` take back the component before it, whatever that is, save the root; a `..` with nothing to take
back stays.  `absolute?` puts the working directory before a relative path and cleans up slashes and
dots, but leaves every `..` alone.
-/

namespace UvaAnalysis

/-- A path, as the text it is written in. -/
structure Path where
  text : String
  deriving DecidableEq, Repr, Inhabited

namespace Path

/-- A component of a path. -/
inductive Component where
  /-- The slash at the beginning of an absolute path. -/
  | root
  /-- A dot at the beginning of a relative path. -/
  | current
  /-- Two dots: the parent directory. -/
  | parent
  /-- The name of a file or directory. -/
  | name (text : String)
  deriving DecidableEq, Repr

/-- A component as it is written; the root is the slash before the next component. -/
def Component.text : Component → String
  | .root => ""
  | .current => "."
  | .parent => ".."
  | .name text => text

/-- The stretches of a path between its slashes. -/
def stretches (p : Path) : List String :=
  (Text.cut '/' p.text.toList).map String.ofList

/-- A path that begins with a slash. -/
def isAbsolute (p : Path) : Bool :=
  p.text.toList.head? = some '/'

/-- The component that a stretch makes wherever it stands: none when it is empty or a dot. -/
def Component.ofStretch? (stretch : String) : Option Component :=
  if stretch = "" ∨ stretch = "." then none
  else if stretch = ".." then some .parent
  else some (.name stretch)

/-- The components of a path. -/
def components (p : Path) : List Component :=
  let body := p.stretches.filterMap Component.ofStretch?
  if p.isAbsolute then .root :: body
  else if p.stretches.head? = some "." then .current :: body
  else body

/-- Whether two paths have the same components. -/
def sameAs (p q : Path) : Bool :=
  p.components = q.components

/-- The path written with given components and one slash between them. -/
def ofComponents : List Component → Path
  | [.root] => ⟨"/"⟩
  | components => ⟨"/".intercalate (components.map Component.text)⟩

/-- Put a component on top of those that stand before it, the last one first: a dot adds nothing,
and two dots take back the last component unless that is the root. -/
def Component.collapseOnto : List Component → Component → List Component
  | before, .current => before
  | [], .parent => [.parent]
  | .root :: before, .parent => .parent :: .root :: before
  | _ :: before, .parent => before
  | before, component => component :: before

/-- The components that remain when every dot is dropped and every two dots take back what stands
before them. -/
def collapse (components : List Component) : List Component :=
  (components.foldl Component.collapseOnto []).reverse

/-- The path without dots, and with two dots only where nothing stands before them to take back. -/
def normalize (p : Path) : Path :=
  ofComponents (collapse p.components)

/-- The normalized path that `target` names for a reader of the file `origin`: a relative target
starts from the directory of that file. -/
def locate (origin target : Path) : Path :=
  if target.isAbsolute then target.normalize
  else ofComponents (collapse (origin.components.dropLast ++ target.components))

/-- Add a stretch at the end of a path, after a slash where the path does not end in one. -/
def append (p : Path) (stretch : String) : Path :=
  if p.text = "" ∨ p.text.toList.getLast? = some '/' then ⟨p.text ++ stretch⟩
  else ⟨p.text ++ "/" ++ stretch⟩

/-- A path that begins with two slashes, and not with three. -/
def beginsWithTwoSlashes (p : Path) : Bool :=
  match p.text.toList with
  | '/' :: '/' :: '/' :: _ => false
  | '/' :: '/' :: _ => true
  | _ => false

/-- Where the absolute form of a path starts.  Two slashes at the beginning are kept, since systems
may give them a meaning of their own; more than two mean one. -/
def anchor (p workingDirectory : Path) : Path :=
  if !p.isAbsolute then workingDirectory
  else if p.beginsWithTwoSlashes then ⟨"//"⟩
  else ⟨"/"⟩

/-- The absolute form of a path: without dots and repeated slashes, with every `..` as it stands,
and with a slash at the end where the path has one.  The empty path has none. -/
def absolute? (p workingDirectory : Path) : Option Path :=
  if p.text = "" then none
  else
    let body := (p.stretches.filterMap Component.ofStretch?).map Component.text
    let path := body.foldl append (p.anchor workingDirectory)
    some (if p.text.toList.getLast? = some '/' then path.append "" else path)

/-- Paths are compared by component, so the way they are written does not matter. -/
theorem sameAs_iff {p q : Path} : p.sameAs q ↔ p.components = q.components := by
  simp [sameAs]

/-- A path is the same as itself. -/
@[simp] theorem sameAs_refl (p : Path) : p.sameAs p := by
  simp [sameAs]

end Path

end UvaAnalysis
