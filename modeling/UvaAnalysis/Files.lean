import UvaAnalysis.Path

/-!
# Files

A snapshot of the files that an analysis can see.  Every file and directory has a place, the list of
names that leads to it from the root, and a path is followed stretch by stretch: a name descends
into the current directory, `..` ascends, and a dot or an empty stretch stays but still insists on
a directory.  So `a/../b` is found only if `a` is there, and a slash after the name of a file leads
nowhere.
-/

namespace UvaAnalysis

/-- Why a file could not be read. -/
inductive FileError where
  | notFound
  | notADirectory
  | isADirectory
  /-- An offset that no file can have. -/
  | invalidOffset
  | nameTooLong
  /-- A path that holds a NUL character. -/
  | nulInPath
  /-- An offset at or past the end of a file. -/
  | pastEndOfFile
  /-- An offset at or past the end of the buffer that stands in for a file. -/
  | pastEndOfBuffer
  /-- The empty path where an absolute one is needed. -/
  | emptyPath
  deriving DecidableEq, Repr

/-- The words for a file error. -/
def FileError.message : FileError → String
  | .notFound => "No such file or directory (os error 2)"
  | .notADirectory => "Not a directory (os error 20)"
  | .isADirectory => "Is a directory (os error 21)"
  | .invalidOffset => "Invalid argument (os error 22)"
  | .nameTooLong => "File name too long (os error 36)"
  | .nulInPath => "file name contained an unexpected NUL byte"
  | .pastEndOfFile => "failed to fill whole buffer"
  | .pastEndOfBuffer => "offset past end of buffer"
  | .emptyPath => "cannot make an empty path absolute"

/-- What is found at a place. -/
inductive Entry where
  | file (content : List UInt8)
  | directory
  deriving DecidableEq, Repr

/-- The names that lead from the root to a file or directory. -/
abbrev Place := List String

/-- A snapshot of files and directories, and the directory that relative paths start from. -/
structure Files where
  workingPlace : Place
  entries : List (Place × Entry)
  deriving Repr

namespace Files

/-- What is found at a place; the root is always a directory. -/
def entryAt? (files : Files) (place : Place) : Option Entry :=
  if place = [] then some .directory else files.entries.lookup place

/-- The longest name, and the longest path, in bytes. -/
def nameLimit : Nat := 255

@[inherit_doc nameLimit]
def pathLimit : Nat := 4095

/-- Follow one stretch of a path from a place and what is found there. -/
def follow (files : Files) (here : Place × Entry) (stretch : String) :
    Except FileError (Place × Entry) :=
  match here with
  | (_, .file _) => .error .notADirectory
  | (place, .directory) =>
    if stretch = "" ∨ stretch = "." then .ok (place, .directory)
    else if stretch = ".." then .ok (place.dropLast, .directory)
    else if nameLimit < stretch.utf8ByteSize then .error .nameTooLong
    else
      match files.entryAt? (place ++ [stretch]) with
      | some entry => .ok (place ++ [stretch], entry)
      | none => .error .notFound

/-- The place that a path names, and what is found there. -/
def find (files : Files) (path : Path) : Except FileError (Place × Entry) :=
  if '\x00' ∈ path.text.toList then .error .nulInPath
  else if path.text = "" then .error .notFound
  else if pathLimit < path.text.utf8ByteSize then .error .nameTooLong
  else
    let place := if path.isAbsolute then [] else files.workingPlace
    path.stretches.foldlM files.follow (place, .directory)

/-- The content of a file. -/
def read (files : Files) (path : Path) : Except FileError (List UInt8) :=
  match files.find path with
  | .ok (_, .file content) => .ok content
  | .ok (_, .directory) => .error .isADirectory
  | .error e => .error e

/-- No file has bytes at offsets from here on, and asking for one is a different mistake from asking
for a byte past the end. -/
def offsetLimit : Nat := 0x8000000000000000

/-- One byte of a file. -/
def readByte (files : Files) (path : Path) (offset : Nat) : Except FileError UInt8 :=
  match files.find path with
  | .error e => .error e
  | .ok (_, .directory) =>
    .error (if offsetLimit ≤ offset then .invalidOffset else .isADirectory)
  | .ok (_, .file content) =>
    match content[offset]? with
    | some byte => .ok byte
    | none => .error (if offsetLimit ≤ offset then .invalidOffset else .pastEndOfFile)

/-- The working directory as a path. -/
def workingDirectory (files : Files) : Path :=
  Path.ofComponents (.root :: files.workingPlace.map .name)

/-! ### Changing the snapshot -/

/-- The place that a path names when each `..` takes back the name before it. -/
def placeOf (files : Files) (path : Path) : Place :=
  let start := if path.isAbsolute then [] else files.workingPlace
  path.stretches.foldl
    (fun place stretch =>
      if stretch = "" ∨ stretch = "." then place
      else if stretch = ".." then place.dropLast
      else place ++ [stretch])
    start

/-- Put an entry at a place, instead of what may be there. -/
def put (files : Files) (place : Place) (entry : Entry) : Files :=
  { files with entries := (place, entry) :: files.entries.filter (·.1 ≠ place) }

/-- Make sure of directories at a place and at all places that lead to it. -/
def makeDirectories (files : Files) (place : Place) : Files :=
  (List.range (place.length + 1)).foldl
    (fun files depth => files.put (place.take depth) .directory) files

/-- Create or replace a file, with the directories that lead to it. -/
def writeFile (files : Files) (path : Path) (content : List UInt8) : Files :=
  let place := files.placeOf path
  (files.makeDirectories place.dropLast).put place (.file content)

/-- Create a directory, with the directories that lead to it. -/
def createDirectory (files : Files) (path : Path) : Files :=
  files.makeDirectories (files.placeOf path)

/-- Take away what is at the place that a path names. -/
def remove (files : Files) (path : Path) : Files :=
  { files with entries := files.entries.filter (·.1 ≠ files.placeOf path) }

/-- The snapshot that holds nothing but the working directory and the directories that lead to
it. -/
def empty (workingPlace : Place) : Files :=
  makeDirectories ⟨workingPlace, []⟩ workingPlace

/-- What was put at a place is found there. -/
theorem entryAt?_put_self {files : Files} {place : Place} (h : place ≠ []) (entry : Entry) :
    (files.put place entry).entryAt? place = some entry := by
  simp [entryAt?, put, h]

/-- Putting an entry at one place changes no other place. -/
theorem entryAt?_put_of_ne {files : Files} {place other : Place} (h : other ≠ place)
    (entry : Entry) : (files.put place entry).entryAt? other = files.entryAt? other := by
  have hbeq : (other == place) = false := by simpa using h
  have key : ∀ entries : List (Place × Entry),
      (entries.filter (·.1 ≠ place)).lookup other = entries.lookup other := by
    intro entries
    induction entries with
    | nil => rfl
    | cons e entries ih =>
      obtain ⟨p, v⟩ := e
      by_cases hp : p = place
      · subst hp
        simpa [List.lookup_cons, hbeq] using ih
      · by_cases ho : other = p
        · subst ho
          simp [hp]
        · have : (other == p) = false := by simpa using ho
          simpa [hp, List.lookup_cons, this] using ih
  by_cases h0 : other = []
  · simp [entryAt?, h0]
  · simp only [entryAt?, h0, if_false, put, List.lookup_cons, hbeq]
    exact key files.entries

end Files

end UvaAnalysis
