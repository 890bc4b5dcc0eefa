import UvaAnalysis.Files
import UvaAnalysis.Text.Quoted
import UvaAnalysis.Token.Basic

/-!
# Faults

What can be wrong with a source.  A fault is no failure: reading a source always gives something,
namely all that could be made of the source around the fault, and the two travel together as a
`Salvage`.

Each kind of fault is a constructor that holds what the fault is about, and `Fault.message` holds
all the wording.
-/

namespace UvaAnalysis

/-- What the bytes of a source can have wrong with them where a token should begin. -/
inductive LexicalError where
  | unterminatedComment
  | unterminatedString
  | namelessDirective
  | unexpectedCharacter (c : Char)
  deriving DecidableEq, Repr

/-- The words for a lexical error. -/
def LexicalError.message : LexicalError → String
  | .unterminatedComment => "unterminated block comment"
  | .unterminatedString => "unterminated string literal"
  | .namelessDirective => "expected directive name after '#'"
  | .unexpectedCharacter c => "unexpected character " ++ Text.quoted c

/-- What the grammar asks for at some point. -/
inductive Expected where
  | statement
  | expression
  | className
  | baseClassName
  | functionName
  | parameterName
  | variableName
  | memberName
  /-- One of these texts. -/
  | words (texts : List String)
  deriving DecidableEq, Repr

/-- The words for what the grammar asks for. -/
def Expected.text : Expected → String
  | .statement => "statement"
  | .expression => "expression"
  | .className => "class name"
  | .baseClassName => "base class name"
  | .functionName => "function name"
  | .parameterName => "parameter name"
  | .variableName => "variable name"
  | .memberName => "member name"
  | .words texts => "'" ++ "' or '".intercalate texts ++ "'"

/-- The most statements and expressions that may be open at once. -/
def nestingLimit : Nat := 128

/-- The most includes that may be open at once. -/
def includeLimit : Nat := 32

/-- What can be wrong with a source. -/
inductive Fault where
  /-- The bytes at a position begin no token. -/
  | lexical (file : Path) (position : Position) (cause : LexicalError)
  /-- A token stands where the grammar asks for something else. -/
  | unexpected (expected : Expected) (found : Token)
  /-- A statement or an expression begins, at this token, inside too many others. -/
  | nestedTooDeep (what : Expected) (found : Token)
  /-- The tokens end where the grammar asks for something. -/
  | endOfInput (expected : Expected)
  /-- An included file cannot be read. -/
  | includeUnreadable (path : Path) (cause : FileError)
  /-- An included file is being expanded already. -/
  | includeCycle (path : Path)
  /-- A file is included inside too many others. -/
  | includeTooDeep (path : Path)
  /-- An include directive without the path of a file. -/
  | includeWithoutPath (directive : Token)
  /-- A directive that is no include. -/
  | unknownDirective (directive : Token)
  deriving DecidableEq, Repr

namespace Fault

/-- The file and position that a fault is tied to, where there are any. -/
def location? : Fault → Option (Path × Position)
  | .lexical file position _ => some (file, position)
  | .unexpected _ found => some (found.origin, found.position)
  | .nestedTooDeep _ found => some (found.origin, found.position)
  | .includeWithoutPath directive => some (directive.origin, directive.position)
  | .unknownDirective directive => some (directive.origin, directive.position)
  | _ => none

/-- A class of faults, the file and position, and what is wrong there. -/
def located (title : String) (file : Path) (position : Position) (cause : String) : String :=
  title ++ " at " ++ file.text ++ ":" ++ position.text ++ ": " ++ cause

/-- The words for a fault. -/
def message : Fault → String
  | .lexical file position cause => located "lex error" file position cause.message
  | .unexpected expected found =>
    located "parse error" found.origin found.position
      ("expected " ++ expected.text ++ ", found '" ++ found.text ++ "'")
  | .nestedTooDeep what found =>
    located "parse error" found.origin found.position
      (what.text ++ " nested deeper than " ++ toString nestingLimit ++ " levels")
  | .endOfInput expected => "parse error: unexpected end of input, expected " ++ expected.text
  | .includeUnreadable path cause => "failed to include " ++ path.text ++ ": " ++ cause.message
  | .includeCycle path => "include cycle detected at " ++ path.text
  | .includeTooDeep path =>
    "includes nested deeper than " ++ toString includeLimit ++ " levels at " ++ path.text
  | .includeWithoutPath directive =>
    located "directive" directive.origin directive.position "#include expects a quoted path"
  | .unknownDirective directive =>
    located "directive" directive.origin directive.position
      ("unknown directive '#" ++ directive.text ++ "'")

end Fault

/-- What could be made of a source, and the faults met on the way. -/
structure Salvage (α : Type) where
  value : α
  faults : List Fault
  deriving Repr

namespace Salvage

variable {α β : Type}

/-- A salvage without faults. -/
def isComplete (s : Salvage α) : Bool :=
  s.faults.isEmpty

/-- Several salvaged lists, one after the other. -/
def concat (parts : List (Salvage (List α))) : Salvage (List α) :=
  ⟨parts.flatMap value, parts.flatMap faults⟩

/-- The lists salvaged from each of several items, one after the other. -/
def flatMap (items : List α) (f : α → Salvage (List β)) : Salvage (List β) :=
  concat (items.map f)

/-- What was salvaged is complete when there is no fault to tell of. -/
theorem isComplete_iff {s : Salvage α} : s.isComplete ↔ s.faults = [] := by
  simp [isComplete]

/-- What is salvaged from two lists of items is salvaged from each by itself. -/
theorem flatMap_append (items others : List α) (f : α → Salvage (List β)) :
    flatMap (items ++ others) f =
      ⟨(flatMap items f).value ++ (flatMap others f).value,
        (flatMap items f).faults ++ (flatMap others f).faults⟩ := by
  simp [flatMap, concat]

end Salvage

end UvaAnalysis
