import UvaAnalysis.Token.Expansion

/-!
# Requests and their sources

A request names the file to analyze and the file that holds its current content, which may be the
same file or an editor's unsaved copy.  Loading a request checks the first and reads the second.

The content counts as that of the file to analyze: its tokens have that file as their origin, and
looking up a byte there looks it up in the content that was read.
-/

namespace UvaAnalysis

/-- The file to analyze, and the file that holds its content. -/
structure Request where
  input : Path
  buffer : Path
  deriving DecidableEq, Repr

/-- The request for a file with the content that it has. -/
def Request.single (path : Path) : Request := ⟨path, path⟩

/-- Why there is no report. -/
inductive AnalysisError where
  | inputMissing (path : Path)
  /-- The file to analyze is a directory. -/
  | inputNotRegular (path : Path)
  | bufferUnreadable (path : Path) (cause : FileError)
  /-- A request that is not spelled in well-formed UTF-8. -/
  | requestUnreadable
  /-- A report of which only the beginning could be delivered. -/
  | reportTruncated
  /-- A report that was delivered but not acknowledged. -/
  | reportRefused
  deriving DecidableEq, Repr

namespace AnalysisError

/-- The error below an error, where there is one. -/
def cause? : AnalysisError → Option String
  | .inputMissing _ | .inputNotRegular _ => none
  | .bufferUnreadable _ cause => some cause.message
  | .requestUnreadable => some "stream did not contain valid UTF-8"
  | .reportTruncated => some "sink is full"
  | .reportRefused => some "flush refused"

/-- What went wrong, without the cause. -/
def title : AnalysisError → String
  | .inputMissing path => "input file '" ++ path.text ++ "' does not exist"
  | .inputNotRegular path => "input file '" ++ path.text ++ "' is not a regular file"
  | .bufferUnreadable path _ => "failed to read buffer file '" ++ path.text ++ "'"
  | .requestUnreadable => "failed to read request"
  | .reportTruncated => "failed to serialize report"
  | .reportRefused => "failed to write report"

/-- The words for an error: what went wrong and its cause. -/
def message (e : AnalysisError) : String :=
  match e.cause? with
  | some cause => e.title ++ ": " ++ cause
  | none => e.title

/-- The words for an error followed by the words for each error below it. -/
def chain (e : AnalysisError) : String :=
  match e.cause? with
  | some cause => e.message ++ ": " ++ cause
  | none => e.message

end AnalysisError

/-- The file that is analyzed, by its absolute path, and the content that it is taken to have. -/
structure Sources where
  primary : Path
  buffer : List UInt8
  deriving DecidableEq, Repr

/-- Check and read the files of a request.  Both paths are made absolute before either is used. -/
def Request.load (request : Request) (files : Files) : Except AnalysisError Sources :=
  match request.input.absolute? files.workingDirectory with
  | none => .error (.inputMissing request.input)
  | some primary =>
    match request.buffer.absolute? files.workingDirectory with
    | none => .error (.bufferUnreadable request.buffer .emptyPath)
    | some buffer =>
      match files.find primary with
      | .error _ => .error (.inputMissing primary)
      | .ok (_, .directory) => .error (.inputNotRegular primary)
      | .ok (_, .file _) =>
        match files.read buffer with
        | .error cause => .error (.bufferUnreadable buffer cause)
        | .ok content => .ok ⟨primary, content⟩

namespace Sources

/-- One byte of a file: of the content at hand for the file that is analyzed, and of what is stored
for any other. -/
def byteAt (sources : Sources) (files : Files) (origin : Path) (offset : Nat) :
    Except FileError UInt8 :=
  if origin.sameAs sources.primary then
    match sources.buffer[offset]? with
    | some byte => .ok byte
    | none => .error .pastEndOfBuffer
  else files.readByte origin offset

/-- The tokens of the file that is analyzed, with every include expanded. -/
def tokens (sources : Sources) (files : Files) : Salvage (List Token) :=
  let lexed := Token.tokenize sources.primary sources.buffer
  let expanded := Token.expand files sources.primary lexed.value
  ⟨expanded.value, lexed.faults ++ expanded.faults⟩

end Sources

end UvaAnalysis
