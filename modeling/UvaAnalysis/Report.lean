import UvaAnalysis.Declaration
import UvaAnalysis.Finding
import UvaAnalysis.Text.Json

/-!
# Reports

What is written about one request: a JSON object with the findings, the declarations, the time that
was taken, and the faults when there are any to tell of.
-/

namespace UvaAnalysis

/-- A span of time, in whole seconds and nanoseconds. -/
structure Duration where
  seconds : Nat
  nanoseconds : Nat
  deriving DecidableEq, Repr

namespace Duration

/-- No time. -/
def zero : Duration := ⟨0, 0⟩

/-- The span of a number of nanoseconds. -/
def ofNanoseconds (n : Nat) : Duration := ⟨n / 1000000000, n % 1000000000⟩

/-- The whole milliseconds in a span of time. -/
def milliseconds (d : Duration) : Nat :=
  d.seconds * 1000 + d.nanoseconds / 1000000

end Duration

/-- What is known about one request. -/
structure Report where
  findings : List Finding
  declarations : List Declaration
  elapsed : Duration
  faults : List String
  deriving DecidableEq, Repr

namespace Report

/-- The fields that tell a place. -/
def placeFields (file : Path) (position : Position) : List (String × Json) :=
  [("file", .string file.text), ("line", .number position.line),
    ("column", .number position.column), ("offset", .number position.offset)]

/-- A finding as a JSON object. -/
def findingJson (f : Finding) : Json :=
  .object
    [("type", .string f.rule), ("message", .string f.message),
      ("location", .object (placeFields f.file f.position ++ [("length", .number f.length)]))]

/-- A reference as a JSON object. -/
def referenceJson (r : Reference) : Json :=
  .object (placeFields r.file r.position)

/-- A declaration as a JSON object. -/
def declarationJson (d : Declaration) : Json :=
  .object
    [("type", .string "class"), ("name", .string d.name),
      ("location", .object (placeFields d.file d.position)),
      ("references", .array (d.references.map referenceJson))]

/-- A report as a JSON object. -/
def json (report : Report) : Json :=
  .object <|
    [("linter", .array (report.findings.map findingJson)),
      ("declarations", .array (report.declarations.map declarationJson)),
      ("elapsed", .string (toString report.elapsed.milliseconds ++ "ms"))] ++
    match report.faults with
    | [] => []
    | faults => [("faults", .array (faults.map .string))]

/-- A report as text. -/
def text (report : Report) : String :=
  report.json.text

/-- A report as the bytes that are sent. -/
def bytes (report : Report) : List UInt8 :=
  Utf8.encode report.text

end Report

end UvaAnalysis
