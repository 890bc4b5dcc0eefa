import UvaAnalysis.Proofs.Text.Json.Decoder
import UvaAnalysis.Proofs.Text.Json.Document
import UvaAnalysis.Report

/-!
# Streams of reports

Reports are written one after the other with nothing between them, and a client has to find them
again.  The decoder of JSON streams finds them (`decodeStream_reports`): a report ends where its
outermost brace does, whatever is in its texts.  From the value of a report `contents?` reads back
everything that is in the report, except that of the time only the whole milliseconds are written.

The readers follow the writers in `Report`, one for one, and each has a lemma that it inverts its
writer.
-/

namespace UvaAnalysis

/-! ### Reading values -/

namespace Json.Value

/-- The text of a string. -/
def text? : Value → Option String
  | .string text => some text
  | _ => none

/-- A natural number. -/
def natural? : Value → Option ℕ
  | .number q => if q.den = 1 ∧ 0 ≤ q.num then some q.num.toNat else none
  | _ => none

/-- The keys of an object, in order. -/
def keys : Value → List String
  | .object members => members.map Prod.fst
  | _ => []

/-- The value that an object has for a key. -/
def member? (key : String) : Value → Option Value
  | .object members => members.lookup key
  | _ => none

section

variable {α : Type} (read : Value → Option α)

/-- The value that an object has for a key, read in some way. -/
def field? (key : String) (v : Value) : Option α :=
  (v.member? key).bind read

/-- The items of an array, read in some way. -/
def list? : Value → Option (List α)
  | .array items => items.mapM read
  | _ => none

end

end Json.Value

open Json (Value)
open Json.Value (text? natural? field? list?)

/-! ### Reading reports -/

/-- The place that an object tells. -/
def Reference.ofValue? (v : Value) : Option Reference := do
  let file ← field? text? "file" v
  let line ← field? natural? "line" v
  let column ← field? natural? "column" v
  let offset ← field? natural? "offset" v
  return ⟨⟨file⟩, ⟨line, column, offset⟩⟩

/-- The finding that an object tells. -/
def Finding.ofValue? (v : Value) : Option Finding := do
  let rule ← field? text? "type" v
  let message ← field? text? "message" v
  let place ← field? Reference.ofValue? "location" v
  let length ← field? (field? natural? "length") "location" v
  return ⟨rule, message, place.file, place.position, length⟩

/-- The declaration that an object tells. -/
def Declaration.ofValue? (v : Value) : Option Declaration := do
  let kind ← field? text? "type" v
  let name ← field? text? "name" v
  let place ← field? Reference.ofValue? "location" v
  let references ← field? (list? Reference.ofValue?) "references" v
  if kind = "class" then some ⟨name, place.file, place.position, references⟩ else none

/-- The number before the unit in a span of time. -/
def milliseconds? (text : String) : Option ℕ :=
  let digits := text.toList.takeWhile Char.isDigit
  if Json.IsWhole digits ∧ text.toList = digits ++ ['m', 's'] then some (Json.digitsValue digits)
  else none

namespace Report

/-- What is written of a report. -/
structure Contents where
  findings : List Finding
  declarations : List Declaration
  milliseconds : ℕ
  faults : List String

/-- The faults that an object tells.  There are none when it has no such key. -/
def faults? (v : Value) : Option (List String) :=
  if "faults" ∈ v.keys then field? (list? text?) "faults" v else some []

/-- What is written of the report that an object tells. -/
def contents? (v : Value) : Option Contents := do
  let findings ← field? (list? Finding.ofValue?) "linter" v
  let declarations ← field? (list? Declaration.ofValue?) "declarations" v
  let elapsed ← field? text? "elapsed" v
  let milliseconds ← milliseconds? elapsed
  let faults ← faults? v
  return ⟨findings, declarations, milliseconds, faults⟩

end Report

/-! ### The readers invert the writers -/

namespace Json

/-- The keys of an object are those of its fields. -/
lemma keys_toValue_object (fields : List (String × Json)) :
    (toValue (.object fields)).keys = fields.map Prod.fst := by
  rw [toValue_object, Value.keys, List.map_map]
  rfl

/-- An object has the value of the first field with a key. -/
lemma member?_toValue_object (key : String) (fields : List (String × Json)) :
    (toValue (.object fields)).member? key = (fields.lookup key).map toValue := by
  rw [toValue_object, Value.member?]
  induction fields with
  | nil => rfl
  | cons field fields ih =>
    rw [List.map_cons, List.lookup_cons, List.lookup_cons]
    split
    · rfl
    · exact ih

section

variable {α : Type} {read : Value → Option α}

/-- What an object has for a key is read from the field with that key. -/
lemma field?_toValue_object {key : String} {fields : List (String × Json)} {field : Json} {a : α}
    (h : fields.lookup key = some field) (hread : read field.toValue = some a) :
    field? read key (toValue (.object fields)) = some a := by
  rw [field?, member?_toValue_object, h, Option.map_some, Option.bind_some, hread]

/-- A list is read from an array when its items are. -/
lemma list?_toValue_array {write : α → Json} (h : ∀ a, read (write a).toValue = some a)
    (l : List α) : list? read (toValue (.array (l.map write))) = some l := by
  rw [toValue_array, list?, List.map_map]
  induction l with
  | nil => rfl
  | cons a l ih =>
    rw [List.map_cons, List.mapM_cons, Function.comp_apply, h, ih]
    rfl

end

/-- A number is read back. -/
lemma natural?_toValue_number (n : ℕ) : natural? (toValue (.number n)) = some n := by
  simp [toValue, natural?]

/-- A text is read back. -/
lemma text?_toValue_string (text : String) : text? (toValue (.string text)) = some text := rfl

end Json

open Json

/-- A place is read back, whatever else is told with it. -/
lemma Reference.ofValue?_placeFields (file : Path) (position : Position)
    (others : List (String × Json)) :
    Reference.ofValue? (toValue (.object (Report.placeFields file position ++ others))) =
      some ⟨file, position⟩ := by
  set v := toValue (.object (Report.placeFields file position ++ others))
  have hfile : field? text? "file" v = some file.text :=
    field?_toValue_object rfl (text?_toValue_string file.text)
  have hline : field? natural? "line" v = some position.line :=
    field?_toValue_object rfl (natural?_toValue_number position.line)
  have hcolumn : field? natural? "column" v = some position.column :=
    field?_toValue_object rfl (natural?_toValue_number position.column)
  have hoffset : field? natural? "offset" v = some position.offset :=
    field?_toValue_object rfl (natural?_toValue_number position.offset)
  rw [Reference.ofValue?, hfile, hline, hcolumn, hoffset]
  rfl

/-- A reference is read back. -/
lemma Reference.ofValue?_referenceJson (r : Reference) :
    Reference.ofValue? (toValue (Report.referenceJson r)) = some r := by
  have h := Reference.ofValue?_placeFields r.file r.position []
  rw [List.append_nil] at h
  exact h

/-- A finding is read back. -/
lemma Finding.ofValue?_findingJson (f : Finding) :
    Finding.ofValue? (toValue (Report.findingJson f)) = some f := by
  have hrule : field? text? "type" (toValue (Report.findingJson f)) = some f.rule :=
    field?_toValue_object rfl (text?_toValue_string f.rule)
  have hmessage : field? text? "message" (toValue (Report.findingJson f)) = some f.message :=
    field?_toValue_object rfl (text?_toValue_string f.message)
  have hplace : field? Reference.ofValue? "location" (toValue (Report.findingJson f)) =
      some ⟨f.file, f.position⟩ :=
    field?_toValue_object rfl (Reference.ofValue?_placeFields f.file f.position _)
  have hlength : field? (field? natural? "length") "location" (toValue (Report.findingJson f)) =
      some f.length :=
    field?_toValue_object rfl <|
      field?_toValue_object rfl (natural?_toValue_number f.length)
  rw [Finding.ofValue?, hrule, hmessage, hplace, hlength]
  rfl

/-- A declaration is read back. -/
lemma Declaration.ofValue?_declarationJson (d : Declaration) :
    Declaration.ofValue? (toValue (Report.declarationJson d)) = some d := by
  have hkind : field? text? "type" (toValue (Report.declarationJson d)) = some "class" :=
    field?_toValue_object rfl (text?_toValue_string "class")
  have hname : field? text? "name" (toValue (Report.declarationJson d)) = some d.name :=
    field?_toValue_object rfl (text?_toValue_string d.name)
  have hplace : field? Reference.ofValue? "location" (toValue (Report.declarationJson d)) =
      some ⟨d.file, d.position⟩ :=
    field?_toValue_object rfl (Reference.ofValue?_referenceJson ⟨d.file, d.position⟩)
  have hreferences : field? (list? Reference.ofValue?) "references"
      (toValue (Report.declarationJson d)) = some d.references :=
    field?_toValue_object rfl (list?_toValue_array Reference.ofValue?_referenceJson d.references)
  rw [Declaration.ofValue?, hkind, hname, hplace, hreferences]
  rfl

/-- The digits before a unit are read back. -/
lemma milliseconds?_toString (n : ℕ) : milliseconds? (toString n ++ "ms") = some n := by
  have htext : (toString n ++ "ms").toList = Nat.toDigits 10 n ++ ['m', 's'] := by
    rw [String.toList_append, Nat.toString_eq_ofList_toDigits, String.toList_ofList]
    rfl
  have hdigits : (toString n ++ "ms").toList.takeWhile Char.isDigit = Nat.toDigits 10 n := by
    rw [htext]
    exact takeWhile_run (isWhole_toDigits n).1.2 fun c hc => Option.some.inj hc ▸ rfl
  rw [milliseconds?, hdigits, if_pos ⟨isWhole_toDigits n, htext⟩, digitsValue_toDigits]

namespace Report

variable (report : Report)

/-- The keys of a report are written in order. -/
lemma keys_json :
    report.json.toValue.keys =
      ["linter", "declarations", "elapsed"] ++
        if report.faults = [] then [] else ["faults"] := by
  rw [json, keys_toValue_object]
  cases report.faults <;> rfl

/-- The faults of a report are read back. -/
lemma faults?_json : faults? report.json.toValue = some report.faults := by
  rw [faults?, keys_json]
  cases h : report.faults with
  | nil => rfl
  | cons fault faults =>
    have hread : field? (list? text?) "faults" report.json.toValue = some (fault :: faults) := by
      rw [json, h]
      exact field?_toValue_object rfl (list?_toValue_array text?_toValue_string _)
    rw [if_neg (List.cons_ne_nil fault faults), if_pos (by decide), hread]

/-- What is written of a report is read back. -/
lemma contents?_json :
    contents? report.json.toValue =
      some ⟨report.findings, report.declarations, report.elapsed.milliseconds, report.faults⟩ := by
  have hfindings : field? (list? Finding.ofValue?) "linter" report.json.toValue =
      some report.findings :=
    field?_toValue_object rfl (list?_toValue_array Finding.ofValue?_findingJson report.findings)
  have hdeclarations : field? (list? Declaration.ofValue?) "declarations" report.json.toValue =
      some report.declarations :=
    field?_toValue_object rfl
      (list?_toValue_array Declaration.ofValue?_declarationJson report.declarations)
  have helapsed : field? text? "elapsed" report.json.toValue =
      some (toString report.elapsed.milliseconds ++ "ms") :=
    field?_toValue_object rfl (text?_toValue_string _)
  rw [contents?, hfindings, hdeclarations, helapsed, report.faults?_json]
  simp only [Option.bind_eq_bind, Option.bind_some, milliseconds?_toString]
  rfl

/-- What is written of some reports is the text of their documents. -/
lemma toList_join_text (reports : List Report) :
    (String.join (reports.map text)).toList = (reports.map json).flatMap (write 0) := by
  rw [String.toList_join, List.flatMap_map, List.flatMap_map]
  exact List.flatMap_congr fun report _ => String.toList_ofList

end Report

/-- Reports that are written one after the other can be found again by the one decoder that reads
the streams of JSON: it gives their documents in the order of the reports.  The findings of a
report, its declarations with their references, its whole milliseconds and its faults can be read
from its document, whose keys are in order, with faults only if there are any. -/
theorem decodeStream_reports :
    (∀ text values, decodeStream text = some values ↔ Stream text values) ∧
    (∀ reports : List Report,
      decodeStream (String.join (reports.map Report.text)).toList =
        some (reports.map fun report => report.json.toValue)) ∧
    ∀ report : Report,
      Report.contents? report.json.toValue =
        some ⟨report.findings, report.declarations, report.elapsed.milliseconds, report.faults⟩ ∧
      report.json.toValue.keys =
        ["linter", "declarations", "elapsed"] ++
          if report.faults = [] then [] else ["faults"] := by
  refine ⟨fun text values => decodeStream_eq_some_iff, fun reports => ?_, fun report => ?_⟩
  · have hstream : Stream ((reports.map Report.json).flatMap (write 0))
        ((reports.map Report.json).map toValue) := by
      apply stream_write
      intro document hdocument
      obtain ⟨report, _, rfl⟩ := List.mem_map.mp hdocument
      rw [Report.json, toValue_object]
      rfl
    rw [Report.toList_join_text, decodeStream_eq_some_iff.mpr hstream, List.map_map]
    rfl
  · exact ⟨report.contents?_json, report.keys_json⟩

end UvaAnalysis
