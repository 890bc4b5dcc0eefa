import UvaAnalysis.Proofs.Server.Requests
import UvaAnalysis.Proofs.Text.Encoding

/-!
# Sinks that fail

A sink that fails only cuts off what a service writes (`serve_failing_sink`).  Either it becomes
full somewhere, and the service ends with that error and nothing is written after it, or nothing is
lost and nothing else changes.  A sink that acknowledges nothing ends the service after the first
report.

This is so for whatever pieces the reports are written in (`Writer`), since a service that writes in
pieces is the service that sends whole reports (`Writer.serve_eq`).
-/

namespace UvaAnalysis

namespace Sink

/-- An empty sink with room for so many bytes. -/
def limited (capacity : ℕ) : Sink := ⟨some capacity, true, []⟩

/-- An empty sink with room for everything that acknowledges nothing. -/
def unacknowledging : Sink := ⟨none, false, []⟩

end Sink

/-- Something is written of every report. -/
lemma Report.bytes_ne_nil (report : Report) : report.bytes ≠ [] := by
  refine Utf8.encode_ne_nil fun hempty => ?_
  have hchars := congrArg String.toList hempty
  rw [text, Json.text, String.toList_ofList, json, List.cons_append, Json.write] at hchars
  cases hchars

namespace Server

/-- A way to write reports: the pieces that each of them is written in. -/
structure Writer where
  pieces : Report → List (List UInt8)
  flatten_pieces : ∀ report, (pieces report).flatten = report.bytes

namespace Writer

/-- The writer that writes every byte by itself. -/
def bytewise : Writer where
  pieces report := report.bytes.map fun byte => [byte]
  flatten_pieces report := by rw [← List.flatMap_def, List.flatMap_singleton']

/-- Answer the requests in a list of lines, after `served` others, with reports in pieces. -/
def serveLines (writer : Writer) (files : Files) (options : Options) (elapsed : Duration) :
    (served : ℕ) → Sink → List (List UInt8) → Service
  | served, sink, [] => ⟨.ok served, sink⟩
  | served, sink, [line] =>
    ⟨if Utf8.isWellFormed line then .ok served else .error .requestUnreadable, sink⟩
  | served, sink, first :: second :: rest =>
    match request? first second with
    | none => ⟨.error .requestUnreadable, sink⟩
    | some request =>
      match analyze files options elapsed request with
      | .error e => ⟨.error e, sink⟩
      | .ok report =>
        match sink.deliver (writer.pieces report) with
        | (sink, some e) => ⟨.error e, sink⟩
        | (sink, none) => writer.serveLines files options elapsed (served + 1) sink rest

/-- Answer the requests in a stream of bytes, with reports in pieces. -/
def serve (writer : Writer) (files : Files) (options : Options) (elapsed : Duration)
    (stream : List UInt8) (sink : Sink) : Service :=
  writer.serveLines files options elapsed 0 sink (Text.lines stream)

variable {writer : Writer} {files : Files} {options : Options} {elapsed : Duration}

/-- A server that writes in pieces answers some lines as one that writes each report at once. -/
lemma serveLines_eq (served : ℕ) (sink : Sink) (lines : List (List UInt8)) :
    writer.serveLines files options elapsed served sink lines =
      Server.serveLines files options elapsed served sink lines := by
  induction lines using List.twoStepInduction generalizing served sink with
  | nil => rfl
  | singleton line => rfl
  | cons_cons first second rest ih _ =>
    simp only [serveLines, Server.serveLines, answer, Sink.deliver_eq_send, writer.flatten_pieces]
    cases request? first second with
    | none => rfl
    | some request =>
      dsimp only
      cases analyze files options elapsed request with
      | error e => rfl
      | ok report =>
        dsimp only
        obtain ⟨sink, failure⟩ := sink.send report.bytes
        cases failure with
        | some e => rfl
        | none => exact ih (served + 1) sink

/-- A service does not depend on the pieces that reports are written in. -/
theorem serve_eq (writer : Writer) (files : Files) (options : Options) (elapsed : Duration)
    (stream : List UInt8) (sink : Sink) :
    writer.serve files options elapsed stream sink =
      Server.serve files options elapsed stream sink :=
  serveLines_eq 0 sink (Text.lines stream)

end Writer

section

variable {files : Files} {options : Options} {elapsed : Duration} {lines : List (List UInt8)}
variable {report : Report} {reports : List Report} {more : ℕ} {failure : Option AnalysisError}

/-- A service whose first report is not acknowledged ends after it. -/
lemma Serves.serveLines_unacknowledging
    (h : Serves files options elapsed lines (report :: reports) more failure) (served : ℕ) :
    serveLines files options elapsed served .unacknowledging lines =
      ⟨.error .reportRefused, Sink.unacknowledging.took report.bytes⟩ := by
  obtain ⟨first, second, rest, rfl, hreport, -⟩ := h.exists_cons_cons
  have hsend : Sink.unacknowledging.send report.bytes =
      (Sink.unacknowledging.took report.bytes, some .reportRefused) := by
    have hfits : Sink.unacknowledging.fitting report.bytes = report.bytes := rfl
    have hrefuses : ¬Sink.unacknowledging.acknowledges = true := Bool.false_ne_true
    rw [Sink.send_eq, if_pos hfits, if_neg hrefuses]
  simp only [serveLines, answer_of_answers hreport, hsend]

end

/-- A sink that fails takes the beginning of what the service writes to a sink that does not.  If it
becomes full, the service ends with that error, and otherwise it ends as it would.  If it does not
acknowledge reports, the service ends with that error after the first report, or as it would if
there is none.  In whatever pieces reports are written. -/
theorem serve_failing_sink (writer : Writer) (files : Files) (options : Options)
    (elapsed : Duration) (stream : List UInt8) :
    let service := writer.serve files options elapsed stream
    let whole := service .unlimited
    let refused := service .unacknowledging
    (∀ capacity,
        (service (.limited capacity)).sink.written = whole.sink.written.take capacity ∧
        (service (.limited capacity)).result =
          if whole.sink.written.length ≤ capacity then whole.result
          else .error .reportTruncated) ∧
      (whole.sink.written = [] → refused.sink.written = [] ∧ refused.result = whole.result) ∧
      (whole.sink.written ≠ [] → refused.result = .error .reportRefused ∧
        ∃ report reports, Answers files options elapsed (Text.lines stream) 0 report ∧
          whole.sink.written = (report :: reports).flatMap Report.bytes ∧
          refused.sink.written = report.bytes) := by
  intro service whole refused
  obtain ⟨reports, more, failure, h⟩ := exists_serves files options elapsed (Text.lines stream)
  -- The pieces of a report do not matter from here on, only its bytes.
  have hservice (sink : Sink) :
      service sink = serveLines files options elapsed 0 sink (Text.lines stream) :=
    writer.serve_eq files options elapsed stream sink
  have hwhole : whole = ⟨resultOf (0 + reports.length) failure,
      { Sink.unlimited with written := reports.flatMap Report.bytes }⟩ :=
    (hservice .unlimited).trans (h.serveLines_eq 0 rfl rfl)
  have hwritten : whole.sink.written = reports.flatMap Report.bytes := by rw [hwhole]
  refine ⟨fun capacity => ?_, fun hempty => ?_, fun hne => ?_⟩
  · have hfitting (bytes : List UInt8) : (Sink.limited capacity).fitting bytes =
        bytes.take capacity := rfl
    rw [hservice, h.serveLines_took 0 rfl, hwhole, Sink.took, hfitting]
    refine ⟨List.nil_append _, ?_⟩
    simp only [List.take_eq_self_iff]
  · cases reports with
    | nil =>
      have hends : Ends files options elapsed (Text.lines stream) more failure := h.ends
      have hrefused : refused = ⟨resultOf 0 failure, .unacknowledging⟩ :=
        (hservice .unacknowledging).trans (hends.serveLines_eq 0 .unacknowledging)
      rw [hrefused, hwhole]
      exact ⟨rfl, rfl⟩
    | cons report reports =>
      rw [hwritten, List.flatMap_cons] at hempty
      exact absurd (List.append_eq_nil_iff.mp hempty).1 report.bytes_ne_nil
  · cases reports with
    | nil => exact absurd hwritten hne
    | cons report reports =>
      have hrefused : refused = ⟨.error .reportRefused, Sink.unacknowledging.took report.bytes⟩ :=
        (hservice .unacknowledging).trans (h.serveLines_unacknowledging 0)
      rw [hrefused]
      exact ⟨rfl, report, reports, h.answers 0 (Nat.succ_pos _), hwritten, List.nil_append _⟩

/-- A sink that becomes full in the first of two reports, which are written byte by byte, and one
that does not acknowledge it. -/
theorem serve_failing_sink_bytewise :
    let files : Files := ⟨[], [(["m"], .file [])]⟩
    let stream := Utf8.encode "/m\n/m\n/m\n/m\n"
    let service := Writer.bytewise.serve files ⟨true⟩ .zero stream
    (service .unlimited).sink.written ≠ [] ∧
      (service (.limited 3)).sink.written = [0x7B, 0x0A, 0x09] ∧
      (service (.limited 3)).result = .error .reportTruncated ∧
      (service .unacknowledging).result = .error .reportRefused ∧
      ∃ report reports,
        (service .unlimited).sink.written = (report :: reports).flatMap Report.bytes ∧
        (service .unacknowledging).sink.written = report.bytes := by
  intro files stream service
  have htake : (service .unlimited).sink.written.take 4 = [0x7B, 0x0A, 0x09, 0x22] := by
    decide +kernel
  have hlength : ¬(service .unlimited).sink.written.length ≤ 3 := by
    intro hle
    have hlong := congrArg List.length htake
    rw [List.take_of_length_le (by omega)] at hlong
    exact absurd (hlong ▸ hle) (by decide)
  have hwritten : (service .unlimited).sink.written ≠ [] :=
    fun hempty => hlength (by rw [hempty, List.length_nil]; omega)
  obtain ⟨hlimited, -, hrefused⟩ := serve_failing_sink .bytewise files ⟨true⟩ .zero stream
  obtain ⟨hcut, hresult⟩ := hlimited 3
  obtain ⟨hrefusal, report, reports, -, hwhole, hfirst⟩ := hrefused hwritten
  rw [if_neg hlength] at hresult
  have hthree := congrArg (List.take 3) htake
  rw [List.take_take, Nat.min_eq_left (by decide)] at hthree
  exact ⟨hwritten, hcut.trans hthree, hresult, hrefusal, report, reports, hwhole, hfirst⟩

end Server

end UvaAnalysis
