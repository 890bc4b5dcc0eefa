import Mathlib.Data.List.Permutation
import UvaAnalysis.CommandLine
import UvaAnalysis.Proofs.Server.Framing
import UvaAnalysis.Proofs.Server.Requests
import UvaAnalysis.Proofs.Text.Json.Document

/-!
# Two ways in for a request

A request can be made by naming two files on the command line, and by writing their names to a
server.  Both come to the same (`run_files_eq_run_server`): the same report is written, up to the
time that was taken, or nothing is and the program fails.

The paths that can be written to a server are those that fit on a line, since such a path comes back
from its bytes and the end of the line (`Text.lines_encode`).
-/

namespace UvaAnalysis

/-! ### Reports -/

/-- The same report, but for the time that was taken. -/
def Report.withElapsed (report : Report) (elapsed : Duration) : Report :=
  { report with elapsed }

/-- Bytes that are a JSON text and nothing else. -/
def Json.IsDocument (bytes : List UInt8) : Prop :=
  ∃ text value, Utf8.text? bytes = some text ∧ Spells text.toList value

/-- What is written of a report is a JSON text. -/
lemma Report.isDocument_bytes (report : Report) : Json.IsDocument report.bytes := by
  have htext : Utf8.text? report.bytes = some report.text := by
    rw [bytes, Utf8.text?_encode]
  have hspells : Json.Spells report.text.toList report.json.toValue := by
    rw [text, Json.text, String.toList_ofList]
    exact Json.spells_write report.json 0
  exact ⟨report.text, report.json.toValue, htext, hspells⟩

/-- The time is only written down. -/
lemma analyze_withElapsed (files : Files) (options : Options) (elapsed elapsed' : Duration)
    (request : Request) :
    analyze files options elapsed' request =
      (analyze files options elapsed request).map (·.withElapsed elapsed') := by
  unfold analyze
  cases request.load files with
  | error e => rfl
  | ok sources => rfl

namespace Server

/-- The stream of one request. -/
def requestStream (input buffer : String) : List UInt8 :=
  Utf8.encode (input ++ "\n" ++ buffer ++ "\n")

/-- The stream of one request has its paths on two lines. -/
lemma lined_requestStream (input buffer : String) :
    Text.Lined (Request.paths ⟨⟨input⟩, ⟨buffer⟩⟩) (requestStream input buffer) := by
  have hend : Utf8.encode "\n" = Text.LineEnd.feed.bytes := by decide
  have hlined := (Text.Lined.nil.line buffer .feed).line input .feed
  rw [List.append_nil, ← List.append_assoc] at hlined
  simp only [requestStream, Utf8.encode_append, hend]
  exact hlined

/-- A server that is asked for one thing answers it. -/
lemma serve_requestStream {input buffer : String} (hinput : Text.FitsLine input)
    (hbuffer : Text.FitsLine buffer) (files : Files) (options : Options) (elapsed : Duration) :
    serve files options elapsed (requestStream input buffer) .unlimited =
      match analyze files options elapsed ⟨⟨input⟩, ⟨buffer⟩⟩ with
      | .ok report => ⟨.ok 1, { Sink.unlimited with written := report.bytes }⟩
      | .error e => ⟨.error e, .unlimited⟩ := by
  have hfits : ∀ path ∈ Request.paths ⟨⟨input⟩, ⟨buffer⟩⟩, Text.FitsLine path :=
    List.forall_mem_cons.mpr ⟨hinput, List.forall_mem_singleton.mpr hbuffer⟩
  have hserve := @serve_eq_serveRequests [⟨⟨input⟩, ⟨buffer⟩⟩] _ hfits
    (lined_requestStream input buffer) files options elapsed .unlimited
  rw [hserve, serveRequests]
  generalize analyze files options elapsed ⟨⟨input⟩, ⟨buffer⟩⟩ = outcome
  cases outcome with
  | error e => rfl
  | ok report =>
    have hsend : Sink.unlimited.send report.bytes =
        ({ Sink.unlimited with written := report.bytes }, none) := by
      rw [send_of_unlimited rfl rfl, Sink.unlimited, List.nil_append]
    simp only [hsend, serveRequests, Nat.zero_add]

end Server

namespace CommandLine

/-- A run tells what an analysis came to: it writes the report and succeeds, or it writes nothing
and fails. -/
def Outcome.Tells (outcome : Outcome) : Except AnalysisError Report → Prop
  | .ok report => outcome.status = 0 ∧ outcome.output = report.bytes
  | .error _ => outcome.status = 1 ∧ outcome.output = []

/-- The outcome of a run with a report. -/
lemma Outcome.tells_report (report : Report) : Tells ⟨report.bytes, none⟩ (.ok report) := by
  simp [Tells, status]

/-- The outcome of a run without a report. -/
lemma Outcome.tells_failure (e : AnalysisError) (complaint : Complaint) :
    Tells ⟨[], some complaint⟩ (.error e) := by
  simp [Tells, status]

/-- The flags for reports with faults or without. -/
def faultFlags (reportFaults : Bool) : List String :=
  if reportFaults then ["--report-faults"] else []

section

variable {input buffer : String} {arguments : List String} {reportFaults : Bool}

/-- The arguments name two files after two dashes. -/
lemma demand?_files (hinput : input ≠ "") (hbuffer : buffer ≠ "") (reportFaults : Bool) :
    demand? (faultFlags reportFaults ++ ["--", input, buffer]) =
      some (.run ⟨false, reportFaults, false, [input, buffer]⟩) := by
  have hfiles (settings : Settings) (hnone : settings.files = []) :
      settings.readArguments ["--", input, buffer] =
        some (.run { settings with files := [input, buffer] }) := by
    simp [Settings.readArguments, Settings.readFiles, Settings.addFile, hinput, hbuffer, hnone]
  cases reportFaults with
  | false => exact hfiles ⟨false, false, false, []⟩ rfl
  | true => exact hfiles ⟨false, true, false, []⟩ rfl

/-- The arguments ask for a server, before or after the other flag. -/
lemma demand?_server (h : arguments.Perm ("--server" :: faultFlags reportFaults)) :
    demand? arguments = some (.run ⟨true, reportFaults, false, []⟩) := by
  cases reportFaults with
  | false =>
    rw [List.perm_singleton.mp h]
    decide
  | true =>
    rcases List.pair_perm.mp h.symm with rfl | rfl
    · decide
    · decide

/-- A run for two files tells what the analysis of their request comes to. -/
lemma tells_run_files (hinput : input ≠ "") (hbuffer : buffer ≠ "") (files : Files)
    (elapsed : Duration) (reportFaults : Bool) (stream : List UInt8) :
    (run files elapsed (faultFlags reportFaults ++ ["--", input, buffer]) stream).Tells
      (analyze files ⟨reportFaults⟩ elapsed ⟨⟨input⟩, ⟨buffer⟩⟩) := by
  simp only [run, demand?_files hinput hbuffer, Settings.run, Settings.mode, Settings.options,
    Bool.false_eq_true, if_false]
  cases analyze files ⟨reportFaults⟩ elapsed ⟨⟨input⟩, ⟨buffer⟩⟩ with
  | error e => exact Outcome.tells_failure e (.failure e.chain)
  | ok report => exact Outcome.tells_report report

/-- A server that is asked for one thing tells what the analysis of this request comes to. -/
lemma tells_run_server (hinput : Text.FitsLine input) (hbuffer : Text.FitsLine buffer)
    (files : Files) (elapsed : Duration)
    (h : arguments.Perm ("--server" :: faultFlags reportFaults)) :
    (run files elapsed arguments (Server.requestStream input buffer)).Tells
      (analyze files ⟨reportFaults⟩ elapsed ⟨⟨input⟩, ⟨buffer⟩⟩) := by
  simp only [run, demand?_server h, Settings.run, Settings.mode, Settings.options,
    Server.serve_requestStream hinput hbuffer]
  cases analyze files ⟨reportFaults⟩ elapsed ⟨⟨input⟩, ⟨buffer⟩⟩ with
  | error e => exact Outcome.tells_failure e (serverFailure e)
  | ok report =>
    dsimp only
    exact Outcome.tells_report report

/-- A report on two files comes out the same, up to the time that it took, whether the files are
named on the command line or written to a server, and so does the status.  When the status is zero a
JSON text and nothing else is written, and otherwise nothing is. -/
theorem run_files_eq_run_server (hinput : input ≠ "") (hbuffer : buffer ≠ "")
    (hinputFits : Text.FitsLine input) (hbufferFits : Text.FitsLine buffer) (files : Files)
    (elapsed elapsed' : Duration) (stream : List UInt8)
    (harguments : arguments.Perm ("--server" :: faultFlags reportFaults)) :
    let once := run files elapsed (faultFlags reportFaults ++ ["--", input, buffer]) stream
    let served := run files elapsed' arguments (Utf8.encode (input ++ "\n" ++ buffer ++ "\n"))
    once.status = served.status ∧
      (once.status = 0 ∧
          (∃ report : Report, once.output = (report.withElapsed elapsed).bytes ∧
            served.output = (report.withElapsed elapsed').bytes) ∧
          Json.IsDocument once.output ∧ Json.IsDocument served.output ∨
        once.status = 1 ∧ once.output = [] ∧ served.output = []) := by
  intro once served
  have honce : once.Tells (analyze files ⟨reportFaults⟩ elapsed ⟨⟨input⟩, ⟨buffer⟩⟩) :=
    tells_run_files hinput hbuffer files elapsed reportFaults stream
  have hserved : served.Tells (analyze files ⟨reportFaults⟩ elapsed' ⟨⟨input⟩, ⟨buffer⟩⟩) :=
    tells_run_server hinputFits hbufferFits files elapsed' harguments
  -- Both are analyses that take no time, with another time written down.
  rw [analyze_withElapsed files ⟨reportFaults⟩ .zero elapsed] at honce
  rw [analyze_withElapsed files ⟨reportFaults⟩ .zero elapsed'] at hserved
  cases hresult : analyze files ⟨reportFaults⟩ .zero ⟨⟨input⟩, ⟨buffer⟩⟩ with
  | error e =>
    rw [hresult] at honce hserved
    obtain ⟨hstatus, houtput⟩ := honce
    obtain ⟨hstatus', houtput'⟩ := hserved
    exact ⟨hstatus.trans hstatus'.symm, .inr ⟨hstatus, houtput, houtput'⟩⟩
  | ok report =>
    rw [hresult] at honce hserved
    obtain ⟨hstatus, houtput⟩ := honce
    obtain ⟨hstatus', houtput'⟩ := hserved
    have hdocument : Json.IsDocument once.output := by
      rw [houtput]
      exact (report.withElapsed elapsed).isDocument_bytes
    have hdocument' : Json.IsDocument served.output := by
      rw [houtput']
      exact (report.withElapsed elapsed').isDocument_bytes
    exact ⟨hstatus.trans hstatus'.symm,
      .inl ⟨hstatus, ⟨report, houtput, houtput'⟩, hdocument, hdocument'⟩⟩

end

/-- Both ways, for a file with a carriage return in its name and a fault in its content. -/
theorem run_files_eq_run_server_return :
    let files : Files := ⟨[], [(["é\r-"], .file (Utf8.encode "class é"))]⟩
    let once := run files ⟨0, 7⟩ (faultFlags true ++ ["--", "/é\r-", "/./é\r-"]) []
    let served := run files ⟨1, 0⟩ ["--report-faults", "--server"]
      (Utf8.encode ("/é\r-" ++ "\n" ++ "/./é\r-" ++ "\n"))
    once.status = 0 ∧ served.status = 0 ∧
      (∃ report : Report, once.output = (report.withElapsed ⟨0, 7⟩).bytes ∧
        served.output = (report.withElapsed ⟨1, 0⟩).bytes) ∧
      Json.IsDocument once.output ∧ Json.IsDocument served.output := by
  intro files once served
  have hfits : Text.FitsLine "/é\r-" := ⟨by decide, by decide⟩
  have hfits' : Text.FitsLine "/./é\r-" := ⟨by decide, by decide⟩
  have hflags : ["--report-faults", "--server"].Perm ("--server" :: faultFlags true) :=
    List.Perm.swap _ _ []
  have hstatus : once.status = 0 := by decide +kernel
  obtain ⟨hsame, hreport⟩ := @run_files_eq_run_server "/é\r-" "/./é\r-" _ true (by decide)
    (by decide) hfits hfits' files ⟨0, 7⟩ ⟨1, 0⟩ [] hflags
  rcases hreport with ⟨-, houtputs, hdocument, hdocument'⟩ | ⟨hone, -, -⟩
  · exact ⟨hstatus, hsame.symm.trans hstatus, houtputs, hdocument, hdocument'⟩
  · cases hstatus.symm.trans hone

end CommandLine

end UvaAnalysis
