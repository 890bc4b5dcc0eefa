import UvaAnalysis.Analysis
import UvaAnalysis.Text.Lines

/-!
# The server

A server reads requests from a stream of bytes and sends the reports one after the other, with
nothing between them.  A request is two lines, the path of the file to analyze and the path of the
file with its content.  The first request that cannot be read or answered ends the service; a line
without a second one ends it too, but without an error.

Reports are sent to a sink.  A sink may have room for a limited number of bytes, and it may refuse
to acknowledge a report that it took.
-/

namespace UvaAnalysis

/-- Where reports are sent, and what has arrived there. -/
structure Sink where
  /-- The number of bytes that there is room for in all, if that is limited. -/
  capacity : Option Nat
  /-- Whether it acknowledges what it takes. -/
  acknowledges : Bool
  written : List UInt8
  deriving DecidableEq, Repr

namespace Sink

/-- A sink with room for everything that acknowledges everything. -/
def unlimited : Sink := ⟨none, true, []⟩

/-- The first of the given bytes, as many as there is room for. -/
def fitting (sink : Sink) (bytes : List UInt8) : List UInt8 :=
  match sink.capacity with
  | none => bytes
  | some capacity => bytes.take (capacity - sink.written.length)

/-- Send one report: what has then arrived, and what went wrong. -/
def send (sink : Sink) (report : List UInt8) : Sink × Option AnalysisError :=
  let taken := sink.fitting report
  ({ sink with written := sink.written ++ taken },
    if taken.length < report.length then some .reportTruncated
    else if sink.acknowledges then none
    else some .reportRefused)

end Sink

/-- What a service came to: the number of requests answered or the error that ended it, and what
arrived at the sink. -/
structure Service where
  result : Except AnalysisError Nat
  sink : Sink

namespace Server

/-- The request in two lines, if both are well-formed UTF-8. -/
def request? (first second : List UInt8) : Option Request :=
  match Utf8.text? first, Utf8.text? second with
  | some input, some buffer => some ⟨⟨input⟩, ⟨buffer⟩⟩
  | _, _ => none

/-- The report that answers the request in two lines. -/
def answer (files : Files) (options : Options) (elapsed : Duration) (first second : List UInt8) :
    Except AnalysisError (List UInt8) :=
  match request? first second with
  | none => .error .requestUnreadable
  | some request =>
    match analyze files options elapsed request with
    | .error e => .error e
    | .ok report => .ok report.bytes

/-- Answer the requests in a list of lines, after `served` others. -/
def serveLines (files : Files) (options : Options) (elapsed : Duration) :
    (served : Nat) → Sink → List (List UInt8) → Service
  | served, sink, [] => ⟨.ok served, sink⟩
  | served, sink, [line] =>
    ⟨if Utf8.isWellFormed line then .ok served else .error .requestUnreadable, sink⟩
  | served, sink, first :: second :: rest =>
    match answer files options elapsed first second with
    | .error e => ⟨.error e, sink⟩
    | .ok report =>
      match sink.send report with
      | (sink, some e) => ⟨.error e, sink⟩
      | (sink, none) => serveLines files options elapsed (served + 1) sink rest

/-- Answer the requests in a stream of bytes, each of which takes the time `elapsed`. -/
def serve (files : Files) (options : Options) (elapsed : Duration) (stream : List UInt8)
    (sink : Sink) : Service :=
  serveLines files options elapsed 0 sink (Text.lines stream)

end Server

end UvaAnalysis
