import UvaAnalysis.Proofs.Text.Lines
import UvaAnalysis.Server

/-!
# Requests on lines

Requests are written to a server with their paths one to a line.  The server answers these requests
in their order, and no others, whichever of the two ends each line has and whether or not the last
line has one (`serve_lined`).

What it means to answer requests is said without lines, by recursion on the list of requests
(`serveRequests`), so the service depends on nothing else that is in the stream.
-/

namespace UvaAnalysis

/-- The paths of a request, in the order in which they are written. -/
def Request.paths (request : Request) : List String :=
  [request.input.text, request.buffer.text]

namespace Server

/-- Answer some requests one after the other, after `served` others.  The first one that cannot be
answered is the last, and so is one whose report is not delivered. -/
def serveRequests (files : Files) (options : Options) (elapsed : Duration) :
    (served : ℕ) → Sink → List Request → Service
  | served, sink, [] => ⟨.ok served, sink⟩
  | served, sink, request :: others =>
    match analyze files options elapsed request with
    | .error e => ⟨.error e, sink⟩
    | .ok report =>
      match sink.send report.bytes with
      | (sink, some e) => ⟨.error e, sink⟩
      | (sink, none) => serveRequests files options elapsed (served + 1) sink others

variable {requests : List Request} {stream : List UInt8}

/-- Two lines with the paths of a request are answered as the request. -/
lemma answer_encode (files : Files) (options : Options) (elapsed : Duration) (request : Request) :
    answer files options elapsed (Utf8.encode request.input.text)
        (Utf8.encode request.buffer.text) =
      (analyze files options elapsed request).map Report.bytes := by
  simp only [answer, request?, Utf8.text?_encode]
  cases analyze files options elapsed request <;> rfl

/-- Lines with the paths of some requests are served as the requests. -/
lemma serveLines_paths (files : Files) (options : Options) (elapsed : Duration)
    (requests : List Request) (served : ℕ) (sink : Sink) :
    serveLines files options elapsed served sink
        ((requests.flatMap Request.paths).map Utf8.encode) =
      serveRequests files options elapsed served sink requests := by
  induction requests generalizing served sink with
  | nil => rfl
  | cons request others ih =>
    simp only [List.flatMap_cons, Request.paths, List.cons_append, List.nil_append, List.map_cons,
      serveLines, answer_encode, serveRequests]
    cases analyze files options elapsed request with
    | error e => rfl
    | ok report =>
      simp only [Except.map]
      obtain ⟨sink, failure⟩ := sink.send report.bytes
      cases failure with
      | some e => rfl
      | none => exact ih (served + 1) sink

/-- A stream with the paths of some requests on its lines is served as the requests. -/
lemma serve_eq_serveRequests (hfits : ∀ path ∈ requests.flatMap Request.paths, Text.FitsLine path)
    (h : Text.Lined (requests.flatMap Request.paths) stream) (files : Files) (options : Options)
    (elapsed : Duration) (sink : Sink) :
    serve files options elapsed stream sink =
      serveRequests files options elapsed 0 sink requests := by
  rw [serve, h.lines_eq hfits, serveLines_paths]

/-- Requests whose paths fit on lines are answered in their order, and nothing else is, whatever the
lines end with.  So any two streams with the same paths come to the same service, with the same
result and the same bytes at the sink. -/
theorem serve_lined (files : Files) (options : Options) (elapsed : Duration) (sink : Sink)
    (hfits : ∀ request ∈ requests,
      Text.FitsLine request.input.text ∧ Text.FitsLine request.buffer.text)
    (h : Text.Lined (requests.flatMap Request.paths) stream) :
    serve files options elapsed stream sink =
        serveRequests files options elapsed 0 sink requests ∧
      ∀ other, Text.Lined (requests.flatMap Request.paths) other →
        serve files options elapsed other sink = serve files options elapsed stream sink := by
  have hpaths : ∀ path ∈ requests.flatMap Request.paths, Text.FitsLine path := by
    intro path hpath
    obtain ⟨request, hrequest, hmem⟩ := List.mem_flatMap.mp hpath
    obtain ⟨hinput, hbuffer⟩ := hfits request hrequest
    simp only [Request.paths, List.mem_cons, List.not_mem_nil, or_false] at hmem
    rcases hmem with rfl | rfl
    · exact hinput
    · exact hbuffer
  have hserve := serve_eq_serveRequests hpaths h files options elapsed sink
  refine ⟨hserve, fun other hother => ?_⟩
  rw [hserve, serve_eq_serveRequests hpaths hother]

/-- Two requests on lines with both ends, of which the last has none, and on lines that all end
alike. -/
theorem serve_lined_mixed :
    let files : Files := ⟨[], [(["é\r-"], .file [])]⟩
    let requests : List Request := [⟨⟨"/é\r-"⟩, ⟨"/./é\r-"⟩⟩, ⟨⟨""⟩, ⟨"/é\r-"⟩⟩]
    let stream := Utf8.encode "/é\r-\r\n/./é\r-\n\r\n/é\r-"
    let other := Utf8.encode "/é\r-\n/./é\r-\n\n/é\r-\n"
    (∀ request ∈ requests,
        Text.FitsLine request.input.text ∧ Text.FitsLine request.buffer.text) ∧
      Text.Lined (requests.flatMap Request.paths) stream ∧
      Text.Lined (requests.flatMap Request.paths) other ∧
      (serveRequests files ⟨true⟩ .zero 0 .unlimited requests).result =
        .error (.inputMissing ⟨""⟩) ∧
      serve files ⟨true⟩ .zero stream .unlimited =
        serveRequests files ⟨true⟩ .zero 0 .unlimited requests ∧
      serve files ⟨true⟩ .zero other .unlimited = serve files ⟨true⟩ .zero stream .unlimited := by
  intro files requests stream other
  have hname : Text.FitsLine "/é\r-" := ⟨by decide, by decide⟩
  have hdot : Text.FitsLine "/./é\r-" := ⟨by decide, by decide⟩
  have hempty : Text.FitsLine "" := ⟨by decide, by decide⟩
  have hfits : ∀ request ∈ requests,
      Text.FitsLine request.input.text ∧ Text.FitsLine request.buffer.text :=
    List.forall_mem_cons.mpr ⟨⟨hname, hdot⟩, List.forall_mem_singleton.mpr ⟨hempty, hname⟩⟩
  have hstream : Text.Lined (requests.flatMap Request.paths) stream :=
    .line "/é\r-" .returnAndFeed <| .line "/./é\r-" .feed <| .line "" .returnAndFeed <|
      .unended (by decide)
  have hother : Text.Lined (requests.flatMap Request.paths) other :=
    .line "/é\r-" .feed <| .line "/./é\r-" .feed <| .line "" .feed <| .line "/é\r-" .feed .nil
  have hserve := serve_lined files ⟨true⟩ .zero .unlimited hfits hstream
  exact ⟨hfits, hstream, hother, by decide +kernel, hserve.1, hserve.2 other hother⟩

end Server

end UvaAnalysis
