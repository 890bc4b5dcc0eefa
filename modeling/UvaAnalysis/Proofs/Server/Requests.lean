import Mathlib.Data.List.Induction
import Mathlib.Data.List.Infix
import UvaAnalysis.Proofs.Server.Sink

/-!
# A service is its requests, one by one

A server that loses nothing on the way to its sink does what would be done for each of its requests
alone (`serve_independent_requests`).  The requests are pairs of consecutive lines.  The leading
ones that can be read and analyzed are answered, with their reports and nothing between these; the
first one that cannot ends the service with its own error, and so does a line that is malformed.

`Serves` says this of the lines by their numbers.  Any lines have one outcome of which it holds
(`exists_serves`, `Serves.unique`), and that is what the server comes to (`Serves.serveLines_eq`).
-/

namespace UvaAnalysis.Server

/-- The request number `i` in some lines: the lines number `2 * i` and `2 * i + 1` spell its
paths. -/
def RequestAt (lines : List (List UInt8)) (i : ℕ) (request : Request) : Prop :=
  ∃ first second, lines[2 * i]? = some first ∧ lines[2 * i + 1]? = some second ∧
    Utf8.text? first = some request.input.text ∧ Utf8.text? second = some request.buffer.text

section

variable (files : Files) (options : Options) (elapsed : Duration)

/-- The request number `i` can be read and analyzed, and this is its report. -/
def Answers (lines : List (List UInt8)) (i : ℕ) (report : Report) : Prop :=
  ∃ request, RequestAt lines i request ∧ analyze files options elapsed request = .ok report

/-- How a service ends when these lines remain: how many of them it reads, and the error if there is
one. -/
inductive Ends : List (List UInt8) → ℕ → Option AnalysisError → Prop where
  /-- No line remains. -/
  | exhausted : Ends [] 0 none
  /-- The last line has no other to go with it. -/
  | unpaired {line : List UInt8} (h : Utf8.isWellFormed line = true) : Ends [line] 1 none
  /-- The path of the file to analyze is malformed, whether or not another line follows. -/
  | inputUnreadable {line : List UInt8} (others : List (List UInt8))
      (h : Utf8.isWellFormed line = false) :
      Ends (line :: others) 1 (some .requestUnreadable)
  /-- The path of the content is malformed. -/
  | bufferUnreadable {first second : List UInt8} (others : List (List UInt8))
      (hfirst : Utf8.isWellFormed first = true) (hsecond : Utf8.isWellFormed second = false) :
      Ends (first :: second :: others) 2 (some .requestUnreadable)
  /-- The request can be read, but not analyzed. -/
  | refused {first second : List UInt8} (others : List (List UInt8)) {request : Request}
      {e : AnalysisError} (hrequest : RequestAt [first, second] 0 request)
      (hanalyze : analyze files options elapsed request = .error e) :
      Ends (first :: second :: others) 2 (some e)

/-- What a service makes of some lines: the reports on the leading requests, the number of lines
that are read after these, and the error if there is one. -/
structure Serves (lines : List (List UInt8)) (reports : List Report) (more : ℕ)
    (failure : Option AnalysisError) : Prop where
  answers : ∀ i (h : i < reports.length), Answers files options elapsed lines i reports[i]
  ends : Ends files options elapsed (lines.drop (2 * reports.length)) more failure

end

/-- The result of a service: the number of answers, unless there is an error. -/
def resultOf (answered : ℕ) : Option AnalysisError → Except AnalysisError ℕ
  | none => .ok answered
  | some e => .error e

section

variable {files : Files} {options : Options} {elapsed : Duration}
variable {lines rest other : List (List UInt8)} {first second : List UInt8} {more : ℕ}
variable {more' : ℕ} {request request' : Request}
variable {report report' : Report} {reports reports' : List Report}
variable {failure failure' : Option AnalysisError} {e : AnalysisError}

/-! ### One request -/

/-- Two lines are a request when both are well-formed, and it has their texts. -/
lemma request?_eq_some_iff :
    request? first second = some request ↔ RequestAt (first :: second :: rest) 0 request := by
  have hiff : request? first second = some request ↔
      Utf8.text? first = some request.input.text ∧
        Utf8.text? second = some request.buffer.text := by
    obtain ⟨⟨input⟩, ⟨buffer⟩⟩ := request
    unfold request?
    cases Utf8.text? first <;> cases Utf8.text? second <;> simp
  rw [hiff]
  constructor
  · rintro ⟨hinput, hbuffer⟩
    exact ⟨first, second, rfl, rfl, hinput, hbuffer⟩
  · rintro ⟨first', second', hfirst, hsecond, hinput, hbuffer⟩
    obtain rfl := Option.some.inj hfirst
    obtain rfl := Option.some.inj hsecond
    exact ⟨hinput, hbuffer⟩

/-- Two lines are no request when one of them is malformed. -/
lemma request?_eq_none_iff :
    request? first second = none ↔
      Utf8.isWellFormed first = false ∨
        Utf8.isWellFormed first = true ∧ Utf8.isWellFormed second = false := by
  unfold request? Utf8.text?
  cases Utf8.isWellFormed first <;> cases Utf8.isWellFormed second <;> simp

/-- A request is answered with its report. -/
lemma answer_of_answers (h : Answers files options elapsed (first :: second :: rest) 0 report) :
    answer files options elapsed first second = .ok report.bytes := by
  obtain ⟨request, hrequest, hreport⟩ := h
  simp only [answer, request?_eq_some_iff.mpr hrequest, hreport]

/-- A request that cannot be analyzed is answered with the error. -/
lemma answer_of_refused (h : RequestAt (first :: second :: rest) 0 request)
    (hanalyze : analyze files options elapsed request = .error e) :
    answer files options elapsed first second = .error e := by
  simp only [answer, request?_eq_some_iff.mpr h, hanalyze]

/-- Lines that are no request are answered with an error. -/
lemma answer_of_malformed (h : request? first second = none) :
    answer files options elapsed first second = .error .requestUnreadable := by
  simp only [answer, h]

/-! ### One outcome after another -/

/-- A request in front that is answered. -/
lemma Serves.cons_cons (hreport : Answers files options elapsed (first :: second :: rest) 0 report)
    (h : Serves files options elapsed rest reports more failure) :
    Serves files options elapsed (first :: second :: rest) (report :: reports) more failure := by
  refine ⟨fun i hi => ?_, h.ends⟩
  cases i with
  | zero => exact hreport
  | succ i => exact h.answers i (Nat.lt_of_succ_lt_succ hi)

/-- What is served begins with the two lines of the request that is answered first. -/
lemma Serves.exists_cons_cons
    (h : Serves files options elapsed lines (report :: reports) more failure) :
    ∃ first second rest, lines = first :: second :: rest ∧
      Answers files options elapsed (first :: second :: rest) 0 report ∧
      Serves files options elapsed rest reports more failure := by
  have hreport := h.answers 0 (Nat.succ_pos _)
  obtain ⟨request, ⟨first, second, hfirst, hsecond, _, _⟩, _⟩ := id hreport
  match lines, hfirst, hsecond with
  | first :: second :: rest, _, _ =>
    refine ⟨first, second, rest, rfl, hreport, fun i hi => ?_, h.ends⟩
    exact h.answers (i + 1) (Nat.succ_lt_succ hi)

/-- Some outcome is that of a service, whatever the lines are. -/
theorem exists_serves (files : Files) (options : Options) (elapsed : Duration)
    (lines : List (List UInt8)) :
    ∃ reports more failure, Serves files options elapsed lines reports more failure := by
  -- An outcome without reports is how the service ends.
  have hends {lines : List (List UInt8)} {more : ℕ} {failure : Option AnalysisError}
      (h : Ends files options elapsed lines more failure) :
      ∃ reports more failure, Serves files options elapsed lines reports more failure :=
    ⟨[], more, failure, fun i hi => absurd hi (Nat.not_lt_zero i), h⟩
  induction lines using List.twoStepInduction with
  | nil => exact hends .exhausted
  | singleton line =>
    cases hline : Utf8.isWellFormed line with
    | true => exact hends (.unpaired hline)
    | false => exact hends (.inputUnreadable [] hline)
  | cons_cons first second rest ih _ =>
    cases hrequest : request? first second with
    | none =>
      rcases request?_eq_none_iff.mp hrequest with hfirst | ⟨hfirst, hsecond⟩
      · exact hends (.inputUnreadable (second :: rest) hfirst)
      · exact hends (.bufferUnreadable rest hfirst hsecond)
    | some request =>
      cases hanalyze : analyze files options elapsed request with
      | error e =>
        exact hends (.refused rest (request?_eq_some_iff.mp hrequest) hanalyze)
      | ok report =>
        obtain ⟨reports, more, failure, h⟩ := ih
        have hreport : Answers files options elapsed (first :: second :: rest) 0 report :=
          ⟨request, request?_eq_some_iff.mp hrequest, hanalyze⟩
        exact ⟨report :: reports, more, failure, h.cons_cons hreport⟩

/-! ### No other outcome -/

/-- Two lines are one request at most. -/
lemma RequestAt.unique (h : RequestAt (first :: second :: rest) 0 request)
    (h' : RequestAt (first :: second :: rest) 0 request') : request' = request := by
  rw [← request?_eq_some_iff] at h h'
  exact Option.some.inj (h'.symm.trans h)

/-- The lines of a request are well-formed. -/
lemma RequestAt.isWellFormed (h : RequestAt (first :: second :: rest) 0 request) :
    Utf8.isWellFormed first = true ∧ Utf8.isWellFormed second = true := by
  have hsome : request? first second ≠ none := by
    rw [request?_eq_some_iff.mpr h]
    exact Option.some_ne_none _
  rw [ne_eq, request?_eq_none_iff, not_or, Bool.not_eq_false] at hsome
  obtain ⟨hfirst, hsecond⟩ := hsome
  exact ⟨hfirst, by simpa [hfirst] using hsecond⟩

/-- A request has one report. -/
lemma Answers.unique (h : Answers files options elapsed (first :: second :: rest) 0 report)
    (h' : Answers files options elapsed (first :: second :: rest) 0 report') :
    report' = report := by
  obtain ⟨request, hrequest, hreport⟩ := h
  obtain ⟨request', hrequest', hreport'⟩ := h'
  obtain rfl := hrequest.unique hrequest'
  exact Except.ok.inj (hreport'.symm.trans hreport)

/-- A service does not end before a request that has a report. -/
lemma Ends.not_answers (h : Ends files options elapsed (first :: second :: rest) more failure) :
    ¬ Answers files options elapsed (first :: second :: rest) 0 report := by
  rintro ⟨request, hrequest, hreport⟩
  cases h with
  | inputUnreadable _ hline =>
    rw [hrequest.isWellFormed.1] at hline
    cases hline
  | bufferUnreadable _ _ hsecond =>
    rw [hrequest.isWellFormed.2] at hsecond
    cases hsecond
  | refused _ hrequest' hanalyze =>
    obtain rfl := RequestAt.unique hrequest hrequest'
    rw [hreport] at hanalyze
    cases hanalyze

/-- A service ends in one way. -/
lemma Ends.unique (h : Ends files options elapsed lines more failure)
    (h' : Ends files options elapsed lines more' failure') :
    more' = more ∧ failure' = failure := by
  -- A line is either well-formed or not, so at most one of the cases is about given lines.
  have hnot {line : List UInt8} (hline : Utf8.isWellFormed line = true) :
      Utf8.isWellFormed line ≠ false := by
    rw [hline]
    exact Bool.noConfusion
  cases h with
  | exhausted =>
    cases h'
    exact ⟨rfl, rfl⟩
  | unpaired hline =>
    cases h' with
    | unpaired => exact ⟨rfl, rfl⟩
    | inputUnreadable _ hline' => exact absurd hline' (hnot hline)
  | inputUnreadable _ hline =>
    cases h' with
    | unpaired hline' => exact absurd hline (hnot hline')
    | inputUnreadable => exact ⟨rfl, rfl⟩
    | bufferUnreadable _ hfirst => exact absurd hline (hnot hfirst)
    | refused _ hrequest => exact absurd hline (hnot hrequest.isWellFormed.1)
  | bufferUnreadable _ hfirst hsecond =>
    cases h' with
    | inputUnreadable _ hline => exact absurd hline (hnot hfirst)
    | bufferUnreadable => exact ⟨rfl, rfl⟩
    | refused _ hrequest => exact absurd hsecond (hnot hrequest.isWellFormed.2)
  | refused _ hrequest hanalyze =>
    cases h' with
    | inputUnreadable _ hline => exact absurd hline (hnot hrequest.isWellFormed.1)
    | bufferUnreadable _ _ hsecond => exact absurd hsecond (hnot hrequest.isWellFormed.2)
    | refused _ hrequest' hanalyze' =>
      obtain rfl := hrequest.unique hrequest'
      obtain rfl := Except.error.inj (hanalyze.symm.trans hanalyze')
      exact ⟨rfl, rfl⟩

/-- Any lines have one outcome of a service. -/
theorem Serves.unique (h : Serves files options elapsed lines reports more failure)
    (h' : Serves files options elapsed lines reports' more' failure') :
    reports' = reports ∧ more' = more ∧ failure' = failure := by
  induction reports generalizing lines reports' with
  | nil =>
    have hends : Ends files options elapsed lines more failure := h.ends
    cases reports' with
    | nil => exact ⟨rfl, hends.unique h'.ends⟩
    | cons report' reports' =>
      obtain ⟨first, second, rest, rfl, hreport, _⟩ := h'.exists_cons_cons
      exact absurd hreport hends.not_answers
  | cons report reports ih =>
    obtain ⟨first, second, rest, rfl, hreport, hrest⟩ := h.exists_cons_cons
    cases reports' with
    | nil =>
      have hends : Ends files options elapsed (first :: second :: rest) more' failure' := h'.ends
      exact absurd hreport hends.not_answers
    | cons report' reports' =>
      obtain ⟨_, _, _, heq, hreport', hrest'⟩ := h'.exists_cons_cons
      cases heq
      obtain ⟨rfl, rest⟩ := ih hrest hrest'
      exact ⟨by rw [hreport.unique hreport'], rest⟩

/-! ### What the server does -/

/-- A sink that loses nothing takes the whole report. -/
lemma send_of_unlimited {sink : Sink} (hcapacity : sink.capacity = none)
    (hacknowledges : sink.acknowledges = true) (bytes : List UInt8) :
    sink.send bytes = ({ sink with written := sink.written ++ bytes }, none) := by
  simp [Sink.send, Sink.fitting, hcapacity, hacknowledges]

/-- A service that ends sends nothing more. -/
lemma Ends.serveLines_eq (h : Ends files options elapsed lines more failure) (served : ℕ)
    (sink : Sink) :
    serveLines files options elapsed served sink lines = ⟨resultOf served failure, sink⟩ := by
  cases h with
  | exhausted => rfl
  | unpaired hline => simp only [serveLines, hline, if_true, resultOf]
  | @inputUnreadable line others hline =>
    cases others with
    | nil => simp only [serveLines, hline, Bool.false_eq_true, if_false, resultOf]
    | cons second rest =>
      have hrequest : request? line second = none := request?_eq_none_iff.mpr (.inl hline)
      have hanswer : answer files options elapsed line second = .error .requestUnreadable :=
        answer_of_malformed hrequest
      simp only [serveLines, hanswer, resultOf]
  | @bufferUnreadable first second others hfirst hsecond =>
    have hrequest : request? first second = none :=
      request?_eq_none_iff.mpr (.inr ⟨hfirst, hsecond⟩)
    have hanswer : answer files options elapsed first second = .error .requestUnreadable :=
      answer_of_malformed hrequest
    simp only [serveLines, hanswer, resultOf]
  | refused others hrequest hanalyze =>
    simp only [serveLines, answer_of_refused hrequest hanalyze, resultOf]

/-- A server with a sink that acknowledges everything comes to every outcome of a service, up to the
room in the sink. -/
theorem Serves.serveLines_took (h : Serves files options elapsed lines reports more failure)
    (served : ℕ) {sink : Sink} (hacknowledges : sink.acknowledges = true) :
    serveLines files options elapsed served sink lines =
      ⟨if sink.fitting (reports.flatMap Report.bytes) = reports.flatMap Report.bytes then
          resultOf (served + reports.length) failure
        else .error .reportTruncated,
        sink.took (reports.flatMap Report.bytes)⟩ := by
  induction reports generalizing lines served sink with
  | nil =>
    have hends : Ends files options elapsed lines more failure := h.ends
    rw [hends.serveLines_eq, List.flatMap_nil, Sink.took_of_fitting_nil sink.fitting_nil,
      if_pos sink.fitting_nil]
    rfl
  | cons report reports ih =>
    obtain ⟨first, second, rest, rfl, hreport, hrest⟩ := h.exists_cons_cons
    simp only [serveLines, answer_of_answers hreport, Sink.send_eq, hacknowledges, if_true,
      List.flatMap_cons, Sink.fitting_append_eq_iff, Sink.took_append]
    by_cases hfits : sink.fitting report.bytes = report.bytes
    · have hserved := @ih rest hrest (served + 1) (sink.took report.bytes) hacknowledges
      simp only [hfits, if_true, true_and, hserved, List.length_cons, Nat.add_assoc,
        Nat.add_comm 1]
    · simp only [hfits, if_false, false_and, Sink.took_of_fitting_nil (Sink.fitting_of_cut hfits _)]

/-- A server with a sink that loses nothing comes to every outcome of a service. -/
theorem Serves.serveLines_eq (h : Serves files options elapsed lines reports more failure)
    (served : ℕ) {sink : Sink} (hcapacity : sink.capacity = none)
    (hacknowledges : sink.acknowledges = true) :
    serveLines files options elapsed served sink lines =
      ⟨resultOf (served + reports.length) failure,
        { sink with written := sink.written ++ reports.flatMap Report.bytes }⟩ := by
  have hfits : sink.fitting (reports.flatMap Report.bytes) = reports.flatMap Report.bytes := by
    rw [Sink.fitting, hcapacity]
  rw [h.serveLines_took served hacknowledges, if_pos hfits, Sink.took, hfits]

/-! ### What follows a failure -/

/-- An error does not depend on the lines that are not read. -/
lemma Ends.of_take_prefix (h : Ends files options elapsed lines more (some e))
    (hlines : lines.take more <+: other) : Ends files options elapsed other more (some e) := by
  obtain ⟨others, rfl⟩ := hlines
  cases h with
  | inputUnreadable _ hline => exact .inputUnreadable others hline
  | bufferUnreadable _ hfirst hsecond => exact .bufferUnreadable others hfirst hsecond
  | refused _ hrequest hanalyze => exact .refused others hrequest hanalyze

/-- A service that fails makes the same of other lines, if those that are read are the same. -/
lemma Serves.of_take_prefix (h : Serves files options elapsed lines reports more (some e))
    (hlines : lines.take (2 * reports.length + more) <+: other) :
    Serves files options elapsed other reports more (some e) := by
  have hline {k : ℕ} {line : List UInt8} (hk : k < 2 * reports.length)
      (hline : lines[k]? = some line) : other[k]? = some line := by
    have htake : (lines.take (2 * reports.length + more))[k]? = some line := by
      rw [List.getElem?_take_of_lt (by omega), hline]
    obtain ⟨hlt, hget⟩ := List.getElem?_eq_some_iff.mp htake
    rw [List.prefix_iff_getElem?.mp hlines k hlt, hget]
  refine ⟨fun i hi => ?_, h.ends.of_take_prefix ?_⟩
  · obtain ⟨request, ⟨first, second, hfirst, hsecond, htexts⟩, hreport⟩ := h.answers i hi
    exact ⟨request, ⟨first, second, hline (by omega) hfirst, hline (by omega) hsecond, htexts⟩,
      hreport⟩
  · have hdrop := hlines.drop (2 * reports.length)
    rwa [List.drop_take, Nat.add_sub_cancel_left] at hdrop

end

/-- A server whose sink loses nothing answers the leading requests in its lines that can be read and
analyzed, each with its own report, and sends the reports one after the other with nothing between
them.  The result is their number, or the error of the first line or request that fails; and then it
does not matter what follows that. -/
theorem serve_independent_requests (files : Files) (options : Options) (elapsed : Duration)
    (stream : List UInt8) {sink : Sink} (hcapacity : sink.capacity = none)
    (hacknowledges : sink.acknowledges = true) :
    ∃ reports more failure,
      Serves files options elapsed (Text.lines stream) reports more failure ∧
      serve files options elapsed stream sink =
        ⟨resultOf reports.length failure,
          { sink with written := sink.written ++ reports.flatMap Report.bytes }⟩ ∧
      (failure ≠ none → ∀ other,
        (Text.lines stream).take (2 * reports.length + more) <+: Text.lines other →
          serve files options elapsed other sink = serve files options elapsed stream sink) := by
  obtain ⟨reports, more, failure, h⟩ := exists_serves files options elapsed (Text.lines stream)
  have heq := h.serveLines_eq 0 hcapacity hacknowledges
  rw [Nat.zero_add] at heq
  refine ⟨reports, more, failure, h, heq, fun hfailure other hlines => ?_⟩
  obtain ⟨e, rfl⟩ := Option.ne_none_iff_exists'.mp hfailure
  have hother := (h.of_take_prefix hlines).serveLines_eq 0 hcapacity hacknowledges
  rw [Nat.zero_add] at hother
  exact hother.trans heq.symm

/-- A service of three requests, with either end of a line, of which the second asks for a file that
does not exist: the first is answered, and of the second both lines are read. -/
theorem serve_independent_requests_missing :
    let files : Files := ⟨[], [(["m"], .file (Utf8.encode "class A end"))]⟩
    let stream := Utf8.encode "/m\n/m\r\n/x\r\n/m\n/m\n/m\n"
    let name : Reference := ⟨⟨"/m"⟩, ⟨1, 7, 6⟩⟩
    let report : Report := ⟨[], [⟨"A", name.file, name.position, [name]⟩], .zero, []⟩
    Serves files ⟨true⟩ .zero (Text.lines stream) [report] 2 (some (.inputMissing ⟨"/x"⟩)) ∧
      serve files ⟨true⟩ .zero stream .unlimited =
        ⟨.error (.inputMissing ⟨"/x"⟩), { Sink.unlimited with written := report.bytes }⟩ ∧
      ∀ other, (Text.lines stream).take 4 <+: Text.lines other →
        serve files ⟨true⟩ .zero other .unlimited =
          serve files ⟨true⟩ .zero stream .unlimited := by
  intro files stream name report
  have hlines : Text.lines stream =
      ["/m", "/m", "/x", "/m", "/m", "/m"].map Utf8.encode := by decide +kernel
  have hanswer : Answers files ⟨true⟩ .zero (Text.lines stream) 0 report := by
    rw [hlines]
    have hrequest : RequestAt (["/m", "/m", "/x", "/m", "/m", "/m"].map Utf8.encode) 0
        ⟨⟨"/m"⟩, ⟨"/m"⟩⟩ := ⟨_, _, rfl, rfl, by decide +kernel, by decide +kernel⟩
    exact ⟨_, hrequest, by decide +kernel⟩
  have hserves : Serves files ⟨true⟩ .zero (Text.lines stream) [report] 2
      (some (.inputMissing ⟨"/x"⟩)) := by
    have hrequest : RequestAt [Utf8.encode "/x", Utf8.encode "/m"] 0 ⟨⟨"/x"⟩, ⟨"/m"⟩⟩ :=
      ⟨_, _, rfl, rfl, by decide +kernel, by decide +kernel⟩
    have hanalyze : analyze files ⟨true⟩ .zero ⟨⟨"/x"⟩, ⟨"/m"⟩⟩ =
        .error (.inputMissing ⟨"/x"⟩) := by decide +kernel
    rw [hlines] at hanswer ⊢
    refine Serves.cons_cons hanswer ⟨fun i hi => absurd hi (Nat.not_lt_zero i), ?_⟩
    exact .refused _ hrequest hanalyze
  obtain ⟨reports, more, failure, houtcome, heq, hother⟩ :=
    @serve_independent_requests files ⟨true⟩ .zero stream .unlimited rfl rfl
  obtain ⟨hreports, hmore, rfl⟩ := hserves.unique houtcome
  have hwritten : Sink.unlimited.written ++ reports.flatMap Report.bytes = report.bytes := by
    rw [hreports, List.flatMap_singleton, Sink.unlimited, List.nil_append]
  rw [hwritten, hreports] at heq
  rw [hreports, hmore] at hother
  exact ⟨hserves, heq, hother (Option.some_ne_none _)⟩

end UvaAnalysis.Server
