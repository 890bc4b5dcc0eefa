import UvaAnalysis.CommandLine

/-!
# The program

The command line on a real system.  For each request the files that it can touch are gathered from
the disk into a snapshot, and the report is that of the snapshot: first the two files of the
request, then, as long as an include names a file that was not looked for yet, that file too.

As a server the program reads a request, answers it and flushes its output before it reads the next
one.  With the verbose flag the faults of each source are written to the error stream.
-/

namespace UvaAnalysis.Program

/-- What is found on the disk under an absolute path. -/
def entryOnDisk (path : Path) : IO (Option Entry) := do
  let onDisk := (← IO.currentDir) / path.text
  if ← onDisk.isDir then
    return some .directory
  else
    try
      return some (.file (← IO.FS.readBinFile onDisk).toList)
    catch _ =>
      return none

/-- Put all that is met along a path into a snapshot. -/
def gather (files : Files) (path : Path) : IO Files := do
  let mut files := files
  let mut place := if path.isAbsolute then [] else files.workingPlace
  for stretch in path.stretches do
    if stretch = ".." then
      place := place.dropLast
    else if stretch ≠ "" ∧ stretch ≠ "." then
      place := place ++ [stretch]
      match ← entryOnDisk (.ofComponents (.root :: place.map .name)) with
      | some entry => files := files.put place entry
      | none => return files
  return files

/-- The included files that a snapshot does not have. -/
def missingIncludes (sources : Sources) (files : Files) : List Path :=
  (sources.tokens files).faults.filterMap fun
    | .includeUnreadable path _ => some path
    | _ => none

/-- Put the included files into a snapshot; those in `sought` were looked for before. -/
partial def gatherIncludes (sources : Sources) (sought : List Path) (files : Files) :
    IO Files := do
  match (missingIncludes sources files).filter (· ∉ sought) with
  | [] => return files
  | missing => gatherIncludes sources (missing ++ sought) (← missing.foldlM gather files)

/-- The snapshot of all files that a request can touch. -/
def snapshot (request : Request) : IO Files := do
  let workingDirectory : Path := ⟨(← IO.currentDir).toString⟩
  let files := Files.empty ((Files.empty []).placeOf workingDirectory)
  let files ← gather (← gather files request.input) request.buffer
  match request.load files with
  | .error _ => return files
  | .ok sources => gatherIncludes sources [] files

/-- The report on a request, with the time that it took. -/
def reportOn (settings : CommandLine.Settings) (request : Request) :
    IO (Except AnalysisError Report) := do
  let started ← IO.monoNanosNow
  let files ← snapshot request
  match analyze files ⟨true⟩ .zero request with
  | .error e => return .error e
  | .ok report =>
    let elapsed := Duration.ofNanoseconds ((← IO.monoNanosNow) - started)
    if settings.verbose then
      for fault in report.faults do
        IO.eprintln fault
    let faults := if settings.reportFaults then report.faults else []
    return .ok { report with elapsed, faults }

/-- Write a report and flush the output. -/
def send (report : Report) : IO Unit := do
  let output ← IO.getStdout
  output.write ⟨report.bytes.toArray⟩
  output.flush

/-- The bytes of the input up to and including the next line feed, or up to its end. -/
partial def readStretch (input : IO.FS.Stream) (before : Array UInt8) : IO (List UInt8) := do
  let next ← input.read 1
  match next.toList with
  | [] => return before.toList
  | byte :: _ =>
    if byte = Text.lineFeed then return (before.push byte).toList
    else readStretch input (before.push byte)

/-- The next line of the input, if it has not ended. -/
def readLine : IO (Option (List UInt8)) := do
  return (Text.lines (← readStretch (← IO.getStdin) #[])).head?

/-- Answer the requests on the input. -/
partial def serve (settings : CommandLine.Settings) : IO (Except AnalysisError Unit) := do
  match ← readLine with
  | none => return .ok ()
  | some first =>
    match ← readLine with
    | none =>
      return if Utf8.isWellFormed first then .ok () else .error .requestUnreadable
    | some second =>
      match Server.request? first second with
      | none => return .error .requestUnreadable
      | some request =>
        match ← reportOn settings request with
        | .error e => return .error e
        | .ok report =>
          send report
          serve settings

/-- Do what the settings say, and tell what there is to complain about. -/
def perform (settings : CommandLine.Settings) : IO (Option CommandLine.Complaint) := do
  match settings.mode with
  | .error text => return some (.failure text)
  | .ok (.once request) =>
    match ← reportOn settings request with
    | .error e => return some (.failure e.chain)
    | .ok report =>
      send report
      return none
  | .ok .server =>
    match ← serve settings with
    | .error e => return some (CommandLine.serverFailure e)
    | .ok () => return none

/-- Write a complaint to the error stream. -/
def complain : CommandLine.Complaint → IO Unit
  | .arguments => do
    IO.eprintln "error: the arguments cannot be read"
    IO.eprintln "For more information, try '--help'."
  | .failure text => IO.eprintln ("error: " ++ text)

end UvaAnalysis.Program

open UvaAnalysis in
/-- Run the program with the given arguments; the status is zero for success and one otherwise. -/
def main (arguments : List String) : IO UInt32 := do
  match CommandLine.demand? arguments with
  | none =>
    Program.complain .arguments
    return 1
  | some .help =>
    IO.print CommandLine.helpText
    return 0
  | some .version =>
    IO.print CommandLine.versionText
    return 0
  | some (.run settings) =>
    match ← Program.perform settings with
    | none => return 0
    | some complaint =>
      Program.complain complaint
      return 1
