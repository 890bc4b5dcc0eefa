import UvaAnalysis.Server

/-!
# The command line

Arguments are flags and files.  They are read from left to right, and the first that cannot be read,
or that asks for the help or the version, settles the matter.  A flag has a long form and may have a
short one; several short flags may stand together behind one dash.  A flag takes no value, and it
may be given once.  After two dashes all arguments are files, and a single dash is a file too.  No
file may be empty.

With a file, or with a file and another that holds its content, the program writes one report.  As a
server it takes no files and answers the requests on its input.
-/

namespace UvaAnalysis.CommandLine

/-- The name of the program. -/
def programName : String := "uvalang-analyzer"

/-- What is printed for the version. -/
def versionText : String := programName ++ " 0.1.0\n"

/-- What is printed for the help. -/
def helpText : String :=
  String.join
    ["Lint findings and class cross-references for Uva sources, as JSON\n",
      "\n",
      "Usage: uvalang-analyzer [OPTIONS] [FILE]...\n",
      "\n",
      "Arguments:\n",
      "  [FILE]...  <input-file> [buffer-file]\n",
      "\n",
      "Options:\n",
      "      --server         Keep running and read requests (<input-file> and <buffer-file>, ",
      "one per line) from stdin\n",
      "      --report-faults  Include recovered lexer and parser faults in each report\n",
      "  -v, --verbose        Log debug output to stderr (RUST_LOG takes precedence)\n",
      "  -h, --help           Print help\n",
      "  -V, --version        Print version\n"]

/-- What is said when the number of files is not one or two. -/
def usageText : String :=
  "usage: uvalang-analyzer <input-file> [buffer-file] or uvalang-analyzer --server"

/-- What is said when a server is given files. -/
def serverUsageText : String :=
  "uvalang-analyzer --server takes no arguments. Write <input-file>\\n<buffer-file>\\n to stdin"

/-! ### Reading the arguments -/

/-- The flags that were given and the files in their order. -/
structure Settings where
  server : Bool := false
  reportFaults : Bool := false
  verbose : Bool := false
  files : List String := []
  deriving DecidableEq, Repr

/-- A flag. -/
inductive Flag where
  | server
  | reportFaults
  | verbose
  | help
  | version
  deriving DecidableEq, Repr

/-- What the arguments ask for. -/
inductive Demand where
  | help
  | version
  | run (settings : Settings)
  deriving DecidableEq, Repr

/-- The flag with a given long form, after its two dashes. -/
def Flag.ofLong? (text : String) : Option Flag :=
  match text with
  | "server" => some .server
  | "report-faults" => some .reportFaults
  | "verbose" => some .verbose
  | "help" => some .help
  | "version" => some .version
  | _ => none

/-- The flag with a given short form. -/
def Flag.ofShort? (c : Char) : Option Flag :=
  match c with
  | 'v' => some .verbose
  | 'h' => some .help
  | 'V' => some .version
  | _ => none

/-- What reading an argument comes to: it settles the matter, or reading goes on. -/
inductive Progress where
  | settled (demand : Option Demand)
  | onward (settings : Settings)
  deriving DecidableEq, Repr

namespace Settings

/-- Take a flag into account. -/
def addFlag (settings : Settings) : Flag → Progress
  | .server =>
    if settings.server then .settled none else .onward { settings with server := true }
  | .reportFaults =>
    if settings.reportFaults then .settled none
    else .onward { settings with reportFaults := true }
  | .verbose =>
    if settings.verbose then .settled none else .onward { settings with verbose := true }
  | .help => .settled (some .help)
  | .version => .settled (some .version)

/-- Take the short flags behind one dash into account. -/
def addShorts (settings : Settings) : List Char → Progress
  | [] => .onward settings
  | c :: rest =>
    match Flag.ofShort? c with
    | none => .settled none
    | some flag =>
      match settings.addFlag flag with
      | .onward settings => addShorts settings rest
      | settled => settled

/-- Take a file into account. -/
def addFile (settings : Settings) (file : String) : Progress :=
  if file = "" then .settled none
  else .onward { settings with files := settings.files ++ [file] }

/-- Take an argument before any two dashes into account. -/
def addArgument (settings : Settings) (argument : String) : Progress :=
  match argument.toList with
  | '-' :: '-' :: long =>
    match Flag.ofLong? (String.ofList long) with
    | none => .settled none
    | some flag => settings.addFlag flag
  | ['-'] => settings.addFile argument
  | '-' :: shorts => settings.addShorts shorts
  | _ => settings.addFile argument

/-- Read arguments that are all files. -/
def readFiles (settings : Settings) : List String → Option Demand
  | [] => some (.run settings)
  | file :: rest =>
    match settings.addFile file with
    | .onward settings => readFiles settings rest
    | .settled demand => demand

/-- Read arguments, some of which may be flags. -/
def readArguments (settings : Settings) : List String → Option Demand
  | [] => some (.run settings)
  | argument :: rest =>
    if argument = "--" then settings.readFiles rest
    else
      match settings.addArgument argument with
      | .onward settings => readArguments settings rest
      | .settled demand => demand

/-- What the settings say to do. -/
inductive Mode where
  | once (request : Request)
  | server
  deriving DecidableEq, Repr

/-- What the settings say to do, or what is wrong with the number of files. -/
def mode (settings : Settings) : Except String Mode :=
  if settings.server then
    if settings.files = [] then .ok .server else .error serverUsageText
  else
    match settings.files with
    | [input] => .ok (.once (.single ⟨input⟩))
    | [input, buffer] => .ok (.once ⟨⟨input⟩, ⟨buffer⟩⟩)
    | _ => .error usageText

/-- How reports are made under these settings. -/
def options (settings : Settings) : Options := ⟨settings.reportFaults⟩

end Settings

/-- What the arguments ask for, if they can be read. -/
def demand? (arguments : List String) : Option Demand :=
  Settings.readArguments {} arguments

/-! ### Running -/

/-- What the program says when it ends without success. -/
inductive Complaint where
  /-- The arguments cannot be read. -/
  | arguments
  | failure (text : String)
  deriving DecidableEq, Repr

/-- What a run of the program comes to. -/
structure Outcome where
  output : List UInt8
  complaint : Option Complaint
  deriving DecidableEq, Repr

/-- The exit status: zero for success and one for every failure. -/
def Outcome.status (outcome : Outcome) : Nat :=
  if outcome.complaint.isNone then 0 else 1

/-- What a server says about the error that ended it. -/
def serverFailure (e : AnalysisError) : Complaint :=
  .failure ("server stopped: " ++ e.chain)

/-- Do what the settings say. -/
def Settings.run (settings : Settings) (files : Files) (elapsed : Duration)
    (input : List UInt8) : Outcome :=
  match settings.mode with
  | .error text => ⟨[], some (.failure text)⟩
  | .ok (.once request) =>
    match analyze files settings.options elapsed request with
    | .ok report => ⟨report.bytes, none⟩
    | .error e => ⟨[], some (.failure e.chain)⟩
  | .ok .server =>
    let service := Server.serve files settings.options elapsed input .unlimited
    match service.result with
    | .ok _ => ⟨service.sink.written, none⟩
    | .error e => ⟨service.sink.written, some (serverFailure e)⟩

/-- Run the program. -/
def run (files : Files) (elapsed : Duration) (arguments : List String) (input : List UInt8) :
    Outcome :=
  match demand? arguments with
  | none => ⟨[], some .arguments⟩
  | some .help => ⟨Utf8.encode helpText, none⟩
  | some .version => ⟨Utf8.encode versionText, none⟩
  | some (.run settings) => settings.run files elapsed input

end UvaAnalysis.CommandLine
