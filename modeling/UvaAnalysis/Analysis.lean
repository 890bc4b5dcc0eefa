import UvaAnalysis.Report
import UvaAnalysis.Tree.Statement

/-!
# Analysis

From a request to its report.  Once the files of a request are loaded nothing can fail: each stage
goes on with what the one before could make of the source, and the faults are collected.
-/

namespace UvaAnalysis

/-- How reports are made. -/
structure Options where
  /-- Whether reports tell of faults. -/
  reportFaults : Bool
  deriving DecidableEq, Repr

/-- The report on loaded sources. -/
def Sources.report (sources : Sources) (files : Files) (options : Options) (elapsed : Duration) :
    Report :=
  let tokens := sources.tokens files
  let tree := Tree.parse tokens.value
  { findings := UvaAnalysis.findings standardRules (sources.byteAt files) tokens.value
    declarations := tree.value.declarations tokens.value
    elapsed
    faults :=
      if options.reportFaults then (tokens.faults ++ tree.faults).map Fault.message else [] }

/-- The report on a request, which takes the time `elapsed`. -/
def analyze (files : Files) (options : Options) (elapsed : Duration) (request : Request) :
    Except AnalysisError Report :=
  match request.load files with
  | .error e => .error e
  | .ok sources => .ok (sources.report files options elapsed)

end UvaAnalysis
