import NullLint.Diagnostic
import NullLint.Fix.TextChange

/-!
# Results of a run

One report for each file that could be read. With a limit on diagnostics the first ones are
kept, over all reports, and the others are counted.
-/

namespace NullLint

/-- What a run has to say about a file. -/
structure FileReport where
  file : String
  diagnostics : List Diagnostic
  /-- The passes that changed the file. -/
  fixes : List FixInfo := []
  /-- The fixed text, if it is shown and not written. -/
  fixedText : Option String := none
  /-- The text that the diagnostics refer to. -/
  source : String
  deriving Repr

/-- Everything that a run found. -/
structure RunResult where
  reports : List FileReport
  filesRead : List String
  /-- Diagnostics left out by the limit. -/
  omitted : Nat := 0
  deriving Repr

namespace FileReport

/-- Keeps the first `max` diagnostics over all reports; also counts the others. -/
def truncate : Nat → List FileReport → List FileReport × Nat
  | _, [] => ([], 0)
  | max, r :: rs =>
    let kept := min r.diagnostics.length max
    let (rest, omitted) := truncate (max - kept) rs
    ({ r with diagnostics := r.diagnostics.take kept } :: rest,
      r.diagnostics.length - kept + omitted)

end FileReport

namespace RunResult

/-- The diagnostics of all reports. -/
def diagnostics (r : RunResult) : List Diagnostic := r.reports.flatMap FileReport.diagnostics

/-- Number of diagnostics that are shown. -/
def diagnosticCount (r : RunResult) : Nat := r.diagnostics.length

/-- The passes that changed a file. -/
def fixes (r : RunResult) : List FixInfo := r.reports.flatMap FileReport.fixes

/-- Number of operators removed. -/
def fixedCount (r : RunResult) : Nat := (r.fixes.flatMap FixInfo.changes).length

def hasDiagnostics (r : RunResult) : Bool := 0 < r.diagnosticCount + r.omitted

/-- Applies a limit on diagnostics. -/
def limit (r : RunResult) : Option Nat → RunResult
  | none => r
  | some max =>
    let (reports, omitted) := FileReport.truncate max r.reports
    { r with reports, omitted }

end RunResult

end NullLint
