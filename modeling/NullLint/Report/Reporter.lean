import NullLint.Report.RunResult
import NullLint.Report.Snippet
import NullLint.Report.Style

/-!
# Text reports

A diagnostic is shown as `file:line:column - severity code: message`, followed by a snippet. A
file without a known source has neither a place nor a snippet.
-/

namespace NullLint

/-- Knows the sources that diagnostics refer to. -/
structure Reporter where
  color : Bool
  sources : List (String × LineMap) := []

namespace Reporter

/-- Gives a file its source, in place of one given before. -/
def addSource (r : Reporter) (file text : String) : Reporter :=
  { r with sources := (file, .ofText text) :: r.sources }

/-- The source of a file; a file without a name has none. -/
def source? (r : Reporter) (file : String) : Option LineMap :=
  if file = "" then none else r.sources.lookup file

/-- What is shown for a file without a name. -/
def unknownFile : String := "<unknown>"

/-- File, line and column, counted from one. -/
def location (r : Reporter) (d : Diagnostic) : String :=
  match r.source? d.file with
  | some source =>
    let p := source.position d.start
    Style.location.paintIf r.color s!"{d.file}:{p.line + 1}:{p.character + 1}"
  | none => if d.file = "" then unknownFile else d.file

/-- The line in which a diagnostic starts, with its span underlined; none for an empty span. -/
def snippet? (r : Reporter) (d : Diagnostic) : Option String := do
  let source ← r.source? d.file
  if d.length = 0 then none
  else
    let line := (source.position d.start).line
    let cs ← source.lineChars? line
    let offset ← source.starts[line]?
    let marks := String.ofList (Snippet.underline d.start d.stop offset cs)
    return "\n" ++ String.ofList (Snippet.sourceLine (line + 1) cs) ++ "\n" ++
      String.ofList Snippet.indent ++ Style.underline.paintIf r.color marks

/-- One diagnostic. -/
def format (r : Reporter) (d : Diagnostic) : String :=
  let severity := (Style.ofSeverity d.severity).paintIf r.color d.severity.label
  let code := if d.code = "" then "" else " " ++ Style.code.paintIf r.color d.code
  r.location d ++ " - " ++ severity ++ code ++ ": " ++ d.message ++ (r.snippet? d).getD ""

/-- Several diagnostics, one below the other. -/
def render (r : Reporter) (ds : List Diagnostic) : String :=
  String.intercalate "\n" (ds.map r.format)

/-! ## Runs -/

/-- A noun that fits a number. -/
def plural (count : Nat) (noun : String) : String := if count = 1 then noun else noun ++ "s"

/-- Number of files with diagnostics that are shown. -/
def filesWithIssues (result : RunResult) : Nat :=
  (result.reports.filter fun f => !f.diagnostics.isEmpty).length

/-- Number of diagnostics, also of those that are not shown. -/
def issueCount (result : RunResult) : Nat := result.diagnosticCount + result.omitted

/-- What was found. -/
def issueSummary (result : RunResult) : String :=
  let count := issueCount result
  if count = 0 then
    let files := result.filesRead.length
    let noun := plural files "file"
    s!"No issues found in {files} {noun}."
  else
    let files := filesWithIssues result
    let issues := plural count "issue"
    let noun := plural files "file"
    s!"Found {count} {issues} in {files} {noun}."

/-- What was removed, if anything. -/
def fixSummary (result : RunResult) : String :=
  let fixed := result.fixedCount
  let noun := plural fixed "operator"
  if fixed = 0 then "" else s!" Removed {fixed} {noun}."

/-- The last line of a report. -/
def summary (r : Reporter) (result : RunResult) : String :=
  Style.summary.paintIf (r.color && issueCount result != 0)
    (issueSummary result ++ fixSummary result) ++ "\n"

/-- The report of a whole run. -/
def renderRun (r : Reporter) (result : RunResult) : String :=
  let r := result.reports.foldl (fun r f => r.addSource f.file f.source) r
  let shown := r.render result.diagnostics
  let omitted :=
    if result.omitted = 0 then "" else s!"... {result.omitted} more diagnostics not shown\n"
  (if shown = "" then "" else shown ++ "\n\n") ++ omitted ++ r.summary result

end Reporter

end NullLint
