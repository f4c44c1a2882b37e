import NullLint.Json.Writer
import NullLint.Report.RunResult

/-!
# JSON reports
-/

namespace NullLint

def Diagnostic.toJson (d : Diagnostic) : JsonValue String :=
  .object [("file", .string d.file), ("start", .nat d.start), ("length", .nat d.length),
    ("messageText", .string d.message), ("category", .string d.severity.label),
    ("code", .string d.code)]

def TextChange.toJson (c : TextChange) : JsonValue String :=
  .object [("start", .nat c.start), ("length", .nat c.length), ("newText", .string c.newText)]

def FileChanges.toJson (c : FileChanges) : JsonValue String :=
  .object [("fileName", .string c.file), ("textChanges", .list TextChange.toJson c.changes)]

def FixInfo.toJson (f : FixInfo) : JsonValue String :=
  .object ([("fixName", .string f.name), ("description", .string f.title),
    ("changes", .list FileChanges.toJson f.files)] ++
    JsonValue.optional "fixId" .string f.groupId ++
    JsonValue.optional "fixAllDescription" .string f.groupTitle)

/-- A report; fixes and the fixed text are left out if there are none. -/
def FileReport.toJson (r : FileReport) : JsonValue String :=
  .object ([("file", .string r.file), ("diagnostics", .list Diagnostic.toJson r.diagnostics)] ++
    (if r.fixes.isEmpty then [] else [("fixes", .list FixInfo.toJson r.fixes)]) ++
    JsonValue.optional "fixedText" .string r.fixedText)

/-- The JSON report of a run: one entry for each file. -/
def renderJson (reports : List FileReport) : String :=
  (JsonValue.list FileReport.toJson reports).write

end NullLint
