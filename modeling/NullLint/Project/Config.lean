import NullLint.Analysis
import NullLint.Json.Reader
import NullLint.Json.Writer
import NullLint.Project.Arguments
import NullLint.Project.Glob

/-!
# Settings of a project

```json
{
  "include": ["**/*.cs"],
  "exclude": ["bin/**", "obj/**"],
  "rules": { "severity": "error", "enabled": true },
  "nullableContext": true,
  "localDataflowHeuristic": false
}
```

Every key may be left out or null, keys that are not known are ignored, and a known key may not
come twice. In the place of an object its values may stand in an array, in the order above. The
command line goes before the file.
-/

namespace NullLint

/-- The settings in a file. -/
structure ProjectConfig where
  includes : Option (List String) := none
  excludes : Option (List String) := none
  severity : Option String := none
  enabled : Option Bool := none
  nullableContext : Option Bool := none
  localDataflow : Option Bool := none
  deriving DecidableEq, Repr

namespace ProjectConfig

/-- The name of a settings file. -/
def fileName : String := "nullsafe.json"

/-- What is said about a file whose settings cannot be read. -/
def malformedMessage : String := "failed to parse " ++ fileName

/-- The values of an object with the given keys, in that order. -/
def fields? (keys : List String) : JsonValue.Read → Option (List JsonValue.Read)
  | .array items =>
    if items.length ≤ keys.length then
      some (items ++ List.replicate (keys.length - items.length) .null)
    else none
  | .object members =>
    let known := members.filterMap fun m => m.1.filter keys.contains
    if (members.all fun m => m.1.isSome) && known.Nodup then
      some (keys.map fun k => (members.lookup (some k)).getD .null)
    else none
  | _ => none

/-- A value that may be null. -/
def optional? {α : Type} (f : JsonValue.Read → Option α) : JsonValue.Read → Option (Option α)
  | .null => some none
  | v => (f v).map some

def string? : JsonValue.Read → Option String
  | .string s => s
  | _ => none

def strings? : JsonValue.Read → Option (List String)
  | .array items => items.mapM string?
  | _ => none

/-- A truth value, or a word for one. -/
def bool? : JsonValue.Read → Option Bool
  | .bool b => some b
  | .string (some s) =>
    match Text.fold s with
    | "true" | "1" | "yes" | "on" => some true
    | "false" | "0" | "no" | "off" => some false
    | _ => none
  | _ => none

/-- The severity and the switch of the rule. -/
def rule? (v : JsonValue.Read) : Option (Option String × Option Bool) := do
  match ← fields? ["severity", "enabled"] v with
  | [severity, enabled] => return (← optional? string? severity, ← optional? bool? enabled)
  | _ => none

/-- Reads the settings from a value. -/
def ofJson? (v : JsonValue.Read) : Option ProjectConfig := do
  match ← fields? ["include", "exclude", "rules", "nullableContext", "localDataflowHeuristic"] v
    with
  | [includes, excludes, rules, nullableContext, localDataflow] =>
    let (severity, enabled) := (← optional? rule? rules).getD (none, none)
    return {
      includes := ← optional? strings? includes
      excludes := ← optional? strings? excludes
      severity
      enabled
      nullableContext := ← optional? bool? nullableContext
      localDataflow := ← optional? bool? localDataflow }
  | _ => none

/-- Reads a settings file. -/
def parse? (source : String) : Option ProjectConfig := JsonValue.read? source >>= ofJson?

end ProjectConfig

/-- The settings of a run: those of the file and the command line, the rest by default. -/
structure Config where
  includes : List String
  excludes : List String
  severity : Severity
  enabled : Bool
  nullableContext : Bool
  localDataflow : Bool
  maxDiagnostics : Option Nat
  deriving DecidableEq, Repr

namespace Config

def defaultIncludes : List String := ["**/*.cs"]

def defaultExcludes : List String := ["bin/**", "obj/**"]

/-- What is said about a severity that cannot be used. -/
def severityMessage (label : String) : String :=
  s!"invalid severity '{label}': expected error, warning or suggestion"

/-- The severity of the rule; a label that cannot be used is given back. -/
def resolveSeverity : Option Severity → Option String → Except String Severity
  | some severity, _ => .ok severity
  | none, some label =>
    match Severity.ofSetting? label with
    | some severity => .ok severity
    | none => .error label
  | none, none => .ok .error

/-- Puts the settings of a run together; a severity that cannot be used is given back. -/
def resolve (file : ProjectConfig) (args : Arguments) : Except String Config := do
  let severity ← resolveSeverity args.severity file.severity
  return {
    includes := file.includes.getD defaultIncludes
    excludes := file.excludes.getD defaultExcludes
    severity
    enabled := file.enabled.getD true
    nullableContext := !args.noNullableContext && file.nullableContext.getD true
    localDataflow := args.localDataflow || file.localDataflow.getD false
    maxDiagnostics := args.maxDiagnostics }

/-- The settings as the analysis wants them. -/
def analysisOptions (c : Config) : AnalysisOptions where
  rule := { Rule.redundantOperator with severity := c.severity, enabled := c.enabled }
  localDataflow := c.localDataflow
  nullableContext := c.nullableContext

def toJson (c : Config) : JsonValue String :=
  .object ([("include", .list .string c.includes), ("exclude", .list .string c.excludes),
    ("severity", .string c.severity.label), ("enabled", .bool c.enabled),
    ("nullableContext", .bool c.nullableContext),
    ("localDataflowHeuristic", .bool c.localDataflow)] ++
    JsonValue.optional "maxDiagnostics" .nat c.maxDiagnostics)

end Config

end NullLint
