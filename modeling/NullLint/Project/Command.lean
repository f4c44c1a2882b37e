import NullLint.Project.Run
import NullLint.Report.Reporter
import NullLint.Report.Wire

/-!
# The command

Reads the arguments, runs, and says what to print and how to exit: 0 if all is well, 1 if
something was reported, 2 if the command could not do its work.
-/

namespace NullLint

/-- What the command prints and how it ends. -/
structure CommandOutcome where
  exitCode : UInt32 := 0
  output : String := ""
  errors : String := ""
  deriving DecidableEq, Repr

namespace Command

/-- The name of the command. -/
def name : String := "nullsafe"

/-- The version of the command. -/
def version : String := "0.1.0"

/-- The exit code if something was reported. -/
def exitReported : UInt32 := 1

/-- The exit code if the command could not do its work. -/
def exitFailed : UInt32 := 2

/-- A short description of the command and its options. -/
def help : String :=
  "Find and remove redundant null-conditional (?.) and null-forgiving (!) operators\n\n" ++
  "Usage: " ++ name ++ " [OPTIONS] [PATHS]...\n\n" ++
  "Options:\n" ++
  "  -p, --project <PROJECT>      Path to nullsafe.json or a directory containing it\n" ++
  "      --fix                    Remove every redundant operator and write the files back\n" ++
  "      --dry-run                With --fix, print the fixed text instead of writing it\n" ++
  "      --format <FORMAT>        Output format: text or json\n" ++
  "      --pretty                 Color and style the output\n" ++
  "      --no-pretty              Plain output even on a terminal\n" ++
  "      --max-diagnostics <N>    Stop reporting after this many diagnostics\n" ++
  "      --show-config            Print the resolved configuration and exit\n" ++
  "      --severity <SEVERITY>    Severity: error, warning or suggestion\n" ++
  "      --local-dataflow         Treat locals assigned on every path as non-null\n" ++
  "      --no-nullable-context    Analyze as if nullable annotations were off\n" ++
  "  -h, --help                   Print help\n" ++
  "  -V, --version                Print version\n"

/-- What is said about arguments that cannot be used. -/
def argumentMessage : ArgumentError → String
  | .unknownArgument => "unexpected argument"
  | .invalidValue => "invalid or missing value"
  | .valueValidation => "invalid value"
  | .conflict => "argument cannot be used multiple times"
  | .missingRequired => "a required argument was not provided"
  | .tooManyValues => "unexpected value"
  | .helpWanted | .versionWanted => ""

/-- A command that ends with an error. -/
def failure (message : String) : CommandOutcome :=
  { exitCode := exitFailed, errors := "error: " ++ message ++ "\n" }

/-- The outcome of arguments that do not lead to a run. -/
def refuse : ArgumentError → CommandOutcome
  | .helpWanted => { output := help }
  | .versionWanted => { output := name ++ " " ++ version ++ "\n" }
  | e => failure (argumentMessage e)

/-- The fixed text of a file under its name, if it is shown. -/
def fixedText (r : FileReport) : String :=
  match r.fixedText with
  | some text =>
    s!"==> {r.file} <==\n" ++ text ++ (if text.toList.getLast? = some '\n' then "" else "\n")
  | none => ""

/-- What a run prints. -/
def output (args : Arguments) (isTerminal : Bool) (result : RunResult) : String :=
  match args.outputFormat with
  | .json => renderJson result.reports ++ "\n"
  | .text =>
    (if args.dryRun then String.join (result.reports.map fixedText) else "") ++
      Reporter.renderRun { color := args.useColor isTerminal } result

/-- The outcome of a run. -/
def report (args : Arguments) (isTerminal : Bool) (result : RunResult) : CommandOutcome :=
  { exitCode := if result.hasDiagnostics then exitReported else 0
    output := output args isTerminal result }

/-- Runs with arguments that were read. -/
def perform {m : Type → Type} [Monad m] (access : FileAccess m) (args : Arguments)
    (cwd : String) (isTerminal : Bool) : m CommandOutcome := do
  if args.showConfig then
    match ← (Run.settings access args cwd).run with
    | .ok (config, _) => return { output := config.toJson.write ++ "\n" }
    | .error e => return failure e.message
  else
    match ← (NullLint.run access args cwd).run with
    | .ok result => return report args isTerminal result
    | .error e => return failure e.message

/-- The whole command. -/
def execute {m : Type → Type} [Monad m] (access : FileAccess m) (words : List String)
    (cwd : String) (isTerminal : Bool) : m CommandOutcome :=
  match Arguments.parse words with
  | .ok args => perform access args cwd isTerminal
  | .error e => return refuse e

end Command

end NullLint
