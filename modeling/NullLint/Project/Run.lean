import NullLint.Fix.FixAll
import NullLint.Project.Config
import NullLint.Project.FileAccess
import NullLint.Report.RunResult

/-!
# Runs

A run reads the settings, collects files, and analyzes or fixes each of them. Files named on the
command line are always taken; those found in a folder have to match the settings, by their path
from that folder.
-/

namespace NullLint

/-- Why a run cannot go on. -/
inductive RunError where
  | configNotFound (path : String)
  | configUnreadable (path : String)
  | configMalformed (path : String)
  | invalidSeverity (label : String)
  | pathNotFound (path : String)
  | invalidGlobs (reason : GlobsError)
  | fixFailed (path : String) (reason : FixError)
  | writeFailed (path : String)
  deriving DecidableEq, Repr

namespace RunError

def message : RunError → String
  | .configNotFound path => s!"cannot find project config {path}"
  | .configUnreadable path => s!"failed to read config file {path}"
  | .configMalformed path => s!"in {path}: " ++ ProjectConfig.malformedMessage
  | .invalidSeverity label => Config.severityMessage label
  | .pathNotFound path => s!"path not found: {path}"
  | .invalidGlobs reason => reason.message
  | .fixFailed path reason => s!"failed to fix {path}: " ++ reason.message
  | .writeFailed path => s!"failed to write {path}"

end RunError

namespace Run

variable {m : Type → Type} [Monad m]

/-! ## Settings -/

/-- The first path that satisfies a test. -/
def firstThat (p : String → m Bool) : List String → m (Option String)
  | [] => return none
  | path :: paths => do if ← p path then return some path else firstThat p paths

/-- The settings file in a folder or the nearest one around it. -/
def findConfig (access : FileAccess m) (folder : String) : m (Option String) :=
  firstThat access.isFile
    ((FilePath.ancestors folder).map fun f => FilePath.join f ProjectConfig.fileName)

/-- The settings file: the one asked for, or the one around the current folder. -/
def configPath (access : FileAccess m) (args : Arguments) (cwd : String) :
    ExceptT RunError m (Option String) :=
  match args.project with
  | none => ExceptT.lift (findConfig access cwd)
  | some project => do
    let path := FilePath.join cwd project
    let path :=
      if ← access.isFolder path then FilePath.join path ProjectConfig.fileName else path
    if ← access.isFile path then return some path else throw (.configNotFound path)

/-- Reads a settings file. -/
def loadConfig (access : FileAccess m) (path : String) : ExceptT RunError m ProjectConfig := do
  match ← access.read? path with
  | none => throw (.configUnreadable path)
  | some source =>
    match ProjectConfig.parse? source with
    | some config => return config
    | none => throw (.configMalformed path)

/-- The settings of a run, and the folder to look at if no path is given. -/
def settings (access : FileAccess m) (args : Arguments) (cwd : String) :
    ExceptT RunError m (Config × String) := do
  let path ← configPath access args cwd
  let file ← match path with
    | some path => loadConfig access path
    | none => pure {}
  match Config.resolve file args with
  | .ok config => return (config, (path.bind FilePath.parent?).getD cwd)
  | .error label => throw (.invalidSeverity label)

/-! ## Files -/

/-- Fails at the first path that leads nowhere. -/
def requirePresent (access : FileAccess m) : List String → ExceptT RunError m Unit
  | [] => return ()
  | path :: paths => do
    if ← access.isPresent path then requirePresent access paths else throw (.pathNotFound path)

/-- Reads the patterns of the settings. -/
def globs (patterns : List String) : Except RunError (List Glob) :=
  match Glob.readAll patterns with
  | .ok gs => .ok gs
  | .error reason => .error (.invalidGlobs reason)

/-- Whether a file found in a folder is taken. -/
def isWanted (includes excludes : List Glob) (path : String) : Bool :=
  Glob.anyMatch includes path && !Glob.anyMatch excludes path

/-- The files at a path: the path itself, or what is wanted in the folder. -/
def filesAt (access : FileAccess m) (includes excludes : List Glob) (root : String) :
    m (List String) := do
  if ← access.isFile root then return [root]
  else
    let below ← access.filesBelow root
    return (below.filter (isWanted includes excludes)).map (FilePath.join root)

/-- Drops paths that equal the one before them. -/
def dropRepeated : List String → List String
  | [] => []
  | [path] => [path]
  | a :: b :: paths =>
    if FilePath.parts a = FilePath.parts b then dropRepeated (a :: paths)
    else a :: dropRepeated (b :: paths)
termination_by paths => paths.length

/-- The files at some paths, in order and without repetition. -/
def discover (access : FileAccess m) (includes excludes : List Glob) (roots : List String) :
    m (List String) := do
  let found ← roots.mapM (filesAt access includes excludes)
  return dropRepeated (found.flatten.mergeSort FilePath.le)

/-- A path as reports show it: from the current folder if it lies there, with slashes only. -/
def displayPath (cwd path : String) : String :=
  let shown := (FilePath.relativeTo? cwd path).getD path
  String.ofList (shown.toList.map fun c => if c = '\\' then '/' else c)

/-- The report of a file that is only looked at. -/
def inspect (options : AnalysisOptions) (file text : String) : FileReport :=
  { file
    diagnostics := (analyze file text options).diagnostics options.rule
    source := text }

/-- The report of a file after it was fixed. Its diagnostics are those of the fixed text. -/
def reportFixed (options : AnalysisOptions) (dryRun : Bool) (file : String)
    (outcome : FixOutcome) : FileReport :=
  { inspect options file outcome.text with
    fixes := outcome.passes
    fixedText := if dryRun && outcome.isChanged then some outcome.text else none }

/-- Analyzes a file, or fixes it. A file that cannot be read has no report. -/
def processFile (access : FileAccess m) (args : Arguments) (cwd : String)
    (options : AnalysisOptions) (path : String) : ExceptT RunError m (Option FileReport) := do
  match ← access.read? path with
  | none => return none
  | some text =>
    let file := displayPath cwd path
    if args.fix then
      match fixAll file text options with
      | .error reason => throw (.fixFailed path reason)
      | .ok outcome =>
        if outcome.isChanged && !args.dryRun then
          unless ← access.write path outcome.text do throw (.writeFailed path)
        return some (reportFixed options args.dryRun file outcome)
    else
      return some (inspect options file text)

end Run

/-- A run in a folder. -/
def run {m : Type → Type} [Monad m] (access : FileAccess m) (args : Arguments) (cwd : String) :
    ExceptT RunError m RunResult := do
  let (config, folder) ← Run.settings access args cwd
  let roots := if args.paths.isEmpty then [folder] else args.paths.map (FilePath.join cwd)
  Run.requirePresent access roots
  let includes ← ExceptT.mk (pure (Run.globs config.includes))
  let excludes ← ExceptT.mk (pure (Run.globs config.excludes))
  let files ← ExceptT.lift (Run.discover access includes excludes roots)
  let reports ← files.mapM (Run.processFile access args cwd config.analysisOptions)
  let sorted := (reports.filterMap id).mergeSort fun a b => decide (a.file ≤ b.file)
  return RunResult.limit ⟨sorted, files, 0⟩ config.maxDiagnostics

end NullLint
