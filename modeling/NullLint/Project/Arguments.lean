import NullLint.Diagnostic

/-!
# Arguments of the command

Words are read from left to right. An option may get its value in the same word (`--format=json`,
`-pdir`) or in the next one. A value in a word of its own, like a run of paths, waits until the
next option or the end of the line; only then is it looked at. An unknown option is reported
before anything that still waits.
-/

namespace NullLint

/-- Why the arguments cannot be used, or need no run at all. -/
inductive ArgumentError where
  | unknownArgument
  /-- A value is missing, empty, or none of those possible. -/
  | invalidValue
  /-- A value does not read as what it has to be. -/
  | valueValidation
  /-- An option is given twice. -/
  | conflict
  /-- An option needs another one. -/
  | missingRequired
  /-- A flag is given a value. -/
  | tooManyValues
  | helpWanted
  | versionWanted
  deriving DecidableEq, Repr

inductive OutputFormat where
  | text
  | json
  deriving DecidableEq, Repr, Inhabited

/-- Reads a severity that the rule may have. -/
def Severity.ofSetting? (label : String) : Option Severity :=
  match ofLabel? label with
  | some .message | none => none
  | some severity => some severity

/-- What the command line asks for. -/
structure Arguments where
  /-- Files and folders to look at. -/
  paths : List String := []
  /-- The settings file, or the folder that holds it. -/
  project : Option String := none
  fix : Bool := false
  /-- Show fixed texts, do not write them. -/
  dryRun : Bool := false
  /-- The output format, if one is given. -/
  format : Option OutputFormat := none
  pretty : Bool := false
  noPretty : Bool := false
  maxDiagnostics : Option Nat := none
  /-- Show the settings, do not run. -/
  showConfig : Bool := false
  severity : Option Severity := none
  localDataflow : Bool := false
  noNullableContext : Bool := false
  deriving DecidableEq, Repr

namespace Arguments

/-- The output format; text unless another one is asked for. -/
def outputFormat (a : Arguments) : OutputFormat := a.format.getD .text

/-- Whether output is colored, given whether it goes to a terminal. -/
def useColor (a : Arguments) (isTerminal : Bool) : Bool :=
  !a.noPretty && (a.pretty || isTerminal)

/-- Options without a value. -/
inductive Flag where
  | fix
  | dryRun
  | pretty
  | noPretty
  | showConfig
  | localDataflow
  | noNullableContext
  deriving DecidableEq, Repr

/-- Options with a value. -/
inductive Setting where
  | project
  | format
  | maxDiagnostics
  | severity
  deriving DecidableEq, Repr

/-- What an option word names. -/
inductive Name where
  | flag (f : Flag)
  | setting (s : Setting)
  | help
  | version
  deriving DecidableEq, Repr

/-- Options behind two dashes. -/
def Name.ofLong? : String → Option Name
  | "project" => some (.setting .project)
  | "fix" => some (.flag .fix)
  | "dry-run" => some (.flag .dryRun)
  | "format" => some (.setting .format)
  | "pretty" => some (.flag .pretty)
  | "no-pretty" => some (.flag .noPretty)
  | "max-diagnostics" => some (.setting .maxDiagnostics)
  | "show-config" => some (.flag .showConfig)
  | "severity" => some (.setting .severity)
  | "local-dataflow" => some (.flag .localDataflow)
  | "no-nullable-context" => some (.flag .noNullableContext)
  | "help" => some .help
  | "version" => some .version
  | _ => none

/-- Options behind one dash. -/
def Name.ofShort? : Char → Option Name
  | 'p' => some (.setting .project)
  | 'h' => some .help
  | 'V' => some .version
  | _ => none

/-! ## Values -/

/-- The largest number that can be given: the largest of 64 bits. -/
def maxNumber : Nat := 0xFFFFFFFFFFFFFFFF

/-- Digits with an optional plus in front. -/
def readNumber? (value : String) : Option Nat :=
  let digits :=
    match value.toList with
    | '+' :: ds => ds
    | ds => ds
  if digits.isEmpty || !digits.all Char.isDigit then none
  else
    let n := digits.foldl (fun n d => 10 * n + (d.toNat - '0'.toNat)) 0
    if n ≤ maxNumber then some n else none

def readFormat? : String → Option OutputFormat
  | "text" => some .text
  | "json" => some .json
  | _ => none

/-- Stores a flag; a flag may come once. `--pretty` and `--no-pretty` take each other back. -/
def setFlag (a : Arguments) : Flag → Except ArgumentError Arguments
  | .fix => if a.fix then .error .conflict else .ok { a with fix := true }
  | .dryRun => if a.dryRun then .error .conflict else .ok { a with dryRun := true }
  | .pretty =>
    if a.pretty then .error .conflict else .ok { a with pretty := true, noPretty := false }
  | .noPretty =>
    if a.noPretty then .error .conflict else .ok { a with noPretty := true, pretty := false }
  | .showConfig => if a.showConfig then .error .conflict else .ok { a with showConfig := true }
  | .localDataflow =>
    if a.localDataflow then .error .conflict else .ok { a with localDataflow := true }
  | .noNullableContext =>
    if a.noNullableContext then .error .conflict else .ok { a with noNullableContext := true }

/-- Stores the value of an option; an option may come once. -/
def setValue (a : Arguments) (value : String) : Setting → Except ArgumentError Arguments
  | .project =>
    if a.project.isSome then .error .conflict
    else if value = "" then .error .invalidValue
    else .ok { a with project := some value }
  | .format =>
    if a.format.isSome then .error .conflict
    else
      match readFormat? value with
      | some format => .ok { a with format := some format }
      | none => .error .invalidValue
  | .maxDiagnostics =>
    if a.maxDiagnostics.isSome then .error .conflict
    else
      match readNumber? value with
      | some n => .ok { a with maxDiagnostics := some n }
      | none => .error .valueValidation
  | .severity =>
    if a.severity.isSome then .error .conflict
    else
      match Severity.ofSetting? value with
      | some severity => .ok { a with severity := some severity }
      | none => .error .valueValidation

/-! ## Words -/

/-- What still waits to be looked at. -/
inductive Pending where
  | nothing
  /-- An option, and its value once that has come. -/
  | value (s : Setting) (given : Option String)
  /-- A run of paths. -/
  | paths (ps : List String)

/-- The arguments read so far. -/
structure Progress where
  arguments : Arguments := {}
  pending : Pending := .nothing
  /-- Whether `--` has come, after which all words are paths. -/
  onlyPaths : Bool := false

namespace Progress

/-- Looks at what waits. -/
def settle (p : Progress) : Except ArgumentError Progress :=
  match p.pending with
  | .nothing => .ok p
  | .value _ none => .error .invalidValue
  | .value s (some v) =>
    (p.arguments.setValue v s).map fun a => { p with arguments := a, pending := .nothing }
  | .paths ps =>
    if ps.contains "" then .error .invalidValue
    else
      .ok { p with
        arguments := { p.arguments with paths := p.arguments.paths ++ ps }
        pending := .nothing }

/-- Takes a word as a path. -/
def addPath (p : Progress) (word : String) : Except ArgumentError Progress :=
  match p.pending with
  | .paths ps => .ok { p with pending := .paths (ps ++ [word]) }
  | _ => p.settle.map fun p => { p with pending := .paths [word] }

/-- Takes an option with the value that stands in its word, if there is one. -/
def addOption (p : Progress) (attached : Option String) :
    Name → Except ArgumentError Progress
  | .setting s => do
    let p ← p.settle
    match attached with
    | some v => return { p with arguments := ← p.arguments.setValue v s }
    | none => return { p with pending := .value s none }
  | .flag f =>
    if attached.isSome then .error .tooManyValues
    else do
      let p ← p.settle
      return { p with arguments := ← p.arguments.setFlag f }
  | .help =>
    if attached.isSome then .error .tooManyValues
    else do
      let _ ← p.settle
      .error .helpWanted
  | .version =>
    if attached.isSome then .error .tooManyValues
    else do
      let _ ← p.settle
      .error .versionWanted

/-- Takes a word behind two dashes. -/
def addLong (p : Progress) (cs : List Char) : Except ArgumentError Progress :=
  let name := String.ofList (cs.takeWhile (· != '='))
  let attached :=
    match cs.dropWhile (· != '=') with
    | _ :: value => some (String.ofList value)
    | [] => none
  match Name.ofLong? name with
  | some n => p.addOption attached n
  | none => .error .unknownArgument

/-- The value behind a short option; an equals sign before it does not belong to it. -/
def shortValue : List Char → Option String
  | [] => none
  | '=' :: cs => some (String.ofList cs)
  | cs => some (String.ofList cs)

/-- Takes a word behind one dash. Of several letters the first one decides: it takes the others
as its value, or ends the reading. -/
def addShort (p : Progress) (c : Char) (cs : List Char) : Except ArgumentError Progress :=
  match Name.ofShort? c with
  | some (.setting s) => p.addOption (shortValue cs) (.setting s)
  | some n => p.addOption none n
  | none => .error .unknownArgument

/-- Takes a word that is no option. -/
def addPlain (p : Progress) (word : String) : Except ArgumentError Progress :=
  match p.pending with
  | .value s none => .ok { p with pending := .value s (some word) }
  | _ => p.addPath word

/-- Takes the next word. -/
def step (p : Progress) (word : String) : Except ArgumentError Progress :=
  if p.onlyPaths then p.addPath word
  else
    match word.toList with
    | ['-', '-'] => .ok { p with onlyPaths := true }
    | '-' :: '-' :: cs => p.addLong cs
    | '-' :: c :: cs => p.addShort c cs
    | _ => p.addPlain word

/-- The arguments, once all words are read. -/
def finish (p : Progress) : Except ArgumentError Arguments := do
  let a := (← p.settle).arguments
  if a.dryRun && !a.fix then .error .missingRequired else return a

end Progress

/-- Reads the words of a command line, without the name of the command. -/
def parse (words : List String) : Except ArgumentError Arguments := do
  let p ← words.foldlM Progress.step {}
  p.finish

end Arguments

end NullLint
