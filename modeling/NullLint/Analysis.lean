import NullLint.Check.Checker
import NullLint.Syntax.Parse

/-!
# Analysis of a file

Parsing, binding and checking one file. A finding is dropped if the member around it, or for
top-level code the file, does not parse.
-/

namespace NullLint

/-- What a run has to know besides the source. -/
structure AnalysisOptions where
  rule : Rule := .redundantOperator
  localDataflow : Bool := false
  nullableContext : Bool := true
  deriving DecidableEq, Repr

/-- A parsed file with its errors and findings. -/
structure FileAnalysis where
  tree : Tree
  errors : List SyntaxError
  findings : List Finding

namespace Tree

/-- The checker of a tree, with the semantic model of the tree as its host. -/
def checker (t : Tree) (options : AnalysisOptions) (signal : Signal) : Checker where
  root := t.placed
  host := (Model.build t.placed options.nullableContext).host
  rule := options.rule
  localDataflow := options.localDataflow
  signal

/-- All findings in a tree. -/
def rawFindings (t : Tree) (options : AnalysisOptions) (signal : Signal) : List Finding :=
  (t.checker options signal).checkTree.result

end Tree

/-- Whether a node holds a token that the source lacks, or text that fits nowhere. -/
def Node.isMalformed {α : Type} (n : Node α) : Bool :=
  n.preorder.any fun m => m.isMissing || m.kind == .errorNode

/-- The part of a file that has to parse for a finding at a node to count: the member around the
node, or the file. -/
def Path.flowScope? (path : List Placed) : Option Placed :=
  (Path.member? path).or path.getLast?

namespace Tree

/-- Whether the code around a node parses. -/
def isSoundAt (t : Tree) (id : Nat) : Bool :=
  !((t.path? id).bind Path.flowScope?).any Node.isMalformed

/-- The findings in the parts of a tree that parse. -/
def check (t : Tree) (options : AnalysisOptions) (signal : Signal := .never) : List Finding :=
  if !options.rule.enabled || signal [] then []
  else (t.rawFindings options signal).filter fun f => t.isSoundAt f.node

end Tree

/-- Analyzes a source text. -/
def analyze (file text : String) (options : AnalysisOptions) (signal : Signal := .never) :
    FileAnalysis :=
  let result := parse file text
  ⟨result.tree, result.errors, result.tree.check options signal⟩

namespace FileAnalysis

def file (a : FileAnalysis) : String := a.tree.file

/-- Errors and findings together, in order of their start. -/
def diagnostics (a : FileAnalysis) (rule : Rule) : List Diagnostic :=
  (a.errors.map (SyntaxError.toDiagnostic a.file) ++
    a.findings.map (Finding.toDiagnostic a.file rule)).mergeSort fun d e => d.start ≤ e.start

end FileAnalysis

end NullLint
