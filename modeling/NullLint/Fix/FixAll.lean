import NullLint.Analysis
import NullLint.Fix.Batch

/-!
# Fixing a file

Passes of removing operators and checking again, until nothing is left to remove. Of nested
operators, as in `a?.b?.c`, one is removed in each pass. A file with errors is left alone.
-/

namespace NullLint

/-- The most passes over one file. -/
def maxFixPasses : Nat := 16

/-- The ids of the rules whose findings can be fixed. -/
def fixableRules : List String := [Rule.redundantOperator.id]

/-- A file before and after fixing. -/
structure FixOutcome where
  /-- The file as it was read. -/
  before : FileAnalysis
  /-- The tree after the last pass. -/
  tree : Tree
  /-- The changes of each pass, in terms of the text before that pass. -/
  passes : List FixInfo
  /-- The findings still in `tree`. -/
  remaining : List Finding

namespace FixOutcome

def isChanged (o : FixOutcome) : Bool := !o.passes.isEmpty

/-- Number of operators removed. -/
def fixedCount (o : FixOutcome) : Nat := (o.passes.flatMap FixInfo.changes).length

def text (o : FixOutcome) : String := o.tree.text

end FixOutcome

/-- The tree, the changes and the findings after at most so many passes. -/
def fixPasses (options : AnalysisOptions) (file : String) :
    Nat → Tree → List Finding → Except FixError (Tree × List FixInfo × List Finding)
  | 0, tree, findings => .ok (tree, [], findings)
  | passes + 1, tree, findings =>
    if findings.isEmpty then .ok (tree, [], findings)
    else do
      let edits ← findings.mapM fun f => FixEdit.removing tree (some f.node)
      let outcome ← Batch.apply tree edits
      if outcome.isUnchanged then return (tree, [], findings)
      else
        let info := FixInfo.removeOperators file (outcome.applied.map FixEdit.textChange)
        let (final, infos, remaining) ←
          fixPasses options file passes outcome.tree (outcome.tree.check options)
        return (final, info :: infos, remaining)

/-- Removes the unneeded operators of a source text. -/
def fixAll (file text : String) (options : AnalysisOptions) : Except FixError FixOutcome :=
  let before := analyze file text options
  if before.errors.isEmpty then do
    let (tree, passes, remaining) ←
      fixPasses options file maxFixPasses before.tree before.findings
    return ⟨before, tree, passes, remaining⟩
  else
    .ok ⟨before, before.tree, [], before.findings⟩

end NullLint
