import NullLint.Fix.TextChange
import NullLint.Syntax.Tree
import NullLint.Syntax.View

/-!
# Edits

An edit swaps a node for a fragment. Removing a null operator is the edit that swaps `x?` or
`x!` for `x`, which takes over the trivia before `x` and behind the operator.
-/

namespace NullLint

/-- Why an edit cannot be made. -/
inductive FixError where
  /-- There is no such node in the tree. -/
  | nodeNotFound (target : Option Nat)
  /-- The edit shares bytes with one accepted before it. -/
  | overlapping (span accepted : Span)
  deriving DecidableEq, Repr

namespace FixError

/-- The number shown for a reference to no node at all. -/
def noNode : Nat := 4294967295

def message : FixError → String
  | .nodeNotFound target =>
    s!"node {target.getD noNode} is not part of the tree being fixed"
  | .overlapping span accepted =>
    s!"edit at {span.start}..{span.stop} overlaps an accepted edit at " ++
      s!"{accepted.start}..{accepted.stop}"

end FixError

namespace Tree

/-- The fragment that takes the place of a node when its null operator is removed; for any other
node, a copy of it. -/
def withoutOperator (file : String) (n : Placed) : Tree :=
  match n.expression? with
  | some (.conditionalAccess operand _) | some (.nullAssertion operand _) =>
    Tree.withTriviaOf ⟨file, some operand.erase⟩ (some n)
  | _ => ⟨file, some n.erase⟩

/-- The fragment without the null operator of the node with a given number. -/
def removeOperator (t : Tree) (id : Nat) : Option Tree :=
  (t.node? id).map (withoutOperator t.file)

end Tree

/-- Swaps the node `target`, whose full span is `span`, for `replacement`. -/
structure FixEdit where
  target : Option Nat
  span : Span
  replacement : Tree
  deriving Repr

namespace FixEdit

/-- The edit that removes the null operator at a node. -/
def removing (t : Tree) (target : Option Nat) : Except FixError FixEdit :=
  match target.bind t.node? with
  | some n => .ok ⟨target, n.fullSpan, Tree.withoutOperator t.file n⟩
  | none => .error (.nodeNotFound target)

/-- The tree with the edit made. -/
def apply (e : FixEdit) (t : Tree) : Except FixError Tree :=
  match e.target.bind fun id => t.replace id e.replacement with
  | some result => .ok result
  | none => .error (.nodeNotFound e.target)

/-- The edit as a change of the source text. -/
def textChange (e : FixEdit) : TextChange :=
  ⟨e.span.start, e.span.length, e.replacement.text⟩

/-- In order of start, then of length. -/
def before (a b : FixEdit) : Bool :=
  a.span.start < b.span.start ||
    (a.span.start == b.span.start && a.span.length ≤ b.span.length)

end FixEdit

end NullLint
