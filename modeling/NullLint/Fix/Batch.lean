import NullLint.Fix.Edit

/-!
# Batches of edits

Edits are taken in order of their start, shorter ones first. One that shares bytes with an edit
accepted before it is left out; the others are made together.
-/

namespace NullLint

/-- An edit left out of a batch, and why. -/
structure Conflict where
  edit : FixEdit
  reason : FixError
  deriving Repr

/-- The tree after a batch, with the edits made and those left out. -/
structure BatchOutcome where
  tree : Tree
  applied : List FixEdit
  conflicts : List Conflict
  deriving Repr

namespace Batch

/-- The first accepted span that shares bytes with `span`. -/
def blocking? (accepted : List FixEdit) (span : Span) : Option Span :=
  (accepted.map FixEdit.span).find? fun s => s.overlaps span

/-- Sorts edits of a tree with `size` nodes, taken in order, into those to make and those in
conflict with them. -/
def select (size : Nat) (accepted : List FixEdit) :
    List FixEdit → Except FixError (List FixEdit × List Conflict)
  | [] => .ok (accepted, [])
  | e :: es =>
    if e.target.any fun id => id < size then
      match blocking? accepted e.span with
      | some span => do
        let (applied, conflicts) ← select size accepted es
        return (applied, ⟨e, .overlapping e.span span⟩ :: conflicts)
      | none => select size (accepted ++ [e]) es
    else
      .error (.nodeNotFound e.target)

/-- The node and the fragment of each edit. -/
def replacements (edits : List FixEdit) : List (Nat × Tree) :=
  edits.filterMap fun e => e.target.map fun id => (id, e.replacement)

/-- Makes as many of the edits as fit together. -/
def apply (t : Tree) (edits : List FixEdit) : Except FixError BatchOutcome := do
  let (applied, conflicts) ← select t.size [] (edits.mergeSort FixEdit.before)
  match applied with
  | [] => return ⟨t, [], conflicts⟩
  | first :: _ =>
    match t.replaceMany (replacements applied) with
    | some tree => return ⟨tree, applied, conflicts⟩
    | none => .error (.nodeNotFound first.target)

end Batch

namespace BatchOutcome

/-- Whether no edit was made. -/
def isUnchanged (o : BatchOutcome) : Bool := o.applied.isEmpty

end BatchOutcome

end NullLint
