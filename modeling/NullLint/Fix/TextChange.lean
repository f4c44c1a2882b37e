import NullLint.Text.Bytes

/-!
# Text changes

A text change replaces some bytes of a text. Changes are applied in order of their start; one
that begins before the end of the change applied before it, that reaches past the text, or that
cuts a character is left out.
-/

namespace NullLint

/-- Replaces `length` bytes at `start` by `newText`. -/
structure TextChange where
  start : Nat
  length : Nat
  newText : String
  deriving DecidableEq, Repr, Inhabited

namespace TextChange

/-- The offset just past the bytes replaced. -/
def stop (c : TextChange) : Nat := c.start + c.length

/-- In order of start, then of length. -/
def before (a b : TextChange) : Bool :=
  a.start < b.start || (a.start == b.start && a.length ≤ b.length)

/-- Applies changes in the order given to the part of a text from byte `offset` on. -/
def splice (offset : Nat) (rest : List Char) : List TextChange → List Char
  | [] => rest
  | c :: cs =>
    if c.start < offset then splice offset rest cs
    else
      match Text.splitAt? rest (c.start - offset) with
      | none => splice offset rest cs
      | some (kept, tail) =>
        match Text.splitAt? tail c.length with
        | none => splice offset rest cs
        | some (_, tail) => kept ++ c.newText.toList ++ splice c.stop tail cs

/-- Applies changes given in any order. -/
def applyAll (text : String) (changes : List TextChange) : String :=
  String.ofList (splice 0 text.toList (changes.mergeSort before))

end TextChange

/-- The text changes of one file. -/
structure FileChanges where
  file : String
  changes : List TextChange
  deriving DecidableEq, Repr

/-- A fix as an editor lists it. -/
structure FixInfo where
  name : String
  title : String
  files : List FileChanges
  /-- Fixes with one id can be applied together. -/
  groupId : Option String
  groupTitle : Option String
  deriving DecidableEq, Repr

namespace FixInfo

/-- The fix that removes null operators from a file. -/
def removeOperators (file : String) (changes : List TextChange) : FixInfo where
  name := "removeUnnecessaryOperator"
  title := "Remove unnecessary operator"
  files := [⟨file, changes⟩]
  groupId := some "Remove unnecessary operator"
  groupTitle := some "Remove all unnecessary operators"

/-- What makes two fixes count as the same: their group, or else their title. -/
def key (f : FixInfo) : String := f.groupId.getD f.title

/-- The text changes of all files. -/
def changes (f : FixInfo) : List TextChange := f.files.flatMap FileChanges.changes

end FixInfo

end NullLint
