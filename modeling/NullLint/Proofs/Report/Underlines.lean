import NullLint.Proofs.Text.LineMap
import NullLint.Proofs.Text.Numerals
import NullLint.Report.Reporter
import Mathlib.Data.List.Basic

/-!
# Underlines

The marks under a source line are blanks up to the span and tildes below what the line shows of it.
The line stands behind its number, for which three columns are reserved, and the marks behind as
many blanks as three columns need: so the tildes start below the span on the first 999 lines, and
too far to the left on every later one.
-/

namespace NullLint

namespace Snippet

open Text

/-- A line that starts at byte `offset` falls into what comes before the bytes from `start` up to
`stop`, the characters that begin in them, and what comes behind. -/
structure Parts (start stop offset : Nat) (before part after : List Char) : Prop where
  starts : offset + byteLength before = start
  inside : ∀ left c right, part = left ++ c :: right → start + byteLength left < stop
  ends : after = [] ∨ stop ≤ start + byteLength part

section Marks

variable {start stop offset : Nat} {before part after cs : List Char}

end Marks

/-! ## Columns -/

end Snippet

namespace Reporter

open Text Snippet

end Reporter

end NullLint
