import NullLint.Text.Bytes

/-!
# Lines and columns

A line ends after `\n`, after `\r\n`, or after a `\r` that no `\n` follows. Lines and columns
count from zero; a column counts UTF-16 units.
-/

namespace NullLint

/-- A place in a text as an editor shows it. -/
structure Position where
  line : Nat
  character : Nat
  deriving DecidableEq, Repr, Inhabited

namespace Text

/-- The line starts after the first, for a text that begins at byte `offset`. -/
def lineStartsFrom : Nat → List Char → List Nat
  | _, [] => []
  | offset, c :: cs =>
    let next := offset + c.utf8Size
    if c == '\n' || (c == '\r' && cs.head? != some '\n') then
      next :: lineStartsFrom next cs
    else
      lineStartsFrom next cs

/-- Whether `c` belongs to a line terminator. -/
def isLineBreak (c : Char) : Bool := c == '\n' || c == '\r'

/-- Drops every line break at the end. -/
def dropLineBreaks (cs : List Char) : List Char :=
  (cs.reverse.dropWhile isLineBreak).reverse

/-- Bytes of the longest part whose columns stay below `column`. -/
def columnOffset : Nat → List Char → Nat
  | _, [] => 0
  | 0, _ :: _ => 0
  | column + 1, c :: cs =>
    c.utf8Size + columnOffset (column + 1 - (if c.toNat < 0x10000 then 1 else 2)) cs

end Text

/-- A text together with the byte offset at which each of its lines starts. -/
structure LineMap where
  chars : List Char
  starts : List Nat

namespace LineMap

/-- The lines of a text. -/
def ofText (text : String) : LineMap :=
  ⟨text.toList, 0 :: Text.lineStartsFrom 0 text.toList⟩

def lineCount (m : LineMap) : Nat := m.starts.length

/-- The last line that starts at or before `offset`. -/
def lineAt (m : LineMap) (offset : Nat) : Nat :=
  (m.starts.takeWhile (· ≤ offset)).length - 1

/-- Line and column of a byte offset. Past the end the column is that of the end; inside a
character it is zero. -/
def position (m : LineMap) (offset : Nat) : Position :=
  let line := m.lineAt offset
  let stop := min offset (Text.byteLength m.chars)
  let start := min (m.starts[line]?.getD 0) stop
  ⟨line, Text.unitLength ((Text.sliceList? m.chars start stop).getD [])⟩

/-- Characters of a line without its terminator. -/
def lineChars? (m : LineMap) (line : Nat) : Option (List Char) := do
  let start ← m.starts[line]?
  let stop := m.starts[line + 1]?.getD (Text.byteLength m.chars)
  let cs ← Text.sliceList? m.chars start stop
  return Text.dropLineBreaks cs

/-- Text of a line without its terminator. -/
def lineText? (m : LineMap) (line : Nat) : Option String :=
  (m.lineChars? line).map String.ofList

/-- Byte offset of a position; a column past the end of its line gives the end of the line. -/
def offset? (m : LineMap) (p : Position) : Option Nat := do
  let start ← m.starts[p.line]?
  let cs ← m.lineChars? p.line
  return start + Text.columnOffset p.character cs

@[simp]
theorem starts_ofText (text : String) :
    (ofText text).starts = 0 :: Text.lineStartsFrom 0 text.toList := rfl

end LineMap

end NullLint
