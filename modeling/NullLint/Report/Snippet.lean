import NullLint.Text.Lines

/-!
# Snippets

A source line with a span of it underlined:

```text
    2   var y = x!;
                ~~
```

A tab is shown as four blanks, every other character takes one column.
-/

namespace NullLint.Snippet

/-- Columns that a character takes. -/
def columns (c : Char) : Nat := if c = '\t' then 4 else 1

/-- Columns that a text takes. -/
def width (cs : List Char) : Nat := cs.foldr (fun c n => columns c + n) 0

/-- A line as it is shown. -/
def expand (cs : List Char) : List Char :=
  cs.flatMap fun c => if c = '\t' then List.replicate 4 ' ' else [c]

/-- Marks for the characters of a line up to byte `stop`, the first character being at byte
`offset`: blanks before byte `start`, tildes from there on. -/
def marks (start stop : Nat) : Nat → List Char → List Char
  | _, [] => []
  | offset, c :: cs =>
    if stop ≤ offset then []
    else
      List.replicate (columns c) (if offset < start then ' ' else '~') ++
        marks start stop (offset + c.utf8Size) cs

/-- The marks under a line, at least one tilde. -/
def underline (start stop offset : Nat) (line : List Char) : List Char :=
  let ms := marks start stop offset line
  if ms.contains '~' then ms else ms ++ ['~']

/-- A number right-aligned in three columns; a longer one takes what it needs. -/
def gutter (n : Nat) : List Char :=
  let ds := (toString n).toList
  List.replicate (3 - ds.length) ' ' ++ ds

/-- Blanks before the underline: those of a gutter of three columns. -/
def indent : List Char := List.replicate 8 ' '

/-- The source line, with its number counted from one. -/
def sourceLine (number : Nat) (line : List Char) : List Char :=
  [' ', ' '] ++ gutter number ++ [' ', ' ', ' '] ++ expand line

end NullLint.Snippet
