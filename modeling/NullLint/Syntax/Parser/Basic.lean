import NullLint.Diagnostic
import NullLint.Syntax.Node

/-!
# Parser state and combinators

A parser reads lexemes from the left and never fails: where a token is wanted and another one
stands, it reports an error and puts in a missing token; where a token fits nowhere, it wraps
the token in an error node. Every lexeme becomes a leaf of the result, in order.

Loops go on only while they consume lexemes, so each of them ends.
-/

namespace NullLint

/-- How deep statements and expressions may nest. -/
def maxParseDepth : Nat := 256

/-- What a parser has still to read and what it has reported so far. -/
structure ParseState where
  rest : List Lexeme
  /-- The offset just past the last token read. -/
  lastStop : Nat := 0
  /-- The errors reported so far, last one first. -/
  errors : List SyntaxError := []
  /-- Whether too deep a nesting has been reported. -/
  depthReported : Bool := false

/-- A step that reads some lexemes. -/
abbrev Parser := StateM ParseState

/-- Kind of the first lexeme; past the last one, the end of the file. -/
def kindAhead (ls : List Lexeme) : Kind :=
  match ls with
  | l :: _ => l.kind
  | [] => .endOfFile

namespace ParseState

/-- Kind of the current token. -/
def kind (s : ParseState) : Kind := kindAhead s.rest

/-- Kind of the token after the current one. -/
def nextKind (s : ParseState) : Kind := kindAhead (s.rest.drop 1)

/-- Offset of the current token. -/
def offset (s : ParseState) : Nat :=
  match s.rest with
  | l :: _ => l.start
  | [] => s.lastStop

/-- Text of the current token. -/
def text (s : ParseState) : String :=
  match s.rest with
  | l :: _ => l.token.text
  | [] => ""

/-- Reports an error, unless the last one reported starts at the same place. -/
def report (s : ParseState) (e : SyntaxError) : ParseState :=
  if s.errors.head?.any fun last => last.start == e.start then s
  else { s with errors := e :: s.errors }

end ParseState

namespace Parser

variable {α : Type}

/-- Whether the current token has the kind `k`. -/
def sees (k : Kind) : Parser Bool := fun s => (s.kind == k, s)

/-- Reads the current token. -/
def advance : Parser Green := fun s =>
  match s.rest with
  | l :: rest => (.leaf l.token, { s with rest := rest, lastStop := l.stop })
  | [] => (.leaf (.absent .endOfFile), s)

/-- The error for a missing token of kind `k`. -/
def expectedCode : Kind → ErrorCode
  | .semicolon => .semicolonExpected
  | .closeParen => .closeParenExpected
  | .closeBrace => .closeBraceExpected
  | .openBrace => .openBraceExpected
  | .identifier => .identifierExpected
  | _ => .tokenExpected

/-- Reads a token of kind `k`, or reports behind the last token that it is missing. -/
def expect (k : Kind) : Parser Green := fun s =>
  if s.kind = k then advance s
  else
    (.leaf (.absent k),
      s.report ⟨s.lastStop, 0, expectedCode k, [k.text?.getD "identifier"]⟩)

/-- Reads the current token if it has the kind `k`. -/
def accept (k : Kind) : Parser (List Green) := fun s =>
  if s.kind = k then
    let (leaf, s') := advance s
    ([leaf], s')
  else
    ([], s)

/-- Reports the current token with `code`. -/
def complain (code : ErrorCode) : Parser Unit := fun s =>
  ((), s.report ⟨s.offset, s.text.utf8ByteSize, code, [s.text]⟩)

/-- Wraps the current token in an error node. -/
def skip (code : ErrorCode) : Parser Green := do
  complain code
  return .group .errorNode [← advance]

/-- Collects what `item` gives until it asks to stop or reads nothing. -/
def collect (item : Parser (List Green × Bool)) (s : ParseState) : List Green × ParseState :=
  match item s with
  | ((chunk, more), s') =>
    if _h : more = true ∧ s'.rest.length < s.rest.length then
      let (tail, s'') := collect item s'
      (chunk ++ tail, s'')
    else
      (chunk, s')
termination_by s.rest.length
decreasing_by exact _h.2

/-- Collects what `item` gives as long as `more` holds. -/
def collectWhile (more : ParseState → Bool) (item : Parser (List Green)) :
    Parser (List Green) :=
  collect fun s =>
    if more s then
      let (chunk, s') := item s
      ((chunk, true), s')
    else
      (([], false), s)

/-- Refines a value until `step` gives none or reads nothing. -/
def refine (step : α → Parser (Option α)) (a : α) (s : ParseState) : α × ParseState :=
  match step a s with
  | (none, s') => (a, s')
  | (some b, s') =>
    if _h : s'.rest.length < s.rest.length then refine step b s' else (b, s')
termination_by s.rest.length
decreasing_by exact _h

/-- One or more items with commas between them. -/
def commaSeparated (item : Parser (List Green)) : Parser (List Green) := do
  let first ← item
  let others ← collectWhile (fun s => s.kind == .comma) do
    let comma ← advance
    return comma :: (← item)
  return first ++ others

/-- An element of a list; a token at which nothing was read is skipped with `code`. -/
def element (code : ErrorCode) (item : Parser Green) : Parser (List Green) := do
  let before := (← get).rest.length
  let node ← item
  let s ← get
  if s.rest.length = before ∧ s.kind ≠ .endOfFile then
    return [node, ← skip code]
  else
    return [node]

/-- The modifiers ahead. -/
def modifiers : Parser (List Green) :=
  collectWhile (fun s => s.kind.isModifier) do return [← advance]

/-- Where skipping past a construct that nests too deep stops. -/
def endsStatement (k : Kind) : Bool :=
  k == .semicolon || k == .closeBrace || k == .endOfFile

/-- Wraps the rest of the statement in an error node, and its semicolon too if told so. Too deep
a nesting is reported once in a file. -/
def giveUp (withSemicolon : Bool) : Parser Green := do
  modify fun s =>
    if s.depthReported then s
    else { s with depthReported := true }.report ⟨s.offset, 1, .tooDeeplyNested, []⟩
  let skipped ← collectWhile (fun s => !endsStatement s.kind) do return [← advance]
  let semicolon ← if withSemicolon then accept .semicolon else pure []
  return .group .errorNode (skipped ++ semicolon)

end Parser

end NullLint
