import NullLint.Arena.Basic
import NullLint.Syntax.Parser.Basic

/-!
# Parsers that fill an arena

Here a node gets its place in an arena as soon as it is read, before it is known what will stand
above it, and a parser hands on the positions of the nodes that it has made. How deep statements and
expressions nest is counted on the way: the counter goes up where one begins and down where it ends.
-/

namespace NullLint

/-- What a parser has still to read, the nodes made so far, and how deep it is nested. -/
structure ArenaState where
  ahead : ParseState
  arena : Arena := {}
  depth : Nat := 0

/-- A step that reads some lexemes and adds nodes to an arena. -/
abbrev ArenaParser := StateM ArenaState

namespace ArenaParser

variable {α β : Type}

/-- A step that makes no nodes. -/
def lift (p : Parser α) : ArenaParser α := fun s =>
  let (a, ahead) := p s.ahead
  (a, { s with ahead })

/-! ## Nodes -/

/-- Adds a token. -/
def leaf (t : Token) : ArenaParser Nat := fun s =>
  let (i, arena) := s.arena.addToken t.kind t.data t.missing
  (i, { s with arena })

/-- Adds a branch over some nodes. -/
def group (kind : Kind) (children : List Nat) : ArenaParser Nat := fun s =>
  let (i, arena) := s.arena.addNode kind children
  (i, { s with arena })

/-- Reads the current token. -/
def advance : ArenaParser Nat := fun s =>
  match s.ahead.rest with
  | l :: rest => leaf l.token { s with ahead := { s.ahead with rest := rest, lastStop := l.stop } }
  | [] => leaf (.absent .endOfFile) s

/-- Reads a token of kind `k`, or reports behind the last token that it is missing. -/
def expect (k : Kind) : ArenaParser Nat := fun s =>
  if s.ahead.kind = k then advance s
  else
    leaf (.absent k) { s with
      ahead := s.ahead.report
        ⟨s.ahead.lastStop, 0, Parser.expectedCode k, [k.text?.getD "identifier"]⟩ }

/-- Reads the current token if it has the kind `k`. -/
def accept (k : Kind) : ArenaParser (List Nat) := fun s =>
  if s.ahead.kind = k then
    let (i, s') := advance s
    ([i], s')
  else
    ([], s)

/-- Wraps the current token in an error node. -/
def skip (code : ErrorCode) : ArenaParser Nat := do
  lift (Parser.complain code)
  group .errorNode [← advance]

/-! ## Depth -/

/-- Counts one level more, and tells whether that is still allowed. -/
def enter : ArenaParser Bool := fun s =>
  (s.depth + 1 ≤ maxParseDepth, { s with depth := s.depth + 1 })

/-- Counts one level less. -/
def leave : ArenaParser Unit := fun s => ((), { s with depth := s.depth - 1 })

/-- Runs `inside` one level deeper, however deep that is. -/
def deeper (inside : ArenaParser α) : ArenaParser α := do
  let _ ← enter
  let a ← inside
  leave
  return a

/-- Runs `inside` one level deeper, or `recover` where that is too deep. -/
def nesting (recover inside : ArenaParser Nat) : ArenaParser Nat := do
  let node ← if ← enter then inside else recover
  leave
  return node

/-! ## Loops -/

/-- Collects what `item` gives until it asks to stop or reads nothing. -/
def collect (item : ArenaParser (List Nat × Bool)) (s : ArenaState) : List Nat × ArenaState :=
  match item s with
  | ((chunk, more), s') =>
    if _h : more = true ∧ s'.ahead.rest.length < s.ahead.rest.length then
      let (tail, s'') := collect item s'
      (chunk ++ tail, s'')
    else
      (chunk, s')
termination_by s.ahead.rest.length
decreasing_by exact _h.2

/-- Collects what `item` gives as long as `more` holds. -/
def collectWhile (more : ParseState → Bool) (item : ArenaParser (List Nat)) :
    ArenaParser (List Nat) :=
  collect fun s =>
    if more s.ahead then
      let (chunk, s') := item s
      ((chunk, true), s')
    else
      (([], false), s)

/-- Refines a value until `step` gives none or reads nothing. -/
def refine (step : α → ArenaParser (Option α)) (a : α) (s : ArenaState) : α × ArenaState :=
  match step a s with
  | (none, s') => (a, s')
  | (some b, s') =>
    if _h : s'.ahead.rest.length < s.ahead.rest.length then refine step b s' else (b, s')
termination_by s.ahead.rest.length
decreasing_by exact _h

/-- One or more items with commas between them. -/
def commaSeparated (item : ArenaParser (List Nat)) : ArenaParser (List Nat) := do
  let first ← item
  let others ← collectWhile (fun s => s.kind == .comma) do
    let comma ← advance
    return comma :: (← item)
  return first ++ others

/-- An element of a list; a token at which nothing was read is skipped with `code`. -/
def element (code : ErrorCode) (item : ArenaParser Nat) : ArenaParser (List Nat) := do
  let before := (← lift get).rest.length
  let node ← item
  let s ← lift get
  if s.rest.length = before ∧ s.kind ≠ .endOfFile then
    return [node, ← skip code]
  else
    return [node]

/-- The modifiers ahead. -/
def modifiers : ArenaParser (List Nat) :=
  collectWhile (fun s => s.kind.isModifier) do return [← advance]

/-- Wraps the rest of the statement in an error node, and its semicolon too if told so. -/
def giveUp (withSemicolon : Bool) : ArenaParser Nat := do
  lift (modify fun s =>
    if s.depthReported then s
    else { s with depthReported := true }.report ⟨s.offset, 1, .tooDeeplyNested, []⟩)
  let skipped ← collectWhile (fun s => !Parser.endsStatement s.kind) do return [← advance]
  let semicolon ← if withSemicolon then accept .semicolon else pure []
  group .errorNode (skipped ++ semicolon)

end ArenaParser

end NullLint
