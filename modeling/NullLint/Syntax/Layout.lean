import NullLint.Syntax.Node
import NullLint.Text.Span

/-!
# Layout

Numbers the nodes of a tree in preorder and gives each its place in the text. A token's span is
its own text and its full span takes in its trivia. A branch reaches from its first child that
is not empty to its last one.

A branch whose kind is that of a token has no text of its own: it is empty, and the nodes below
it have no place. A token whose kind is that of a branch is laid out as an empty branch.
-/

namespace NullLint

/-- Number and position of a node. -/
structure Place where
  id : Nat
  span : Span
  fullSpan : Span
  deriving DecidableEq, Repr, Inhabited

/-- A node that knows its number and position. -/
abbrev Placed := Node Place

namespace Node

abbrev id (n : Placed) : Nat := n.tag.id

abbrev span (n : Placed) : Span := n.tag.span

abbrev fullSpan (n : Placed) : Span := n.tag.fullSpan

/-- The place of a token that starts, trivia included, at `offset`. -/
def tokenPlace (id offset : Nat) (t : Token) : Place :=
  let start := offset + Trivia.width t.leading
  let stop := start + t.text.utf8ByteSize
  ⟨id, ⟨start, stop⟩, ⟨offset, stop + Trivia.width t.trailing⟩⟩

/-- From the first child that is not empty to the last one. -/
def innerSpan (fallback : Nat) (children : List Placed) : Span :=
  let spans := (children.map span).filter fun s => !s.isEmpty
  match spans.head?, spans.getLast? with
  | some first, some last => ⟨first.start, last.stop⟩
  | _, _ => .emptyAt fallback

/-- The place of a branch whose children are laid out from `offset` up to `stop`. -/
def branchPlace (id offset stop : Nat) (children : List Placed) : Place :=
  let start := (children.head?.map fun c => c.fullSpan.start).getD offset
  ⟨id, innerSpan start children, ⟨start, stop⟩⟩

variable {α : Type}

mutual

/-- Numbers the nodes from `next` on without placing them; also gives the number after them. -/
def number (next : Nat) : Node α → Placed × Nat
  | .token _ t => (.token ⟨next, .origin, .origin⟩ t, next + 1)
  | .branch _ k cs =>
    let (cs', after) := numberAll (next + 1) cs
    (.branch ⟨next, .origin, .origin⟩ k cs', after)

/-- Numbers a list of nodes. -/
def numberAll (next : Nat) : List (Node α) → List Placed × Nat
  | [] => ([], next)
  | c :: cs =>
    let (c', next') := number next c
    let (cs', after) := numberAll next' cs
    (c' :: cs', after)

end

mutual

/-- Lays a node out with the number `next` at `offset`; also gives the number and the offset
after it. -/
def layOut (next offset : Nat) : Node α → Placed × Nat × Nat
  | .token _ t =>
    if t.kind.isToken then
      let place := tokenPlace next offset t
      (.token place t, next + 1, place.fullSpan.stop)
    else
      (.token ⟨next, .emptyAt offset, .emptyAt offset⟩ t, next + 1, offset)
  | .branch _ k cs =>
    if k.isToken then
      let (cs', after) := numberAll (next + 1) cs
      (.branch ⟨next, .emptyAt offset, .emptyAt offset⟩ k cs', after, offset)
    else
      let (cs', after, stop) := layOutAll (next + 1) offset cs
      (.branch (branchPlace next offset stop cs') k cs', after, stop)

/-- Lays a list of nodes out one after the other. -/
def layOutAll (next offset : Nat) : List (Node α) → List Placed × Nat × Nat
  | [] => ([], next, offset)
  | c :: cs =>
    let (c', next', offset') := layOut next offset c
    let (cs', after, stop) := layOutAll next' offset' cs
    (c' :: cs', after, stop)

end

/-- The node laid out as the root of a text. -/
def placed (n : Node α) : Placed := (n.layOut 0 0).1

/-- Bytes laid out for the node. -/
def width (n : Node α) : Nat := (n.layOut 0 0).2.2

/-! ## Paths -/

mutual

/-- The node numbered `target` and its ancestors, nearest first; `above` are the ancestors of
the node searched. -/
def pathFrom (target : Nat) (above : List Placed) : Placed → Option (List Placed)
  | .token a t => if a.id = target then some (.token a t :: above) else none
  | .branch a k cs =>
    if a.id = target then some (.branch a k cs :: above)
    else pathFromAll target (.branch a k cs :: above) cs

/-- The path in the first of several trees that has one. -/
def pathFromAll (target : Nat) (above : List Placed) : List Placed → Option (List Placed)
  | [] => none
  | c :: cs =>
    match pathFrom target above c with
    | some path => some path
    | none => pathFromAll target above cs

end

/-- The node numbered `target` and its ancestors, nearest first. -/
def path? (root : Placed) (target : Nat) : Option (List Placed) :=
  root.pathFrom target []

end Node

end NullLint
