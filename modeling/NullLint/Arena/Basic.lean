import NullLint.Syntax.Token

/-!
# Arenas

The nodes of an arena stand in one list and name one another by their positions in it: a node lists
its children, and each child names its parent. A token node also names its entry in a second list,
that of texts and trivia.

Nothing in the types keeps a node from having two parents or none, from standing below itself, or
from naming what is not there. The walks below are therefore given a number of steps, one for each
node of the arena.
-/

namespace NullLint

/-- Text and trivia of a token. -/
structure TokenData where
  text : String := ""
  leading : List Trivia := []
  trailing : List Trivia := []
  deriving DecidableEq, Repr, Inhabited

/-- The token with its trivia, as it stands in the source. -/
def TokenData.fullText (d : TokenData) : String :=
  Trivia.join d.leading ++ d.text ++ Trivia.join d.trailing

/-- What an arena keeps of a token beside its kind and its flag. -/
def Token.data (t : Token) : TokenData := ⟨t.text, t.leading, t.trailing⟩

structure ArenaNode where
  kind : Kind
  /-- Whether the node stands for a token that the source lacks. -/
  missing : Bool := false
  parent : Option Nat := none
  children : List Nat := []
  /-- The entry of a token node in the list of texts and trivia. -/
  data : Option Nat := none
  deriving DecidableEq, Repr, Inhabited

structure Arena where
  nodes : List ArenaNode := []
  tokens : List TokenData := []
  deriving DecidableEq, Repr, Inhabited

namespace Arena

/-- Number of nodes. -/
def size (a : Arena) : Nat := a.nodes.length

/-! ## Growth -/

/-- Adds a token that has no parent yet. -/
def addToken (a : Arena) (kind : Kind) (data : TokenData) (missing : Bool) : Nat × Arena :=
  (a.size, {
    nodes := a.nodes ++ [{ kind, missing, data := some a.tokens.length }]
    tokens := a.tokens ++ [data] })

/-- Makes `parent` the parent of some nodes, one after the other. -/
def adopt (parent : Nat) : List Nat → List ArenaNode → List ArenaNode
  | [], nodes => nodes
  | c :: cs, nodes => adopt parent cs (nodes.modify c fun n => { n with parent := some parent })

/-- Adds a branch and makes it the parent of its children. -/
def addNode (a : Arena) (kind : Kind) (children : List Nat) : Nat × Arena :=
  (a.size, { a with nodes := adopt a.size children a.nodes ++ [{ kind, children }] })

/-! ## Access -/

def node? (a : Arena) (i : Nat) : Option ArenaNode := a.nodes[i]?

def children (a : Arena) (i : Nat) : List Nat := ((a.node? i).map ArenaNode.children).getD []

def parent? (a : Arena) (i : Nat) : Option Nat := (a.node? i).bind ArenaNode.parent

/-- Text and trivia of a token node. -/
def token? (a : Arena) (i : Nat) : Option TokenData :=
  (a.node? i).bind fun n => n.data.bind fun d => a.tokens[d]?

/-- Changes text and trivia of a token node. -/
def updateToken (a : Arena) (i : Nat) (f : TokenData → TokenData) : Arena :=
  match (a.node? i).bind ArenaNode.data with
  | some d => { a with tokens := a.tokens.modify d f }
  | none => a

/-- Changes text and trivia of a token node, if one is given. -/
def updateAt (a : Arena) (i : Option Nat) (f : TokenData → TokenData) : Arena :=
  (i.map fun i => a.updateToken i f).getD a

/-! ## Walks -/

/-- The ancestors of a node, nearest first, met on so many steps upwards. -/
def ancestorsWithin (a : Arena) : Nat → Nat → List Nat
  | 0, _ => []
  | steps + 1, i =>
    match a.parent? i with
    | some p => p :: ancestorsWithin a steps p
    | none => []

def ancestors (a : Arena) (i : Nat) : List Nat := a.ancestorsWithin a.size i

/-- Whether a node is another one or above it. -/
def isAncestorOrSelf (a : Arena) (above i : Nat) : Bool :=
  i == above || (a.ancestors i).contains above

/-- Nodes met in preorder with so many taken off the stack; first are those on its top and what is
below them. -/
def descendantsWithin (a : Arena) : Nat → List Nat → List Nat
  | 0, _ | _, [] => []
  | steps + 1, i :: stack =>
    match a.node? i with
    | some n => i :: descendantsWithin a steps (n.children ++ stack)
    | none => descendantsWithin a steps stack

/-- A node and everything below it, parents first. -/
def descendants (a : Arena) (i : Nat) : List Nat := a.descendantsWithin a.size [i]

/-- The token node reached in so many steps to a first child. -/
def firstTokenWithin (a : Arena) : Nat → Nat → Option Nat
  | 0, _ => none
  | steps + 1, i => do
    let n ← a.node? i
    if n.data.isSome then some i else n.children.head?.bind (firstTokenWithin a steps)

def firstToken (a : Arena) (i : Nat) : Option Nat := a.firstTokenWithin a.size i

/-- The token node reached in so many steps to a last child. -/
def lastTokenWithin (a : Arena) : Nat → Nat → Option Nat
  | 0, _ => none
  | steps + 1, i => do
    let n ← a.node? i
    if n.data.isSome then some i else n.children.getLast?.bind (lastTokenWithin a steps)

def lastToken (a : Arena) (i : Nat) : Option Nat := a.lastTokenWithin a.size i

/-! ## Text -/

/-- The token nodes under a node, in preorder. -/
def tokensOf (a : Arena) (i : Nat) : List Nat :=
  (a.descendants i).filter fun j => (a.node? j).any fun n => n.data.isSome

/-- The source text of a node, trivia included. -/
def sourceText (a : Arena) (i : Nat) : String :=
  String.join (((a.tokensOf i).filterMap a.token?).map TokenData.fullText)

end Arena

end NullLint
