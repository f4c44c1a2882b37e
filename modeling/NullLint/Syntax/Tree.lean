import NullLint.Syntax.Layout

/-!
# Trees

A tree is a file name with a root node, or with none. Trees are values: an edit gives a new
tree, whose nodes are numbered and placed afresh.
-/

namespace NullLint

/-- The tree of a file, or a fragment of one. -/
structure Tree where
  file : String
  root : Option Green
  deriving Repr, Inhabited

namespace Tree

/-- The source text, trivia included. -/
def text (t : Tree) : String := (t.root.map Node.print).getD ""

/-- The root laid out from offset zero. -/
def placed (t : Tree) : Option Placed := t.root.map Node.placed

/-- Every node in preorder; a node's number is its position here. -/
def nodes (t : Tree) : List Placed := (t.placed.map Node.preorder).getD []

/-- The node with a given number. -/
def node? (t : Tree) (id : Nat) : Option Placed := t.nodes[id]?

/-- The node with a given number and its ancestors, nearest first. -/
def path? (t : Tree) (id : Nat) : Option (List Placed) := t.placed.bind (·.path? id)

/-- Number of nodes. -/
def size (t : Tree) : Nat := t.nodes.length

/-- Whether a number belongs to a node of the tree. -/
def contains (t : Tree) (id : Nat) : Bool := id < t.size

/-- The text of a node without its outer trivia. -/
def textOf (t : Tree) (n : Placed) : String := n.span.text t.text

/-- Same kinds, same tokens, same texts; trivia and positions do not count. -/
def sameAs (t u : Tree) : Bool :=
  (t.root.map Node.outline).getD [] == (u.root.map Node.outline).getD []

/-! ## Edits -/

/-- The subtree at a node, as a fragment. -/
def extract (t : Tree) (id : Nat) : Option Tree :=
  (t.node? id).map fun n => ⟨t.file, some n.erase⟩

/-- What takes the place of a node: nothing is decided, or a fragment that may be empty. -/
abbrev Substitution := Nat → Option (Option Green)

mutual

/-- Rebuilds a node on top of the nodes built so far (last one first). A branch takes as many of
them as it had children, so a node replaced by an empty fragment makes its branch reach back to
what stands before. -/
def rebuild (σ : Substitution) (built : List Green) : Placed → List Green
  | .token a t =>
    match σ a.id with
    | some fragment => fragment.toList ++ built
    | none => .leaf t :: built
  | .branch a k cs =>
    match σ a.id with
    | some fragment => fragment.toList ++ built
    | none =>
      let all := rebuildAll σ built cs
      .group k (all.take cs.length).reverse :: all.drop cs.length

/-- Rebuilds a list of nodes in order. -/
def rebuildAll (σ : Substitution) (built : List Green) : List Placed → List Green
  | [] => built
  | c :: cs => rebuildAll σ (rebuild σ built c) cs

end

/-- The substitution that a list of edits describes; a later edit of a node wins. -/
def substitution (edits : List (Nat × Tree)) : Substitution :=
  let latestFirst := edits.reverse
  fun id => (latestFirst.find? fun e => e.1 == id).map fun e => e.2.root

/-- Replaces several nodes at once; `none` if one of them is not in the tree. An edit of a node
hides the edits below it, and nothing is replaced inside a fragment. -/
def replaceMany (t : Tree) (edits : List (Nat × Tree)) : Option Tree :=
  let size := t.size
  if edits.all fun e => e.1 < size then
    some ⟨t.file, t.placed.bind fun root => (rebuild (substitution edits) [] root).head?⟩
  else
    none

/-- Replaces one node. -/
def replace (t : Tree) (id : Nat) (fragment : Tree) : Option Tree :=
  t.replaceMany [(id, fragment)]

/-! ## Outer trivia -/

/-- Changes the token reached by always taking the first child. -/
def updateFirst (f : Token → Token) : Green → Green
  | .token _ t => .leaf (f t)
  | .branch _ k [] => .group k []
  | .branch _ k (c :: cs) => .group k (updateFirst f c :: cs)

mutual

/-- Changes the token reached by always taking the last child. -/
def updateLast (f : Token → Token) : Green → Green
  | .token _ t => .leaf (f t)
  | .branch _ k cs => .group k (updateLastIn f cs)

/-- Changes the last token of the last node. -/
def updateLastIn (f : Token → Token) : List Green → List Green
  | [] => []
  | [c] => [updateLast f c]
  | c :: d :: cs => c :: updateLastIn f (d :: cs)

end

/-- Gives the tree the outer trivia of a node: the leading trivia of its first token and the
trailing trivia of its last one. -/
def withTriviaOf (t : Tree) (node : Option Placed) : Tree :=
  let leading := ((node.bind (·.firstLeaf?)).bind (·.token?)).map Token.leading
  let trailing := ((node.bind (·.lastLeaf?)).bind (·.token?)).map Token.trailing
  let first := updateFirst fun token => { token with leading := leading.getD [] }
  let last := updateLast fun token => { token with trailing := trailing.getD [] }
  ⟨t.file, t.root.map fun root => last (first root)⟩

end Tree

end NullLint
