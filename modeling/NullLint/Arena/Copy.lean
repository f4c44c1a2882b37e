import NullLint.Arena.Basic

/-!
# Copies from arena to arena

A subtree is copied with a stack of what is still to do and a list of the nodes built so far. A
token node builds a token. A branch has its children entered, one after the other, and is left
behind the last of them; then it takes as many of the nodes built last as it has children. Where a
node is replaced, the root of a fragment in another arena is entered instead, and inside it nothing
is replaced.
-/

namespace NullLint

namespace Arena

/-- Sets whether a node stands for a token that the source lacks. -/
def setMissing (a : Arena) (i : Nat) (missing : Bool) : Arena :=
  { a with nodes := a.nodes.modify i fun n => { n with missing } }

/-- A node of an arena with what is below it; it may also name no node. -/
structure Fragment where
  arena : Arena
  root : Option Nat
  deriving DecidableEq, Repr, Inhabited

/-- What takes the place of a node, if something does. -/
abbrev Substitutes := Nat → Option Fragment

/-- Something to do in a copy. -/
inductive Frame where
  /-- Build the node; `substitute` tells whether nodes may be replaced there. -/
  | enter (source : Arena) (index : Option Nat) (substitute : Bool)
  /-- Build the branch over the nodes that are built last, so many of them. -/
  | exit (source : Arena) (index : Option Nat) (count : Nat)
  deriving DecidableEq, Repr, Inhabited

/-- The frames still to do, the nodes built so far (last one first), and the arena they stand in. -/
structure CopyState where
  todo : List Frame
  built : List Nat := []
  target : Arena := {}
  deriving DecidableEq, Repr, Inhabited

namespace CopyState

/-- Takes the topmost frame off the stack. -/
def step (σ : Substitutes) (s : CopyState) : CopyState :=
  match s.todo with
  | [] => s
  | .enter source index substitute :: todo =>
    match if substitute then index.bind σ else none with
    | some fragment => { s with todo := .enter fragment.arena fragment.root false :: todo }
    | none =>
      match index.bind source.node? with
      | none => { s with todo }
      | some n =>
        if n.data.isSome then
          let data := (index.bind source.token?).getD {}
          let (i, target) := s.target.addToken n.kind data n.missing
          { todo, built := i :: s.built, target }
        else
          let below := n.children.map fun c => Frame.enter source (some c) substitute
          { s with todo := below ++ Frame.exit source index n.children.length :: todo }
  | .exit source index count :: todo =>
    let n := index.bind source.node?
    let kind := (n.map ArenaNode.kind).getD .errorNode
    let (i, target) := s.target.addNode kind (s.built.take count).reverse
    { todo
      built := i :: s.built.drop count
      target := target.setMissing i ((n.map ArenaNode.missing).getD false) }

def run (σ : Substitutes) : (rounds : Nat) → CopyState → CopyState
  | 0, s => s
  | rounds + 1, s => run σ rounds (s.step σ)

end CopyState

/-- Rounds for one node: two, for entering and leaving it, and as many for each node of the fragment
that may replace it. -/
def nodeRounds (σ : Substitutes) (i : Nat) : Nat :=
  2 + ((σ i).map fun fragment => 2 * fragment.arena.size).getD 0

/-- Rounds for some nodes. -/
def roundsOf (σ : Substitutes) (is : List Nat) : Nat :=
  is.foldr (fun i rounds => nodeRounds σ i + rounds) 0

/-- Copies a subtree into an arena of its own, in as many rounds as this takes if no node is entered
twice. -/
def copySubtree (σ : Substitutes) (source : Arena) (root : Option Nat) : Fragment :=
  let rounds := roundsOf σ (List.range source.size)
  let s := CopyState.run σ rounds { todo := [.enter source root true] }
  ⟨s.target, s.built.head?⟩

end Arena

end NullLint
