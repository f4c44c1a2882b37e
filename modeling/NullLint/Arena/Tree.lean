import NullLint.Arena.Copy
import NullLint.Arena.Parser.Declaration
import NullLint.Syntax.Lexer

/-!
# Trees in arenas

A tree has an arena of its own and names its root in it. An edit leaves the arena alone and gives a
tree with another one, so the position of a node is good for one tree only.
-/

namespace NullLint

/-- The tree of a file, or a fragment of one, in an arena. -/
structure ArenaTree where
  file : String
  arena : Arena
  root : Option Nat
  text : String
  deriving DecidableEq, Repr, Inhabited

namespace ArenaTree

/-- The tree below a node of an arena, with the text that its tokens spell. -/
def ofFragment (file : String) (fragment : Arena.Fragment) : ArenaTree where
  file
  arena := fragment.arena
  root := fragment.root
  text := (fragment.root.map fragment.arena.sourceText).getD ""

def fragment (t : ArenaTree) : Arena.Fragment := ⟨t.arena, t.root⟩

/-- The tree of a source text. -/
def parse (file text : String) : ArenaTree :=
  let (lexemes, errors) := Lexer.lex text
  let (root, s) := ArenaParser.compilationUnit
    { ahead := { rest := lexemes, errors := errors.reverse } }
  ofFragment file ⟨s.arena, some root⟩

/-- Whether a node is the root or below it. -/
def contains (t : ArenaTree) (i : Nat) : Bool :=
  (t.arena.node? i).isSome && t.root.any fun r => t.arena.isAncestorOrSelf r i

/-! ## Edits -/

/-- The subtree at a node, as a fragment. -/
def extract (t : ArenaTree) (i : Nat) : Option ArenaTree :=
  if t.contains i then
    some (ofFragment t.file (Arena.copySubtree (fun _ => none) t.arena (some i)))
  else
    none

/-- What a list of edits puts in the place of a node; a later edit of a node wins. -/
def substitutes (edits : List (Nat × ArenaTree)) : Arena.Substitutes :=
  let latestFirst := edits.reverse
  fun i => (latestFirst.find? fun e => e.1 == i).map fun e => e.2.fragment

/-- Replaces several nodes at once; `none` if one of them is not in the tree. -/
def replaceMany (t : ArenaTree) (edits : List (Nat × ArenaTree)) : Option ArenaTree :=
  if edits.all fun e => t.contains e.1 then
    some (ofFragment t.file (Arena.copySubtree (substitutes edits) t.arena t.root))
  else
    none

/-- Replaces one node. -/
def replace (t : ArenaTree) (i : Nat) (fragment : ArenaTree) : Option ArenaTree :=
  t.replaceMany [(i, fragment)]

/-- Gives the tree the outer trivia of a node of `source`: the leading trivia of its first token and
the trailing trivia of its last one. -/
def withTriviaFrom (t source : ArenaTree) (i : Nat) : ArenaTree :=
  let first := (source.arena.firstToken i).bind source.arena.token?
  let last := (source.arena.lastToken i).bind source.arena.token?
  let leading := (first.map TokenData.leading).getD []
  let trailing := (last.map TokenData.trailing).getD []
  let a := t.arena.updateAt (t.root.bind t.arena.firstToken) fun d => { d with leading }
  let b := a.updateAt (t.root.bind a.lastToken) fun d => { d with trailing }
  ofFragment t.file ⟨b, t.root⟩

end ArenaTree

end NullLint
