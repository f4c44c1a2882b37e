import NullLint.Syntax.Layout

/-!
# What encloses a node

Look-ups on a path: a node followed by its ancestors, nearest first.
-/

namespace NullLint.Path

/-- The nearest statement list around a node: a block, or the file. -/
def scope? (path : List Placed) : Option Placed :=
  path.tail.find? fun n => n.kind == .block || n.kind == .compilationUnit

/-- The nearest statement around a node, the node itself included. -/
def statement? (path : List Placed) : Option Placed :=
  path.find? fun n => n.kind.isStatement

/-- The nearest method, constructor or accessor around a node. -/
def function? (path : List Placed) : Option Placed :=
  path.tail.find? fun n =>
    n.kind == .methodDeclaration || n.kind == .constructorDeclaration ||
      n.kind == .accessorDeclaration

/-- The nearest method, constructor, property or field around a node. -/
def member? (path : List Placed) : Option Placed :=
  path.tail.find? fun n =>
    n.kind == .methodDeclaration || n.kind == .constructorDeclaration ||
      n.kind == .propertyDeclaration || n.kind == .fieldDeclaration

end NullLint.Path
