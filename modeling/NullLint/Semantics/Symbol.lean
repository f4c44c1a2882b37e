import NullLint.Syntax.Layout

/-!
# Symbols and scopes

A symbol is something with a name; a scope is a node in which names are declared. Symbols and
scopes are numbered in the order in which they come up.
-/

namespace NullLint

inductive SymbolKind where
  | localVariable
  | parameter
  | field
  | property
  | method
  | classType
  | structType
  deriving DecidableEq, Repr

namespace SymbolKind

def label : SymbolKind → String
  | .localVariable => "local"
  | .parameter => "parameter"
  | .field => "field"
  | .property => "property"
  | .method => "method"
  | .classType => "class"
  | .structType => "struct"

/-- Symbols that hold a value. -/
def isVariable : SymbolKind → Bool
  | .localVariable | .parameter | .field | .property => true
  | _ => false

/-- Symbols that live in a function body. -/
def isLocal : SymbolKind → Bool
  | .localVariable | .parameter => true
  | _ => false

def isType : SymbolKind → Bool
  | .classType | .structType => true
  | _ => false

end SymbolKind

/-- A named thing of the file. -/
structure Symbol where
  name : String
  kind : SymbolKind
  /-- Number of the declaring node. -/
  declaration : Nat
  /-- The type it is declared with; for a method, the return type. -/
  typeNode : Option Placed
  initializer : Option Placed

inductive ScopeKind where
  | compilationUnit
  | namespaceBody
  | typeBody
  | method
  | block
  deriving DecidableEq, Repr

def ScopeKind.label : ScopeKind → String
  | .compilationUnit => "CompilationUnit"
  | .namespaceBody => "Namespace"
  | .typeBody => "Type"
  | .method => "Method"
  | .block => "Block"

/-- The names declared in a node; each name once, with the last symbol it was given. -/
structure Scope where
  kind : ScopeKind
  parent : Option Nat
  node : Nat
  names : List (String × Nat) := []

namespace Scope

/-- Declares a name, which hides what it meant here before. -/
def declare (s : Scope) (name : String) (symbol : Nat) : Scope :=
  { s with names := (name, symbol) :: s.names.filter fun p => p.1 != name }

/-- The symbol that a name means here. -/
def find? (s : Scope) (name : String) : Option Nat := s.names.lookup name

@[simp]
theorem find?_declare_self (s : Scope) (name : String) (symbol : Nat) :
    (s.declare name symbol).find? name = some symbol := by
  simp [declare, find?]

end Scope

end NullLint
