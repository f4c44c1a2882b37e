import NullLint.Semantics.Symbol
import NullLint.Syntax.View

/-!
# Name binding

One walk over the tree declares symbols and finds the symbol that each identifier expression
names. Files, namespaces, types, methods, accessors and blocks open a scope. Types and members
of types are declared before any body is looked at; a local is declared behind its initializer,
so it is visible from the next declarator on.
-/

namespace NullLint

/-- What binding finds out about a tree. -/
structure Bindings where
  symbols : List Symbol := []
  scopes : List Scope := []
  /-- Node numbers with the symbols they name or declare, last one first. -/
  symbolOf : List (Nat × Nat) := []
  /-- How many identifier expressions name nothing. -/
  unresolved : Nat := 0

namespace Bindings

/-- Opens a scope inside the scopes `chain`, innermost first. -/
def openScope (b : Bindings) (kind : ScopeKind) (chain : List Nat) (node : Nat) :
    List Nat × Bindings :=
  (b.scopes.length :: chain,
    { b with scopes := b.scopes ++ [⟨kind, chain.head?, node, []⟩] })

/-- Declares a symbol in the innermost scope. -/
def declare (b : Bindings) (chain : List Nat) (s : Symbol) : Bindings :=
  let id := b.symbols.length
  { b with
    symbols := b.symbols ++ [s]
    scopes :=
      match chain with
      | scope :: _ => b.scopes.modify scope fun t => t.declare s.name id
      | [] => b.scopes
    symbolOf := (s.declaration, id) :: b.symbolOf }

/-- The symbol that a name means, looking outward from the innermost scope. -/
def resolve? (b : Bindings) (chain : List Nat) (name : String) : Option Nat :=
  chain.findSome? fun scope => b.scopes[scope]?.bind fun t => t.find? name

/-- Binds an identifier expression. -/
def bindName (b : Bindings) (chain : List Nat) (n : Placed) : Bindings :=
  match n.identifier? with
  | none => b
  | some name =>
    match b.resolve? chain name with
    | some id => { b with symbolOf := (n.id, id) :: b.symbolOf }
    | none => { b with unresolved := b.unresolved + 1 }

/-- Declares a class or struct. -/
def declareType (b : Bindings) (chain : List Nat) (n : Placed) : Bindings :=
  let kind? : Option SymbolKind :=
    match n.kind with
    | .classDeclaration => some .classType
    | .structDeclaration => some .structType
    | _ => none
  match kind?, n.declaredName? with
  | some kind, some name => b.declare chain ⟨name, kind, n.id, none, none⟩
  | _, _ => b

/-- Declares a variable by its declarator. -/
def declareVariable (b : Bindings) (chain : List Nat) (kind : SymbolKind)
    (type : Option Placed) (d : Placed) : Bindings :=
  match d.declarator? with
  | some v => b.declare chain ⟨v.nameToken.leafText, kind, d.id, type, v.initializer⟩
  | none => b

/-- Declares a parameter. -/
def declareParameter (b : Bindings) (chain : List Nat) (p : Placed) : Bindings :=
  match p.parameter? with
  | some v => b.declare chain ⟨v.nameToken.leafText, .parameter, p.id, some v.type, none⟩
  | none => b

/-- Declares a member of a type. Constructors have no name of their own. -/
def declareMember (b : Bindings) (chain : List Nat) (m : Placed) : Bindings :=
  match m.kind with
  | .fieldDeclaration =>
    match m.variableDeclaration? with
    | some v => v.declarators.foldl (fun b d => b.declareVariable chain .field (some v.type) d) b
    | none => b
  | .propertyDeclaration =>
    match m.property? with
    | some v =>
      b.declare chain ⟨v.nameToken.leafText, .property, m.id, some v.type, v.initializer⟩
    | none => b
  | .methodDeclaration =>
    match m.method? with
    | some v => b.declare chain ⟨v.nameToken.leafText, .method, m.id, v.returnType, none⟩
    | none => b
  | _ => b.declareType chain m

/-- Whether a part of a property holds expressions. -/
def isPropertyBody (k : Kind) : Bool :=
  k == .accessorList || k == .arrowExpressionClause || k == .equalsValueClause

/-- Binds a node inside the scopes `chain`. Names in types and directives, member names behind a
dot and the defaults of parameters are not looked at. -/
def bind (chain : List Nat) (n : Placed) (b : Bindings) : Bindings :=
  match n.kind with
  | .compilationUnit =>
    let (chain, b) := b.openScope .compilationUnit chain n.id
    let b := n.members.foldl (fun b m => b.declareType chain m) b
    n.children.attach.foldl
      (fun b c => if c.1.kind.isToken then b else bind chain c.1 b) b
  | .namespaceDeclaration =>
    let (chain, b) := b.openScope .namespaceBody chain n.id
    let b := n.members.foldl (fun b m => b.declareType chain m) b
    n.children.attach.foldl
      (fun b c => if c.1.kind.isToken then b else bind chain c.1 b) b
  | .classDeclaration | .structDeclaration =>
    let (chain, b) := b.openScope .typeBody chain n.id
    let b := n.members.foldl (fun b m => b.declareMember chain m) b
    n.members.attach.foldl (fun b m => bind chain m.1 b) b
  | .fieldDeclaration =>
    match _h : n.variableDeclaration? with
    | some v =>
      v.declarators.attach.foldl (fun b d =>
        match _h : d.1.initializer? with
        | some e => bind chain e b
        | none => b) b
    | none => b
  | .propertyDeclaration =>
    n.children.attach.foldl
      (fun b c => if isPropertyBody c.1.kind then bind chain c.1 b else b) b
  | .methodDeclaration | .constructorDeclaration =>
    let (chain, b) := b.openScope .method chain n.id
    match _h : n.method? with
    | some v =>
      let b := v.parameters.foldl (fun b p => b.declareParameter chain p) b
      match _h' : v.body with
      | some body => bind chain body b
      | none => b
    | none => b
  | .accessorDeclaration =>
    let (chain, b) := b.openScope .method chain n.id
    n.children.attach.foldl
      (fun b c => if c.1.kind.isToken then b else bind chain c.1 b) b
  | .block =>
    let (chain, b) := b.openScope .block chain n.id
    n.children.attach.foldl
      (fun b c => if c.1.kind.isToken then b else bind chain c.1 b) b
  | .localDeclarationStatement =>
    match _h : n.variableDeclaration? with
    | some v =>
      v.declarators.attach.foldl (fun b d =>
        let b :=
          match _h : d.1.initializer? with
          | some e => bind chain e b
          | none => b
        b.declareVariable chain .localVariable (some v.type) d.1) b
    | none => b
  | .identifierName => b.bindName chain n
  | .memberAccessExpression =>
    match _h : n.memberAccess? with
    | some v => bind chain v.expression b
    | none => b
  | .objectCreationExpression =>
    match _h : n.creation? with
    | some v => v.arguments.attach.foldl (fun b a => bind chain a.1 b) b
    | none => b
  | .usingDirective => b
  | k =>
    if k.isType || k.isToken then b
    else n.children.attach.foldl
      (fun b c => if c.1.kind.isToken then b else bind chain c.1 b) b
termination_by n.size
decreasing_by
  · exact Node.size_lt_of_mem_children c.2
  · exact Node.size_lt_of_mem_children c.2
  · exact Node.size_lt_of_mem_members m.2
  · exact Nat.lt_trans (Node.size_lt_of_initializer? _h)
      (Node.size_lt_of_mem_declarators (by assumption) d.2)
  · exact Node.size_lt_of_mem_children c.2
  · exact Node.size_lt_of_method? _h _h'
  · exact Node.size_lt_of_mem_children c.2
  · exact Node.size_lt_of_mem_children c.2
  · exact Nat.lt_trans (Node.size_lt_of_initializer? _h)
      (Node.size_lt_of_mem_declarators (by assumption) d.2)
  · exact Node.size_lt_of_memberAccess? _h
  · exact Node.size_lt_of_mem_arguments _h a.2
  · exact Node.size_lt_of_mem_children c.2

/-- Binds a whole tree. -/
def ofRoot (root : Option Placed) : Bindings :=
  match root with
  | some n => bind [] n {}
  | none => {}

end Bindings

end NullLint
