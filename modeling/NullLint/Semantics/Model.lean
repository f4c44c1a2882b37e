import NullLint.Semantics.Binding
import NullLint.Semantics.TypeFacts

/-!
# The semantic model of a file

Names, and the types of symbols and expressions as far as they can be told from one file. A
`var` local has the type of its initializer; the initializer names only symbols declared before
it or members with a written type, so one pass in declaration order is enough.
-/

namespace NullLint

/-- What is known of the names and types of a tree. -/
structure Model where
  root : Option Placed
  bindings : Bindings
  table : TypeTable
  /-- The type of each symbol; for a method, the return type. -/
  types : List (Option TypeFacts)

namespace Model

/-- The symbol that a node names or declares. -/
def symbolAt (m : Model) (node : Nat) : Option Nat := m.bindings.symbolOf.lookup node

def symbol? (m : Model) (id : Nat) : Option Symbol := m.bindings.symbols[id]?

def symbolType (m : Model) (id : Nat) : Option TypeFacts := m.types[id]?.join

/-- Whether a symbol satisfies `p`. -/
def symbolIs (m : Model) (id : Nat) (p : SymbolKind → Bool) : Bool :=
  (m.symbol? id).any fun s => p s.kind

/-! ## Types of expressions -/

/-- Operators whose result is a truth value. -/
def isComparison : Kind → Bool
  | .equalsEquals | .exclamationEquals | .lessThan | .lessThanEquals | .greaterThan
  | .greaterThanEquals | .ampersandAmpersand | .barBar => true
  | _ => false

def literalType (m : Model) (n : Placed) : Option TypeFacts :=
  match n.literal?.map Node.kind with
  | some .numericLiteral | some .characterLiteral | some .trueKeyword | some .falseKeyword =>
    some .value
  | some .stringLiteral => some (m.table.reference false)
  | _ => none

/-- Whether an access chain goes through a `?.` or `?[`, as in `s?.Length.ToString()`. -/
def inConditionalChain (n : Placed) : Bool :=
  match n.kind with
  | .conditionalAccessExpression => true
  | .parenthesizedExpression =>
    match _h : n.inner? with
    | some e => inConditionalChain e
    | none => false
  | .memberAccessExpression | .invocationExpression | .elementAccessExpression
  | .suppressNullableWarningExpression =>
    match _h : n.children with
    | e :: _ => inConditionalChain e
    | [] => false
  | _ => false
termination_by n.size
decreasing_by
  · exact Node.size_lt_of_inner? _h
  · exact Node.size_lt_of_mem_children (by simp [_h])

/-- A method of the file gives its return type. `ToString()` is a string, which may be null
behind a `?.`. -/
def invocationType (m : Model) (n : Placed) : Option TypeFacts := do
  let callee := (← n.invocation?).expression.unparenthesized
  match callee.kind with
  | .identifierName =>
    let id ← m.symbolAt callee.id
    if m.symbolIs id fun k => k == .method then m.symbolType id else none
  | .memberAccessExpression =>
    let access ← callee.memberAccess?
    if access.name.identifier? = some "ToString" then
      some (m.table.reference (inConditionalChain access.expression))
    else
      none
  | _ => none

/-- The type of the object made by `new`. -/
def creationType (m : Model) (n : Placed) : Option TypeFacts := do
  match m.table.declared (← n.creation?).type with
  | .known facts => some (if facts.isReference then m.table.reference false else facts)
  | .implicit | .absent => none

/-- The type of a variable; other names have none. -/
def nameType (m : Model) (n : Placed) : Option TypeFacts := do
  let id ← m.symbolAt n.id
  if m.symbolIs id SymbolKind.isVariable then m.symbolType id else none

/-- The static type of an expression, if it can be told. -/
def typeOf (m : Model) (n : Placed) : Option TypeFacts :=
  match n.kind with
  | .parenthesizedExpression =>
    match _h : n.inner? with
    | some e => m.typeOf e
    | none => none
  | .suppressNullableWarningExpression =>
    match _h : n.children with
    | e :: _ => m.typeOf e
    | [] => none
  | .literalExpression => m.literalType n
  | .identifierName => m.nameType n
  | .thisExpression => some (m.table.reference false)
  | .objectCreationExpression => m.creationType n
  | .invocationExpression => m.invocationType n
  | .binaryExpression =>
    if n.binary?.any fun v => isComparison v.operator.kind then some .value else none
  | .prefixUnaryExpression =>
    if n.unary?.any fun v => v.operator.kind == .exclamation then some .value else none
  | _ => none
termination_by n.size
decreasing_by
  · exact Node.size_lt_of_inner? _h
  · exact Node.size_lt_of_mem_children (by simp [_h])

/-! ## Types of symbols -/

/-- What the source says about the type of a symbol. Types have none. -/
def declaredType (table : TypeTable) (s : Symbol) : DeclaredType :=
  if s.kind.isType then .absent else (s.typeNode.map table.declared).getD .absent

/-- The type that a declaration writes out. -/
def writtenType (table : TypeTable) (s : Symbol) : Option TypeFacts :=
  match declaredType table s with
  | .known facts => some facts
  | .implicit | .absent => none

/-- The type of a `var` symbol. For a reference type its annotation says nothing yet: flow
decides. -/
def inferredType (m : Model) (s : Symbol) : Option TypeFacts :=
  (s.initializer.bind m.typeOf).map fun facts =>
    if facts.isReference then m.table.reference true else facts

/-- Gives the symbol numbered `id` its type if it is declared with `var`. -/
def inferAt (m : Model) (id : Nat) : Model :=
  match m.symbol? id with
  | some s =>
    if declaredType m.table s = .implicit then
      { m with types := m.types.set id (m.inferredType s) }
    else m
  | none => m

/-- The model of a tree. -/
def build (root : Option Placed) (nullableContext : Bool) : Model :=
  let bindings := Bindings.ofRoot root
  let structs := (bindings.symbols.filter fun s => s.kind == .structType).map Symbol.name
  let table : TypeTable := ⟨structs, nullableContext⟩
  let written : Model := ⟨root, bindings, table, bindings.symbols.map (writtenType table)⟩
  (List.range bindings.symbols.length).foldl inferAt written

end Model

end NullLint
