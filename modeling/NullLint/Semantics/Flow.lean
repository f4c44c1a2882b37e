import NullLint.Semantics.Model
import NullLint.Syntax.Enclosing

/-!
# Null state

Tells whether an expression can be null at the place where it stands. For a variable the tree is
climbed from the reference outward. On the way

* the right operand of `x != null && ..` or `x == null || ..` finds `x` not null;
* the branches of an `if` and the body of a `while` learn from the condition;
* a loop that assigns `x` makes it maybe null;
* in a statement list the statements before are looked at from the last to the first: an
  assignment gives the state of its value, `if (x == null) return;` makes `x` not null, and any
  other statement that assigns `x` makes it maybe null.

At the enclosing member the declared type decides. The steps of one answer are bounded.
-/

namespace NullLint

/-- Whether an expression can be null. -/
inductive Verdict where
  | notNull
  | maybeNull
  | unknown
  deriving DecidableEq, Repr, Inhabited

def Verdict.label : Verdict → String
  | .notNull => "NotNull"
  | .maybeNull => "MaybeNull"
  | .unknown => "Unknown"

/-- How many steps a walk may take before it gives up. -/
def maxFlowSteps : Nat := 10000

/-- What a type alone says. -/
def Verdict.ofType : Option TypeFacts → Verdict
  | none => .unknown
  | some .value => .notNull
  | some .nullableValue => .maybeNull
  | some (.reference .notAnnotated) => .notNull
  | some (.reference .annotated) => .maybeNull
  | some (.reference .unannotated) => .unknown

namespace Model

/-- Whether an expression is a plain reference to a symbol. -/
def refersTo (m : Model) (symbol : Nat) (n : Placed) : Bool :=
  let e := n.unparenthesized
  e.kind == .identifierName && m.symbolAt e.id == some symbol

def isNullLiteral (n : Placed) : Bool :=
  n.unparenthesized.literal?.any fun t => t.kind == .nullKeyword

/-! ## Conditions -/

/-- Whether `left` and `right` are the symbol and `null`, in either order. -/
def comparesWithNull (m : Model) (symbol : Nat) (left right : Placed) : Bool :=
  (m.refersTo symbol left && isNullLiteral right) ||
    (isNullLiteral left && m.refersTo symbol right)

/-- Whether one of the conditions, each with its outcome, shows that the symbol is not null
(`notNull`) or that it is. -/
def anyImplies (m : Model) (symbol : Nat) (notNull : Bool) : Nat → List (Placed × Bool) → Bool
  | _, [] => false
  | 0, _ :: _ => false
  | steps + 1, (condition, outcome) :: rest =>
    let n := condition.unparenthesized
    match n.kind with
    | .prefixUnaryExpression =>
      match n.unary? with
      | some v =>
        if v.operator.kind = .exclamation then
          anyImplies m symbol notNull steps ((v.operand, !outcome) :: rest)
        else anyImplies m symbol notNull steps rest
      | none => anyImplies m symbol notNull steps rest
    | .binaryExpression =>
      match n.binary? with
      | some v =>
        if (v.operator.kind = .ampersandAmpersand ∧ outcome = true) ∨
            (v.operator.kind = .barBar ∧ outcome = false) then
          anyImplies m symbol notNull steps ((v.right, outcome) :: (v.left, outcome) :: rest)
        else if (v.operator.kind = .exclamationEquals ∨ v.operator.kind = .equalsEquals) ∧
            m.comparesWithNull symbol v.left v.right = true ∧
            ((v.operator.kind == .exclamationEquals) == outcome) = notNull then
          true
        else anyImplies m symbol notNull steps rest
      | none => anyImplies m symbol notNull steps rest
    | _ => anyImplies m symbol notNull steps rest

/-- Whether a condition that comes out as `outcome` shows that the symbol is not null, or that
it is. -/
def conditionImplies (m : Model) (condition : Placed) (symbol : Nat) (outcome notNull : Bool) :
    Bool :=
  m.anyImplies symbol notNull maxFlowSteps [(condition, outcome)]

/-! ## Statements -/

/-- Whether something under a node assigns the symbol. -/
def assigns (m : Model) (n : Placed) (symbol : Nat) : Bool :=
  n.preorder.any fun e =>
    e.kind == .assignmentExpression && e.binary?.any fun v => m.refersTo symbol v.left

/-- The value that a chain `a = b = e` gives the symbol. -/
def chainedValue? (m : Model) (symbol : Nat) (n : Placed) : Option Placed :=
  match n.kind with
  | .assignmentExpression =>
    match _h : n.binary? with
    | some v =>
      if m.refersTo symbol v.left then some v.right
      else m.chainedValue? symbol v.right
    | none => none
  | .parenthesizedExpression =>
    match _h : n.inner? with
    | some e => m.chainedValue? symbol e
    | none => none
  | _ => none
termination_by n.size
decreasing_by
  · exact (Node.size_lt_of_binary? _h).2
  · exact Node.size_lt_of_inner? _h

/-- What a statement gives the symbol on every path: a value, or nothing for a declaration
without initializer. -/
def assignment? (m : Model) (statement : Placed) (symbol : Nat) : Option (Option Placed) :=
  match statement.kind with
  | .localDeclarationStatement => do
    let declaration ← statement.variableDeclaration?
    let declarator ← declaration.declarators.find? fun d => m.symbolAt d.id == some symbol
    return (← declarator.declarator?).initializer
  | .expressionStatement => do
    let value ← m.chainedValue? symbol (← statement.value?)
    return some value
  | _ => none

mutual

/-- Whether a statement always returns or throws: it does so itself, or it is a block whose last
statement does. -/
def alwaysExits : Placed → Bool
  | .token _ t => t.kind == .returnStatement || t.kind == .throwStatement
  | .branch _ k cs =>
    k == .returnStatement || k == .throwStatement || (k == .block && lastExits false cs)

/-- Whether the last statement of a list exits; `before` is the answer if there is none. -/
def lastExits (before : Bool) : List Placed → Bool
  | [] => before
  | c :: cs => lastExits (if c.kind.isStatement then alwaysExits c else before) cs

end

/-- `if (x == null) return;`, also with `throw` or a block that exits. -/
def isNullGuard (m : Model) (statement : Placed) (symbol : Nat) : Bool :=
  statement.ifStatement?.any fun v =>
    v.elseBranch.isNone && alwaysExits v.thenBranch &&
      m.conditionImplies v.condition symbol false true

/-! ## Variables -/

/-- What climbing from a reference finds. -/
inductive Source where
  | verdict (v : Verdict)
  /-- The state is that of this value. -/
  | value (n : Placed)

/-- What the declared type of the symbol says. -/
def declaredVerdict (m : Model) (symbol : Nat) : Verdict := .ofType (m.symbolType symbol)

/-- Looks through the statements before a reference, nearest first. Also gives the steps that
are left. -/
def lookBack (m : Model) (symbol : Nat) : Nat → List Placed → Option Source × Nat
  | steps, [] => (none, steps)
  | 0, _ :: _ => (some (.verdict .unknown), 0)
  | steps + 1, s :: before =>
    match m.assignment? s symbol with
    | some (some value) => (some (.value value), steps)
    | some none => (some (.verdict (m.declaredVerdict symbol)), steps)
    | none =>
      if m.isNullGuard s symbol then (some (.verdict .notNull), steps)
      else if m.assigns s symbol then (some (.verdict .maybeNull), steps)
      else lookBack m symbol steps before

/-- The statements of a list that come before a child of it, nearest first. -/
def statementsBefore (list child : Placed) : List Placed :=
  if list.statements.any fun s => s.id == child.id then
    (list.statements.takeWhile fun s => s.id != child.id).reverse
  else []

/-- What `parent` says about the symbol for a reference below `child`, if it decides. Also gives
the steps that are left. -/
def stepOut (m : Model) (symbol steps : Nat) (child parent : Placed) : Option Source × Nat :=
  match parent.kind with
  | .binaryExpression =>
    match parent.binary? with
    | some v =>
      let narrowed := v.right.id == child.id &&
        ((v.operator.kind == .ampersandAmpersand && m.conditionImplies v.left symbol true true) ||
          (v.operator.kind == .barBar && m.conditionImplies v.left symbol false true))
      (if narrowed then some (.verdict .notNull) else none, steps)
    | none => (none, steps)
  | .ifStatement =>
    match parent.ifStatement? with
    | some v =>
      let branch : Option Bool :=
        if child.id = v.thenBranch.id then some true
        else if child.kind = .elseClause then some false
        else none
      match branch with
      | some outcome =>
        if m.conditionImplies v.condition symbol outcome true then
          (some (.verdict .notNull), steps)
        else if m.conditionImplies v.condition symbol outcome false then
          (some (.verdict .maybeNull), steps)
        else (none, steps)
      | none => (none, steps)
    | none => (none, steps)
  | .whileStatement =>
    if m.assigns parent symbol then (some (.verdict .maybeNull), steps)
    else
      match parent.whileStatement? with
      | some v =>
        if child.id = v.body.id ∧ m.conditionImplies v.condition symbol true true = true then
          (some (.verdict .notNull), steps)
        else (none, steps)
      | none => (none, steps)
  | .block | .compilationUnit => m.lookBack symbol steps (statementsBefore parent child)
  | .methodDeclaration | .constructorDeclaration | .accessorDeclaration | .propertyDeclaration
  | .fieldDeclaration | .classDeclaration | .structDeclaration =>
    (some (.verdict (m.declaredVerdict symbol)), steps)
  | _ => (none, steps)

/-- Climbs from `child` through its ancestors, nearest first. Also gives the steps that are
left. -/
def climb (m : Model) (symbol : Nat) : Nat → Placed → List Placed → Source × Nat
  | steps, _, [] => (.verdict (m.declaredVerdict symbol), steps)
  | 0, _, _ :: _ => (.verdict .unknown, 0)
  | steps + 1, child, parent :: above =>
    match m.stepOut symbol steps child parent with
    | (some source, left) => (source, left)
    | (none, left) => climb m symbol left parent above

/-- The ancestors of a node, nearest first. -/
def ancestors (m : Model) (n : Placed) : List Placed :=
  ((m.root.bind fun r => r.path? n.id).getD []).tail

/-! ## Expressions -/

/-- How the state of an expression is found. -/
inductive Reading where
  | verdict (v : Verdict)
  /-- It is that of a part of the expression. -/
  | part (n : Placed)
  /-- It is that of a symbol at a reference to it. -/
  | variable (symbol : Nat) (reference : Placed)

/-- How the state of an expression is found. Literals, `new`, `this` and `x!` are not null;
`null` is. `x = e` and `a ?? e` have the state of `e`. -/
def reading (m : Model) (expression : Placed) : Reading :=
  let n := expression.unparenthesized
  match n.kind with
  | .literalExpression =>
    .verdict (if n.literal?.any fun t => t.kind == .nullKeyword then .maybeNull else .notNull)
  | .objectCreationExpression | .thisExpression | .suppressNullableWarningExpression =>
    .verdict .notNull
  | .identifierName =>
    match m.symbolAt n.id with
    | some symbol =>
      if m.symbolIs symbol SymbolKind.isVariable then .variable symbol n else .verdict .unknown
    | none => .verdict .unknown
  | .assignmentExpression =>
    match n.binary? with
    | some v => .part v.right
    | none => .verdict .unknown
  | .binaryExpression =>
    match n.binary? with
    | some v =>
      if v.operator.kind = .questionQuestion then .part v.right
      else .verdict (.ofType (m.typeOf n))
    | none => .verdict (.ofType (m.typeOf n))
  | _ => .verdict (.ofType (m.typeOf n))

/-- The null state of an expression, in at most so many steps. -/
def nullStateWithin (m : Model) (steps : Nat) (n : Placed) : Verdict :=
  match steps with
  | 0 => .unknown
  | steps + 1 =>
    match m.reading n with
    | .verdict v => v
    | .part e => m.nullStateWithin steps e
    | .variable symbol reference =>
      match m.climb symbol steps reference (m.ancestors reference) with
      | (.verdict v, _) => v
      | (.value e, left) => m.nullStateWithin (min left steps) e
termination_by steps

/-- The null state of an expression at the place where it stands. -/
def nullState (m : Model) (n : Placed) : Verdict := m.nullStateWithin maxFlowSteps n

end Model

end NullLint
