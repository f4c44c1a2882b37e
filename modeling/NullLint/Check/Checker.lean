import NullLint.Check.Finding
import NullLint.Check.Host
import NullLint.Syntax.Enclosing

/-!
# The checker

Visits the expressions `x?` and `x!` of a tree and reports those whose operand is never null:
its type is a value type other than `T?`, or it is a reference whose null state is "not null". With
the local dataflow option a name also counts as not null if the enclosing scope assigns it on
every path and its value does not flow in from outside. An operand without a known type is never
reported.
-/

namespace NullLint

/-- A tree with everything that a run over it needs. -/
structure Checker where
  root : Option Placed
  host : Host
  rule : Rule := .redundantOperator
  /-- Whether a local assignment is taken as proof. -/
  localDataflow : Bool := false
  signal : Signal := .never

namespace Checker

/-- A node and its ancestors, nearest first. -/
def path (c : Checker) (id : Nat) : List Placed :=
  (c.root.bind fun root => root.path? id).getD []

/-! ## Classifying an operand -/

/-- Whether a region assigns a symbol on every path and takes no value of it from outside. -/
def assignedIn (flow : RegionFlow) (symbol : Nat) : Bool :=
  flow.alwaysAssigned.contains symbol && !flow.flowsIn.contains symbol

/-- Whether a name is assigned on every path through its scope; without a scope, through the name
itself. -/
def assignedLocally (c : Checker) (node : Nat) (scope : Option Nat) : Checking Bool := do
  match ← c.host.askSymbol node with
  | none => return false
  | some symbol =>
    let flow ← c.host.askRegion (scope.getD node)
    return flow.any fun f => assignedIn f symbol

/-- What is known of an operand without evidence of its own. -/
def presumption : Option TypeFacts → Verdict
  | some _ => .maybeNull
  | none => .unknown

/-- Whether an expression can be null, judged by its type and the assignments of its scope. -/
def classify (c : Checker) (node : Nat) (scope : Option Nat) : Checking Verdict :=
  match (c.path node).head?.bind (·.expression?) with
  | none => return .unknown
  | some e => do
    let type ← c.host.askType node
    if type = some .value then return .notNull
    else
      match e with
      | .identifier _ =>
        if ← Checking.poll c.signal then return .unknown
        else if ← c.assignedLocally node scope then return .notNull
        else return presumption type
      | _ => return presumption type

/-! ## Operators -/

/-- The parts of a null operator expression. -/
structure Operation where
  operator : NullOperator
  operand : Placed
  token : Placed

/-- Reads a node as a null operator expression. -/
def operation? (n : Placed) : Option Operation :=
  match n.expression? with
  | some (.conditionalAccess operand token) => some ⟨.conditionalAccess, operand, token⟩
  | some (.nullAssertion operand token) => some ⟨.nullAssertion, operand, token⟩
  | _ => none

/-- Why an operand of the given type is not null, if it is not. -/
def reason? (c : Checker) (operand : Nat) (scope : Option Nat) :
    Option TypeFacts → Checking (Option Reason)
  | some .value => return some .valueType
  | some (.reference _) => do
    if (← c.host.askFlow operand scope) = .notNull then return some .flow
    else if c.localDataflow then
      if (← c.classify operand scope) = .notNull then return some .localAssignment
      else return none
    else return none
  | some .nullableValue | none => return none

/-- The span reported for an operator: for `x?` the access that it guards, as in `x?.y`. -/
def reportedSpan (operator : NullOperator) (n : Placed) (parent : Option Placed) : Span :=
  match operator, parent with
  | .conditionalAccess, some p =>
    if (p.kind = .memberAccessExpression ∨ p.kind = .elementAccessExpression) ∧
        p.children.head?.any (fun first => first.id == n.id) = true then
      p.span
    else
      n.span
  | _, _ => n.span

/-- Judges the node at the head of a path. -/
def judge (c : Checker) (path : List Placed) : Checking (Option Finding) :=
  match path.head?.bind fun n => (operation? n).map fun op => (n, op) with
  | none => return none
  | some (n, op) => do
    let type ← c.host.askType op.operand.id
    let reason ← c.reason? op.operand.id ((Path.scope? path).map fun s => s.id) type
    return reason.map fun reason =>
      { ruleId := c.rule.id
        operator := op.operator
        node := n.id
        operand := op.operand.id
        span := reportedSpan op.operator n path[1]?
        operatorSpan := op.token.span
        reason }

/-- The finding at a node, if there is one. -/
def analyze (c : Checker) (node : Nat) : Checking (Option Finding) :=
  if c.rule.enabled then do
    if ← Checking.poll c.signal then return none
    else c.judge (c.path node)
  else return none

/-! ## Trees -/

/-- The kinds of null operator expressions. -/
def isOperatorKind (k : Kind) : Bool :=
  k == .conditionalAccessExpression || k == .suppressNullableWarningExpression

/-- The numbers of the null operator expressions, in preorder. -/
def operatorNodes (c : Checker) : List Nat :=
  (((c.root.map Node.preorder).getD []).filter fun n => isOperatorKind n.kind).map fun n => n.id

/-- The findings at some nodes, up to the one before which the run is stopped. -/
def visit (c : Checker) : List Nat → Checking (List Finding)
  | [] => return []
  | node :: nodes => do
    if ← Checking.poll c.signal then return []
    else
      let finding ← c.analyze node
      let findings ← c.visit nodes
      return finding.toList ++ findings

/-- The findings of the whole tree, in order of their operators. -/
def checkTree (c : Checker) : Checking (List Finding) :=
  if c.rule.enabled then do
    let findings ← c.visit c.operatorNodes
    return findings.mergeSort fun a b => a.operatorSpan.start ≤ b.operatorSpan.start
  else return []

end Checker

end NullLint
