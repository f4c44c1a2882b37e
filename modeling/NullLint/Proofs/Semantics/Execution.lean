import NullLint.Semantics.Flow
import NullLint.Proofs.Syntax.Views

/-!
# Execution

What a file of top-level statements does when it runs, as far as null matters. Nodes run part by
part. `Next` says which child of a node runs next, given the results of the parts run so far, and
`Gives` says what the node results in once its parts are through. Operands run from left to right,
a loop takes any number of rounds, and a condition that is not a truth value comes out either way.
Names that are bound to nothing, calls and reads of members give any value. A `?.` or `?[` on null
cuts the rest of the access chain short, and the operand of `!` is never null.

A read of a member of null is not ruled out: executions that would stop there go on here.

A run need not end. `Arrives` covers the state in which each node is come upon, whatever happens
after it.
-/

namespace NullLint

/-- What a variable can hold, as far as null matters. -/
inductive Value where
  | null
  | truth (b : Bool)
  | object
  deriving DecidableEq, Repr

/-- What the variables hold, by symbol. -/
abbrev Store := Nat → Value

/-- What running a node results in. -/
inductive Outcome where
  | value (v : Value)
  /-- A `?.` or `?[` on null cut the access chain short; `asserted` if a `!` is the last part of
  the chain. -/
  | skipped (asserted : Bool)
  /-- A statement, or a list of arguments, is through. -/
  | done
  /-- A `return` or `throw` was met. -/
  | exited
  deriving DecidableEq, Repr

/-- A condition with this value can come out as `b`. -/
def Value.ComesOut (v : Value) (b : Bool) : Prop := ∀ c, v = .truth c → c = b

/-- The two values can compare as equal, or as unequal. Only comparisons with null are known. -/
def Value.ComparesAs (v w : Value) (equal : Bool) : Prop :=
  v = .null ∨ w = .null → (equal = true ↔ v = .null ∧ w = .null)

/-- The value of an outcome in a place that wants one. A chain that was cut short is null there;
one that ends in `!` is not asked for, since asserted operands are not null. -/
inductive Outcome.Has : Outcome → Value → Prop where
  | value (v : Value) : Has (.value v) v
  | skipped : Has (.skipped false) .null

/-- Whether a binary operator goes on to its right operand when the left one has this value. -/
def GoesOn (operator : Kind) (v : Value) : Prop :=
  match operator with
  | .ampersandAmpersand => v.ComesOut true
  | .barBar => v.ComesOut false
  | .questionQuestion => v = .null
  | _ => True

/-- Expressions that go on with the access chain of their first child. -/
def Kind.continuesChain : Kind → Bool
  | .memberAccessExpression | .conditionalAccessExpression | .suppressNullableWarningExpression
  | .invocationExpression | .elementAccessExpression => true
  | _ => false

/-- Nodes that hold a list of statements. -/
def Kind.isList (k : Kind) : Bool := k == .block || k == .compilationUnit

def Kind.isArguments (k : Kind) : Bool := k == .argumentList || k == .bracketedArgumentList

/-- Whether a call is one of `ToString`. -/
def callsToString (n : Placed) : Bool :=
  n.invocation?.any fun call => call.expression.unparenthesized.memberAccess?.any fun access =>
    access.name.identifier? == some "ToString"

def Kind.isStep (k : Kind) : Bool := k == .plusPlus || k == .minusMinus

def Kind.isUnary (k : Kind) : Bool := k == .prefixUnaryExpression || k == .postfixUnaryExpression

/-- Statements that can hold an expression and nothing else. -/
def Kind.holdsValue (k : Kind) : Bool :=
  k == .expressionStatement || k == .returnStatement || k == .throwStatement

/-- After parts with these results, last one first, the node runs the part `c`. -/
inductive Next (m : Model) (n : Placed) : List Outcome → Placed → Prop where
  | receiver {e : Placed} {rest : List Placed} (h : n.kind.continuesChain = true)
      (parts : n.children = e :: rest) (he : e.isExpression = true) : Next m n [] e
  | accessArguments {e list : Placed} {rest : List Placed} {v : Value}
      (h : n.kind = .invocationExpression ∨ n.kind = .elementAccessExpression)
      (parts : n.children = e :: list :: rest) (hl : list.kind.isArguments = true) :
      Next m n [.value v] list
  | argument {outs : List Outcome} {e : Placed} (h : n.kind.isArguments = true)
      (he : n.arguments[outs.length]? = some e) (before : ∀ o ∈ outs, ∃ v, o.Has v) :
      Next m n outs e
  | creationArguments {list : Placed} (h : n.kind = .objectCreationExpression)
      (hl : n.childOfKind? .argumentList = some list) : Next m n [] list
  | inner {e : Placed} (h : n.kind = .parenthesizedExpression) (he : n.inner? = some e) :
      Next m n [] e
  | operand {u : Node.Unary Place} (h : n.kind.isUnary = true) (hu : n.unary? = some u)
      (he : u.operand.isExpression = true) : Next m n [] u.operand
  | left {b : Node.Binary Place} (h : n.kind = .binaryExpression) (hb : n.binary? = some b)
      (he : b.left.isExpression = true) : Next m n [] b.left
  | right {b : Node.Binary Place} {o : Outcome} {v : Value} (h : n.kind = .binaryExpression)
      (hb : n.binary? = some b) (he : b.right.isExpression = true) (ho : o.Has v)
      (goesOn : GoesOn b.operator.kind v) : Next m n [o] b.right
  | assigned {b : Node.Binary Place} {x : Nat} (h : n.kind = .assignmentExpression)
      (hb : n.binary? = some b) (hx : m.refersTo x b.left = true)
      (he : b.right.isExpression = true) : Next m n [] b.right
  | target {b : Node.Binary Place} (h : n.kind = .assignmentExpression)
      (hb : n.binary? = some b) (hx : ∀ x, m.refersTo x b.left = false)
      (he : b.left.isExpression = true) : Next m n [] b.left
  | assignedTarget {b : Node.Binary Place} {o : Outcome} (h : n.kind = .assignmentExpression)
      (hb : n.binary? = some b) (hx : ∀ x, m.refersTo x b.left = false)
      (he : b.right.isExpression = true) : Next m n [o] b.right
  | statement {outs : List Outcome} {s : Placed}
      (h : n.kind.isList = true)
      (hs : n.statements[outs.length]? = some s) (before : ∀ o ∈ outs, o = .done) :
      Next m n outs s
  | declarator {outs : List Outcome} {v : Node.VariableDeclaration Place} {d : Placed}
      (h : n.kind = .localDeclarationStatement) (hv : n.variableDeclaration? = some v)
      (hd : v.declarators[outs.length]? = some d) : Next m n outs d
  | initializer {c : Placed} (h : n.kind = .variableDeclarator)
      (hc : n.childOfKind? .equalsValueClause = some c) : Next m n [] c
  | initialValue {e : Placed} (h : n.kind = .equalsValueClause) (parts : n.children[1]? = some e)
      (he : e.isExpression = true) : Next m n [] e
  | value {e : Placed} (h : n.kind.holdsValue = true) (he : n.value? = some e) : Next m n [] e
  | ifCondition {v : Node.IfView Place} (h : n.kind = .ifStatement)
      (hv : n.ifStatement? = some v) (he : v.condition.isExpression = true) :
      Next m n [] v.condition
  | thenBranch {v : Node.IfView Place} {o : Outcome} {w : Value} (h : n.kind = .ifStatement)
      (hv : n.ifStatement? = some v) (hs : v.thenBranch.kind.isStatement = true) (ho : o.Has w)
      (hw : w.ComesOut true) : Next m n [o] v.thenBranch
  | elseClause {v : Node.IfView Place} {o : Outcome} {w : Value} {c : Placed}
      (h : n.kind = .ifStatement) (hv : n.ifStatement? = some v)
      (hs : v.thenBranch.kind.isStatement = true) (hc : n.childOfKind? .elseClause = some c)
      (ho : o.Has w) (hw : w.ComesOut false) : Next m n [o] c
  | elseBranch {s : Placed} (h : n.kind = .elseClause) (parts : n.children[1]? = some s)
      (hs : s.kind.isStatement = true) : Next m n [] s
  /-- Condition and body of a loop take turns. -/
  | whileCondition {v : Node.WhileView Place} {outs : List Outcome} (h : n.kind = .whileStatement)
      (hv : n.whileStatement? = some v) (he : v.condition.isExpression = true)
      (turn : outs.length % 2 = 0) (before : ∀ o ∈ outs.head?, o = .done) :
      Next m n outs v.condition
  | whileBody {v : Node.WhileView Place} {o : Outcome} {outs : List Outcome} {w : Value}
      (h : n.kind = .whileStatement) (hv : n.whileStatement? = some v)
      (hs : v.body.kind.isStatement = true) (turn : outs.length % 2 = 0) (ho : o.Has w)
      (hw : w.ComesOut true) : Next m n (o :: outs) v.body

/-- After parts with these results, last one first, the node is through, with this outcome. -/
inductive Gives (m : Model) (n : Placed) : List Outcome → Store → Outcome → Store → Prop where
  | literal {σ : Store} {v : Value} (h : n.kind = .literalExpression)
      (hv : v = .null ↔ Model.isNullLiteral n = true) : Gives m n [] σ (.value v) σ
  | this {σ : Store} {v : Value} (h : n.kind = .thisExpression) (hv : v ≠ .null) :
      Gives m n [] σ (.value v) σ
  | variableRead {σ : Store} {x : Nat} (h : n.kind = .identifierName)
      (hx : m.symbolAt n.id = some x) : Gives m n [] σ (.value (σ x)) σ
  | unresolved {σ : Store} (v : Value) (h : n.kind = .identifierName)
      (hx : m.symbolAt n.id = none) : Gives m n [] σ (.value v) σ
  | parenthesized {σ : Store} {o : Outcome} {v : Value} (h : n.kind = .parenthesizedExpression)
      (ho : o.Has v) : Gives m n [o] σ (.value v) σ
  | member {σ : Store} {u : Value} (v : Value) (h : n.kind = .memberAccessExpression) :
      Gives m n [.value u] σ (.value v) σ
  | access {σ : Store} {v : Value} (h : n.kind = .conditionalAccessExpression)
      (hv : v ≠ .null) : Gives m n [.value v] σ (.value v) σ
  | accessNull {σ : Store} (h : n.kind = .conditionalAccessExpression) :
      Gives m n [.value .null] σ (.skipped false) σ
  | assertion {σ : Store} {v : Value} (h : n.kind = .suppressNullableWarningExpression)
      (hv : v ≠ .null) : Gives m n [.value v] σ (.value v) σ
  | skippedAssertion {σ : Store} {asserted : Bool}
      (h : n.kind = .suppressNullableWarningExpression) :
      Gives m n [.skipped asserted] σ (.skipped true) σ
  | skipped {σ : Store} {asserted : Bool} (h : n.kind.continuesChain = true)
      (hn : n.kind ≠ .suppressNullableWarningExpression) :
      Gives m n [.skipped asserted] σ (.skipped false) σ
  | call {σ : Store} {u v : Value} (h : n.kind = .invocationExpression)
      (hv : callsToString n = true → v ≠ .null) : Gives m n [.done, .value u] σ (.value v) σ
  | elementRead {σ : Store} {u : Value} (v : Value) (h : n.kind = .elementAccessExpression) :
      Gives m n [.done, .value u] σ (.value v) σ
  | arguments {σ : Store} {outs : List Outcome} (h : n.kind.isArguments = true)
      (hl : outs.length = n.arguments.length) (before : ∀ o ∈ outs, ∃ v, o.Has v) :
      Gives m n outs σ .done σ
  | creation {σ : Store} {v : Value} (h : n.kind = .objectCreationExpression)
      (hv : v ≠ .null) : Gives m n [.done] σ (.value v) σ
  | negation {σ : Store} {u : Node.Unary Place} {o : Outcome} {v : Value} {b : Bool}
      (h : n.kind = .prefixUnaryExpression) (hu : n.unary? = some u)
      (hop : u.operator.kind = .exclamation) (ho : o.Has v) (hb : v.ComesOut b) :
      Gives m n [o] σ (.value (.truth !b)) σ
  /-- `x++` and the like change the value of `x`, but not whether it is null. -/
  | variableStep {σ : Store} {u : Node.Unary Place} {o : Outcome} {x : Nat} {v w : Value}
      (h : n.kind.isUnary = true) (hu : n.unary? = some u)
      (hop : u.operator.kind.isStep = true) (hx : m.refersTo x u.operand = true)
      (hv : v = .null ↔ σ x = .null) (hw : w = .null ↔ σ x = .null) :
      Gives m n [o] σ (.value v) (Function.update σ x w)
  | otherStep {σ : Store} {u : Node.Unary Place} {o : Outcome} (v : Value)
      (h : n.kind.isUnary = true) (hu : n.unary? = some u)
      (hop : u.operator.kind.isStep = true) (hx : ∀ x, m.refersTo x u.operand = false) :
      Gives m n [o] σ (.value v) σ
  | sign {σ : Store} {u : Node.Unary Place} {o : Outcome} (v : Value)
      (h : n.kind.isUnary = true) (hu : n.unary? = some u)
      (hop : u.operator.kind = .plus ∨ u.operator.kind = .minus) : Gives m n [o] σ (.value v) σ
  | cutShort {σ : Store} {b : Node.Binary Place} {o : Outcome} {v : Value} (outcome : Bool)
      (h : n.kind = .binaryExpression) (hb : n.binary? = some b)
      (hop : b.operator.kind = bif outcome then .barBar else .ampersandAmpersand)
      (ho : o.Has v) (hv : v.ComesOut outcome) :
      Gives m n [o] σ (.value (.truth outcome)) σ
  | logical {σ : Store} {b : Node.Binary Place} {o o' : Outcome} {v : Value} (outcome : Bool)
      (h : n.kind = .binaryExpression) (hb : n.binary? = some b)
      (hop : b.operator.kind = .barBar ∨ b.operator.kind = .ampersandAmpersand)
      (ho : o'.Has v) (hv : v.ComesOut outcome) :
      Gives m n [o', o] σ (.value (.truth outcome)) σ
  | present {σ : Store} {b : Node.Binary Place} {o : Outcome} {v : Value}
      (h : n.kind = .binaryExpression) (hb : n.binary? = some b)
      (hop : b.operator.kind = .questionQuestion) (ho : o.Has v) (hv : v ≠ .null) :
      Gives m n [o] σ (.value v) σ
  | replaced {σ : Store} {b : Node.Binary Place} {o o' : Outcome} {v : Value}
      (h : n.kind = .binaryExpression) (hb : n.binary? = some b)
      (hop : b.operator.kind = .questionQuestion) (ho : o'.Has v) :
      Gives m n [o', o] σ (.value v) σ
  | equality {σ : Store} {b : Node.Binary Place} {o o' : Outcome} {v w : Value} {equal : Bool}
      (h : n.kind = .binaryExpression) (hb : n.binary? = some b)
      (hop : b.operator.kind = .equalsEquals ∨ b.operator.kind = .exclamationEquals)
      (ho : o.Has v) (ho' : o'.Has w) (he : v.ComparesAs w equal) :
      Gives m n [o', o] σ (.value (.truth (equal == (b.operator.kind == .equalsEquals)))) σ
  | order {σ : Store} {b : Node.Binary Place} {o o' : Outcome} (outcome : Bool)
      (h : n.kind = .binaryExpression) (hb : n.binary? = some b)
      (hop : b.operator.kind.precedence = 4) :
      Gives m n [o', o] σ (.value (.truth outcome)) σ
  | arithmetic {σ : Store} {b : Node.Binary Place} {o o' : Outcome} (v : Value)
      (h : n.kind = .binaryExpression) (hb : n.binary? = some b)
      (hop : 5 ≤ b.operator.kind.precedence) : Gives m n [o', o] σ (.value v) σ
  | assign {σ : Store} {b : Node.Binary Place} {x : Nat} {o : Outcome} {v : Value}
      (h : n.kind = .assignmentExpression) (hb : n.binary? = some b)
      (hx : m.refersTo x b.left = true) (ho : o.Has v) :
      Gives m n [o] σ (.value v) (Function.update σ x v)
  | assignTarget {σ : Store} {b : Node.Binary Place} {o o' : Outcome} {v : Value}
      (h : n.kind = .assignmentExpression) (hb : n.binary? = some b)
      (hx : ∀ x, m.refersTo x b.left = false) (ho : o'.Has v) :
      Gives m n [o', o] σ (.value v) σ
  | list {σ : Store} {outs : List Outcome} (h : n.kind.isList = true)
      (hl : outs.length = n.statements.length) (before : ∀ o ∈ outs, o = .done) :
      Gives m n outs σ .done σ
  | listExit {σ : Store} {outs : List Outcome} (h : n.kind.isList = true) :
      Gives m n (.exited :: outs) σ .exited σ
  | declaration {σ : Store} {outs : List Outcome} {v : Node.VariableDeclaration Place}
      (h : n.kind = .localDeclarationStatement) (hv : n.variableDeclaration? = some v)
      (hl : outs.length = v.declarators.length) : Gives m n outs σ .done σ
  | initialized {σ : Store} {x : Nat} {v : Value} (h : n.kind = .variableDeclarator)
      (hx : m.symbolAt n.id = some x) : Gives m n [.value v] σ .done (Function.update σ x v)
  | uninitialized {σ : Store} {x : Nat} (v : Value) (h : n.kind = .variableDeclarator)
      (hx : m.symbolAt n.id = some x) (hc : n.childOfKind? .equalsValueClause = none) :
      Gives m n [] σ .done (Function.update σ x v)
  | initialValue {σ : Store} {o : Outcome} {v : Value} (h : n.kind = .equalsValueClause)
      (ho : o.Has v) : Gives m n [o] σ (.value v) σ
  | effect {σ : Store} {o : Outcome} {v : Value} (h : n.kind = .expressionStatement)
      (ho : o.Has v) : Gives m n [o] σ .done σ
  | empty {σ : Store} (h : n.kind = .emptyStatement) : Gives m n [] σ .done σ
  | exit {σ : Store} {outs : List Outcome}
      (h : n.kind = .returnStatement ∨ n.kind = .throwStatement)
      (hl : outs.length = n.value?.toList.length) : Gives m n outs σ .exited σ
  | branch {σ : Store} {o o' : Outcome} (h : n.kind = .ifStatement) : Gives m n [o', o] σ o' σ
  | noElse {σ : Store} {o : Outcome} {v : Value} (h : n.kind = .ifStatement)
      (hc : n.childOfKind? .elseClause = none) (ho : o.Has v) (hv : v.ComesOut false) :
      Gives m n [o] σ .done σ
  | elseClause {σ : Store} {o : Outcome} (h : n.kind = .elseClause) : Gives m n [o] σ o σ
  | loopEnd {σ : Store} {o : Outcome} {outs : List Outcome} {v : Value}
      (h : n.kind = .whileStatement) (ho : o.Has v) (hv : v.ComesOut false) :
      Gives m n (o :: outs) σ .done σ
  | loopExit {σ : Store} {outs : List Outcome} (h : n.kind = .whileStatement) :
      Gives m n (.exited :: outs) σ .exited σ

/-- Starting on a node in the first store, its parts so far had these results, last one first,
and led to the second store. -/
inductive Partly (m : Model) : Placed → Store → List Outcome → Store → Prop where
  | start (n : Placed) (σ : Store) : Partly m n σ [] σ
  | part {n c : Placed} {σ σ₁ σ₂ σ₃ : Store} {outs outs' : List Outcome} {o : Outcome}
      (before : Partly m n σ outs σ₁) (next : Next m n outs c) (run : Partly m c σ₁ outs' σ₂)
      (gives : Gives m c outs' σ₂ o σ₃) : Partly m n σ (o :: outs) σ₃

/-- A node runs from one store to another with an outcome. -/
def Runs (m : Model) (n : Placed) (σ : Store) (o : Outcome) (σ' : Store) : Prop :=
  ∃ outs σ₁, Partly m n σ outs σ₁ ∧ Gives m n outs σ₁ o σ'

/-- In some execution that starts on `root`, the node at the end of the path is come upon in
this store. The path gives the node and its ancestors, nearest first. -/
inductive Arrives (m : Model) (root : Placed) : List Placed → Store → Prop where
  | start (σ : Store) : Arrives m root [root] σ
  | enter {n c : Placed} {above : List Placed} {σ σ' : Store} {outs : List Outcome}
      (here : Arrives m root (n :: above) σ) (before : Partly m n σ outs σ')
      (next : Next m n outs c) : Arrives m root (c :: n :: above) σ'

end NullLint
