import NullLint.Syntax.Node

/-!
# Views

A view reads the parts of a node of one kind off its children. It is `none` for a node of
another kind and for one whose children do not have the expected shape.
-/

namespace NullLint

namespace Node

variable {α : Type}

def isExpression (n : Node α) : Bool := n.kind.isExpression

/-- The first child of a given kind. -/
def childOfKind? (n : Node α) (k : Kind) : Option (Node α) :=
  n.children.find? fun c => c.kind == k

/-- The first child that names a type. -/
def typeChild? (n : Node α) : Option (Node α) :=
  n.children.find? fun c => c.kind.isType

/-- The name in an identifier expression or an identifier token. -/
def identifier? (n : Node α) : Option String :=
  match n.kind with
  | .identifier => some n.leafText
  | .identifierName =>
    match n.children with
    | c :: _ => if c.kind = .identifier then some c.leafText else none
    | [] => none
  | _ => none

/-- The text of the first identifier token among the children. -/
def declaredName? (n : Node α) : Option String :=
  (n.childOfKind? .identifier).map leafText

/-! ## Expressions -/

/-- `expression.name` -/
structure MemberAccess (α : Type) where
  expression : Node α
  operator : Node α
  name : Node α

def memberAccess? (n : Node α) : Option (MemberAccess α) :=
  match n.kind, n.children with
  | .memberAccessExpression, expression :: operator :: name :: _ =>
    some ⟨expression, operator, name⟩
  | _, _ => none

/-- `left operator right`, assignments included. -/
structure Binary (α : Type) where
  left : Node α
  operator : Node α
  right : Node α

def binary? (n : Node α) : Option (Binary α) :=
  match n.kind, n.children with
  | .binaryExpression, left :: operator :: right :: _ => some ⟨left, operator, right⟩
  | .assignmentExpression, left :: operator :: right :: _ => some ⟨left, operator, right⟩
  | _, _ => none

/-- An operator before or behind its operand. -/
structure Unary (α : Type) where
  operator : Node α
  operand : Node α

def unary? (n : Node α) : Option (Unary α) :=
  match n.kind, n.children with
  | .prefixUnaryExpression, operator :: operand :: _ => some ⟨operator, operand⟩
  | .postfixUnaryExpression, operand :: operator :: _ => some ⟨operator, operand⟩
  | _, _ => none

/-- The expression between parentheses. -/
def inner? (n : Node α) : Option (Node α) :=
  match n.kind, n.children with
  | .parenthesizedExpression, _ :: e :: _ => if e.isExpression then some e else none
  | _, _ => none

/-- The expression inside any number of parentheses. -/
def unparenthesized : Node α → Node α
  | .branch a .parenthesizedExpression (opening :: e :: rest) =>
    if e.isExpression then unparenthesized e
    else .branch a .parenthesizedExpression (opening :: e :: rest)
  | n => n

/-- The expressions in an argument list. -/
def arguments (n : Node α) : List (Node α) := n.children.filter isExpression

/-- `expression(arguments)` -/
structure Invocation (α : Type) where
  expression : Node α
  arguments : List (Node α)

def invocation? (n : Node α) : Option (Invocation α) :=
  match n.kind, n.children with
  | .invocationExpression, expression :: list :: _ => some ⟨expression, list.arguments⟩
  | _, _ => none

/-- `new type(arguments)` -/
structure Creation (α : Type) where
  type : Node α
  arguments : List (Node α)

def creation? (n : Node α) : Option (Creation α) :=
  match n.kind, n.children with
  | .objectCreationExpression, _ :: type :: _ =>
    some ⟨type, ((n.childOfKind? .argumentList).map arguments).getD []⟩
  | _, _ => none

/-- The token of a literal. -/
def literal? (n : Node α) : Option (Node α) :=
  match n.kind, n.children with
  | .literalExpression, leaf :: _ => some leaf
  | _, _ => none

/-- The kinds of expression that null analysis tells apart. -/
inductive Expression (α : Type) where
  /-- `operand?` in `operand?.member` and `operand?[index]` -/
  | conditionalAccess (operand operator : Node α)
  /-- `operand!` -/
  | nullAssertion (operand operator : Node α)
  | identifier (name : String)
  | other (kind : Kind)

/-- Operand and operator token of a null operator written with `mark`. -/
def operatorShape? (n : Node α) (mark : Kind) : Option (Node α × Node α) :=
  match n.children with
  | [operand, operator] =>
    if operand.isExpression && operator.kind == mark then some (operand, operator) else none
  | _ => none

def expression? (n : Node α) : Option (Expression α) :=
  match n.kind with
  | .conditionalAccessExpression =>
    (n.operatorShape? .question).map fun p => .conditionalAccess p.1 p.2
  | .suppressNullableWarningExpression =>
    (n.operatorShape? .exclamation).map fun p => .nullAssertion p.1 p.2
  | .identifierName => n.identifier?.map .identifier
  | k => if k.isExpression then some (.other k) else none

/-! ## Statements -/

/-- The statements that a block or a whole file holds, or the statement itself. -/
def statements (n : Node α) : List (Node α) :=
  match n.kind with
  | .block | .compilationUnit => n.children.filter fun c => c.kind.isStatement
  | k => if k.isStatement then [n] else []

/-- `if (condition) thenBranch else elseBranch` -/
structure IfView (α : Type) where
  condition : Node α
  thenBranch : Node α
  elseBranch : Option (Node α)

def ifStatement? (n : Node α) : Option (IfView α) :=
  match n.kind, n.children with
  | .ifStatement, _ :: _ :: condition :: _ :: thenBranch :: _ =>
    some ⟨condition, thenBranch, (n.childOfKind? .elseClause).bind fun c => c.children[1]?⟩
  | _, _ => none

/-- `while (condition) body` -/
structure WhileView (α : Type) where
  condition : Node α
  body : Node α

def whileStatement? (n : Node α) : Option (WhileView α) :=
  match n.kind, n.children with
  | .whileStatement, _ :: _ :: condition :: _ :: body :: _ => some ⟨condition, body⟩
  | _, _ => none

/-- The expression of an expression, `return` or `throw` statement. -/
def value? (n : Node α) : Option (Node α) :=
  match n.kind, n.children with
  | .expressionStatement, e :: _ => if e.isExpression then some e else none
  | .returnStatement, _ :: e :: _ => if e.isExpression then some e else none
  | .throwStatement, _ :: e :: _ => if e.isExpression then some e else none
  | _, _ => none

/-! ## Declarations -/

/-- Type and declarators of a local or field declaration. -/
structure VariableDeclaration (α : Type) where
  type : Node α
  declarators : List (Node α)

def variableDeclaration? (n : Node α) : Option (VariableDeclaration α) :=
  if n.kind = .localDeclarationStatement ∨ n.kind = .fieldDeclaration then
    n.typeChild?.map fun type =>
      ⟨type, n.children.filter fun c => c.kind == .variableDeclarator⟩
  else
    none

/-- The value in the `= value` clause among the children. -/
def initializer? (n : Node α) : Option (Node α) :=
  (n.childOfKind? .equalsValueClause).bind fun c => c.children[1]?

/-- `name = initializer` -/
structure Declarator (α : Type) where
  nameToken : Node α
  initializer : Option (Node α)

def declarator? (n : Node α) : Option (Declarator α) :=
  match n.kind, n.children with
  | .variableDeclarator, name :: _ => some ⟨name, n.initializer?⟩
  | _, _ => none

/-- `type name` in a parameter list. -/
structure ParameterView (α : Type) where
  type : Node α
  nameToken : Node α

def parameter? (n : Node α) : Option (ParameterView α) :=
  match n.kind, n.children with
  | .parameter, type :: name :: _ => some ⟨type, name⟩
  | _, _ => none

/-- A method, or a constructor, which has no return type. -/
structure Method (α : Type) where
  returnType : Option (Node α)
  nameToken : Node α
  parameters : List (Node α)
  /-- A block or an arrow clause. -/
  body : Option (Node α)

def method? (n : Node α) : Option (Method α) :=
  if n.kind = .methodDeclaration ∨ n.kind = .constructorDeclaration then
    (n.childOfKind? .identifier).map fun name =>
      { returnType := if n.kind = .methodDeclaration then n.typeChild? else none
        nameToken := name
        parameters := ((n.childOfKind? .parameterList).map fun list =>
          list.children.filter fun p => p.kind == .parameter).getD []
        body := n.children.find? fun c =>
          c.kind == .block || c.kind == .arrowExpressionClause }
  else
    none

/-- `type name { ... } = initializer;` -/
structure Property (α : Type) where
  type : Node α
  nameToken : Node α
  initializer : Option (Node α)

def property? (n : Node α) : Option (Property α) :=
  if n.kind = .propertyDeclaration then do
    let type ← n.typeChild?
    let name ← n.childOfKind? .identifier
    return ⟨type, name, n.initializer?⟩
  else
    none

/-- Declarations that a file, a namespace or a type holds. -/
def members (n : Node α) : List (Node α) :=
  n.children.filter fun c =>
    match c.kind with
    | .namespaceDeclaration | .classDeclaration | .structDeclaration | .fieldDeclaration
    | .propertyDeclaration | .methodDeclaration | .constructorDeclaration => true
    | _ => false

/-! ## Parts are smaller than the whole -/

theorem size_lt_of_childOfKind? {n c : Node α} {k : Kind} (h : n.childOfKind? k = some c) :
    c.size < n.size :=
  size_lt_of_mem_children (List.mem_of_find?_eq_some h)

theorem size_lt_of_getElem? {n c : Node α} {i : Nat} (h : n.children[i]? = some c) :
    c.size < n.size :=
  size_lt_of_mem_children (List.mem_of_getElem? h)

theorem size_lt_of_memberAccess? {n : Node α} {v : MemberAccess α}
    (h : n.memberAccess? = some v) : v.expression.size < n.size := by
  unfold memberAccess? at h
  split at h
  · rename_i hc
    cases h
    exact size_lt_of_mem_children (by simp [hc])
  · cases h

theorem size_lt_of_binary? {n : Node α} {v : Binary α} (h : n.binary? = some v) :
    v.left.size < n.size ∧ v.right.size < n.size := by
  unfold binary? at h
  split at h
  case h_3 => cases h
  all_goals
    rename_i hc
    cases h
    exact ⟨size_lt_of_mem_children (by simp [hc]), size_lt_of_mem_children (by simp [hc])⟩

theorem size_lt_of_inner? {n e : Node α} (h : n.inner? = some e) : e.size < n.size := by
  unfold inner? at h
  split at h
  · rename_i hc
    split at h
    · cases h
      exact size_lt_of_mem_children (by simp [hc])
    · cases h
  · cases h

theorem size_unparenthesized_le (n : Node α) : n.unparenthesized.size ≤ n.size := by
  fun_induction unparenthesized n with
  | case1 a opening e rest _ ih =>
    have : e.size < (Node.branch a Kind.parenthesizedExpression (opening :: e :: rest)).size :=
      size_lt_of_mem_children (by simp)
    omega
  | case2 => simp
  | case3 => simp

theorem size_lt_of_ifStatement? {n : Node α} {v : IfView α} (h : n.ifStatement? = some v) :
    v.condition.size < n.size ∧ v.thenBranch.size < n.size ∧
      ∀ e, v.elseBranch = some e → e.size < n.size := by
  unfold ifStatement? at h
  split at h
  · rename_i hc
    cases h
    refine ⟨size_lt_of_mem_children (by simp [hc]), size_lt_of_mem_children (by simp [hc]), ?_⟩
    intro e he
    obtain ⟨c, hc, he⟩ := Option.bind_eq_some_iff.1 he
    exact Nat.lt_trans (size_lt_of_getElem? he) (size_lt_of_childOfKind? hc)
  · cases h

theorem size_lt_of_whileStatement? {n : Node α} {v : WhileView α}
    (h : n.whileStatement? = some v) :
    v.condition.size < n.size ∧ v.body.size < n.size := by
  unfold whileStatement? at h
  split at h
  · rename_i hc
    cases h
    exact ⟨size_lt_of_mem_children (by simp [hc]), size_lt_of_mem_children (by simp [hc])⟩
  · cases h

theorem size_lt_of_initializer? {n e : Node α} (h : n.initializer? = some e) :
    e.size < n.size := by
  obtain ⟨c, hc, he⟩ := Option.bind_eq_some_iff.1 h
  exact Nat.lt_trans (size_lt_of_getElem? he) (size_lt_of_childOfKind? hc)

theorem size_lt_of_mem_declarators {n d : Node α} {v : VariableDeclaration α}
    (h : n.variableDeclaration? = some v) (hd : d ∈ v.declarators) : d.size < n.size := by
  unfold variableDeclaration? at h
  split at h
  · obtain ⟨type, _, rfl⟩ := Option.map_eq_some_iff.1 h
    exact size_lt_of_mem_children (List.mem_filter.1 hd).1
  · cases h

theorem size_lt_of_mem_members {n m : Node α} (h : m ∈ n.members) : m.size < n.size :=
  size_lt_of_mem_children (List.mem_filter.1 h).1

theorem size_lt_of_mem_arguments {n a : Node α} {v : Creation α} (h : n.creation? = some v)
    (ha : a ∈ v.arguments) : a.size < n.size := by
  unfold creation? at h
  split at h
  · cases h
    cases hl : n.childOfKind? .argumentList with
    | none => simp [hl] at ha
    | some list =>
      simp only [hl, Option.map_some, Option.getD_some] at ha
      exact Nat.lt_trans (size_lt_of_mem_children (List.mem_filter.1 ha).1)
        (size_lt_of_childOfKind? hl)
  · cases h

theorem size_lt_of_method? {n b : Node α} {v : Method α} (h : n.method? = some v)
    (hb : v.body = some b) : b.size < n.size := by
  unfold method? at h
  split at h
  · obtain ⟨name, _, rfl⟩ := Option.map_eq_some_iff.1 h
    exact size_lt_of_mem_children (List.mem_of_find?_eq_some hb)
  · cases h

end Node

end NullLint
