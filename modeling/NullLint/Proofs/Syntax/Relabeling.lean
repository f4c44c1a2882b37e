import NullLint.Proofs.Syntax.Numbering
import NullLint.Proofs.Syntax.Views
import Mathlib.Tactic.Simps.Basic

/-!
# New tags for the nodes of a tree

Every view of a node whose tags are changed is the view of the node with its tags changed.
-/

namespace NullLint.Node

variable {α β : Type}

/-! ## Views with new tags -/

@[simps]
def MemberAccess.map (f : α → β) (v : MemberAccess α) : MemberAccess β where
  expression := v.expression.map f
  operator := v.operator.map f
  name := v.name.map f

@[simps]
def Binary.map (f : α → β) (v : Binary α) : Binary β where
  left := v.left.map f
  operator := v.operator.map f
  right := v.right.map f

@[simps]
def Unary.map (f : α → β) (v : Unary α) : Unary β where
  operator := v.operator.map f
  operand := v.operand.map f

@[simps]
def Invocation.map (f : α → β) (v : Invocation α) : Invocation β where
  expression := v.expression.map f
  arguments := v.arguments.map (Node.map f)

@[simps]
def Creation.map (f : α → β) (v : Creation α) : Creation β where
  type := v.type.map f
  arguments := v.arguments.map (Node.map f)

@[simps]
def IfView.map (f : α → β) (v : IfView α) : IfView β where
  condition := v.condition.map f
  thenBranch := v.thenBranch.map f
  elseBranch := v.elseBranch.map (Node.map f)

@[simps]
def WhileView.map (f : α → β) (v : WhileView α) : WhileView β where
  condition := v.condition.map f
  body := v.body.map f

@[simps]
def VariableDeclaration.map (f : α → β) (v : VariableDeclaration α) : VariableDeclaration β where
  type := v.type.map f
  declarators := v.declarators.map (Node.map f)

@[simps]
def Declarator.map (f : α → β) (v : Declarator α) : Declarator β where
  nameToken := v.nameToken.map f
  initializer := v.initializer.map (Node.map f)

@[simps]
def ParameterView.map (f : α → β) (v : ParameterView α) : ParameterView β where
  type := v.type.map f
  nameToken := v.nameToken.map f

@[simps]
def Method.map (f : α → β) (v : Method α) : Method β where
  returnType := v.returnType.map (Node.map f)
  nameToken := v.nameToken.map f
  parameters := v.parameters.map (Node.map f)
  body := v.body.map (Node.map f)

@[simps]
def Property.map (f : α → β) (v : Property α) : Property β where
  type := v.type.map f
  nameToken := v.nameToken.map f
  initializer := v.initializer.map (Node.map f)

/-! ## The node itself -/

variable (f : α → β) (n : Node α)

@[simp] theorem tag_map : (n.map f).tag = f n.tag := by cases n <;> rfl

@[simp] theorem children_map : (n.map f).children = n.children.map (map f) := by
  cases n with
  | token => rfl
  | branch a k cs => simp [map_branch]

@[simp] theorem leafText_map : (n.map f).leafText = n.leafText := by cases n <;> rfl

@[simp] theorem isMissing_map : (n.map f).isMissing = n.isMissing := by cases n <;> rfl

@[simp] theorem isExpression_map : (n.map f).isExpression = n.isExpression := by
  simp [isExpression]

theorem preorder_map : (n.map f).preorder = n.preorder.map (map f) := by
  induction n using Node.induction with
  | token a t => rfl
  | branch a k cs ih =>
    simp only [map_branch, preorder_branch, List.map_cons, List.flatMap_map, List.map_flatMap,
      List.cons.injEq, true_and]
    exact List.flatMap_congr ih

@[simp] theorem size_map : (n.map f).size = n.size := by
  simp [size, preorder_map]

/-! ## Children -/

@[simp] theorem childOfKind?_map (k : Kind) :
    (n.map f).childOfKind? k = (n.childOfKind? k).map (map f) := by
  simp only [childOfKind?, children_map, List.find?_map, Function.comp_def, kind_map]

@[simp] theorem typeChild?_map : (n.map f).typeChild? = n.typeChild?.map (map f) := by
  simp only [typeChild?, children_map, List.find?_map, Function.comp_def, kind_map]

@[simp] theorem identifier?_map : (n.map f).identifier? = n.identifier? := by
  simp only [identifier?, kind_map, leafText_map, children_map]
  cases n.children <;> simp

@[simp] theorem declaredName?_map : (n.map f).declaredName? = n.declaredName? := by
  simp [declaredName?, Function.comp_def]

@[simp] theorem initializer?_map : (n.map f).initializer? = n.initializer?.map (map f) := by
  simp only [initializer?, childOfKind?_map]
  cases n.childOfKind? .equalsValueClause <;> simp

@[simp] theorem arguments_map : (n.map f).arguments = n.arguments.map (map f) := by
  simp [arguments, List.filter_map, Function.comp_def]

@[simp] theorem members_map : (n.map f).members = n.members.map (map f) := by
  simp [members, List.filter_map, Function.comp_def]

@[simp] theorem statements_map : (n.map f).statements = n.statements.map (map f) := by
  simp only [statements, kind_map, children_map, List.filter_map, Function.comp_def]
  split
  · rfl
  · rfl
  · split <;> rfl

/-! ## Expressions -/

@[simp] theorem memberAccess?_map :
    (n.map f).memberAccess? = n.memberAccess?.map (.map f) := by
  simp only [memberAccess?, kind_map, children_map]
  by_cases hk : n.kind = .memberAccessExpression
  · rw [hk]
    rcases n.children with _ | ⟨_, _ | ⟨_, _ | _⟩⟩ <;> rfl
  · simp [hk]

@[simp] theorem binary?_map : (n.map f).binary? = n.binary?.map (.map f) := by
  simp only [binary?, kind_map, children_map]
  by_cases hk : n.kind = .binaryExpression ∨ n.kind = .assignmentExpression
  · rcases hk with hk | hk <;> rw [hk] <;>
      rcases n.children with _ | ⟨_, _ | ⟨_, _ | _⟩⟩ <;> rfl
  · push Not at hk
    simp [hk]

@[simp] theorem unary?_map : (n.map f).unary? = n.unary?.map (.map f) := by
  simp only [unary?, kind_map, children_map]
  by_cases hk : n.kind = .prefixUnaryExpression ∨ n.kind = .postfixUnaryExpression
  · rcases hk with hk | hk <;> rw [hk] <;>
      rcases n.children with _ | ⟨_, _ | _⟩ <;> rfl
  · push Not at hk
    simp [hk]

@[simp] theorem inner?_map : (n.map f).inner? = n.inner?.map (map f) := by
  simp only [inner?, kind_map, children_map]
  by_cases hk : n.kind = .parenthesizedExpression
  · rw [hk]
    rcases n.children with _ | ⟨_, _ | ⟨e, _⟩⟩
    · rfl
    · rfl
    · simp only [List.map_cons, isExpression_map]
      split <;> rfl
  · simp [hk]

@[simp] theorem unparenthesized_map : (n.map f).unparenthesized = n.unparenthesized.map f := by
  induction n using inner_induction with
  | stop n h =>
    rw [unparenthesized_of_inner?_eq_none h, unparenthesized_of_inner?_eq_none (by simp [h])]
  | inner n e h ih =>
    rw [unparenthesized_of_inner? h, ← ih]
    exact unparenthesized_of_inner? (by simp [h])

@[simp] theorem invocation?_map : (n.map f).invocation? = n.invocation?.map (.map f) := by
  simp only [invocation?, kind_map, children_map]
  by_cases hk : n.kind = .invocationExpression
  · rw [hk]
    rcases n.children with _ | ⟨_, _ | _⟩
    · rfl
    · rfl
    · simp [Invocation.map]
  · simp [hk]

@[simp] theorem creation?_map : (n.map f).creation? = n.creation?.map (.map f) := by
  simp only [creation?, kind_map, children_map, childOfKind?_map]
  by_cases hk : n.kind = .objectCreationExpression
  · rw [hk]
    rcases n.children with _ | ⟨_, _ | _⟩
    · rfl
    · rfl
    · cases n.childOfKind? .argumentList <;> simp [Creation.map]
  · simp [hk]

@[simp] theorem literal?_map : (n.map f).literal? = n.literal?.map (map f) := by
  simp only [literal?, kind_map, children_map]
  by_cases hk : n.kind = .literalExpression
  · rw [hk]
    cases n.children <;> rfl
  · simp [hk]

/-! ## Statements -/

@[simp] theorem ifStatement?_map : (n.map f).ifStatement? = n.ifStatement?.map (.map f) := by
  simp only [ifStatement?, kind_map, children_map, childOfKind?_map]
  by_cases hk : n.kind = .ifStatement
  · rw [hk]
    rcases n.children with _ | ⟨_, _ | ⟨_, _ | ⟨_, _ | ⟨_, _ | _⟩⟩⟩⟩
    any_goals rfl
    cases n.childOfKind? .elseClause <;> simp [IfView.map]
  · simp [hk]

@[simp] theorem whileStatement?_map :
    (n.map f).whileStatement? = n.whileStatement?.map (.map f) := by
  simp only [whileStatement?, kind_map, children_map]
  by_cases hk : n.kind = .whileStatement
  · rw [hk]
    rcases n.children with _ | ⟨_, _ | ⟨_, _ | ⟨_, _ | ⟨_, _ | _⟩⟩⟩⟩ <;> rfl
  · simp [hk]

@[simp] theorem value?_map : (n.map f).value? = n.value?.map (map f) := by
  simp only [value?, kind_map, children_map]
  by_cases hk : n.kind = .expressionStatement ∨ n.kind = .returnStatement ∨
      n.kind = .throwStatement
  · rcases hk with hk | hk | hk <;> rw [hk] <;>
      rcases n.children with _ | ⟨_, _ | _⟩ <;> simp
  · push Not at hk
    simp [hk]

/-! ## Declarations -/

@[simp] theorem variableDeclaration?_map :
    (n.map f).variableDeclaration? = n.variableDeclaration?.map (.map f) := by
  simp only [variableDeclaration?, kind_map, typeChild?_map, children_map]
  split
  · cases n.typeChild? <;>
      simp [VariableDeclaration.map, List.filter_map, Function.comp_def]
  · rfl

@[simp] theorem declarator?_map : (n.map f).declarator? = n.declarator?.map (.map f) := by
  simp only [declarator?, kind_map, children_map, initializer?_map]
  by_cases hk : n.kind = .variableDeclarator
  · rw [hk]
    cases n.children <;> rfl
  · simp [hk]

@[simp] theorem parameter?_map : (n.map f).parameter? = n.parameter?.map (.map f) := by
  simp only [parameter?, kind_map, children_map]
  by_cases hk : n.kind = .parameter
  · rw [hk]
    rcases n.children with _ | ⟨_, _ | _⟩ <;> rfl
  · simp [hk]

@[simp] theorem method?_map : (n.map f).method? = n.method?.map (.map f) := by
  simp only [method?, kind_map, childOfKind?_map, typeChild?_map, children_map, List.find?_map,
    Function.comp_def]
  split
  · cases n.childOfKind? .identifier with
    | none => rfl
    | some name =>
      cases n.childOfKind? .parameterList <;> split <;>
        simp [Method.map, List.filter_map, Function.comp_def]
  · rfl

@[simp] theorem property?_map : (n.map f).property? = n.property?.map (.map f) := by
  simp only [property?, kind_map, typeChild?_map, childOfKind?_map, initializer?_map]
  split
  · cases n.typeChild? <;> cases n.childOfKind? .identifier <;> rfl
  · rfl

end NullLint.Node
