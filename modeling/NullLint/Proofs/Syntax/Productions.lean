import Mathlib.Computability.Language
import Mathlib.Order.CompletePartialOrder
import NullLint.Syntax.Parser.Expression
import NullLint.Proofs.Syntax.Numbering

/-!
# Productions

The grammar that a tree is read against: for each kind of branch the sequences of kinds that its
children may have, as a language over kinds. A node conforms to the grammar if all branches in it
are productions of their kind.

A conditional access `a?` is an expression only as far as it goes: it stands as the first child of
the member or element access behind it and nowhere else.
-/

open Computability

namespace NullLint

namespace Kind

/-- Expressions that stand on their own. -/
def standsAlone (k : Kind) : Bool := k.isExpression && k != .conditionalAccessExpression

/-- Types without dots, `?` and `[]`. -/
def isSimpleType (k : Kind) : Bool := k == .predefinedOrNamedType || k == .genericName

/-- Types without `?` and `[]`. -/
def isDottedType (k : Kind) : Bool := k.isSimpleType || k == .qualifiedName

/-- Classes and structs. -/
def isTypeDeclaration (k : Kind) : Bool := k == .classDeclaration || k == .structDeclaration

/-- What a namespace holds. -/
def isNamespaceItem (k : Kind) : Bool :=
  k == .usingDirective || k == .namespaceDeclaration || k.isTypeDeclaration

/-- What a file holds. -/
def isFileItem (k : Kind) : Bool := k.isNamespaceItem || k.isStatement

/-- What a class or struct holds. -/
def isTypeMember (k : Kind) : Bool :=
  k == .fieldDeclaration || k == .propertyDeclaration || k == .methodDeclaration ||
    k == .constructorDeclaration || k.isTypeDeclaration

/-- Operators between two operands that are not an assignment. -/
def isBinaryOperator (k : Kind) : Bool := k.precedence != 0 || k == .questionQuestion

end Kind

/-! ## Languages of kinds -/

namespace Grammar

/-- One child of a kind that satisfies `p`. -/
def oneOf (p : Kind → Bool) : Language Kind := {w | ∃ k, p k = true ∧ w = [k]}

/-- One child of the kind `k`. -/
def just (k : Kind) : Language Kind := oneOf (· == k)

/-- At most one time `L`. -/
def maybe (L : Language Kind) : Language Kind := 1 + L

/-- `L` one or more times with commas between. -/
def separated (L : Language Kind) : Language Kind := L * (just .comma * L)∗

def operand : Language Kind := oneOf Kind.standsAlone

def type : Language Kind := oneOf Kind.isType

def statement : Language Kind := oneOf Kind.isStatement

def modifiers : Language Kind := (oneOf Kind.isModifier)∗

/-- `= value`, or nothing. -/
def initializer : Language Kind := maybe (just .equalsValueClause)

/-- `{ ... }`, `=> expression;` or `;`. -/
def body : Language Kind :=
  just .block + (just .arrowExpressionClause * just .semicolon + just .semicolon)

/-- `keyword (condition) statement` -/
def guarded (keyword : Kind) : Language Kind :=
  just keyword * (just .openParen * (operand * (just .closeParen * statement)))

/-- `return value;` and the like. -/
def jump (keyword : Kind) : Language Kind :=
  just keyword * (maybe operand * just .semicolon)

/-- Operands with commas between, enclosed in two marks. -/
def arguments (opening closing : Kind) : Language Kind :=
  just opening * (maybe (separated operand) * just closing)

/-- A class or struct. -/
def typeDeclaration (keyword : Kind) : Language Kind :=
  modifiers * (just keyword * (just .identifier *
    (maybe (just .colon * separated type) *
      (just .openBrace * ((oneOf Kind.isTypeMember)∗ * just .closeBrace)))))

/-- The sequences of kinds that the children of a branch of kind `k` may have. -/
def production : Kind → Language Kind
  | .compilationUnit => (oneOf Kind.isFileItem)∗ * just .endOfFile
  | .usingDirective =>
    just .usingKeyword * (maybe (just .staticKeyword) *
      (maybe (just .identifier * just .equals) * (type * just .semicolon)))
  | .namespaceDeclaration =>
    just .namespaceKeyword * (type *
      (just .semicolon * (oneOf Kind.isNamespaceItem)∗ +
        just .openBrace * ((oneOf Kind.isNamespaceItem)∗ * just .closeBrace)))
  | .classDeclaration => typeDeclaration .classKeyword
  | .structDeclaration => typeDeclaration .structKeyword
  | .fieldDeclaration =>
    modifiers * (type * (separated (just .variableDeclarator) * just .semicolon))
  | .propertyDeclaration =>
    modifiers * (type * (just .identifier *
      (just .accessorList * maybe (just .equalsValueClause * just .semicolon) +
        just .arrowExpressionClause * just .semicolon)))
  | .accessorList => just .openBrace * ((just .accessorDeclaration)∗ * just .closeBrace)
  | .accessorDeclaration => modifiers * (just .identifier * body)
  | .arrowExpressionClause => just .equalsGreaterThan * operand
  | .methodDeclaration =>
    modifiers * (type * (just .identifier * (just .parameterList * body)))
  | .constructorDeclaration =>
    modifiers * (just .identifier * (just .parameterList * body))
  | .parameterList =>
    just .openParen *
      ((just .parameter * just .comma)∗ * (maybe (just .parameter) * just .closeParen))
  | .parameter => type * (just .identifier * initializer)
  | .predefinedOrNamedType => oneOf fun k => k == .identifier || k == .varKeyword
  | .qualifiedName =>
    oneOf Kind.isDottedType * (just .dot * oneOf Kind.isSimpleType)
  | .genericName => just .identifier * just .typeArgumentList
  | .typeArgumentList => just .lessThan * (separated type * just .greaterThan)
  | .nullableType => type * just .question
  | .arrayType => type * (just .openBracket * just .closeBracket)
  | .block => just .openBrace * (statement∗ * just .closeBrace)
  | .localDeclarationStatement =>
    type * (separated (just .variableDeclarator) * just .semicolon)
  | .variableDeclarator => just .identifier * initializer
  | .equalsValueClause => just .equals * operand
  | .expressionStatement => operand * just .semicolon
  | .ifStatement => guarded .ifKeyword * maybe (just .elseClause)
  | .elseClause => just .elseKeyword * statement
  | .whileStatement => guarded .whileKeyword
  | .returnStatement => jump .returnKeyword
  | .throwStatement => jump .throwKeyword
  | .emptyStatement => just .semicolon
  | .identifierName => just .identifier
  | .literalExpression => oneOf Kind.isLiteral
  | .thisExpression => just .thisKeyword
  | .parenthesizedExpression => just .openParen * (operand * just .closeParen)
  | .memberAccessExpression =>
    oneOf Kind.isExpression * (just .dot * just .identifierName)
  | .conditionalAccessExpression => operand * just .question
  | .suppressNullableWarningExpression => operand * just .exclamation
  | .invocationExpression => operand * just .argumentList
  | .elementAccessExpression => oneOf Kind.isExpression * just .bracketedArgumentList
  | .argumentList => arguments .openParen .closeParen
  | .bracketedArgumentList => arguments .openBracket .closeBracket
  | .objectCreationExpression => just .newKeyword * (type * just .argumentList)
  | .prefixUnaryExpression => oneOf Parser.isSignOperator * operand
  | .postfixUnaryExpression =>
    operand * oneOf fun k => k == .plusPlus || k == .minusMinus
  | .binaryExpression => operand * (oneOf Kind.isBinaryOperator * operand)
  | .assignmentExpression => operand * (just .equals * operand)
  | _ => 0

theorem singleton_mem_oneOf {p : Kind → Bool} {k : Kind} : [k] ∈ oneOf p ↔ p k = true := by
  constructor
  · rintro ⟨j, hj, h⟩
    obtain rfl : k = j := by simpa using h
    exact hj
  · intro hk
    exact ⟨k, hk, rfl⟩

theorem singleton_mem_just (k : Kind) : [k] ∈ just k := singleton_mem_oneOf.2 (by simp)

theorem oneOf_le {p q : Kind → Bool} (h : ∀ k, p k = true → q k = true) : oneOf p ≤ oneOf q := by
  rintro w ⟨k, hk, rfl⟩
  exact singleton_mem_oneOf.2 (h k hk)

theorem just_le {k : Kind} {p : Kind → Bool} (hk : p k = true) : just k ≤ oneOf p := by
  refine oneOf_le fun j hj => ?_
  obtain rfl : j = k := by simpa using hj
  exact hk

theorem forall_of_mem_kstar_oneOf {p : Kind → Bool} {w : List Kind} (h : w ∈ (oneOf p)∗) :
    ∀ k ∈ w, p k = true := by
  obtain ⟨ws, rfl, hws⟩ := Language.mem_kstar.1 h
  intro k hk
  obtain ⟨v, hv, hk⟩ := List.mem_flatten.1 hk
  obtain ⟨j, hj, rfl⟩ := hws v hv
  obtain rfl : k = j := by simpa using hk
  exact hj

theorem cons_mem_oneOf_mul {p : Kind → Bool} {L : Language Kind} {k : Kind} {w : List Kind} :
    k :: w ∈ oneOf p * L ↔ p k = true ∧ w ∈ L := by
  constructor
  · intro h
    obtain ⟨v, ⟨j, hj, rfl⟩, u, hu, h⟩ := Language.mem_mul.1 h
    obtain ⟨rfl, rfl⟩ : j = k ∧ u = w := by simpa using h
    exact ⟨hj, hu⟩
  · rintro ⟨hk, hw⟩
    exact Language.append_mem_mul (singleton_mem_oneOf.2 hk) hw

theorem cons_cons_mem_kstar {p q : Kind → Bool} {j k : Kind} {w : List Kind} :
    j :: k :: w ∈ (oneOf p * oneOf q)∗ ↔
      p j = true ∧ q k = true ∧ w ∈ (oneOf p * oneOf q)∗ := by
  calc
    j :: k :: w ∈ (oneOf p * oneOf q)∗
      ↔ j :: k :: w ∈ 1 + oneOf p * (oneOf q * (oneOf p * oneOf q)∗) := by
        rw [← mul_assoc, Language.one_add_self_mul_kstar_eq_kstar]
    _ ↔ j :: k :: w ∈ oneOf p * (oneOf q * (oneOf p * oneOf q)∗) := by
        rw [Language.mem_add, Language.mem_one, or_iff_right (by simp)]
    _ ↔ p j = true ∧ q k = true ∧ w ∈ (oneOf p * oneOf q)∗ := by
        rw [cons_mem_oneOf_mul, cons_mem_oneOf_mul]

end Grammar

/-! ## Conformity -/

namespace Node

variable {α : Type}

/-- The children of every branch are a production of its kind. -/
def Conforms (n : Node α) : Prop :=
  ∀ m ∈ n.preorder, m.token? = none → m.children.map kind ∈ Grammar.production m.kind

theorem conforms_token (a : α) (t : Token) : (token a t).Conforms := by
  intro m hm htoken
  obtain rfl : m = .token a t := by simpa using hm
  cases htoken

theorem conforms_branch {a : α} {k : Kind} {cs : List (Node α)} :
    (branch a k cs).Conforms ↔
      cs.map kind ∈ Grammar.production k ∧ ∀ c ∈ cs, c.Conforms := by
  constructor
  · intro h
    constructor
    · exact h (branch a k cs) (self_mem_preorder _) rfl
    · intro c hc m hm
      exact h m (mem_preorder_trans hm (mem_preorder_of_mem_children hc))
  · rintro ⟨hk, hcs⟩ m hm htoken
    rcases mem_preorder_branch.1 hm with rfl | ⟨c, hc, hm⟩
    · exact hk
    · exact hcs c hc m hm htoken

/-- Neither a token put in nor an error node is in the tree. -/
def Undamaged (n : Node α) : Prop :=
  ∀ m ∈ n.preorder, m.isMissing = false ∧ m.kind ≠ .errorNode

theorem undamaged_branch {a : α} {k : Kind} {cs : List (Node α)} :
    (branch a k cs).Undamaged ↔ k ≠ .errorNode ∧ ∀ c ∈ cs, c.Undamaged := by
  constructor
  · intro h
    constructor
    · exact (h (branch a k cs) (self_mem_preorder _)).2
    · intro c hc m hm
      exact h m (mem_preorder_trans hm (mem_preorder_of_mem_children hc))
  · rintro ⟨hk, hcs⟩ m hm
    rcases mem_preorder_branch.1 hm with rfl | ⟨c, hc, hm⟩
    · exact ⟨rfl, hk⟩
    · exact hcs c hc m hm

end Node

end NullLint
