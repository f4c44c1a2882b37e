import NullLint.Proofs.Syntax.Numbering
import NullLint.Syntax.Parser.Expression

/-!
# Canonical expressions

Expressions as data: one type for each layer of precedence, over the type `E` of the expressions
that parentheses and argument lists enclose. An operand is of the next layer, so what is not
parenthesized binds as the types say, and every expression nests less deep than the number that its
type carries.

A canonical expression has a tree over tokens without trivia (`tree`). It is written out token by
token with one space behind each, except behind a `?`.
-/

namespace NullLint

namespace Canonical

/-! ## Tokens -/

/-- A token without trivia. -/
def bare (kind : Kind) (text : String) : Token := { kind, text }

/-- Tokens written out with one space behind each, except behind `?`. -/
def written (ts : List Token) : String :=
  String.join (ts.map fun t => if t.kind = .question then t.text else t.text ++ " ")

/-- An identifier of ASCII letters, digits and underscores. -/
def isWord : List Char → Bool
  | [] => false
  | c :: cs => (c.isAlpha || c == '_') && cs.all fun d => d.isAlphanum || d == '_'

/-- Characters that may stand between plain quotes: a backslash guards the next character. -/
def isQuotable : List Char → Bool
  | [] => true
  | ['\\'] => false
  | '\\' :: c :: cs => c != '\n' && c != '\r' && isQuotable cs
  | c :: cs => c != '"' && c != '\n' && c != '\r' && isQuotable cs

/-- An ASCII identifier that is not reserved. -/
structure Name where
  text : String
  isWord : isWord text.toList = true
  notReserved : Kind.ofKeyword? text = none

inductive Literal where
  | integer (digits : String) (nonempty : digits ≠ "")
      (isNumber : digits.toList.all Char.isDigit = true)
  | string (body : String) (quotable : isQuotable body.toList = true)
  | null
  | true
  | false

namespace Literal

def kind : Literal → Kind
  | integer .. => .numericLiteral
  | string .. => .stringLiteral
  | null => .nullKeyword
  | true => .trueKeyword
  | false => .falseKeyword

def text : Literal → String
  | integer digits .. => digits
  | string body .. => "\"" ++ body ++ "\""
  | null => "null"
  | true => "true"
  | false => "false"

end Literal

/-- A token whose kind satisfies `p`. -/
abbrev Operator (p : Kind → Bool) := { k : Kind // p k = true }

/-- Operators that step a variable. -/
def isStep (k : Kind) : Bool := k == .plusPlus || k == .minusMinus

/-! ## Layers -/

section Layers

variable (E : Type)

inductive Primary where
  | name (x : Name)
  | literal (value : Literal)
  | this
  | parenthesized (e : E)
  | creation (type : Name) (arguments : List E)

inductive Postfixed where
  | primary (e : Primary E)
  | member (e : Postfixed) (x : Name)
  | conditionalMember (e : Postfixed) (x : Name)
  | element (e : Postfixed) (arguments : List E)
  | conditionalElement (e : Postfixed) (arguments : List E)
  | call (e : Postfixed) (arguments : List E)
  | assertion (e : Postfixed)
  | step (e : Postfixed) (operator : Operator isStep)

inductive Signed where
  | operand (e : Postfixed E)
  | sign (operator : Operator Parser.isSignOperator) (e : Signed)

/-- Operands of type `O` joined from left to right. -/
inductive LeftGrouped (joins : Kind → Bool) (O : Type) where
  | operand (e : O)
  | join (left : LeftGrouped joins O) (operator : Operator joins) (right : O)

/-- Operands of type `O` joined from right to left. -/
inductive RightGrouped (O : Type) where
  | operand (e : O)
  | join (left : O) (right : RightGrouped O)

/-- Operands joined by operators of these precedence levels, loosest first. -/
def BinaryAbove : List Nat → Type
  | [] => Signed E
  | level :: levels => LeftGrouped (fun k => k.precedence == level) (BinaryAbove levels)

def Coalesced : Type := RightGrouped (BinaryAbove E Parser.precedenceLevels)

def Assigned : Type := RightGrouped (Coalesced E)

end Layers

/-- Expressions in which parentheses and argument lists nest less than `depth` deep. -/
def Expression : Nat → Type
  | 0 => Empty
  | depth + 1 => Assigned (Expression depth)

/-! ## Trees -/

/-- The token of a kind that has one spelling. -/
def mark (k : Kind) : Green := .leaf (bare k (k.text?.getD ""))

def Name.leaf (x : Name) : Green := .leaf (bare .identifier x.text)

def Name.tree (x : Name) : Green := .group .identifierName [x.leaf]

def Literal.tree (value : Literal) : Green :=
  .group .literalExpression [.leaf (bare value.kind value.text)]

section Trees

variable {E : Type} (nested : E → Green)

/-- Expressions with commas between them, enclosed in two marks. -/
def argumentsTree (opening closing kind : Kind) (es : List E) : Green :=
  .group kind (mark opening :: ((es.map nested).intersperse (mark .comma) ++ [mark closing]))

theorem intersperse_cons {α : Type} (x sep : α) (xs : List α) :
    (x :: xs).intersperse sep = x :: xs.flatMap fun y => [sep, y] := by
  induction xs generalizing x with
  | nil => rfl
  | cons y ys ih =>
    rw [List.intersperse_cons_cons, ih]
    rfl

/-- Arguments of a call. -/
def parenthesizedTree (es : List E) : Green :=
  argumentsTree nested .openParen .closeParen .argumentList es

/-- Arguments of an element access. -/
def bracketedTree (es : List E) : Green :=
  argumentsTree nested .openBracket .closeBracket .bracketedArgumentList es

def Primary.tree : Primary E → Green
  | name x => x.tree
  | literal value => value.tree
  | this => .group .thisExpression [mark .thisKeyword]
  | parenthesized e =>
    .group .parenthesizedExpression [mark .openParen, nested e, mark .closeParen]
  | creation type arguments =>
    .group .objectCreationExpression [mark .newKeyword,
      .group .predefinedOrNamedType [type.leaf], parenthesizedTree nested arguments]

def Postfixed.tree : Postfixed E → Green
  | primary e => e.tree nested
  | member e x => .group .memberAccessExpression [e.tree, mark .dot, x.tree]
  | conditionalMember e x =>
    .group .memberAccessExpression
      [.group .conditionalAccessExpression [e.tree, mark .question], mark .dot, x.tree]
  | element e arguments =>
    .group .elementAccessExpression [e.tree, bracketedTree nested arguments]
  | conditionalElement e arguments =>
    .group .elementAccessExpression
      [.group .conditionalAccessExpression [e.tree, mark .question],
        bracketedTree nested arguments]
  | call e arguments =>
    .group .invocationExpression [e.tree, parenthesizedTree nested arguments]
  | assertion e => .group .suppressNullableWarningExpression [e.tree, mark .exclamation]
  | step e operator => .group .postfixUnaryExpression [e.tree, mark operator]

def Signed.tree : Signed E → Green
  | operand e => e.tree nested
  | sign operator e => .group .prefixUnaryExpression [mark operator, e.tree]

def LeftGrouped.tree {joins : Kind → Bool} {O : Type} (part : O → Green) :
    LeftGrouped joins O → Green
  | operand e => part e
  | join left operator right =>
    .group .binaryExpression [left.tree part, mark operator, part right]

def RightGrouped.tree {O : Type} (kind operator : Kind) (part : O → Green) :
    RightGrouped O → Green
  | operand e => part e
  | join left right => .group kind [part left, mark operator, right.tree kind operator part]

def BinaryAbove.tree : {levels : List Nat} → BinaryAbove E levels → Green
  | [], e => Signed.tree nested e
  | _ :: _, e => LeftGrouped.tree BinaryAbove.tree e

def Coalesced.tree (e : Coalesced E) : Green :=
  RightGrouped.tree .binaryExpression .questionQuestion (BinaryAbove.tree nested) e

def Assigned.tree (e : Assigned E) : Green :=
  RightGrouped.tree .assignmentExpression .equals (Coalesced.tree nested) e

end Trees

/-- The tree of an expression. -/
def Expression.tree : {depth : Nat} → Expression depth → Green
  | 0, e => nomatch e
  | _ + 1, e => Assigned.tree Expression.tree e

end Canonical

/-! ## Spacing -/

/-- The token with a space behind it, unless it is `?`. -/
def Token.spaced (t : Token) : Token :=
  ⟨t.kind, t.text, [], if t.kind = .question then [] else [⟨.whitespace, " "⟩], false⟩

@[simp] theorem Token.kind_spaced (t : Token) : t.spaced.kind = t.kind := rfl

@[simp] theorem Token.text_spaced (t : Token) : t.spaced.text = t.text := rfl

namespace Node

variable {α : Type}

mutual

/-- The node with all its tokens spaced. -/
def spaced : Node α → Node α
  | .token a t => .token a t.spaced
  | .branch a k cs => .branch a k (spacedAll cs)

/-- The nodes with all their tokens spaced. -/
def spacedAll : List (Node α) → List (Node α)
  | [] => []
  | c :: cs => spaced c :: spacedAll cs

end

theorem spacedAll_eq_map (cs : List (Node α)) : spacedAll cs = cs.map spaced := by
  induction cs with
  | nil => rfl
  | cons c cs ih => simp [spacedAll, ih]

@[simp] theorem spaced_token (a : α) (t : Token) :
    (Node.token a t).spaced = .token a t.spaced := rfl

@[simp] theorem spaced_branch (a : α) (k : Kind) (cs : List (Node α)) :
    (Node.branch a k cs).spaced = .branch a k (cs.map spaced) := by
  simp [spaced, spacedAll_eq_map]

theorem tokens_spaced (n : Node α) : n.spaced.tokens = n.tokens.map Token.spaced := by
  induction n with
  | token a t => rfl
  | branch a k cs ih =>
    simp only [spaced_branch, tokens_branch, List.flatMap_map, List.map_flatMap]
    exact List.flatMap_congr ih

/-- Spaces do not count for the outline. -/
theorem outline_spaced (n : Node α) : n.spaced.outline = n.outline := by
  induction n with
  | token a t => rfl
  | branch a k cs ih =>
    simp only [outline, spaced_branch, preorder_branch, List.map_cons, List.flatMap_map,
      List.map_flatMap]
    congr 1
    · simp [label, leafText]
    · exact List.flatMap_congr ih

end Node

namespace Canonical

/-- The token of a mark as it is written. -/
def spacedMark (k : Kind) : Token := (bare k (k.text?.getD "")).spaced

@[simp] theorem kind_spacedMark (k : Kind) : (spacedMark k).kind = k := rfl

@[simp] theorem spaced_mark (k : Kind) : (mark k).spaced = Green.leaf (spacedMark k) := rfl

end Canonical

end NullLint
