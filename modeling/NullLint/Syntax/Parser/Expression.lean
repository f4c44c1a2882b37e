import NullLint.Syntax.Parser.TypeName

/-!
# Parsing expressions

`a?.b` becomes a member access whose first child is a conditional access `a?`, and `x!` a
suppression of the nullable warning. `??` and `=` group to the right, all other binary operators
to the left by precedence.

Each parser takes the parser for the expressions nested in it, whose depth is one less.
-/

namespace NullLint.Parser

open Lookahead

/-- Expressions with commas between them, enclosed in `opening` and `closing`. -/
def argumentList (nested : Parser Green) (opening closing kind : Kind) : Parser Green := do
  let first ← expect opening
  let arguments ←
    if ← sees closing then pure [] else commaSeparated do return [← nested]
  return .group kind (first :: arguments ++ [← expect closing])

def parenthesizedArguments (nested : Parser Green) : Parser Green :=
  argumentList nested .openParen .closeParen .argumentList

def bracketedArguments (nested : Parser Green) : Parser Green :=
  argumentList nested .openBracket .closeBracket .bracketedArgumentList

def identifierName : Parser Green := do
  return .group .identifierName [← expect .identifier]

/-- `new type(arguments)` -/
def objectCreation (nested : Parser Green) : Parser Green := do
  let keyword ← advance
  let created ← type
  let arguments ←
    if ← sees .openParen then parenthesizedArguments nested else expect .openParen
  return .group .objectCreationExpression [keyword, created, arguments]

/-- `(expression)` -/
def parenthesized (nested : Parser Green) : Parser Green := do
  let opening ← advance
  let e ← nested
  return .group .parenthesizedExpression [opening, e, ← expect .closeParen]

/-- The place of an expression that the source lacks. -/
def absentExpression : Parser Green := do
  complain .invalidExpressionTerm
  return .group .identifierName [.leaf (.absent .identifier)]

/-- A name, literal, creation or parenthesized expression. -/
def primary (nested : Parser Green) : Parser Green := do
  match (← get).kind with
  | .identifier => identifierName
  | .thisKeyword => return .group .thisExpression [← advance]
  | .openParen => parenthesized nested
  | .newKeyword => objectCreation nested
  | .varKeyword => skip .invalidExpressionTerm
  | k =>
    if k.isLiteral then return .group .literalExpression [← advance]
    else absentExpression

/-- Adds the access, call or operator that stands behind an expression. -/
def extend (nested : Parser Green) (e : Green) : Parser (Option Green) := do
  let s ← get
  match s.kind with
  | .dot =>
    let dot ← advance
    return some (.group .memberAccessExpression [e, dot, ← identifierName])
  | .question =>
    if conditionalAccessAhead s then
      return some (.group .conditionalAccessExpression [e, ← advance])
    else
      return none
  | .openParen =>
    return some (.group .invocationExpression [e, ← parenthesizedArguments nested])
  | .openBracket =>
    return some (.group .elementAccessExpression [e, ← bracketedArguments nested])
  | .exclamation =>
    return some (.group .suppressNullableWarningExpression [e, ← advance])
  | .plusPlus | .minusMinus =>
    return some (.group .postfixUnaryExpression [e, ← advance])
  | _ => return none

def postfixed (nested : Parser Green) : Parser Green := do
  let e ← primary nested
  refine (extend nested) e

/-- Operators that stand before their operand. -/
def isSignOperator : Kind → Bool
  | .exclamation | .minus | .plus | .plusPlus | .minusMinus => true
  | _ => false

def unary (nested : Parser Green) : Parser Green := do
  let operators ← collectWhile (fun s => isSignOperator s.kind) do return [← advance]
  let operand ← postfixed nested
  return operators.foldr (fun op e => .group .prefixUnaryExpression [op, e]) operand

/-- Joins operands left to right with the operators that satisfy `joins`. -/
def leftGrouped (joins : Kind → Bool) (operand : Parser Green) : Parser Green := do
  let first ← operand
  refine (fun left => do
    if joins (← get).kind then
      let operator ← advance
      return some (.group .binaryExpression [left, operator, ← operand])
    else
      return none) first

/-- Operands joined by operators of one precedence level or of a tighter one. -/
def binaryAbove (levels : List Nat) (nested : Parser Green) : Parser Green :=
  levels.foldr (fun level operand => leftGrouped (fun k => k.precedence == level) operand)
    (unary nested)

/-- The precedence levels, loosest first. -/
def precedenceLevels : List Nat := [1, 2, 3, 4, 5, 6]

def binary (nested : Parser Green) : Parser Green := binaryAbove precedenceLevels nested

/-- Groups `first op e op e ...`, given as one list, to the right. -/
def groupRight (kind : Kind) (first : Green) : List Green → Green
  | operator :: next :: more => .group kind [first, operator, groupRight kind next more]
  | _ => first

/-- Joins operands with `operator`, grouping to the right. -/
def rightGrouped (kind operator : Kind) (operand : Parser Green) : Parser Green := do
  let first ← operand
  let more ← collectWhile (fun s => s.kind == operator) do
    let mark ← advance
    return [mark, ← operand]
  return groupRight kind first more

def coalesce (nested : Parser Green) : Parser Green :=
  rightGrouped .binaryExpression .questionQuestion (binary nested)

def assignment (nested : Parser Green) : Parser Green :=
  rightGrouped .assignmentExpression .equals (coalesce nested)

/-- An expression in which expressions nest at most `depth` deep, itself included. -/
def expression : Nat → Parser Green
  | 0 => fun s => giveUp false s
  | depth + 1 => fun s => assignment (expression depth) s

end NullLint.Parser
