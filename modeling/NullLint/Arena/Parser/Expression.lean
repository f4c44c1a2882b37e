import NullLint.Arena.Parser.Basic
import NullLint.Syntax.Parser.Expression

/-!
# Filling an arena with types and expressions

Each parser takes the parser for the types or expressions nested in it.
-/

namespace NullLint.ArenaParser

open Lookahead
open NullLint.Parser (sees isSignOperator precedenceLevels)

/-! ## Types -/

/-- Type arguments between `<` and `>`, one level deeper. -/
def typeArguments (argument : ArenaParser Nat) : ArenaParser Nat := do
  let parts ← deeper do
    let opening ← advance
    let types ← commaSeparated do return [← argument]
    return opening :: types ++ [← expect .greaterThan]
  group .typeArgumentList parts

/-- `var`, a name, or a name with type arguments, which are parsed by `argument`. -/
def simpleType (argument : Option (ArenaParser Nat)) : ArenaParser Nat := do
  if ← lift (sees .varKeyword) then
    group .predefinedOrNamedType [← advance]
  else
    let name ← expect .identifier
    match argument with
    | some argument =>
      if typeArgumentsAhead (← lift get) then
        group .genericName [name, ← typeArguments argument]
      else
        group .predefinedOrNamedType [name]
    | none => group .predefinedOrNamedType [name]

/-- Adds a `.name` part to a type if one stands ahead. -/
def qualify (argument : Option (ArenaParser Nat)) (type : Nat) : ArenaParser (Option Nat) := do
  let s ← lift get
  if s.kind = .dot ∧ s.nextKind = .identifier then
    let dot ← advance
    let right ← simpleType argument
    return some (← group .qualifiedName [type, dot, right])
  else
    return none

/-- Adds a `?` or `[]` to a type if one stands ahead. -/
def decorate (type : Nat) : ArenaParser (Option Nat) := do
  let s ← lift get
  if s.kind = .question ∧ ¬(s.nextKind = .dot ∧ conditionalAccessAhead s) then
    return some (← group .nullableType [type, ← advance])
  else if s.kind = .openBracket ∧ s.nextKind = .closeBracket then
    let opening ← advance
    return some (← group .arrayType [type, opening, ← advance])
  else
    return none

/-- A type whose type arguments, if any are allowed, are parsed by `argument`. -/
def typeWith (argument : Option (ArenaParser Nat)) : ArenaParser Nat := do
  let name ← simpleType argument
  let qualified ← refine (qualify argument) name
  refine decorate qualified

/-- A type whose argument lists nest at most `depth` deep. -/
def typeNested : Nat → ArenaParser Nat
  | 0 => fun s => typeWith none s
  | depth + 1 => fun s => typeWith (some (typeNested depth)) s

def type : ArenaParser Nat := typeNested (maxParseDepth + 1)

/-! ## Expressions -/

/-- Expressions with commas between them, enclosed in `opening` and `closing`. -/
def argumentList (nested : ArenaParser Nat) (opening closing kind : Kind) : ArenaParser Nat := do
  let first ← expect opening
  let arguments ←
    if ← lift (sees closing) then pure [] else commaSeparated do return [← nested]
  group kind (first :: arguments ++ [← expect closing])

def parenthesizedArguments (nested : ArenaParser Nat) : ArenaParser Nat :=
  argumentList nested .openParen .closeParen .argumentList

def bracketedArguments (nested : ArenaParser Nat) : ArenaParser Nat :=
  argumentList nested .openBracket .closeBracket .bracketedArgumentList

def identifierName : ArenaParser Nat := do
  group .identifierName [← expect .identifier]

/-- `new type(arguments)` -/
def objectCreation (nested : ArenaParser Nat) : ArenaParser Nat := do
  let keyword ← advance
  let created ← type
  let arguments ←
    if ← lift (sees .openParen) then parenthesizedArguments nested else expect .openParen
  group .objectCreationExpression [keyword, created, arguments]

/-- `(expression)` -/
def parenthesized (nested : ArenaParser Nat) : ArenaParser Nat := do
  let opening ← advance
  let e ← nested
  group .parenthesizedExpression [opening, e, ← expect .closeParen]

/-- The place of an expression that the source lacks. -/
def absentExpression : ArenaParser Nat := do
  lift (Parser.complain .invalidExpressionTerm)
  group .identifierName [← leaf (.absent .identifier)]

/-- A name, literal, creation or parenthesized expression. -/
def primary (nested : ArenaParser Nat) : ArenaParser Nat := do
  let s ← lift get
  if s.kind = .identifier then identifierName
  else if s.kind = .thisKeyword then group .thisExpression [← advance]
  else if s.kind = .openParen then parenthesized nested
  else if s.kind = .newKeyword then objectCreation nested
  else if s.kind = .varKeyword then skip .invalidExpressionTerm
  else if s.kind.isLiteral then group .literalExpression [← advance]
  else absentExpression

/-- Adds the access, call or operator that stands behind an expression. -/
def extend (nested : ArenaParser Nat) (e : Nat) : ArenaParser (Option Nat) := do
  let s ← lift get
  if s.kind = .dot then
    let dot ← advance
    let name ← identifierName
    return some (← group .memberAccessExpression [e, dot, name])
  else if s.kind = .question then
    if conditionalAccessAhead s then
      return some (← group .conditionalAccessExpression [e, ← advance])
    else
      return none
  else if s.kind = .openParen then
    return some (← group .invocationExpression [e, ← parenthesizedArguments nested])
  else if s.kind = .openBracket then
    return some (← group .elementAccessExpression [e, ← bracketedArguments nested])
  else if s.kind = .exclamation then
    return some (← group .suppressNullableWarningExpression [e, ← advance])
  else if s.kind = .plusPlus ∨ s.kind = .minusMinus then
    return some (← group .postfixUnaryExpression [e, ← advance])
  else
    return none

def postfixed (nested : ArenaParser Nat) : ArenaParser Nat := do
  let e ← primary nested
  refine (extend nested) e

/-- Puts operators before an operand, the last one first. -/
def prefixed (operand : Nat) : List Nat → ArenaParser Nat
  | [] => return operand
  | op :: operators => do
    let inner ← prefixed operand operators
    group .prefixUnaryExpression [op, inner]

def unary (nested : ArenaParser Nat) : ArenaParser Nat := do
  let operators ← collectWhile (fun s => isSignOperator s.kind) do return [← advance]
  let operand ← postfixed nested
  prefixed operand operators

/-- Joins operands left to right with the operators that satisfy `joins`. -/
def leftGrouped (joins : Kind → Bool) (operand : ArenaParser Nat) : ArenaParser Nat := do
  let first ← operand
  refine (fun left => do
    if joins (← lift get).kind then
      let operator ← advance
      let right ← operand
      return some (← group .binaryExpression [left, operator, right])
    else
      return none) first

/-- Operands joined by operators of one precedence level or of a tighter one. -/
def binaryAbove (levels : List Nat) (nested : ArenaParser Nat) : ArenaParser Nat :=
  levels.foldr (fun level operand => leftGrouped (fun k => k.precedence == level) operand)
    (unary nested)

def binary (nested : ArenaParser Nat) : ArenaParser Nat := binaryAbove precedenceLevels nested

/-- Groups `first op e op e ...`, given as one list, to the right: the last operands are joined
first. -/
def groupRight (kind : Kind) (first : Nat) : List Nat → ArenaParser Nat
  | operator :: next :: more => do
    let right ← groupRight kind next more
    group kind [first, operator, right]
  | _ => return first

/-- Joins operands with `operator`, grouping to the right. -/
def rightGrouped (kind operator : Kind) (operand : ArenaParser Nat) : ArenaParser Nat := do
  let first ← operand
  let more ← collectWhile (fun s => s.kind == operator) do
    let mark ← advance
    return [mark, ← operand]
  groupRight kind first more

def coalesce (nested : ArenaParser Nat) : ArenaParser Nat :=
  rightGrouped .binaryExpression .questionQuestion (binary nested)

def assignment (nested : ArenaParser Nat) : ArenaParser Nat :=
  rightGrouped .assignmentExpression .equals (coalesce nested)

/-- An expression, one level deeper. `levels` is how many levels are left, so that at none of them
the counter sends every expression to `giveUp`. -/
def expression : (levels : Nat) → ArenaParser Nat
  | 0 => nesting (giveUp false) (giveUp false)
  | levels + 1 => nesting (giveUp false) (assignment (expression levels))

end NullLint.ArenaParser
