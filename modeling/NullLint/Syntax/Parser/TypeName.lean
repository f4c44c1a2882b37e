import NullLint.Syntax.Parser.Lookahead

/-!
# Parsing types
-/

namespace NullLint.Parser

open Lookahead

/-- Type arguments between `<` and `>`. -/
def typeArguments (argument : Parser Green) : Parser Green := do
  let opening ← advance
  let types ← commaSeparated do return [← argument]
  let closing ← expect .greaterThan
  return .group .typeArgumentList (opening :: types ++ [closing])

/-- `var`, a name, or a name with type arguments, which are parsed by `argument`. -/
def simpleType (argument : Option (Parser Green)) : Parser Green := do
  if ← sees .varKeyword then
    return .group .predefinedOrNamedType [← advance]
  let name ← expect .identifier
  match argument with
  | some argument =>
    if typeArgumentsAhead (← get) then
      return .group .genericName [name, ← typeArguments argument]
    else
      return .group .predefinedOrNamedType [name]
  | none => return .group .predefinedOrNamedType [name]

/-- Adds a `.name` part to a type if one stands ahead. -/
def qualify (argument : Option (Parser Green)) (type : Green) : Parser (Option Green) := do
  let s ← get
  if s.kind = .dot ∧ s.nextKind = .identifier then
    let dot ← advance
    return some (.group .qualifiedName [type, dot, ← simpleType argument])
  else
    return none

/-- Adds a `?` or `[]` to a type if one stands ahead. A `?` right before a `.` is left to the
access it belongs to. -/
def decorate (type : Green) : Parser (Option Green) := do
  let s ← get
  if s.kind = .question ∧ ¬(s.nextKind = .dot ∧ conditionalAccessAhead s) then
    return some (.group .nullableType [type, ← advance])
  else if s.kind = .openBracket ∧ s.nextKind = .closeBracket then
    let opening ← advance
    return some (.group .arrayType [type, opening, ← advance])
  else
    return none

/-- A type whose type arguments, if any are allowed, are parsed by `argument`. -/
def typeWith (argument : Option (Parser Green)) : Parser Green := do
  let name ← simpleType argument
  let qualified ← refine (qualify argument) name
  refine decorate qualified

/-- A type whose argument lists nest at most `depth` deep. -/
def typeNested : Nat → Parser Green
  | 0 => fun s => typeWith none s
  | depth + 1 => fun s => typeWith (some (typeNested depth)) s

/-- A type. Lookahead never finds argument lists that nest deeper than the limit used here. -/
def type : Parser Green := typeNested (maxParseDepth + 1)

end NullLint.Parser
