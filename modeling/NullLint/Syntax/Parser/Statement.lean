import NullLint.Syntax.Parser.Expression

/-!
# Parsing statements

Each parser takes the nesting depth that is left for the statements and expressions in it.
-/

namespace NullLint.Parser

open Lookahead

/-- `= value` -/
def equalsValue (depth : Nat) : Parser Green := do
  let equals ← advance
  return .group .equalsValueClause [equals, ← expression depth]

/-- A declarator whose name is read already. -/
def declarator (depth : Nat) (name : Green) : Parser Green := do
  if ← sees .equals then
    return .group .variableDeclarator [name, ← equalsValue depth]
  else
    return .group .variableDeclarator [name]

/-- The declarators after the first. -/
def moreDeclarators (depth : Nat) : Parser (List Green) :=
  collectWhile (fun s => s.kind == .comma) do
    let comma ← advance
    let name ← expect .identifier
    return [comma, ← declarator depth name]

def localDeclaration (depth : Nat) : Parser Green := do
  let declared ← type
  let name ← expect .identifier
  let first ← declarator depth name
  let others ← moreDeclarators depth
  return .group .localDeclarationStatement
    (declared :: first :: others ++ [← expect .semicolon])

def expressionStatement (depth : Nat) : Parser Green := do
  let e ← expression depth
  return .group .expressionStatement [e, ← expect .semicolon]

/-- `return [expression];` and `throw [expression];` -/
def jump (depth : Nat) (kind : Kind) : Parser Green := do
  let keyword ← advance
  let value ←
    if startsExpression (← get).kind then do pure [← expression depth] else pure []
  return .group kind (keyword :: value ++ [← expect .semicolon])

/-- A branch of an `if` or the body of a loop. -/
def embedded (depth : Nat) (statement : Parser Green) : Parser Green := do
  if startsStatement (← get).kind then statement else expressionStatement depth

/-- `keyword (condition)` and the statement it governs. -/
def guarded (depth : Nat) (statement : Parser Green) : Parser (List Green) := do
  let keyword ← advance
  let opening ← expect .openParen
  let condition ← expression depth
  let closing ← expect .closeParen
  return [keyword, opening, condition, closing, ← embedded depth statement]

def ifStatement (depth : Nat) (statement : Parser Green) : Parser Green := do
  let parts ← guarded depth statement
  if ← sees .elseKeyword then
    let keyword ← advance
    let other ← embedded depth statement
    return .group .ifStatement (parts ++ [.group .elseClause [keyword, other]])
  else
    return .group .ifStatement parts

def whileStatement (depth : Nat) (statement : Parser Green) : Parser Green := do
  return .group .whileStatement (← guarded depth statement)

/-- Whether a list between braces ends here. -/
def endsList (s : ParseState) : Bool := s.kind == .closeBrace || s.kind == .endOfFile

/-- `{ statements }` -/
def block (statement : Parser Green) : Parser Green := do
  let opening ← expect .openBrace
  let body ← collectWhile (fun s => !endsList s) (element .invalidExpressionTerm do
    if startsStatement (← get).kind then statement else skip .invalidExpressionTerm)
  return .group .block (opening :: body ++ [← expect .closeBrace])

/-- A statement whose parts nest at most `depth` deep. -/
def statementWith (depth : Nat) (statement : Parser Green) : Parser Green := do
  let s ← get
  match s.kind with
  | .openBrace => block statement
  | .semicolon => return .group .emptyStatement [← advance]
  | .ifKeyword => ifStatement depth statement
  | .whileKeyword => whileStatement depth statement
  | .returnKeyword => jump depth .returnStatement
  | .throwKeyword => jump depth .throwStatement
  | _ =>
    if declarationAhead s then localDeclaration depth else expressionStatement depth

/-- A statement in which statements and expressions nest at most `depth` deep, itself
included. -/
def statement : Nat → Parser Green
  | 0 => fun s => giveUp true s
  | depth + 1 => fun s => statementWith depth (statement depth) s

end NullLint.Parser
