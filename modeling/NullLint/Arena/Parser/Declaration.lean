import NullLint.Arena.Parser.Expression
import NullLint.Syntax.Parser.Declaration

/-!
# Filling an arena with statements and declarations

The parsers of statements take the number of levels that are left for what is nested in them.
-/

namespace NullLint.ArenaParser

open Lookahead
open NullLint.Parser (sees endsList startsType)

/-! ## Statements -/

/-- `= value` -/
def equalsValue (levels : Nat) : ArenaParser Nat := do
  let equals ← advance
  group .equalsValueClause [equals, ← expression levels]

/-- A declarator whose name is read already. -/
def declarator (levels : Nat) (name : Nat) : ArenaParser Nat := do
  if ← lift (sees .equals) then
    group .variableDeclarator [name, ← equalsValue levels]
  else
    group .variableDeclarator [name]

/-- The declarators after the first. -/
def moreDeclarators (levels : Nat) : ArenaParser (List Nat) :=
  collectWhile (fun s => s.kind == .comma) do
    let comma ← advance
    let name ← expect .identifier
    return [comma, ← declarator levels name]

def localDeclaration (levels : Nat) : ArenaParser Nat := do
  let declared ← type
  let name ← expect .identifier
  let first ← declarator levels name
  let others ← moreDeclarators levels
  group .localDeclarationStatement (declared :: first :: others ++ [← expect .semicolon])

def expressionStatement (levels : Nat) : ArenaParser Nat := do
  let e ← expression levels
  group .expressionStatement [e, ← expect .semicolon]

/-- `return [expression];` and `throw [expression];` -/
def jump (levels : Nat) (kind : Kind) : ArenaParser Nat := do
  let keyword ← advance
  let value ←
    if startsExpression (← lift get).kind then do pure [← expression levels] else pure []
  group kind (keyword :: value ++ [← expect .semicolon])

/-- A branch of an `if` or the body of a loop. -/
def embedded (levels : Nat) (statement : ArenaParser Nat) : ArenaParser Nat := do
  if startsStatement (← lift get).kind then statement else expressionStatement levels

/-- `keyword (condition)` and the statement it governs. -/
def guarded (levels : Nat) (statement : ArenaParser Nat) : ArenaParser (List Nat) := do
  let keyword ← advance
  let opening ← expect .openParen
  let condition ← expression levels
  let closing ← expect .closeParen
  return [keyword, opening, condition, closing, ← embedded levels statement]

def ifStatement (levels : Nat) (statement : ArenaParser Nat) : ArenaParser Nat := do
  let parts ← guarded levels statement
  if ← lift (sees .elseKeyword) then
    let keyword ← advance
    let other ← embedded levels statement
    let alternative ← group .elseClause [keyword, other]
    group .ifStatement (parts ++ [alternative])
  else
    group .ifStatement parts

def whileStatement (levels : Nat) (statement : ArenaParser Nat) : ArenaParser Nat := do
  group .whileStatement (← guarded levels statement)

/-- `{ statements }` -/
def block (statement : ArenaParser Nat) : ArenaParser Nat := do
  let opening ← expect .openBrace
  let body ← collectWhile (fun s => !endsList s) (element .invalidExpressionTerm do
    if startsStatement (← lift get).kind then statement else skip .invalidExpressionTerm)
  group .block (opening :: body ++ [← expect .closeBrace])

/-- A statement whose parts nest at most `levels` deep. -/
def statementWith (levels : Nat) (statement : ArenaParser Nat) : ArenaParser Nat := do
  let s ← lift get
  if s.kind = .openBrace then block statement
  else if s.kind = .semicolon then group .emptyStatement [← advance]
  else if s.kind = .ifKeyword then ifStatement levels statement
  else if s.kind = .whileKeyword then whileStatement levels statement
  else if s.kind = .returnKeyword then jump levels .returnStatement
  else if s.kind = .throwKeyword then jump levels .throwStatement
  else if declarationAhead s then localDeclaration levels
  else expressionStatement levels

/-- A statement, one level deeper. -/
def statement : (levels : Nat) → ArenaParser Nat
  | 0 => nesting (giveUp true) (giveUp true)
  | levels + 1 => nesting (giveUp true) (statementWith levels (statement levels))

/-! ## Declarations -/

/-- `=> expression` -/
def arrowClause : ArenaParser Nat := do
  let arrow ← advance
  group .arrowExpressionClause [arrow, ← expression maxParseDepth]

/-- `{ ... }`, `=> expression;` or a bare `;`. -/
def body : ArenaParser (List Nat) := do
  let s ← lift get
  if s.kind = .openBrace then return [← block (statement maxParseDepth)]
  else if s.kind = .equalsGreaterThan then
    let clause ← arrowClause
    return [clause, ← expect .semicolon]
  else
    return [← expect .semicolon]

/-- `type name [= value]` -/
def parameter : ArenaParser Nat := do
  let declared ← type
  let name ← expect .identifier
  let value ←
    if ← lift (sees .equals) then do pure [← equalsValue maxParseDepth] else pure []
  group .parameter (declared :: name :: value)

def parameterList : ArenaParser Nat := do
  let opening ← expect .openParen
  let parameters ← collect do
    if startsType (← lift get) then
      let p ← parameter
      let comma ← accept .comma
      return (p :: comma, !comma.isEmpty)
    else
      return ([], false)
  group .parameterList (opening :: parameters ++ [← expect .closeParen])

/-- `{ get; set { ... } init => expression; }` -/
def accessorList : ArenaParser Nat := do
  let opening ← advance
  let accessors ← collectWhile (fun s => s.kind == .identifier || s.kind.isModifier) do
    let words ← modifiers
    let name ← expect .identifier
    let rest ← body
    return [← group .accessorDeclaration (words ++ name :: rest)]
  group .accessorList (opening :: accessors ++ [← expect .closeBrace])

/-- What follows the modifiers, the type and the name of a member. -/
def memberTail (before : List Nat) (name : Nat) : ArenaParser Nat := do
  let s ← lift get
  if s.kind = .openParen then
    let parameters ← parameterList
    group .methodDeclaration (before ++ name :: parameters :: (← body))
  else if s.kind = .openBrace then
    let accessors ← accessorList
    if ← lift (sees .equals) then
      let value ← equalsValue maxParseDepth
      group .propertyDeclaration (before ++ [name, accessors, value, ← expect .semicolon])
    else
      group .propertyDeclaration (before ++ [name, accessors])
  else if s.kind = .equalsGreaterThan then
    let clause ← arrowClause
    group .propertyDeclaration (before ++ [name, clause, ← expect .semicolon])
  else
    let first ← declarator maxParseDepth name
    let others ← moreDeclarators maxParseDepth
    group .fieldDeclaration (before ++ first :: others ++ [← expect .semicolon])

/-- A member of a type; `nested` parses a type declaration behind its modifiers. -/
def member (nested : List Nat → ArenaParser Nat) : ArenaParser Nat := do
  let words ← modifiers
  let s ← lift get
  if s.kind = .classKeyword ∨ s.kind = .structKeyword then
    nested words
  else if s.kind = .identifier ∧ s.nextKind = .openParen then
    let name ← advance
    let parameters ← parameterList
    group .constructorDeclaration (words ++ name :: parameters :: (← body))
  else if startsType s then
    let declared ← type
    let name ← expect .identifier
    memberTail (words ++ [declared]) name
  else
    group .errorNode (words ++ [← expect .identifier])

/-- `: type, type` -/
def baseList : ArenaParser (List Nat) := do
  if ← lift (sees .colon) then
    let colon ← advance
    return colon :: (← commaSeparated do return [← type])
  else
    return []

/-- A class or struct behind the modifiers `words`. -/
def typeDeclarationWith (nested : List Nat → ArenaParser Nat) (words : List Nat) :
    ArenaParser Nat := do
  let kind : Kind :=
    if (← lift get).kind = .structKeyword then .structDeclaration else .classDeclaration
  let keyword ← advance
  let name ← expect .identifier
  let bases ← baseList
  let opening ← expect .openBrace
  let members ← collectWhile (fun s => !endsList s) (element .invalidMemberToken do
    if startsMember (← lift get).kind then member nested else skip .invalidMemberToken)
  group kind
    (words ++ keyword :: name :: bases ++ opening :: members ++ [← expect .closeBrace])

/-- A class or struct in which types nest at most `depth` deep. -/
def typeDeclarationNested : Nat → List Nat → ArenaParser Nat
  | 0 => fun words => do
    lift (Parser.complain .invalidMemberToken)
    group .errorNode (words ++ [← advance])
  | depth + 1 => fun words => typeDeclarationWith (typeDeclarationNested depth) words

/-- A class or struct behind its modifiers. -/
def typeDeclaration : ArenaParser Nat := do
  let words ← modifiers
  typeDeclarationNested (← lift get).rest.length words

/-- `using [static] [alias =] name;` -/
def usingDirective : ArenaParser Nat := do
  let keyword ← advance
  let static ← accept .staticKeyword
  let s ← lift get
  let shortName ←
    if s.kind = .identifier ∧ s.nextKind = .equals then do
      let name ← advance
      pure [name, ← advance]
    else pure []
  let target ← type
  group .usingDirective (keyword :: static ++ shortName ++ [target, ← expect .semicolon])

/-- A member of a namespace; `nested` parses a namespace in it. -/
def namespaceMember (nested : ArenaParser Nat) : ArenaParser Nat := do
  let s ← lift get
  if s.kind = .usingKeyword then usingDirective
  else if s.kind = .namespaceKeyword then nested
  else if typeDeclarationAhead s then typeDeclaration
  else skip .namespaceMemberExpected

/-- `namespace name { ... }`, or `namespace name;` for the rest of the file. -/
def namespaceWith (nested : ArenaParser Nat) : ArenaParser Nat := do
  let keyword ← advance
  let name ← type
  let item := element .namespaceMemberExpected (namespaceMember nested)
  if ← lift (sees .semicolon) then
    let semicolon ← advance
    let items ← collectWhile (fun s => s.kind != .endOfFile) item
    group .namespaceDeclaration (keyword :: name :: semicolon :: items)
  else
    let opening ← expect .openBrace
    let items ← collectWhile (fun s => !endsList s) item
    group .namespaceDeclaration
      (keyword :: name :: opening :: items ++ [← expect .closeBrace])

/-- A namespace in which namespaces nest at most `depth` deep. -/
def namespaceNested : Nat → ArenaParser Nat
  | 0 => fun s => skip .namespaceMemberExpected s
  | depth + 1 => fun s => namespaceWith (namespaceNested depth) s

/-- A namespace. -/
def namespaceDeclaration : ArenaParser Nat := do
  namespaceNested (← lift get).rest.length

/-- A directive, declaration or statement at the top of a file. -/
def topLevelItem : ArenaParser Nat := do
  let s ← lift get
  if s.kind = .usingKeyword then usingDirective
  else if s.kind = .namespaceKeyword then namespaceDeclaration
  else if typeDeclarationAhead s then typeDeclaration
  else if startsStatement s.kind then statement maxParseDepth
  else skip .namespaceMemberExpected

/-- A whole file. -/
def compilationUnit : ArenaParser Nat := do
  let items ← collectWhile (fun s => s.kind != .endOfFile)
    (element .namespaceMemberExpected topLevelItem)
  group .compilationUnit (items ++ [← advance])

end NullLint.ArenaParser
