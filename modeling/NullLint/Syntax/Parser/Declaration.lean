import NullLint.Syntax.Parser.Statement

/-!
# Parsing declarations

Types and namespaces may nest as deep as there are tokens; every level reads at least its
keyword, so the number of lexemes ahead bounds the depth.
-/

namespace NullLint.Parser

open Lookahead

/-- `=> expression` -/
def arrowClause : Parser Green := do
  let arrow ← advance
  return .group .arrowExpressionClause [arrow, ← expression maxParseDepth]

/-- `{ ... }`, `=> expression;` or a bare `;`. -/
def body : Parser (List Green) := do
  match (← get).kind with
  | .openBrace => return [← block (statement maxParseDepth)]
  | .equalsGreaterThan =>
    let clause ← arrowClause
    return [clause, ← expect .semicolon]
  | _ => return [← expect .semicolon]

/-- Whether a type can begin here. -/
def startsType (s : ParseState) : Bool := s.kind == .identifier || s.kind == .varKeyword

/-- `type name [= value]` -/
def parameter : Parser Green := do
  let declared ← type
  let name ← expect .identifier
  let value ←
    if ← sees .equals then do pure [← equalsValue maxParseDepth] else pure []
  return .group .parameter (declared :: name :: value)

def parameterList : Parser Green := do
  let opening ← expect .openParen
  let parameters ← collect do
    if startsType (← get) then
      let p ← parameter
      let comma ← accept .comma
      return (p :: comma, !comma.isEmpty)
    else
      return ([], false)
  return .group .parameterList (opening :: parameters ++ [← expect .closeParen])

/-- `{ get; set { ... } init => expression; }` -/
def accessorList : Parser Green := do
  let opening ← advance
  let accessors ← collectWhile (fun s => s.kind == .identifier || s.kind.isModifier) do
    let words ← modifiers
    let name ← expect .identifier
    return [.group .accessorDeclaration (words ++ name :: (← body))]
  return .group .accessorList (opening :: accessors ++ [← expect .closeBrace])

/-- What follows the modifiers, the type and the name of a member. -/
def memberTail (before : List Green) (name : Green) : Parser Green := do
  match (← get).kind with
  | .openParen =>
    let parameters ← parameterList
    return .group .methodDeclaration (before ++ name :: parameters :: (← body))
  | .openBrace =>
    let accessors ← accessorList
    if ← sees .equals then
      let value ← equalsValue maxParseDepth
      return .group .propertyDeclaration
        (before ++ [name, accessors, value, ← expect .semicolon])
    else
      return .group .propertyDeclaration (before ++ [name, accessors])
  | .equalsGreaterThan =>
    let clause ← arrowClause
    return .group .propertyDeclaration (before ++ [name, clause, ← expect .semicolon])
  | _ =>
    let first ← declarator maxParseDepth name
    let others ← moreDeclarators maxParseDepth
    return .group .fieldDeclaration (before ++ first :: others ++ [← expect .semicolon])

/-- A member of a type; `nested` parses a type declaration behind its modifiers. -/
def member (nested : List Green → Parser Green) : Parser Green := do
  let words ← modifiers
  let s ← get
  if s.kind = .classKeyword ∨ s.kind = .structKeyword then
    nested words
  else if s.kind = .identifier ∧ s.nextKind = .openParen then
    let name ← advance
    let parameters ← parameterList
    return .group .constructorDeclaration (words ++ name :: parameters :: (← body))
  else if startsType s then
    let declared ← type
    let name ← expect .identifier
    memberTail (words ++ [declared]) name
  else
    return .group .errorNode (words ++ [← expect .identifier])

/-- `: type, type` -/
def baseList : Parser (List Green) := do
  if ← sees .colon then
    let colon ← advance
    return colon :: (← commaSeparated do return [← type])
  else
    return []

/-- A class or struct behind the modifiers `words`. -/
def typeDeclarationWith (nested : List Green → Parser Green) (words : List Green) :
    Parser Green := do
  let kind : Kind :=
    if (← get).kind = .structKeyword then .structDeclaration else .classDeclaration
  let keyword ← advance
  let name ← expect .identifier
  let bases ← baseList
  let opening ← expect .openBrace
  let members ← collectWhile (fun s => !endsList s) (element .invalidMemberToken do
    if startsMember (← get).kind then member nested else skip .invalidMemberToken)
  return .group kind
    (words ++ keyword :: name :: bases ++ opening :: members ++ [← expect .closeBrace])

/-- A class or struct in which types nest at most `depth` deep. -/
def typeDeclarationNested : Nat → List Green → Parser Green
  | 0 => fun words => do
    complain .invalidMemberToken
    return .group .errorNode (words ++ [← advance])
  | depth + 1 => fun words => typeDeclarationWith (typeDeclarationNested depth) words

/-- A class or struct behind its modifiers. -/
def typeDeclaration : Parser Green := do
  let words ← modifiers
  typeDeclarationNested (← get).rest.length words

/-- `using [static] [alias =] name;` -/
def usingDirective : Parser Green := do
  let keyword ← advance
  let static ← accept .staticKeyword
  let s ← get
  let shortName ←
    if s.kind = .identifier ∧ s.nextKind = .equals then do
      let name ← advance
      pure [name, ← advance]
    else pure []
  let target ← type
  return .group .usingDirective
    (keyword :: static ++ shortName ++ [target, ← expect .semicolon])

/-- A member of a namespace; `nested` parses a namespace in it. -/
def namespaceMember (nested : Parser Green) : Parser Green := do
  let s ← get
  match s.kind with
  | .usingKeyword => usingDirective
  | .namespaceKeyword => nested
  | _ =>
    if typeDeclarationAhead s then typeDeclaration else skip .namespaceMemberExpected

/-- `namespace name { ... }`, or `namespace name;` for the rest of the file. -/
def namespaceWith (nested : Parser Green) : Parser Green := do
  let keyword ← advance
  let name ← type
  let item := element .namespaceMemberExpected (namespaceMember nested)
  if ← sees .semicolon then
    let semicolon ← advance
    let items ← collectWhile (fun s => s.kind != .endOfFile) item
    return .group .namespaceDeclaration (keyword :: name :: semicolon :: items)
  else
    let opening ← expect .openBrace
    let items ← collectWhile (fun s => !endsList s) item
    return .group .namespaceDeclaration
      (keyword :: name :: opening :: items ++ [← expect .closeBrace])

/-- A namespace in which namespaces nest at most `depth` deep. -/
def namespaceNested : Nat → Parser Green
  | 0 => fun s => skip .namespaceMemberExpected s
  | depth + 1 => fun s => namespaceWith (namespaceNested depth) s

/-- A namespace. -/
def namespaceDeclaration : Parser Green := do
  namespaceNested (← get).rest.length

/-- A directive, declaration or statement at the top of a file. -/
def topLevelItem : Parser Green := do
  let s ← get
  match s.kind with
  | .usingKeyword => usingDirective
  | .namespaceKeyword => namespaceDeclaration
  | k =>
    if typeDeclarationAhead s then typeDeclaration
    else if startsStatement k then statement maxParseDepth
    else skip .namespaceMemberExpected

/-- A whole file. -/
def compilationUnit : Parser Green := do
  let items ← collectWhile (fun s => s.kind != .endOfFile)
    (element .namespaceMemberExpected topLevelItem)
  return .group .compilationUnit (items ++ [← advance])

end NullLint.Parser
