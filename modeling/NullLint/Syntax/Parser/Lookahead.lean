import NullLint.Syntax.Parser.Basic

/-!
# Lookahead

Questions about the tokens ahead that read nothing.
-/

namespace NullLint.Lookahead

/-- The lexemes after a simple type: `var`, a name, or a name with type arguments. `arguments?`
tells what comes after the `<` of an argument list and its arguments. -/
def simpleTypeEnd? (arguments? : List Lexeme → Option (List Lexeme)) (ls : List Lexeme) :
    Option (List Lexeme) :=
  match ls with
  | l :: rest =>
    if l.kind = .varKeyword then some rest
    else if l.kind = .identifier then
      if kindAhead rest = .lessThan then some ((arguments? (rest.drop 1)).getD rest)
      else some rest
    else none
  | [] => none

/-- The lexemes after any number of `.name` parts. -/
def dottedEnd? (simple? : List Lexeme → Option (List Lexeme)) (ls : List Lexeme) :
    Option (List Lexeme) :=
  if kindAhead ls = .dot ∧ kindAhead (ls.drop 1) = .identifier then
    match simple? (ls.drop 1) with
    | none => none
    | some rest =>
      if _h : rest.length < ls.length then dottedEnd? simple? rest else some rest
  else
    some ls
termination_by ls.length

/-- The lexemes after any number of `?` and `[]`. -/
def suffixEnd : List Lexeme → List Lexeme
  | [] => []
  | [l] => if l.kind = .question then [] else [l]
  | l :: m :: rest =>
    if l.kind = .question then suffixEnd (m :: rest)
    else if l.kind = .openBracket ∧ m.kind = .closeBracket then suffixEnd rest
    else l :: m :: rest

/-- The lexemes after types with commas between them and the closing `>`. -/
def argumentsEnd? (type? : List Lexeme → Option (List Lexeme)) (ls : List Lexeme) :
    Option (List Lexeme) :=
  match type? ls with
  | none => none
  | some rest =>
    if kindAhead rest = .comma then
      if _h : (rest.drop 1).length < ls.length then argumentsEnd? type? (rest.drop 1) else none
    else if kindAhead rest = .greaterThan then some (rest.drop 1)
    else none
termination_by ls.length
decreasing_by simpa using _h

/-- The lexemes after a type whose argument lists nest less than `depth` deep. -/
def typeEnd? : Nat → List Lexeme → Option (List Lexeme)
  | 0, _ => none
  | depth + 1, ls =>
    let simple? := simpleTypeEnd? (argumentsEnd? (typeEnd? depth))
    ((simple? ls).bind (dottedEnd? simple?)).map suffixEnd

/-- Whether the current `<` opens a list of type arguments. -/
def typeArgumentsAhead (s : ParseState) : Bool :=
  s.kind == .lessThan &&
    (argumentsEnd? (typeEnd? (maxParseDepth + 1)) (s.rest.drop 1)).isSome

/-- Whether `type name` followed by `=`, `;` or `,` stands ahead. -/
def declarationAhead (s : ParseState) : Bool :=
  match typeEnd? (maxParseDepth + 1) s.rest with
  | none => false
  | some rest =>
    let after := kindAhead (rest.drop 1)
    kindAhead rest == .identifier &&
      (after == .equals || after == .semicolon || after == .comma)

/-- Whether a class or struct declaration stands ahead, behind any modifiers. -/
def typeDeclarationAhead (s : ParseState) : Bool :=
  let k := kindAhead (s.rest.dropWhile fun l => l.kind.isModifier)
  k == .classKeyword || k == .structKeyword

/-- Whether a token can begin an expression. -/
def startsExpression (k : Kind) : Bool :=
  k.isLiteral ||
    match k with
    | .identifier | .thisKeyword | .openParen | .newKeyword | .exclamation | .minus | .plus
    | .plusPlus | .minusMinus => true
    | _ => false

/-- Whether a token can begin a statement. -/
def startsStatement (k : Kind) : Bool :=
  startsExpression k ||
    match k with
    | .openBrace | .semicolon | .ifKeyword | .whileKeyword | .returnKeyword | .throwKeyword
    | .varKeyword => true
    | _ => false

/-- Whether a token can begin a member of a type. -/
def startsMember (k : Kind) : Bool :=
  k.isModifier || k == .identifier || k == .classKeyword || k == .structKeyword

/-- Whether a `?` stands ahead with a `.` or `[` right behind it. -/
def conditionalAccessAhead (s : ParseState) : Bool :=
  match s.rest with
  | question :: next :: _ =>
    question.kind == .question && (next.kind == .dot || next.kind == .openBracket) &&
      question.token.trailing.isEmpty && next.token.leading.isEmpty
  | _ => false

end NullLint.Lookahead
