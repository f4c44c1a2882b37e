/-!
# Kinds

One name for every kind of token and of tree node. Tokens are the words, literals and marks of
the language; nodes are its phrases.
-/

namespace NullLint

/-- The kind of a token or of a tree node. -/
inductive Kind where
  | unknown
  | endOfFile
  | identifier
  | numericLiteral
  | stringLiteral
  | characterLiteral
  | openBrace
  | closeBrace
  | openParen
  | closeParen
  | openBracket
  | closeBracket
  | semicolon
  | comma
  | dot
  | colon
  | question
  | questionQuestion
  | exclamation
  | exclamationEquals
  | equals
  | equalsEquals
  | equalsGreaterThan
  | lessThan
  | lessThanEquals
  | greaterThan
  | greaterThanEquals
  | plus
  | plusPlus
  | minus
  | minusMinus
  | asterisk
  | slash
  | percent
  | ampersandAmpersand
  | barBar
  | usingKeyword
  | namespaceKeyword
  | classKeyword
  | structKeyword
  | publicKeyword
  | privateKeyword
  | protectedKeyword
  | internalKeyword
  | staticKeyword
  | readonlyKeyword
  | ifKeyword
  | elseKeyword
  | whileKeyword
  | returnKeyword
  | throwKeyword
  | newKeyword
  | nullKeyword
  | trueKeyword
  | falseKeyword
  | thisKeyword
  | varKeyword
  | compilationUnit
  | usingDirective
  | namespaceDeclaration
  | classDeclaration
  | structDeclaration
  | fieldDeclaration
  | propertyDeclaration
  | accessorList
  | accessorDeclaration
  | arrowExpressionClause
  | methodDeclaration
  | constructorDeclaration
  | parameterList
  | parameter
  | predefinedOrNamedType
  | qualifiedName
  | genericName
  | typeArgumentList
  | nullableType
  | arrayType
  | block
  | localDeclarationStatement
  | variableDeclarator
  | equalsValueClause
  | expressionStatement
  | ifStatement
  | elseClause
  | whileStatement
  | returnStatement
  | throwStatement
  | emptyStatement
  | identifierName
  | literalExpression
  | thisExpression
  | parenthesizedExpression
  | memberAccessExpression
  | conditionalAccessExpression
  | suppressNullableWarningExpression
  | invocationExpression
  | elementAccessExpression
  | argumentList
  | bracketedArgumentList
  | objectCreationExpression
  | prefixUnaryExpression
  | postfixUnaryExpression
  | binaryExpression
  | assignmentExpression
  | errorNode
  deriving DecidableEq, Repr, Inhabited

namespace Kind

/-- Kinds of tree nodes. -/
def isNode : Kind → Bool
  | .compilationUnit | .usingDirective | .namespaceDeclaration | .classDeclaration
  | .structDeclaration | .fieldDeclaration | .propertyDeclaration | .accessorList
  | .accessorDeclaration | .arrowExpressionClause | .methodDeclaration
  | .constructorDeclaration | .parameterList | .parameter | .predefinedOrNamedType
  | .qualifiedName | .genericName | .typeArgumentList | .nullableType | .arrayType
  | .block | .localDeclarationStatement | .variableDeclarator | .equalsValueClause
  | .expressionStatement | .ifStatement | .elseClause | .whileStatement | .returnStatement
  | .throwStatement | .emptyStatement | .identifierName | .literalExpression
  | .thisExpression | .parenthesizedExpression | .memberAccessExpression
  | .conditionalAccessExpression | .suppressNullableWarningExpression
  | .invocationExpression | .elementAccessExpression | .argumentList
  | .bracketedArgumentList | .objectCreationExpression | .prefixUnaryExpression
  | .postfixUnaryExpression | .binaryExpression | .assignmentExpression | .errorNode => true
  | _ => false

/-- Kinds of tokens. -/
def isToken (k : Kind) : Bool := !k.isNode

/-- Reserved words. -/
def isKeyword : Kind → Bool
  | .usingKeyword | .namespaceKeyword | .classKeyword | .structKeyword | .publicKeyword
  | .privateKeyword | .protectedKeyword | .internalKeyword | .staticKeyword
  | .readonlyKeyword | .ifKeyword | .elseKeyword | .whileKeyword | .returnKeyword
  | .throwKeyword | .newKeyword | .nullKeyword | .trueKeyword | .falseKeyword
  | .thisKeyword | .varKeyword => true
  | _ => false

/-- Tokens that are an expression on their own. -/
def isLiteral : Kind → Bool
  | .numericLiteral | .stringLiteral | .characterLiteral | .nullKeyword | .trueKeyword
  | .falseKeyword => true
  | _ => false

/-- Words that may stand before a declaration. -/
def isModifier : Kind → Bool
  | .publicKeyword | .privateKeyword | .protectedKeyword | .internalKeyword
  | .staticKeyword | .readonlyKeyword => true
  | _ => false

/-- Nodes that have a value. -/
def isExpression : Kind → Bool
  | .identifierName | .literalExpression | .thisExpression | .parenthesizedExpression
  | .memberAccessExpression | .conditionalAccessExpression
  | .suppressNullableWarningExpression | .invocationExpression | .elementAccessExpression
  | .objectCreationExpression | .prefixUnaryExpression | .postfixUnaryExpression
  | .binaryExpression | .assignmentExpression => true
  | _ => false

/-- Nodes that a block holds. -/
def isStatement : Kind → Bool
  | .block | .localDeclarationStatement | .expressionStatement | .ifStatement
  | .whileStatement | .returnStatement | .throwStatement | .emptyStatement => true
  | _ => false

/-- Nodes that name a type. -/
def isType : Kind → Bool
  | .predefinedOrNamedType | .qualifiedName | .genericName | .nullableType | .arrayType => true
  | _ => false

/-- The spelling of a mark or reserved word. -/
def text? : Kind → Option String
  | .openBrace => some "\x7b"
  | .closeBrace => some "\x7d"
  | .openParen => some "("
  | .closeParen => some ")"
  | .openBracket => some "["
  | .closeBracket => some "]"
  | .semicolon => some ";"
  | .comma => some ","
  | .dot => some "."
  | .colon => some ":"
  | .question => some "?"
  | .questionQuestion => some "??"
  | .exclamation => some "!"
  | .exclamationEquals => some "!="
  | .equals => some "="
  | .equalsEquals => some "=="
  | .equalsGreaterThan => some "=>"
  | .lessThan => some "<"
  | .lessThanEquals => some "<="
  | .greaterThan => some ">"
  | .greaterThanEquals => some ">="
  | .plus => some "+"
  | .plusPlus => some "++"
  | .minus => some "-"
  | .minusMinus => some "--"
  | .asterisk => some "*"
  | .slash => some "/"
  | .percent => some "%"
  | .ampersandAmpersand => some "&&"
  | .barBar => some "||"
  | .usingKeyword => some "using"
  | .namespaceKeyword => some "namespace"
  | .classKeyword => some "class"
  | .structKeyword => some "struct"
  | .publicKeyword => some "public"
  | .privateKeyword => some "private"
  | .protectedKeyword => some "protected"
  | .internalKeyword => some "internal"
  | .staticKeyword => some "static"
  | .readonlyKeyword => some "readonly"
  | .ifKeyword => some "if"
  | .elseKeyword => some "else"
  | .whileKeyword => some "while"
  | .returnKeyword => some "return"
  | .throwKeyword => some "throw"
  | .newKeyword => some "new"
  | .nullKeyword => some "null"
  | .trueKeyword => some "true"
  | .falseKeyword => some "false"
  | .thisKeyword => some "this"
  | .varKeyword => some "var"
  | _ => none

/-- The reserved word spelled `word`. -/
def ofKeyword? (word : String) : Option Kind :=
  match word with
  | "using" => some .usingKeyword
  | "namespace" => some .namespaceKeyword
  | "class" => some .classKeyword
  | "struct" => some .structKeyword
  | "public" => some .publicKeyword
  | "private" => some .privateKeyword
  | "protected" => some .protectedKeyword
  | "internal" => some .internalKeyword
  | "static" => some .staticKeyword
  | "readonly" => some .readonlyKeyword
  | "if" => some .ifKeyword
  | "else" => some .elseKeyword
  | "while" => some .whileKeyword
  | "return" => some .returnKeyword
  | "throw" => some .throwKeyword
  | "new" => some .newKeyword
  | "null" => some .nullKeyword
  | "true" => some .trueKeyword
  | "false" => some .falseKeyword
  | "this" => some .thisKeyword
  | "var" => some .varKeyword
  | _ => none

/-- How tightly a binary operator binds; zero for other tokens. -/
def precedence : Kind → Nat
  | .barBar => 1
  | .ampersandAmpersand => 2
  | .equalsEquals | .exclamationEquals => 3
  | .lessThan | .lessThanEquals | .greaterThan | .greaterThanEquals => 4
  | .plus | .minus => 5
  | .asterisk | .slash | .percent => 6
  | _ => 0

theorem isToken_eq_not_isNode (k : Kind) : k.isToken = !k.isNode := rfl

theorem isNode_of_isExpression {k : Kind} (h : k.isExpression = true) : k.isNode = true := by
  revert h
  cases k <;> decide

theorem isNode_of_isStatement {k : Kind} (h : k.isStatement = true) : k.isNode = true := by
  revert h
  cases k <;> decide

end Kind

end NullLint
