import NullLint.Syntax.Token

/-!
# Labels of kinds

The names under which kinds are shown and looked up. Marks and the end of the file end in
`Token`, words in `Keyword`.
-/

namespace NullLint.Kind

/-- The name of a kind. -/
def label : Kind → String
  | .unknown => "Unknown"
  | .endOfFile => "EndOfFileToken"
  | .identifier => "Identifier"
  | .numericLiteral => "NumericLiteral"
  | .stringLiteral => "StringLiteral"
  | .characterLiteral => "CharacterLiteral"
  | .openBrace => "OpenBraceToken"
  | .closeBrace => "CloseBraceToken"
  | .openParen => "OpenParenToken"
  | .closeParen => "CloseParenToken"
  | .openBracket => "OpenBracketToken"
  | .closeBracket => "CloseBracketToken"
  | .semicolon => "SemicolonToken"
  | .comma => "CommaToken"
  | .dot => "DotToken"
  | .colon => "ColonToken"
  | .question => "QuestionToken"
  | .questionQuestion => "QuestionQuestionToken"
  | .exclamation => "ExclamationToken"
  | .exclamationEquals => "ExclamationEqualsToken"
  | .equals => "EqualsToken"
  | .equalsEquals => "EqualsEqualsToken"
  | .equalsGreaterThan => "EqualsGreaterThanToken"
  | .lessThan => "LessThanToken"
  | .lessThanEquals => "LessThanEqualsToken"
  | .greaterThan => "GreaterThanToken"
  | .greaterThanEquals => "GreaterThanEqualsToken"
  | .plus => "PlusToken"
  | .plusPlus => "PlusPlusToken"
  | .minus => "MinusToken"
  | .minusMinus => "MinusMinusToken"
  | .asterisk => "AsteriskToken"
  | .slash => "SlashToken"
  | .percent => "PercentToken"
  | .ampersandAmpersand => "AmpersandAmpersandToken"
  | .barBar => "BarBarToken"
  | .usingKeyword => "UsingKeyword"
  | .namespaceKeyword => "NamespaceKeyword"
  | .classKeyword => "ClassKeyword"
  | .structKeyword => "StructKeyword"
  | .publicKeyword => "PublicKeyword"
  | .privateKeyword => "PrivateKeyword"
  | .protectedKeyword => "ProtectedKeyword"
  | .internalKeyword => "InternalKeyword"
  | .staticKeyword => "StaticKeyword"
  | .readonlyKeyword => "ReadonlyKeyword"
  | .ifKeyword => "IfKeyword"
  | .elseKeyword => "ElseKeyword"
  | .whileKeyword => "WhileKeyword"
  | .returnKeyword => "ReturnKeyword"
  | .throwKeyword => "ThrowKeyword"
  | .newKeyword => "NewKeyword"
  | .nullKeyword => "NullKeyword"
  | .trueKeyword => "TrueKeyword"
  | .falseKeyword => "FalseKeyword"
  | .thisKeyword => "ThisKeyword"
  | .varKeyword => "VarKeyword"
  | .compilationUnit => "CompilationUnit"
  | .usingDirective => "UsingDirective"
  | .namespaceDeclaration => "NamespaceDeclaration"
  | .classDeclaration => "ClassDeclaration"
  | .structDeclaration => "StructDeclaration"
  | .fieldDeclaration => "FieldDeclaration"
  | .propertyDeclaration => "PropertyDeclaration"
  | .accessorList => "AccessorList"
  | .accessorDeclaration => "AccessorDeclaration"
  | .arrowExpressionClause => "ArrowExpressionClause"
  | .methodDeclaration => "MethodDeclaration"
  | .constructorDeclaration => "ConstructorDeclaration"
  | .parameterList => "ParameterList"
  | .parameter => "Parameter"
  | .predefinedOrNamedType => "PredefinedOrNamedType"
  | .qualifiedName => "QualifiedName"
  | .genericName => "GenericName"
  | .typeArgumentList => "TypeArgumentList"
  | .nullableType => "NullableType"
  | .arrayType => "ArrayType"
  | .block => "Block"
  | .localDeclarationStatement => "LocalDeclarationStatement"
  | .variableDeclarator => "VariableDeclarator"
  | .equalsValueClause => "EqualsValueClause"
  | .expressionStatement => "ExpressionStatement"
  | .ifStatement => "IfStatement"
  | .elseClause => "ElseClause"
  | .whileStatement => "WhileStatement"
  | .returnStatement => "ReturnStatement"
  | .throwStatement => "ThrowStatement"
  | .emptyStatement => "EmptyStatement"
  | .identifierName => "IdentifierName"
  | .literalExpression => "LiteralExpression"
  | .thisExpression => "ThisExpression"
  | .parenthesizedExpression => "ParenthesizedExpression"
  | .memberAccessExpression => "MemberAccessExpression"
  | .conditionalAccessExpression => "ConditionalAccessExpression"
  | .suppressNullableWarningExpression => "SuppressNullableWarningExpression"
  | .invocationExpression => "InvocationExpression"
  | .elementAccessExpression => "ElementAccessExpression"
  | .argumentList => "ArgumentList"
  | .bracketedArgumentList => "BracketedArgumentList"
  | .objectCreationExpression => "ObjectCreationExpression"
  | .prefixUnaryExpression => "PrefixUnaryExpression"
  | .postfixUnaryExpression => "PostfixUnaryExpression"
  | .binaryExpression => "BinaryExpression"
  | .assignmentExpression => "AssignmentExpression"
  | .errorNode => "ErrorNode"

/-- Every kind. -/
def all : List Kind :=
  [.unknown, .endOfFile, .identifier, .numericLiteral, .stringLiteral, .characterLiteral,
    .openBrace, .closeBrace, .openParen, .closeParen, .openBracket, .closeBracket, .semicolon,
    .comma, .dot, .colon, .question, .questionQuestion, .exclamation, .exclamationEquals, .equals,
    .equalsEquals, .equalsGreaterThan, .lessThan, .lessThanEquals, .greaterThan,
    .greaterThanEquals, .plus, .plusPlus, .minus, .minusMinus, .asterisk, .slash, .percent,
    .ampersandAmpersand, .barBar, .usingKeyword, .namespaceKeyword, .classKeyword, .structKeyword,
    .publicKeyword, .privateKeyword, .protectedKeyword, .internalKeyword, .staticKeyword,
    .readonlyKeyword, .ifKeyword, .elseKeyword, .whileKeyword, .returnKeyword, .throwKeyword,
    .newKeyword, .nullKeyword, .trueKeyword, .falseKeyword, .thisKeyword, .varKeyword,
    .compilationUnit, .usingDirective, .namespaceDeclaration, .classDeclaration,
    .structDeclaration, .fieldDeclaration, .propertyDeclaration, .accessorList,
    .accessorDeclaration, .arrowExpressionClause, .methodDeclaration, .constructorDeclaration,
    .parameterList, .parameter, .predefinedOrNamedType, .qualifiedName, .genericName,
    .typeArgumentList, .nullableType, .arrayType, .block, .localDeclarationStatement,
    .variableDeclarator, .equalsValueClause, .expressionStatement, .ifStatement, .elseClause,
    .whileStatement, .returnStatement, .throwStatement, .emptyStatement, .identifierName,
    .literalExpression, .thisExpression, .parenthesizedExpression, .memberAccessExpression,
    .conditionalAccessExpression, .suppressNullableWarningExpression, .invocationExpression,
    .elementAccessExpression, .argumentList, .bracketedArgumentList, .objectCreationExpression,
    .prefixUnaryExpression, .postfixUnaryExpression, .binaryExpression, .assignmentExpression,
    .errorNode]

theorem mem_all (k : Kind) : k ∈ all := by
  cases k <;> decide

/-- The kind with a given name. -/
def ofLabel? (s : String) : Option Kind := all.find? fun k => k.label == s

end NullLint.Kind

namespace NullLint.TriviaKind

/-- The name of a kind of trivia. -/
def label : TriviaKind → String
  | .whitespace => "Whitespace"
  | .endOfLine => "EndOfLine"
  | .lineComment => "SingleLineComment"
  | .blockComment => "MultiLineComment"
  | .directive => "Directive"

/-- Every kind of trivia. -/
def all : List TriviaKind := [.whitespace, .endOfLine, .lineComment, .blockComment, .directive]

/-- The kind of trivia with a given name. -/
def ofLabel? (s : String) : Option TriviaKind := all.find? fun k => k.label == s

end NullLint.TriviaKind
