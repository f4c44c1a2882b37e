import NullLint.Text.Blank
import NullLint.Text.Template

/-!
# Diagnostics

What is told to the user about a file: a severity, a span, a message and a code. Syntax errors
carry the codes and the wording of the C# compiler.
-/

namespace NullLint

/-- How serious a diagnostic is. -/
inductive Severity where
  | warning
  | error
  | suggestion
  | message
  deriving DecidableEq, Repr, Inhabited

namespace Severity

/-- The word for a severity in reports and settings. -/
def label : Severity → String
  | .warning => "warning"
  | .error => "error"
  | .suggestion => "suggestion"
  | .message => "message"

/-- The number of a severity. -/
def number : Severity → Nat
  | .warning => 0
  | .error => 1
  | .suggestion => 2
  | .message => 3

/-- Reads a severity as written in settings, in any case and with blanks around it. -/
def ofLabel? (s : String) : Option Severity :=
  match Text.fold s with
  | "warning" | "warn" => some .warning
  | "error" => some .error
  | "suggestion" | "info" | "hint" => some .suggestion
  | "message" => some .message
  | _ => none

end Severity

/-- A message about `length` bytes of a file. -/
structure Diagnostic where
  file : String
  start : Nat
  length : Nat
  message : String
  severity : Severity
  code : String
  deriving DecidableEq, Repr

namespace Diagnostic

/-- The offset just past the reported span. -/
def stop (d : Diagnostic) : Nat := d.start + d.length

end Diagnostic

/-- Ways in which a source text can break the grammar. -/
inductive ErrorCode where
  | identifierExpected
  | semicolonExpected
  | tokenExpected
  | newlineInConstant
  | namespaceMemberExpected
  | closeParenExpected
  | endOfFileInComment
  | closeBraceExpected
  | openBraceExpected
  | invalidMemberToken
  | invalidExpressionTerm
  | unexpectedCharacter
  | tooDeeplyNested
  deriving DecidableEq, Repr

namespace ErrorCode

/-- Every code. -/
def all : List ErrorCode :=
  [.identifierExpected, .semicolonExpected, .tokenExpected, .newlineInConstant,
    .namespaceMemberExpected, .closeParenExpected, .endOfFileInComment, .closeBraceExpected,
    .openBraceExpected, .invalidMemberToken, .invalidExpressionTerm, .unexpectedCharacter,
    .tooDeeplyNested]

/-- The number under which the compiler documents the error. -/
def id : ErrorCode → String
  | .identifierExpected => "CS1001"
  | .semicolonExpected => "CS1002"
  | .tokenExpected => "CS1003"
  | .newlineInConstant => "CS1010"
  | .namespaceMemberExpected => "CS1022"
  | .closeParenExpected => "CS1026"
  | .endOfFileInComment => "CS1035"
  | .closeBraceExpected => "CS1513"
  | .openBraceExpected => "CS1514"
  | .invalidMemberToken => "CS1519"
  | .invalidExpressionTerm => "CS1525"
  | .unexpectedCharacter => "CS1056"
  | .tooDeeplyNested => "CS8078"

/-- The wording, with a place for the offending text. -/
def template : ErrorCode → String
  | .identifierExpected => "Identifier expected"
  | .semicolonExpected => "; expected"
  | .tokenExpected => "Syntax error, '\x7b0\x7d' expected"
  | .newlineInConstant => "Newline in constant"
  | .namespaceMemberExpected => "Type or namespace definition, or end-of-file expected"
  | .closeParenExpected => ") expected"
  | .endOfFileInComment => "End-of-file found, '*/' expected"
  | .closeBraceExpected => "\x7d expected"
  | .openBraceExpected => "\x7b expected"
  | .invalidMemberToken =>
    "Invalid token '\x7b0\x7d' in class, record, struct, or interface member declaration"
  | .invalidExpressionTerm => "Invalid expression term '\x7b0\x7d'"
  | .unexpectedCharacter => "Unexpected character '\x7b0\x7d'"
  | .tooDeeplyNested => "An expression is too long or complex to compile"

/-- The code documented under a number. -/
def ofId? (s : String) : Option ErrorCode :=
  all.find? fun c => c.id == s

theorem mem_all (c : ErrorCode) : c ∈ all := by
  cases c <;> decide

end ErrorCode

/-- An error found while reading a source text. -/
structure SyntaxError where
  start : Nat
  length : Nat
  code : ErrorCode
  args : List String := []
  deriving DecidableEq, Repr

namespace SyntaxError

/-- The text shown for the error. -/
def message (e : SyntaxError) : String := Text.fill e.code.template e.args

/-- The error as a diagnostic of a file. -/
def toDiagnostic (file : String) (e : SyntaxError) : Diagnostic :=
  ⟨file, e.start, e.length, e.message, .error, e.code.id⟩

end SyntaxError

end NullLint
