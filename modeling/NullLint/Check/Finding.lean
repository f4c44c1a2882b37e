import NullLint.Check.Rule
import NullLint.Text.Span

/-!
# Findings
-/

namespace NullLint

/-- The operators that guard against null. -/
inductive NullOperator where
  | conditionalAccess
  | nullAssertion
  deriving DecidableEq, Repr

def NullOperator.label : NullOperator → String
  | .conditionalAccess => "ConditionalAccess"
  | .nullAssertion => "NullAssertion"

/-- The operator as messages write it. -/
def NullOperator.text : NullOperator → String
  | .conditionalAccess => "?."
  | .nullAssertion => "!."

/-- Why an operand is not null. -/
inductive Reason where
  /-- It has a value type. -/
  | valueType
  /-- Its null state says so. -/
  | flow
  /-- Its scope assigns it on every path. -/
  | localAssignment
  deriving DecidableEq, Repr

def Reason.label : Reason → String
  | .valueType => "ValueType"
  | .flow => "FlowNotNull"
  | .localAssignment => "LocalDefiniteAssignment"

/-- A null operator that is not needed. -/
structure Finding where
  ruleId : String
  operator : NullOperator
  /-- Number of the operator expression. -/
  node : Nat
  /-- Number of its operand. -/
  operand : Nat
  /-- What is reported to the user. -/
  span : Span
  operatorSpan : Span
  reason : Reason
  deriving DecidableEq, Repr

/-- The finding as a diagnostic of a file. -/
def Finding.toDiagnostic (file : String) (rule : Rule) (f : Finding) : Diagnostic :=
  ⟨file, f.span.start, f.span.length, rule.message f.operator.text, rule.severity, rule.id⟩

end NullLint
