import NullLint.Diagnostic

/-!
# Rules
-/

namespace NullLint

/-- What a rule reports and how; severity and enablement come from the settings of a run. -/
structure Rule where
  id : String
  title : String
  messageFormat : String
  description : String
  category : String
  severity : Severity
  enabled : Bool
  deriving DecidableEq, Repr

namespace Rule

/-- The rule against null operators on operands that are never null. -/
def redundantOperator : Rule where
  id := "NULLABLE0001"
  title := "Unnecessary null-conditional or null-forgiving operator"
  messageFormat := "Unnecessary use of the '\x7b0\x7d' operator"
  description :=
    "The operand is already known to be non-null here, so the '?.' or '!' operator is redundant."
  category := "Usage"
  severity := .error
  enabled := true

/-- The text reported for an operator. -/
def message (r : Rule) (operator : String) : String := Text.fill r.messageFormat [operator]

end Rule

end NullLint
