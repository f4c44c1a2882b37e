import NullLint.Text.Blank

/-!
# Log formats
-/

namespace NullLint

/-- How log lines are written. -/
inductive LogFormat where
  | text
  | tree
  | json
  deriving DecidableEq, Repr, Inhabited

/-- Reads a log format in any case and with blanks around it; any other word means text. -/
def LogFormat.ofSetting (value : String) : LogFormat :=
  match Text.fold value with
  | "tree" => .tree
  | "json" => .json
  | _ => .text

end NullLint
