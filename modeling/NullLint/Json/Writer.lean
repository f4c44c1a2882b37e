import NullLint.Json.Value

/-!
# Writing JSON

Values are written over several lines, two blanks deeper with each level; an empty array or
object stays on one line.
-/

namespace NullLint.JsonValue

/-- A hexadecimal digit, in lower case. -/
def hexDigit (n : Nat) : Char := Nat.digitChar (n % 16)

/-- A character inside quotes: quotes, backslashes and control characters are escaped. -/
def escapeChar (c : Char) : List Char :=
  match c with
  | '"' => ['\\', '"']
  | '\\' => ['\\', '\\']
  | '\n' => ['\\', 'n']
  | '\r' => ['\\', 'r']
  | '\t' => ['\\', 't']
  | '\x08' => ['\\', 'b']
  | '\x0c' => ['\\', 'f']
  | c =>
    if c.toNat < 0x20 then ['\\', 'u', '0', '0', hexDigit (c.toNat / 16), hexDigit c.toNat]
    else [c]

/-- A string in quotes. -/
def quote (s : String) : String :=
  String.ofList ('"' :: s.toList.flatMap escapeChar ++ ['"'])

/-- A line break and the blanks of a level. -/
def lineBreak (level : Nat) : String := "\n" ++ String.ofList (List.replicate (2 * level) ' ')

mutual

/-- Writes a value that stands at a level. -/
def writeAt (level : Nat) : JsonValue String → String
  | .null => "null"
  | .bool b => if b then "true" else "false"
  | .number digits => digits
  | .string s => quote s
  | .array [] => "[]"
  | .array (item :: items) =>
    "[" ++ lineBreak (level + 1) ++ writeAt (level + 1) item ++ writeItems (level + 1) items ++
      lineBreak level ++ "]"
  | .object [] => "\x7b\x7d"
  | .object ((key, value) :: members) =>
    "\x7b" ++ lineBreak (level + 1) ++ quote key ++ ": " ++ writeAt (level + 1) value ++
      writeMembers (level + 1) members ++ lineBreak level ++ "\x7d"

/-- Writes the items after the first. -/
def writeItems (level : Nat) : List (JsonValue String) → String
  | [] => ""
  | item :: items => "," ++ lineBreak level ++ writeAt level item ++ writeItems level items

/-- Writes the members after the first. -/
def writeMembers (level : Nat) : List (String × JsonValue String) → String
  | [] => ""
  | (key, value) :: members =>
    "," ++ lineBreak level ++ quote key ++ ": " ++ writeAt level value ++
      writeMembers level members

end

/-- The text of a value. -/
def write (v : JsonValue String) : String := v.writeAt 0

end NullLint.JsonValue
