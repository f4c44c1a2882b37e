import NullLint.Json.Value

/-!
# Reading JSON

The grammar of the standard and nothing more: no comments, no trailing commas, no byte order
mark, blanks are only space, tab and line breaks.
-/

namespace NullLint.JsonValue

/-- A value as read. -/
abbrev Read := JsonValue (Option String)

namespace Reader

def isSpace (c : Char) : Bool := c == ' ' || c == '\n' || c == '\r' || c == '\t'

def skipSpace (cs : List Char) : List Char := cs.dropWhile isSpace

/-! ## Strings -/

/-- A part of a string: a character, or a UTF-16 unit written as an escape. -/
inductive Piece where
  | char (c : Char)
  | unit (n : Nat)

/-- The value of a hexadecimal digit. -/
def hexValue? (c : Char) : Option Nat :=
  if c.isDigit then some (c.toNat - '0'.toNat)
  else if 'a' ≤ c ∧ c ≤ 'f' then some (c.toNat - 'a'.toNat + 10)
  else if 'A' ≤ c ∧ c ≤ 'F' then some (c.toNat - 'A'.toNat + 10)
  else none

/-- What a backslash before a character stands for. -/
def escape? : Char → Option Char
  | '"' => some '"'
  | '\\' => some '\\'
  | '/' => some '/'
  | 'b' => some '\x08'
  | 'f' => some '\x0c'
  | 'n' => some '\n'
  | 'r' => some '\r'
  | 't' => some '\t'
  | _ => none

/-- The parts of a string up to its closing quote, and what follows. -/
def pieces : List Char → Option (List Piece × List Char)
  | [] => none
  | '"' :: rest => some ([], rest)
  | '\\' :: 'u' :: a :: b :: c :: d :: rest => do
    let n := ((← hexValue? a) * 16 + (← hexValue? b)) * 256 +
      (← hexValue? c) * 16 + (← hexValue? d)
    let (ps, rest) ← pieces rest
    return (.unit n :: ps, rest)
  | '\\' :: c :: rest => do
    let e ← escape? c
    let (ps, rest) ← pieces rest
    return (.char e :: ps, rest)
  | c :: rest =>
    if c.toNat < 0x20 ∨ c = '\\' then none
    else do
      let (ps, rest) ← pieces rest
      return (.char c :: ps, rest)

/-- Units that come first in a pair. -/
def isLeading (n : Nat) : Bool := 0xD800 ≤ n && n < 0xDC00

/-- Units that come second in a pair. -/
def isTrailing (n : Nat) : Bool := 0xDC00 ≤ n && n < 0xE000

/-- The characters of a string; none if half of a pair stands alone. -/
def joinPairs : List Piece → Option (List Char)
  | [] => some []
  | .char c :: ps => (joinPairs ps).map (c :: ·)
  | .unit n :: .unit m :: ps =>
    if isLeading n && isTrailing m then
      (joinPairs ps).map (Char.ofNat (0x10000 + (n - 0xD800) * 0x400 + (m - 0xDC00)) :: ·)
    else if isLeading n || isTrailing n then none
    else (joinPairs (.unit m :: ps)).map (Char.ofNat n :: ·)
  | .unit n :: ps =>
    if isLeading n || isTrailing n then none else (joinPairs ps).map (Char.ofNat n :: ·)

/-- Reads a string behind its opening quote. -/
def string (cs : List Char) : Option (Option String × List Char) := do
  let (ps, rest) ← pieces cs
  return ((joinPairs ps).map String.ofList, rest)

/-! ## Numbers -/

/-- One or more digits, and what follows. -/
def digits? (cs : List Char) : Option (List Char × List Char) :=
  match cs.takeWhile Char.isDigit with
  | [] => none
  | ds => some (ds, cs.dropWhile Char.isDigit)

/-- Digits without a needless zero in front. -/
def integer? (cs : List Char) : Option (List Char × List Char) := do
  let (ds, rest) ← digits? cs
  if ds.head? = some '0' ∧ ds.length ≠ 1 then none else return (ds, rest)

/-- A point with digits behind it, or nothing. -/
def fraction? : List Char → Option (List Char × List Char)
  | '.' :: cs => do
    let (ds, rest) ← digits? cs
    return ('.' :: ds, rest)
  | cs => some ([], cs)

/-- An optional sign. -/
def sign : List Char → List Char × List Char
  | '+' :: cs => (['+'], cs)
  | '-' :: cs => (['-'], cs)
  | cs => ([], cs)

/-- An exponent, or nothing. -/
def exponent? : List Char → Option (List Char × List Char)
  | c :: cs =>
    if c = 'e' ∨ c = 'E' then do
      let (sign, cs) := sign cs
      let (ds, rest) ← digits? cs
      return (c :: sign ++ ds, rest)
    else some ([], c :: cs)
  | [] => some ([], [])

/-- Reads a number without its minus. -/
def magnitude? (cs : List Char) : Option (List Char × List Char) := do
  let (whole, cs) ← integer? cs
  let (fraction, cs) ← fraction? cs
  let (exponent, cs) ← exponent? cs
  return (whole ++ fraction ++ exponent, cs)

/-- Reads a number. -/
def number? : List Char → Option (List Char × List Char)
  | '-' :: cs => do
    let (ds, rest) ← magnitude? cs
    return ('-' :: ds, rest)
  | cs => magnitude? cs

/-! ## Values -/

mutual

/-- Reads a value. Of two calls inside one another one has read a character, so twice the length
of the text is enough as a bound. -/
def value : Nat → List Char → Option (Read × List Char)
  | 0, _ => none
  | bound + 1, cs =>
    match skipSpace cs with
    | 'n' :: 'u' :: 'l' :: 'l' :: rest => some (.null, rest)
    | 't' :: 'r' :: 'u' :: 'e' :: rest => some (.bool true, rest)
    | 'f' :: 'a' :: 'l' :: 's' :: 'e' :: rest => some (.bool false, rest)
    | '"' :: rest => (string rest).map fun (s, rest) => (.string s, rest)
    | '[' :: rest =>
      match skipSpace rest with
      | ']' :: rest => some (.array [], rest)
      | rest => (items bound rest).map fun (vs, rest) => (.array vs, rest)
    | '\x7b' :: rest =>
      match skipSpace rest with
      | '\x7d' :: rest => some (.object [], rest)
      | rest => (members bound rest).map fun (ms, rest) => (.object ms, rest)
    | rest => (number? rest).map fun (ds, rest) => (.number (String.ofList ds), rest)

/-- Reads one or more items up to the end of the array. -/
def items : Nat → List Char → Option (List Read × List Char)
  | 0, _ => none
  | bound + 1, cs => do
    let (v, rest) ← value bound cs
    match skipSpace rest with
    | ']' :: rest => some ([v], rest)
    | ',' :: rest => do
      let (vs, rest) ← items bound rest
      return (v :: vs, rest)
    | _ => none

/-- Reads one or more members up to the end of the object. -/
def members : Nat → List Char → Option (List (Option String × Read) × List Char)
  | 0, _ => none
  | bound + 1, cs =>
    match skipSpace cs with
    | '"' :: rest => do
      let (key, rest) ← string rest
      match skipSpace rest with
      | ':' :: rest => do
        let (v, rest) ← value bound rest
        match skipSpace rest with
        | '\x7d' :: rest => some ([(key, v)], rest)
        | ',' :: rest => do
          let (ms, rest) ← members bound rest
          return ((key, v) :: ms, rest)
        | _ => none
      | _ => none
    | _ => none

end

end Reader

/-- Reads a text that holds one value. -/
def read? (text : String) : Option Read := do
  let cs := text.toList
  let (v, rest) ← Reader.value (2 * cs.length + 1) cs
  if (Reader.skipSpace rest).isEmpty then some v else none

end NullLint.JsonValue
