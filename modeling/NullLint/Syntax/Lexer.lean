import NullLint.Diagnostic
import NullLint.Syntax.Token
import NullLint.Text.Letter

/-!
# Lexing

A source text is cut into lexemes from the left. Each recogniser looks at the text ahead and
says how many characters it takes; the cut itself is the same everywhere, so no character is
lost.

Trivia up to and including the first line break after a token belongs to that token; all later
trivia belongs to the next one. A `#` opens a directive only where nothing but spaces and tabs
stand before it on its line. `?.` is two tokens.
-/

namespace NullLint.Lexer

/-! ## Trivia -/

/-- Spaces, tabs, vertical tabs and form feeds. -/
def isSpace (c : Char) : Bool :=
  c == ' ' || c == '\t' || c == '\x0b' || c == '\x0c'

def isLineBreak (c : Char) : Bool := c == '\n' || c == '\r'

/-- Number of characters before the next line break. -/
def restOfLine (cs : List Char) : Nat :=
  (cs.takeWhile fun c => !isLineBreak c).length

/-- Number of characters up to and including the first `*/`. -/
def commentEnd? : List Char → Option Nat
  | [] => none
  | c :: cs =>
    if c == '*' && cs.head? == some '/' then some 2
    else (commentEnd? cs).map (· + 1)

/-- A recognised piece of trivia: its kind, how many characters follow its first one, and
whether it is a comment that the text does not close. -/
structure TriviaShape where
  kind : TriviaKind
  more : Nat
  unclosed : Bool := false

/-- The trivia that starts with `c` and goes on in `cs`, if any. -/
def triviaShape? (lineStart : Bool) (c : Char) (cs : List Char) : Option TriviaShape :=
  if isSpace c then
    some ⟨.whitespace, (cs.takeWhile isSpace).length, false⟩
  else if isLineBreak c then
    some ⟨.endOfLine, if c == '\r' && cs.head? == some '\n' then 1 else 0, false⟩
  else if c == '/' && cs.head? == some '/' then
    some ⟨.lineComment, restOfLine cs, false⟩
  else if c == '/' && cs.head? == some '*' then
    match commentEnd? (cs.drop 1) with
    | some n => some ⟨.blockComment, n + 1, false⟩
    | none => some ⟨.blockComment, cs.length, true⟩
  else if c == '#' && lineStart then
    some ⟨.directive, restOfLine cs, false⟩
  else
    none

/-- Whether a directive may still follow on the line after this trivia. -/
def keepsLineStart (lineStart : Bool) (kind : TriviaKind) (text : List Char) : Bool :=
  match kind with
  | .endOfLine => true
  | .whitespace => lineStart && text.all fun c => c == ' ' || c == '\t'
  | _ => false

/-- A run of trivia with the text after it. -/
structure TriviaRun where
  trivia : List Trivia
  errors : List SyntaxError
  offset : Nat
  rest : List Char

/-- Collects trivia from byte `offset` on. Behind a token (`trailing`) it stops after the first
line break and takes no directive. -/
def triviaRun (trailing lineStart : Bool) (offset : Nat) (cs : List Char) : TriviaRun :=
  match cs with
  | [] => ⟨[], [], offset, []⟩
  | c :: tail =>
    match triviaShape? (lineStart && !trailing) c tail with
    | none => ⟨[], [], offset, c :: tail⟩
    | some shape =>
      let text := c :: tail.take shape.more
      let trivia : Trivia := ⟨shape.kind, String.ofList text⟩
      let errors : List SyntaxError :=
        if shape.unclosed then [⟨offset, 2, .endOfFileInComment, []⟩] else []
      let after := offset + Text.byteLength text
      if trailing && shape.kind == .endOfLine then
        ⟨[trivia], errors, after, tail.drop shape.more⟩
      else
        let run := triviaRun trailing (keepsLineStart lineStart shape.kind text) after
          (tail.drop shape.more)
        ⟨trivia :: run.trivia, errors ++ run.errors, run.offset, run.rest⟩
termination_by cs.length
decreasing_by simp only [List.length_drop, List.length_cons]; omega

theorem length_rest_triviaRun (trailing lineStart : Bool) (offset : Nat) (cs : List Char) :
    (triviaRun trailing lineStart offset cs).rest.length ≤ cs.length := by
  fun_induction triviaRun trailing lineStart offset cs with
  | case1 => simp
  | case2 => simp
  | case3 => simp; omega
  | case4 lineStart offset c tail shape _ text trivia errors after _ run ih =>
    have h : run.rest.length ≤ (tail.drop shape.more).length := ih
    simp only [List.length_drop, List.length_cons] at h ⊢
    omega

/-! ## Words and numbers -/

def isWordStart (c : Char) : Bool := Text.isLetter c || c == '_'

def isWordPart (c : Char) : Bool := Text.isLetter c || Text.isNumber c || c == '_'

def isHexDigit (c : Char) : Bool :=
  c.isDigit || ('a' ≤ c && c ≤ 'f') || ('A' ≤ c && c ≤ 'F')

/-- Number of digits and underscores ahead. -/
def digitRun (cs : List Char) : Nat :=
  (cs.takeWhile fun c => c.isDigit || c == '_').length

/-- Length of a point and the digits after it; zero unless a digit follows the point. -/
def fractionLength : List Char → Nat
  | '.' :: d :: cs => if d.isDigit then 1 + digitRun (d :: cs) else 0
  | _ => 0

/-- Length of an exponent with an optional sign; zero unless it has a digit. -/
def exponentLength : List Char → Nat
  | e :: cs =>
    if e == 'e' || e == 'E' then
      let sign := if cs.head? == some '+' || cs.head? == some '-' then 1 else 0
      if (cs.drop sign).head?.any Char.isDigit then 1 + sign + digitRun (cs.drop sign) else 0
    else 0
  | [] => 0

/-- Length of a decimal number without its type letters. -/
def decimalLength (cs : List Char) : Nat :=
  let whole := digitRun cs
  let fraction := fractionLength (cs.drop whole)
  whole + fraction + exponentLength (cs.drop (whole + fraction))

/-- Length of a number without its type letters. -/
def digitsLength (cs : List Char) : Nat :=
  match cs with
  | '0' :: x :: rest =>
    if x == 'x' || x == 'X' then
      2 + (rest.takeWhile fun c => isHexDigit c || c == '_').length
    else decimalLength cs
  | _ => decimalLength cs

/-- Length of a number with the letters that fix its type. -/
def numberLength (cs : List Char) : Nat :=
  let digits := digitsLength cs
  digits + ((cs.drop digits).takeWhile Char.isAlpha).length

/-! ## Quoted literals -/

/-- Number of characters behind the opening quote that belong to the literal, and whether it is
closed. A verbatim literal runs over line breaks and writes a quote twice; in any other literal
a backslash guards the next character. -/
def quotedLength (quote : Char) (verbatim : Bool) : List Char → Nat × Bool
  | [] => (0, false)
  | [c] =>
    if !verbatim && isLineBreak c then (0, false)
    else (1, c == quote)
  | c :: d :: cs =>
    if !verbatim && c == '\\' then
      if isLineBreak d then (1, false)
      else
        let (n, closed) := quotedLength quote verbatim cs
        (n + 2, closed)
    else if !verbatim && isLineBreak c then (0, false)
    else if c == quote then
      if verbatim && d == quote then
        let (n, closed) := quotedLength quote verbatim cs
        (n + 2, closed)
      else (1, true)
    else
      let (n, closed) := quotedLength quote verbatim (d :: cs)
      (n + 1, closed)

/-! ## Tokens -/

/-- A mark that starts with `c`: its kind and how many characters follow the first one. -/
def mark? (c : Char) (next : Option Char) : Option (Kind × Nat) :=
  match c, next with
  | '\x7b', _ => some (.openBrace, 0)
  | '\x7d', _ => some (.closeBrace, 0)
  | '(', _ => some (.openParen, 0)
  | ')', _ => some (.closeParen, 0)
  | '[', _ => some (.openBracket, 0)
  | ']', _ => some (.closeBracket, 0)
  | ';', _ => some (.semicolon, 0)
  | ',', _ => some (.comma, 0)
  | '.', _ => some (.dot, 0)
  | ':', _ => some (.colon, 0)
  | '?', some '?' => some (.questionQuestion, 1)
  | '?', _ => some (.question, 0)
  | '!', some '=' => some (.exclamationEquals, 1)
  | '!', _ => some (.exclamation, 0)
  | '=', some '=' => some (.equalsEquals, 1)
  | '=', some '>' => some (.equalsGreaterThan, 1)
  | '=', _ => some (.equals, 0)
  | '<', some '=' => some (.lessThanEquals, 1)
  | '<', _ => some (.lessThan, 0)
  | '>', some '=' => some (.greaterThanEquals, 1)
  | '>', _ => some (.greaterThan, 0)
  | '+', some '+' => some (.plusPlus, 1)
  | '+', _ => some (.plus, 0)
  | '-', some '-' => some (.minusMinus, 1)
  | '-', _ => some (.minus, 0)
  | '*', _ => some (.asterisk, 0)
  | '/', _ => some (.slash, 0)
  | '%', _ => some (.percent, 0)
  | '&', some '&' => some (.ampersandAmpersand, 1)
  | '|', some '|' => some (.barBar, 1)
  | _, _ => none

/-- What is wrong with a token. -/
inductive Fault where
  /-- The literal is not closed; the first characters given stand before its quote. -/
  | unclosed (before : Nat)
  /-- The character begins no token. -/
  | stray
  deriving DecidableEq, Repr

/-- A recognised token: its kind, how many characters follow its first one, and its fault. -/
structure TokenShape where
  kind : Kind
  more : Nat
  fault : Option Fault := none

/-- The literal whose quote comes after `before` characters, with `cs` behind the quote. -/
def quotedShape (kind : Kind) (quote : Char) (verbatim : Bool) (before : Nat)
    (cs : List Char) : TokenShape :=
  let (n, closed) := quotedLength quote verbatim cs
  ⟨kind, before + n, if closed then none else some (.unclosed before)⟩

/-- The word that starts with `c`: reserved, or an identifier. -/
def wordShape (c : Char) (cs : List Char) : TokenShape :=
  let tail := cs.takeWhile isWordPart
  ⟨(Kind.ofKeyword? (String.ofList (c :: tail))).getD .identifier, tail.length, none⟩

/-- The token that starts with `c` and goes on in `cs`. -/
def tokenShape (c : Char) (cs : List Char) : TokenShape :=
  if isWordStart c then wordShape c cs
  else if c.isDigit || (c == '.' && cs.head?.any Char.isDigit) then
    ⟨.numericLiteral, numberLength (c :: cs) - 1, none⟩
  else
    match c, cs with
    | '"', _ => quotedShape .stringLiteral '"' false 0 cs
    | '\'', _ => quotedShape .characterLiteral '\'' false 0 cs
    | '@', '"' :: rest => quotedShape .stringLiteral '"' true 1 rest
    | '$', '"' :: rest => quotedShape .stringLiteral '"' false 1 rest
    | '$', '@' :: '"' :: rest => quotedShape .stringLiteral '"' true 2 rest
    | _, _ =>
      if c == '@' && cs.head?.any (fun d => d.isAlpha || d == '_') then
        ⟨.identifier, (cs.takeWhile isWordPart).length, none⟩
      else
        match mark? c cs.head? with
        | some (kind, more) => ⟨kind, more, none⟩
        | none => ⟨.unknown, 0, some .stray⟩

/-- The error that a fault of the token `text` at byte `offset` raises. -/
def Fault.toError (offset : Nat) (text : List Char) : Fault → SyntaxError
  | .unclosed before =>
    ⟨offset + before, Text.byteLength (text.drop before), .newlineInConstant, []⟩
  | .stray => ⟨offset, Text.byteLength text, .unexpectedCharacter, [String.ofList text]⟩

/-- Whether a run of trivia ends its line. -/
def endsLine (ts : List Trivia) : Bool :=
  ts.getLast?.any fun t => t.kind == .endOfLine

/-- Lexes from byte `offset` on. The last lexeme is the end of the file. -/
def lexFrom (lineStart : Bool) (offset : Nat) (cs : List Char) :
    List Lexeme × List SyntaxError :=
  let lead := triviaRun false lineStart offset cs
  match _h : lead.rest with
  | [] => ([⟨⟨.endOfFile, "", lead.trivia, [], false⟩, lead.offset⟩], lead.errors)
  | c :: tail =>
    let shape := tokenShape c tail
    let text := c :: tail.take shape.more
    let trail := triviaRun true false (lead.offset + Text.byteLength text)
      (tail.drop shape.more)
    let (lexemes, errors) := lexFrom (endsLine trail.trivia) trail.offset trail.rest
    (⟨⟨shape.kind, String.ofList text, lead.trivia, trail.trivia, false⟩, lead.offset⟩ :: lexemes,
      lead.errors ++ (shape.fault.map (Fault.toError lead.offset text)).toList ++ trail.errors ++
        errors)
termination_by cs.length
decreasing_by
  have h₁ := length_rest_triviaRun false lineStart offset cs
  have h₂ := length_rest_triviaRun true false (lead.offset + Text.byteLength text)
    (tail.drop shape.more)
  rw [_h] at h₁
  simp only [List.length_cons, List.length_drop] at h₁ h₂
  exact Nat.lt_of_le_of_lt h₂ (by omega)

/-- The lexemes of a source text and the errors among them. -/
def lex (text : String) : List Lexeme × List SyntaxError :=
  lexFrom true 0 text.toList

end NullLint.Lexer
