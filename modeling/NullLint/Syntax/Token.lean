import NullLint.Text.Bytes
import NullLint.Syntax.Kind

/-!
# Tokens and trivia

A token owns the blanks, comments and directives around it, so that the tokens of a file spell
out the whole file.
-/

namespace NullLint

inductive TriviaKind where
  | whitespace
  | endOfLine
  | lineComment
  | blockComment
  | directive
  deriving DecidableEq, Repr, Inhabited

/-- A piece of text between tokens. -/
structure Trivia where
  kind : TriviaKind
  text : String
  deriving DecidableEq, Repr, Inhabited

namespace Trivia

def isComment (t : Trivia) : Bool :=
  t.kind == .lineComment || t.kind == .blockComment

/-- The texts of a list of trivia, one after the other. -/
def join (ts : List Trivia) : String := String.join (ts.map Trivia.text)

/-- Bytes taken by a list of trivia. -/
def width (ts : List Trivia) : Nat := ts.foldr (fun t n => t.text.utf8ByteSize + n) 0

end Trivia

/-- A token with the trivia it owns. A missing token stands for one that the source lacks. -/
structure Token where
  kind : Kind
  text : String
  leading : List Trivia := []
  trailing : List Trivia := []
  missing : Bool := false
  deriving DecidableEq, Repr, Inhabited

namespace Token

/-- The empty token put in where `kind` was expected. -/
def absent (kind : Kind) : Token := ⟨kind, "", [], [], true⟩

/-- The token as it stands in the source, trivia included. -/
def fullText (t : Token) : String :=
  Trivia.join t.leading ++ t.text ++ Trivia.join t.trailing

end Token

/-- A token and the byte offset of its text in the source. -/
structure Lexeme where
  token : Token
  start : Nat
  deriving DecidableEq, Repr, Inhabited

namespace Lexeme

def kind (l : Lexeme) : Kind := l.token.kind

/-- The offset just past the token's text. -/
def stop (l : Lexeme) : Nat := l.start + l.token.text.utf8ByteSize

end Lexeme

end NullLint
