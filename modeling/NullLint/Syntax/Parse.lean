import NullLint.Syntax.Lexer
import NullLint.Syntax.Parser.Declaration
import NullLint.Syntax.Tree

/-!
# Parsing a file
-/

namespace NullLint

/-- A tree and the errors found on the way, in order of their start. -/
structure ParseResult where
  tree : Tree
  errors : List SyntaxError

namespace ParseResult

def hasErrors (r : ParseResult) : Bool := !r.errors.isEmpty

/-- The errors as diagnostics of the file. -/
def diagnostics (r : ParseResult) : List Diagnostic :=
  r.errors.map (SyntaxError.toDiagnostic r.tree.file)

end ParseResult

/-- Lexes and parses a source text. -/
def parse (file text : String) : ParseResult :=
  let (lexemes, errors) := Lexer.lex text
  let (root, state) := Parser.compilationUnit { rest := lexemes, errors := errors.reverse }
  ⟨⟨file, some root⟩, state.errors.reverse.mergeSort fun a b => a.start ≤ b.start⟩

end NullLint
