import NullLint.Proofs.Lexer.Lossless
import NullLint.Proofs.Syntax.Numbering
import NullLint.Syntax.Parse

/-!
# Lossless parsing

Every source text, well-formed or not, is parsed into a tree that spells it. The tokens of the
tree, apart from those put in for missing ones, are the lexemes of the text in order.
-/

namespace NullLint

namespace Fills

variable {ts : List Token} {ls : List Lexeme}

theorem spelling_eq (h : Fills ts ls) : spelling ts = spelling (ls.map Lexeme.token) := by
  induction h with
  | nil => rfl
  | read l _ ih => simp [ih]
  | absent k _ _ ih => simpa [Token.absent, Token.fullText, Trivia.join] using ih

theorem filter_present (h : Fills ts ls) (hls : ∀ l ∈ ls, l.token.missing = false) :
    ts.filter (fun t => !t.missing) = ls.map Lexeme.token := by
  induction h with
  | nil => rfl
  | read l _ ih =>
    have hl : l.token.missing = false := hls l (by simp)
    simp [hl, ih fun m hm => hls m (by simp [hm])]
  | absent k _ _ ih => simpa [Token.absent] using ih hls

theorem eq_absent (h : Fills ts ls) (hls : ∀ l ∈ ls, l.token.missing = false) {t : Token}
    (ht : t ∈ ts) (hm : t.missing = true) : t = .absent t.kind := by
  induction h with
  | nil => simp at ht
  | read l _ ih =>
    rcases List.mem_cons.1 ht with rfl | ht
    · simp [hls l (by simp)] at hm
    · exact ih (fun m hm => hls m (by simp [hm])) ht
  | absent k _ _ ih =>
    rcases List.mem_cons.1 ht with rfl | ht
    · rfl
    · exact ih hls ht

end Fills

/-- The state in which the parser meets a source text. -/
def ParseState.ofText (text : String) : ParseState :=
  { rest := (Lexer.lex text).1, errors := (Lexer.lex text).2.reverse }

theorem root_parse (file text : String) :
    (parse file text).tree.root = some (Parser.compilationUnit (.ofText text)).1 := rfl

theorem errors_ofText {text : String} :
    (ParseState.ofText text).errors = [] ↔ (Lexer.lex text).2 = [] := by
  simp [ParseState.ofText]

theorem errors_parse_eq_nil {file text : String} :
    (parse file text).errors = [] ↔ (Parser.compilationUnit (.ofText text)).2.errors = [] := by
  have hsorted : (parse file text).errors =
      (Parser.compilationUnit (.ofText text)).2.errors.reverse.mergeSort
        fun a b => a.start ≤ b.start := rfl
  rw [hsorted, ← List.length_eq_zero_iff, List.length_mergeSort, List.length_reverse,
    List.length_eq_zero_iff]

theorem tokens_nodes_parse (file text : String) :
    (parse file text).tree.nodes.filterMap Node.token? =
      (Parser.compilationUnit (.ofText text)).1.tokens := by
  have hnodes : (parse file text).tree.nodes =
      (Parser.compilationUnit (.ofText text)).1.placed.preorder := rfl
  rw [hnodes, Node.filterMap_token?_preorder, Node.tokens_placed]

/-- The tokens of a parsed tree are the lexemes of its text, with empty tokens put in. -/
theorem fills_parse (text : String) :
    Fills (Parser.compilationUnit (.ofText text)).1.tokens (Lexer.lex text).1 := by
  have hends : Parser.EndsOnce (ParseState.ofText text).rest :=
    Lexer.endsOnce_lexFrom true 0 text.toList
  obtain ⟨⟨-, read, hread, hfills⟩, hrest⟩ := Parser.reads_compilationUnit hends
  rw [hrest, List.append_nil] at hread
  rw [show (Lexer.lex text).1 = read from hread]
  simpa using hfills

/-- Parsing is total and lossless: the tree spells the text, and its tokens are the lexemes of the
text, each once and in order, besides empty ones put in where the text lacks a token. -/
theorem parse_lossless (file text : String) :
    (parse file text).tree.text = text ∧
      ((parse file text).tree.nodes.filterMap Node.token?).filter (fun t => !t.missing) =
        (Lexer.lex text).1.map Lexeme.token ∧
      ∀ t ∈ (parse file text).tree.nodes.filterMap Node.token?,
        t.missing = true → t = .absent t.kind := by
  have hfills := fills_parse text
  have hpresent : ∀ l ∈ (Lexer.lex text).1, l.token.missing = false :=
    Lexer.missing_lexFrom true 0 text.toList
  rw [tokens_nodes_parse]
  refine ⟨?_, hfills.filter_present hpresent, fun t ht => hfills.eq_absent hpresent ht⟩
  calc
    (parse file text).tree.text = spelling (Parser.compilationUnit (.ofText text)).1.tokens := rfl
    _ = spelling ((Lexer.lex text).1.map Lexeme.token) := hfills.spelling_eq
    _ = text := Lexer.spelling_lex text

end NullLint
