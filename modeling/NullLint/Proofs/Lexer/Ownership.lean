import NullLint.Proofs.Lexer.LineStart
import NullLint.Proofs.Lexer.Slicing
import NullLint.Syntax.Parser.Lookahead

/-!
# Which token owns a piece of trivia

A token owns the trivia behind it on its line, the line break included; what comes on later lines
belongs to the next token. So a token has leading trivia only where a line begins, and two tokens
have no trivia between them just if they touch.
-/

namespace NullLint.Lexer

/-- What the trivia of a token before other ones are. -/
structure OwnsTrivia (t : Token) (after : List Token) : Prop where
  leading : Pieces t.leading (onwards t after)
  trailing : Pieces t.trailing (spelling after).toList
  noDirective : ∀ v ∈ t.trailing, v.kind ≠ .directive
  lineBreakLast : ∀ v ∈ t.trailing.dropLast, v.kind ≠ .endOfLine
  next : ∀ u ∈ after.head?, u.leading ≠ [] → endsLine t.trailing = true

theorem Spaced.ownsTrivia {lineStart : Bool} {before after : List Token} {t : Token}
    (h : Spaced lineStart (before ++ t :: after)) : OwnsTrivia t after := by
  induction before generalizing lineStart with
  | cons s before ih => exact ih h.2.2
  | nil =>
    obtain ⟨hlead, htrail, hbehind⟩ := h
    refine ⟨hlead.pieces, htrail.pieces, htrail.trailing_kinds.1, htrail.trailing_kinds.2, ?_⟩
    intro u hu hleading
    obtain ⟨after, rfl⟩ := List.head?_eq_some_iff.1 hu
    by_contra hline
    rw [Bool.not_eq_true] at hline
    rw [spaced_cons, hline] at hbehind
    rw [Finds, toList_spelling_cons] at htrail
    exact hleading (htrail.eq_nil_of_not_endsLine hline hbehind.1)

/-- Between the texts of a lexeme and of the next one stand the trivia that they own. -/
theorem start_eq_of_located {before after : List Lexeme} {l m : Lexeme} {ts : List Token}
    {offset : Nat} (h : located offset ts = before ++ l :: m :: after) :
    m.start = l.stop + Trivia.width l.token.trailing + Trivia.width m.token.leading := by
  have hl := start_eq_of_located_append h
  have hm := start_eq_of_located_append (h.trans (List.append_cons ..))
  have hspell : (spelling ((before ++ [l]).map Lexeme.token)).utf8ByteSize =
      (spelling (before.map Lexeme.token)).utf8ByteSize + Trivia.width l.token.leading +
        l.token.text.utf8ByteSize + Trivia.width l.token.trailing := by
    simp [spelling, Token.fullText, Trivia.width_eq, Text.utf8ByteSize_eq]
    omega
  rw [hspell] at hm
  simp only [Lexeme.stop]
  omega

/-- Every lexeme of a text owns its trivia: the pieces have the forms of their kinds; behind the
lexeme stand no directive and at most one line break, the last of them; and the next lexeme has
leading trivia only behind such a line break. A directive is found just where a line begins. So a
`?` and a `.` or `[` behind it are taken together just if no byte is between them. -/
theorem lex_owns_trivia (text : String) :
    (∀ before l after, (lex text).1 = before ++ l :: after →
      OwnsTrivia l.token (after.map Lexeme.token) ∧
        (∀ v ∈ l.token.leading ++ l.token.trailing, v.text ≠ "") ∧
        OpensDirectives (spelling (before.map Lexeme.token)) l.token) ∧
    ∀ before question next after, (lex text).1 = before ++ question :: next :: after →
      question.kind = .question → next.kind = .dot ∨ next.kind = .openBracket →
      ∀ s : ParseState, s.rest = question :: next :: after →
        (Lookahead.conditionalAccessAhead s = true ↔ question.stop = next.start) := by
  have owns {before after : List Lexeme} {l : Lexeme} (h : (lex text).1 = before ++ l :: after) :
      OwnsTrivia l.token (after.map Lexeme.token) := by
    have hspaced := spaced_lexFrom true 0 text.toList
    rw [← lex, h, List.map_append, List.map_cons] at hspaced
    exact hspaced.ownsTrivia
  refine ⟨fun before l after h => ⟨owns h, ?_, ?_⟩, ?_⟩
  · exact List.forall_mem_append.2 ⟨(owns h).leading.text_ne, (owns h).trailing.text_ne⟩
  · exact opensDirectives_lex (by rw [h, List.map_append, List.map_cons])
  · intro before question next after h hquestion hnext s hs
    have hstart := start_eq_of_located ((lex_eq_located text).symm.trans h)
    have htrailing := (owns h).trailing.width_eq_zero_iff
    have hleading := (owns (h.trans (List.append_cons ..))).leading.width_eq_zero_iff
    calc
      _ ↔ question.token.trailing = [] ∧ next.token.leading = [] := by
        simp [Lookahead.conditionalAccessAhead, hs, hquestion, hnext]
      _ ↔ question.stop = next.start := by
        rw [← htrailing, ← hleading, hstart]
        omega

-- What stands on the line of `a` belongs to `a`; the directive and its line break belong to `d`.
example :
    ((lex "a // b\n#c\nd").1.map fun l => (l.token.leading.length, l.token.trailing.length)) =
      [(0, 3), (2, 0), (0, 0)] := by
  decide +kernel

end NullLint.Lexer
