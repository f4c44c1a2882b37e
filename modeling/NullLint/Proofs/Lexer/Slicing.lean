import NullLint.Proofs.Lexer.Locations
import NullLint.Proofs.Lexer.ByteWise

/-!
# Where the pieces of a text stand

Lexing cuts a text into pieces, the texts of its tokens and of their trivia. They stand one behind
the other, so each is the slice of the text between two byte offsets, and both are boundaries of
characters. An end of file closes the list of lexemes; all others have a text. The bytes of the text
give the same tokens.
-/

namespace NullLint

namespace Token

/-- The texts a token is made of. -/
def pieces (t : Token) : List String :=
  t.leading.map Trivia.text ++ t.text :: t.trailing.map Trivia.text

theorem join_pieces (t : Token) : String.join t.pieces = t.fullText := by
  simp [pieces, fullText, Trivia.join, String.append_assoc]

end Token

theorem join_flatMap_pieces (ts : List Token) :
    String.join (ts.flatMap Token.pieces) = spelling ts := by
  induction ts with
  | nil => rfl
  | cons t ts ih => rw [List.flatMap_cons, String.join_append, ih, t.join_pieces, spelling_cons]

/-- What is put between two texts is the slice between its offsets, which bound characters. -/
theorem Text.slice?_append {text part : String} (before after : String)
    (h : text = before ++ part ++ after) :
    slice? text before.utf8ByteSize (before.utf8ByteSize + part.utf8ByteSize) = some part ∧
      String.Pos.Raw.IsValid text ⟨before.utf8ByteSize⟩ ∧
      String.Pos.Raw.IsValid text ⟨before.utf8ByteSize + part.utf8ByteSize⟩ := by
  refine ⟨slice?_of_toList_eq before.toList after.toList ?_ ?_ ?_, ?_, ?_⟩
  · simp [h]
  · exact utf8ByteSize_eq before
  · rw [utf8ByteSize_eq part]
  · refine String.Pos.Raw.isValid_iff_exists_append.2 ⟨before, part ++ after, ?_, rfl⟩
    rw [h, String.append_assoc]
  · refine String.Pos.Raw.isValid_iff_exists_append.2 ⟨before ++ part, after, h, ?_⟩
    ext
    simp

namespace Lexer

/-- A lexeme stands behind what the lexemes before it and its own leading trivia spell. -/
theorem start_eq_of_located_append {before after : List Lexeme} {l : Lexeme} {ts : List Token}
    {offset : Nat} (h : located offset ts = before ++ l :: after) :
    l.start = offset + (spelling (before.map Lexeme.token)).utf8ByteSize +
      Trivia.width l.token.leading := by
  induction before generalizing ts offset with
  | nil =>
    cases ts with
    | nil => cases h
    | cons t ts =>
      obtain ⟨rfl, -⟩ := List.cons.inj h
      rfl
  | cons k before ih =>
    cases ts with
    | nil => cases h
    | cons t ts =>
      obtain ⟨rfl, hrest⟩ := List.cons.inj h
      rw [ih hrest]
      simp [Token.fullText, Trivia.width_eq, Text.utf8ByteSize_eq]
      omega

/-- The lexemes are those before the end of the file, each with a text, and the end of the file. -/
theorem exists_lexFrom_eq_concat (lineStart : Bool) (offset : Nat) (cs : List Char) :
    ∃ before last, (lexFrom lineStart offset cs).1 = before ++ [last] ∧
      (last.kind = .endOfFile ∧ last.token.text = "" ∧ last.token.trailing = []) ∧
      ∀ l ∈ before, l.kind ≠ .endOfFile ∧ l.token.text ≠ "" := by
  fun_induction lexFrom lineStart offset cs with
  | case1 => exact ⟨[], _, rfl, ⟨rfl, rfl, rfl⟩, by simp⟩
  | case2 lineStart offset cs lead c tail h shape text trail lexemes errors hrec ih =>
    rw [hrec] at ih
    obtain ⟨before, last, rfl, hlast, hbefore⟩ := ih
    refine ⟨_ :: before, last, rfl, hlast, List.forall_mem_cons.2 ⟨⟨?_, ?_⟩, hbefore⟩⟩
    · exact tokenShape_kind_ne c tail
    · exact fun htext => by simpa [text] using congrArg String.toList htext

theorem toList_toUTF8 (text : String) : text.toUTF8.data.toList = encode text.toList := by
  have h : text.toByteArray = text.toList.utf8Encode := by simp
  rw [String.toUTF8, h, List.utf8Encode]
  simp [encode]

/-- Lexing loses nothing and gives the right places: the lexemes spell the text, and the end of the
file is the last of them and the only one without a text. A lexeme starts where its text stands, and
every piece of the text is the slice between two offsets that bound characters. The bytes of the
text give the same tokens, where each cut is made between two characters and each step goes on. -/
theorem lex_slices (text : String) :
    let ls := (lex text).1
    spelling (ls.map Lexeme.token) = text ∧
    (∃ before last, ls = before ++ [last] ∧
      (last.kind = .endOfFile ∧ last.token.text = "" ∧ last.token.trailing = []) ∧
      ∀ l ∈ before, l.kind ≠ .endOfFile ∧ l.token.text ≠ "") ∧
    (∀ before l after, ls = before ++ l :: after →
      l.start =
        (spelling (before.map Lexeme.token) ++ Trivia.join l.token.leading).utf8ByteSize ∧
      Text.slice? text l.start l.stop = some l.token.text) ∧
    (∀ before piece after, (ls.map Lexeme.token).flatMap Token.pieces = before ++ piece :: after →
      let start := (String.join before).utf8ByteSize
      let stop := start + piece.utf8ByteSize
      Text.slice? text start stop = some piece ∧ String.Pos.Raw.IsValid text ⟨start⟩ ∧
        String.Pos.Raw.IsValid text ⟨stop⟩) ∧
    lexBytes? true text.toUTF8.data.toList = some (ls.map Lexeme.token) := by
  intro ls
  have hspell : spelling (ls.map Lexeme.token) = text := spelling_lex text
  refine ⟨hspell, exists_lexFrom_eq_concat true 0 text.toList, ?_, ?_, ?_⟩
  · intro before l after h
    have hstart : l.start =
        (spelling (before.map Lexeme.token) ++ Trivia.join l.token.leading).utf8ByteSize := by
      rw [start_eq_of_located_append ((lex_eq_located text).symm.trans h)]
      simp [Trivia.width_eq, Text.utf8ByteSize_eq]
    refine ⟨hstart, ?_⟩
    rw [Lexeme.stop, hstart]
    refine (Text.slice?_append _ (Trivia.join l.token.trailing ++
      spelling (after.map Lexeme.token)) ?_).1
    rw [← hspell, h]
    simp [spelling, Token.fullText, String.append_assoc]
  · intro before piece after h
    refine Text.slice?_append _ (String.join after) ?_
    rw [← hspell, ← join_flatMap_pieces, h]
    simp [String.append_assoc]
  · rw [toList_toUTF8]
    exact lexBytes?_encode true 0 text.toList

end Lexer

end NullLint
