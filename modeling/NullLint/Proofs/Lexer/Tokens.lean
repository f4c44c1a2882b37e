import NullLint.Proofs.Lexer.Lossless

/-!
# Kinds and texts of lexemes

Every lexeme has the kind of a token, only the end of the file has no text, and only a slash has the
text of one.
-/

namespace NullLint.Lexer

theorem isToken_of_ofKeyword? {word : String} {k : Kind} (h : Kind.ofKeyword? word = some k) :
    k.isToken = true := by
  unfold Kind.ofKeyword? at h
  split at h <;> cases h <;> rfl

theorem isToken_of_mark? {c : Char} {next : Option Char} {k : Kind} {more : Nat}
    (h : mark? c next = some (k, more)) : k.isToken = true := by
  unfold mark? at h
  split at h <;> cases h <;> rfl

theorem isToken_wordShape (c : Char) (cs : List Char) :
    (wordShape c cs).kind.isToken = true := by
  simp only [wordShape]
  cases h : Kind.ofKeyword? (String.ofList (c :: cs.takeWhile isWordPart)) with
  | none => rfl
  | some k => exact isToken_of_ofKeyword? h

theorem isToken_tokenShape (c : Char) (cs : List Char) :
    (tokenShape c cs).kind.isToken = true := by
  unfold tokenShape
  split
  · exact isToken_wordShape c cs
  split
  · rfl
  split
  · rfl
  · rfl
  · rfl
  · rfl
  · rfl
  split
  · rfl
  split
  · rename_i kind more h
    exact isToken_of_mark? h
  · rfl

theorem isToken_lexFrom (lineStart : Bool) (offset : Nat) (cs : List Char) :
    ∀ l ∈ (lexFrom lineStart offset cs).1, l.kind.isToken = true := by
  fun_induction lexFrom lineStart offset cs with
  | case1 => simp [Lexeme.kind, Kind.isToken, Kind.isNode]
  | case2 lineStart offset cs lead c tail h shape text trail lexemes errors hrec ih =>
    rw [hrec] at ih
    simpa using ⟨isToken_tokenShape c tail, ih⟩

theorem text_ne_lexFrom (lineStart : Bool) (offset : Nat) (cs : List Char) :
    ∀ l ∈ (lexFrom lineStart offset cs).1, l.kind ≠ .endOfFile → l.token.text ≠ "" := by
  fun_induction lexFrom lineStart offset cs with
  | case1 => simp [Lexeme.kind]
  | case2 lineStart offset cs lead c tail h shape text trail lexemes errors hrec ih =>
    rw [hrec] at ih
    intro l hl hk
    rcases List.mem_cons.1 hl with rfl | hl
    · exact fun htext => by simpa [text] using congrArg String.toList htext
    · exact ih l hl hk

/-- A lexeme with the text `/` is a slash. -/
theorem text_ne_slash_lexFrom (lineStart : Bool) (offset : Nat) (cs : List Char) :
    ∀ l ∈ (lexFrom lineStart offset cs).1, l.kind ≠ .slash → l.token.text ≠ "/" := by
  fun_induction lexFrom lineStart offset cs with
  | case1 => simp [Lexeme.kind]
  | case2 lineStart offset cs lead c tail h shape text trail lexemes errors hrec ih =>
    rw [hrec] at ih
    intro l hl hk
    rcases List.mem_cons.1 hl with rfl | hl
    · intro htext
      have hchars : c :: tail.take shape.more = ['/'] := by
        simpa [text] using congrArg String.toList htext
      obtain ⟨rfl, -⟩ := List.cons.inj hchars
      exact hk rfl
    · exact ih l hl hk

end NullLint.Lexer
