import NullLint.Syntax.Lexer
import NullLint.Proofs.Parser.Reading

/-!
# Lexing loses nothing

The full texts of the lexemes, one after the other, spell the source text. The end of the file is
the last lexeme and only the last one, and no lexeme counts as missing.
-/

namespace NullLint

/-- The text that a list of tokens spells. -/
def spelling (ts : List Token) : String := String.join (ts.map Token.fullText)

@[simp] theorem spelling_nil : spelling [] = "" := rfl

@[simp] theorem spelling_cons (t : Token) (ts : List Token) :
    spelling (t :: ts) = t.fullText ++ spelling ts := by
  simp [spelling]

namespace Lexer

@[simp] theorem toList_join_trivia (t : Trivia) (ts : List Trivia) :
    (Trivia.join (t :: ts)).toList = t.text.toList ++ (Trivia.join ts).toList := by
  simp [Trivia.join]

/-- A run of trivia and the text after it make up the text it was taken from. -/
theorem toList_triviaRun (trailing lineStart : Bool) (offset : Nat) (cs : List Char) :
    (Trivia.join (triviaRun trailing lineStart offset cs).trivia).toList ++
      (triviaRun trailing lineStart offset cs).rest = cs := by
  fun_induction triviaRun trailing lineStart offset cs with
  | case1 => rfl
  | case2 => rfl
  | case3 lineStart offset c tail shape _ text trivia errors after _ =>
    simp [Trivia.join, trivia, text]
  | case4 lineStart offset c tail shape _ text trivia errors after _ run ih =>
    simp only [toList_join_trivia, List.append_assoc]
    rw [ih]
    simp [trivia, text]

theorem lexFrom_nil (lineStart : Bool) (offset : Nat) :
    lexFrom lineStart offset [] = ([⟨⟨.endOfFile, "", [], [], false⟩, offset⟩], []) := by
  unfold lexFrom
  simp only
  split
  · simp [triviaRun]
  · rename_i h
    simp [triviaRun] at h

/-- The lexemes spell the text. -/
theorem spelling_lexFrom (lineStart : Bool) (offset : Nat) (cs : List Char) :
    (spelling ((lexFrom lineStart offset cs).1.map Lexeme.token)).toList = cs := by
  fun_induction lexFrom lineStart offset cs with
  | case1 lineStart offset cs lead h =>
    have hlead := toList_triviaRun false lineStart offset cs
    rw [show (triviaRun false lineStart offset cs).rest = [] from h, List.append_nil] at hlead
    simpa [Token.fullText, Trivia.join] using hlead
  | case2 lineStart offset cs lead c tail h shape text trail lexemes errors hrec ih =>
    have hlead := toList_triviaRun false lineStart offset cs
    have htrail := toList_triviaRun true false (lead.offset + Text.byteLength text)
      (tail.drop shape.more)
    rw [hrec] at ih
    simp only [List.map_cons, spelling_cons, Token.fullText, String.toList_append, ih,
      String.toList_ofList, List.append_assoc]
    rw [htrail]
    simpa [text, ← h] using hlead

theorem spelling_lex (text : String) :
    spelling ((lex text).1.map Lexeme.token) = text :=
  String.toList_inj.1 (spelling_lexFrom true 0 text.toList)

theorem missing_lexFrom (lineStart : Bool) (offset : Nat) (cs : List Char) :
    ∀ l ∈ (lexFrom lineStart offset cs).1, l.token.missing = false := by
  fun_induction lexFrom lineStart offset cs with
  | case1 => simp
  | case2 lineStart offset cs lead c tail h shape text trail lexemes errors hrec ih =>
    rw [hrec] at ih
    simpa using ih

/-! ## The end of the file -/

theorem ofKeyword?_ne_endOfFile (word : String) :
    Kind.ofKeyword? word ≠ some .endOfFile := by
  unfold Kind.ofKeyword?
  split <;> simp

theorem mark?_ne_endOfFile (c : Char) (next : Option Char) (more : Nat) :
    mark? c next ≠ some (.endOfFile, more) := by
  unfold mark?
  split <;> simp

theorem wordShape_kind_ne (c : Char) (cs : List Char) :
    (wordShape c cs).kind ≠ .endOfFile := by
  simp only [wordShape]
  cases h : Kind.ofKeyword? (String.ofList (c :: cs.takeWhile isWordPart)) with
  | none => simp only [Option.getD_none, ne_eq, reduceCtorEq, not_false_eq_true]
  | some k =>
    rintro rfl
    exact ofKeyword?_ne_endOfFile _ h

/-- Only the end of the text gives the end of the file. -/
theorem tokenShape_kind_ne (c : Char) (cs : List Char) :
    (tokenShape c cs).kind ≠ .endOfFile := by
  unfold tokenShape
  split
  · exact wordShape_kind_ne c cs
  split
  · simp
  split
  · simp [quotedShape]
  · simp [quotedShape]
  · simp [quotedShape]
  · simp [quotedShape]
  · simp [quotedShape]
  split
  · simp
  split
  · rename_i kind more h
    rintro rfl
    exact mark?_ne_endOfFile _ _ _ h
  · simp

theorem exists_endOfFile_lexFrom (lineStart : Bool) (offset : Nat) (cs : List Char) :
    ∃ l ∈ (lexFrom lineStart offset cs).1, l.kind = .endOfFile := by
  fun_induction lexFrom lineStart offset cs with
  | case1 => exact ⟨_, List.mem_singleton_self _, rfl⟩
  | case2 lineStart offset cs lead c tail h shape text trail lexemes errors hrec ih =>
    rw [hrec] at ih
    obtain ⟨l, hl, hk⟩ := ih
    exact ⟨l, List.mem_cons_of_mem _ hl, hk⟩

theorem endsOnce_cons {l : Lexeme} {ls : List Lexeme} (hl : l.kind ≠ .endOfFile)
    (h : Parser.EndsOnce ls) : Parser.EndsOnce (l :: ls) := by
  intro m rest hm hk
  rcases List.suffix_cons_iff.1 hm with heq | hsuf
  · obtain ⟨rfl, rfl⟩ := List.cons.inj heq
    exact absurd hk hl
  · exact h m rest hsuf hk

theorem endsOnce_lexFrom (lineStart : Bool) (offset : Nat) (cs : List Char) :
    Parser.EndsOnce (lexFrom lineStart offset cs).1 := by
  fun_induction lexFrom lineStart offset cs with
  | case1 =>
    intro l rest hl _
    simpa using hl.length_le
  | case2 lineStart offset cs lead c tail h shape text trail lexemes errors hrec ih =>
    rw [hrec] at ih
    exact endsOnce_cons (tokenShape_kind_ne c tail) ih

end Lexer

end NullLint
