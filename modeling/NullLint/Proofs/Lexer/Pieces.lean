import NullLint.Proofs.Lexer.Spacing
import Mathlib.Data.List.TakeWhile

/-!
# Pieces of trivia

Every piece of trivia has the form of its kind and goes as far as its kind lets it (`Lexer.Piece`).
Behind a token its line is read to the end, the line break included, and no directive is found
there; what comes on later lines is left for the next token.
-/

namespace NullLint.Lexer

/-! ## Forms of trivia -/

/-- The characters are a piece of trivia of this kind, and `rest` does not continue it. -/
inductive Piece : TriviaKind → List Char → List Char → Prop where
  | whitespace {cs rest : List Char} (nonempty : cs ≠ []) (spaces : ∀ c ∈ cs, isSpace c = true)
      (maximal : ∀ c ∈ rest.head?, isSpace c = false) : Piece .whitespace cs rest
  | lineFeed (rest : List Char) : Piece .endOfLine ['\n'] rest
  | carriageReturn {rest : List Char} (maximal : rest.head? ≠ some '\n') :
      Piece .endOfLine ['\r'] rest
  | both (rest : List Char) : Piece .endOfLine ['\r', '\n'] rest
  | lineComment {cs rest : List Char} (line : ∀ c ∈ cs, isLineBreak c = false)
      (maximal : ∀ c ∈ rest.head?, isLineBreak c = true) :
      Piece .lineComment ('/' :: '/' :: cs) rest
  /-- The comment ends with the first `*/` behind its `/*`. -/
  | closed {cs : List Char} (rest : List Char) (first : ¬['*', '/'] <:+: cs ++ ['*']) :
      Piece .blockComment ('/' :: '*' :: (cs ++ ['*', '/'])) rest
  | unclosed {cs : List Char} (never : ¬['*', '/'] <:+: cs) :
      Piece .blockComment ('/' :: '*' :: cs) []
  | directive {cs rest : List Char} (line : ∀ c ∈ cs, isLineBreak c = false)
      (maximal : ∀ c ∈ rest.head?, isLineBreak c = true) : Piece .directive ('#' :: cs) rest

theorem Piece.ne_nil {kind : TriviaKind} {cs rest : List Char} (h : Piece kind cs rest) :
    cs ≠ [] := by
  cases h with
  | whitespace nonempty => exact nonempty
  | _ => exact List.cons_ne_nil _ _

/-- The pieces stand one behind the other before `rest`. -/
def Pieces : List Trivia → List Char → Prop
  | [], _ => True
  | v :: vs, rest => Piece v.kind v.text.toList ((Trivia.join vs).toList ++ rest) ∧ Pieces vs rest

theorem Pieces.text_ne {vs : List Trivia} {rest : List Char} (h : Pieces vs rest) :
    ∀ v ∈ vs, v.text ≠ "" := by
  induction vs with
  | nil => simp
  | cons v vs ih =>
    refine List.forall_mem_cons.2 ⟨fun htext => h.1.ne_nil ?_, ih h.2⟩
    rw [htext, String.toList_empty]

/-- Pieces of trivia that take no bytes are none. -/
theorem Pieces.width_eq_zero_iff {vs : List Trivia} {rest : List Char} (h : Pieces vs rest) :
    Trivia.width vs = 0 ↔ vs = [] := by
  cases vs with
  | nil => simp [Trivia.width]
  | cons v vs =>
    have hv : v.text.utf8ByteSize ≠ 0 := fun hsize =>
      h.text_ne v (by simp) (String.utf8ByteSize_eq_zero_iff.1 hsize)
    simp [Trivia.width, hv]

/-! ## Shapes -/

section Shapes

variable {c : Char} {cs : List Char}

theorem eq_false_of_head?_dropWhile {p : Char → Bool} (h : c ∈ (cs.dropWhile p).head?) :
    p c = false := by
  have hnot := List.head?_dropWhile_not p cs
  rwa [Option.mem_def.1 h] at hnot

/-- The end of a comment is the first `*/`. -/
theorem exists_of_commentEnd? {n : Nat} (h : commentEnd? cs = some n) :
    ∃ body rest, cs = body ++ ['*', '/'] ++ rest ∧ n = (body ++ ['*', '/']).length ∧
      ¬['*', '/'] <:+: body ++ ['*'] := by
  induction cs generalizing n with
  | nil => cases h
  | cons c cs ih =>
    rw [commentEnd?] at h
    split at h
    · rename_i hend
      obtain ⟨rfl, hhead⟩ : c = '*' ∧ cs.head? = some '/' := by simpa using hend
      obtain ⟨rest, rfl⟩ := List.head?_eq_some_iff.1 hhead
      exact ⟨[], rest, rfl, (Option.some.inj h).symm, by decide⟩
    · rename_i hgoOn
      obtain ⟨m, hm, rfl⟩ := Option.map_eq_some_iff.1 h
      obtain ⟨body, rest, rfl, rfl, hfirst⟩ := ih hm
      refine ⟨c :: body, rest, rfl, rfl, ?_⟩
      rw [List.cons_append, List.infix_cons_iff]
      rintro (hhere | hlater)
      · obtain ⟨hc, hbody⟩ := List.cons_prefix_cons.1 hhere
        cases body with
        | nil => simp at hbody
        | cons d body =>
          obtain ⟨hd, -⟩ := List.cons_prefix_cons.1 hbody
          simp [← hc, ← hd] at hgoOn
      · exact hfirst hlater

theorem not_infix_of_commentEnd? (h : commentEnd? cs = none) : ¬['*', '/'] <:+: cs := by
  induction cs with
  | nil => simp
  | cons c cs ih =>
    rw [commentEnd?] at h
    split at h
    · cases h
    · rename_i hgoOn
      rw [List.infix_cons_iff]
      rintro (hhere | hlater)
      · obtain ⟨hc, hcs⟩ := List.cons_prefix_cons.1 hhere
        cases cs with
        | nil => simp at hcs
        | cons d cs =>
          obtain ⟨hd, -⟩ := List.cons_prefix_cons.1 hcs
          simp [← hc, ← hd] at hgoOn
      · exact ih (Option.map_eq_none_iff.1 h) hlater

/-- What a shape cuts off has the form of its kind. -/
theorem piece_of_triviaShape? {lineStart : Bool} {shape : TriviaShape}
    (h : triviaShape? lineStart c cs = some shape) :
    Piece shape.kind (c :: cs.take shape.more) (cs.drop shape.more) := by
  have line (cs : List Char) : (∀ d ∈ cs.takeWhile fun d => !isLineBreak d, isLineBreak d = false) ∧
      ∀ d ∈ (cs.dropWhile fun d => !isLineBreak d).head?, isLineBreak d = true := by
    refine ⟨fun d hd => ?_, fun d hd => ?_⟩
    · simpa using List.mem_takeWhile_imp hd
    · simpa using eq_false_of_head?_dropWhile hd
  unfold triviaShape? at h
  split at h
  · rename_i hspace
    cases h
    simp only [take_length_takeWhile, drop_length_takeWhile]
    refine .whitespace (List.cons_ne_nil _ _) ?_ fun d hd => eq_false_of_head?_dropWhile hd
    exact List.forall_mem_cons.2 ⟨hspace, fun d hd => List.mem_takeWhile_imp hd⟩
  split at h
  · rename_i hbreak
    cases h
    rcases (by simpa [isLineBreak] using hbreak : c = '\n' ∨ c = '\r') with rfl | rfl
    · exact .lineFeed cs
    · by_cases hhead : cs.head? = some '\n'
      · obtain ⟨cs, rfl⟩ := List.head?_eq_some_iff.1 hhead
        exact .both cs
      · simpa [hhead] using Piece.carriageReturn hhead
  split at h
  · rename_i hslashes
    obtain ⟨rfl, hhead⟩ : c = '/' ∧ cs.head? = some '/' := by simpa using hslashes
    obtain ⟨cs, rfl⟩ := List.head?_eq_some_iff.1 hhead
    cases h
    simp only [restOfLine, take_length_takeWhile, drop_length_takeWhile]
    exact .lineComment (line cs).1 (line cs).2
  split at h
  · rename_i hopens
    obtain ⟨rfl, hhead⟩ : c = '/' ∧ cs.head? = some '*' := by simpa using hopens
    obtain ⟨cs, rfl⟩ := List.head?_eq_some_iff.1 hhead
    rw [List.drop_one, List.tail_cons] at h
    split at h
    · rename_i n hclosed
      obtain ⟨body, rest, rfl, rfl, hfirst⟩ := exists_of_commentEnd? hclosed
      cases h
      rw [List.take_succ_cons, List.take_left, List.drop_succ_cons, List.drop_left]
      exact .closed rest hfirst
    · rename_i hnever
      cases h
      simp only [List.take_length, List.drop_length]
      exact .unclosed (not_infix_of_commentEnd? hnever)
  split at h
  · rename_i hdirective
    obtain ⟨rfl, -⟩ : c = '#' ∧ lineStart = true := by simpa using hdirective
    cases h
    simp only [restOfLine, take_length_takeWhile, drop_length_takeWhile]
    exact .directive (line cs).1 (line cs).2
  · cases h

/-- Only where a line begins a directive is found. -/
theorem kind_ne_directive {shape : TriviaShape} (h : triviaShape? false c cs = some shape) :
    shape.kind ≠ .directive := by
  unfold triviaShape? at h
  split at h
  · cases h; simp
  split at h
  · cases h; simp
  split at h
  · cases h; simp
  split at h
  · split at h <;> cases h <;> simp
  · simp at h

end Shapes

/-! ## Runs of trivia -/

namespace Gathers

variable {trailing lineStart : Bool} {cs rest : List Char} {trivia : List Trivia}

theorem pieces (h : Gathers trailing lineStart cs trivia rest) : Pieces trivia rest := by
  induction h with
  | nil => trivial
  | token => trivial
  | @lineEnd _ c tail shape found =>
    refine ⟨?_, trivial⟩
    simpa [TriviaShape.cut, Trivia.join] using piece_of_triviaShape? found
  | @more _ c tail rest shape trivia found _ behind ih =>
    refine ⟨?_, ih⟩
    rw [behind.toList_append]
    simpa [TriviaShape.cut] using piece_of_triviaShape? found

/-- Behind a token no directive is found, and nothing behind a line break. -/
theorem trailing_kinds (h : Gathers true lineStart cs trivia rest) :
    (∀ v ∈ trivia, v.kind ≠ .directive) ∧ ∀ v ∈ trivia.dropLast, v.kind ≠ .endOfLine := by
  induction h with
  | nil => simp
  | token => simp
  | lineEnd found =>
    rw [Bool.not_true, Bool.and_false] at found
    simpa [TriviaShape.cut] using kind_ne_directive found
  | @more _ c tail rest shape trivia found goOn behind ih =>
    rw [Bool.not_true, Bool.and_false] at found
    refine ⟨List.forall_mem_cons.2 ⟨kind_ne_directive found, ih.1⟩, ?_⟩
    cases trivia with
    | nil => simp
    | cons v vs =>
      rw [List.dropLast_cons_cons]
      exact List.forall_mem_cons.2 ⟨by simpa [TriviaShape.cut] using goOn, ih.2⟩

/-- Behind a token with no line break behind it no trivia follow. -/
theorem eq_nil_of_not_endsLine {behind : List Trivia} {rest' : List Char}
    (h : Gathers true lineStart cs trivia rest) (hline : endsLine trivia = false)
    (hbehind : Gathers false false rest behind rest') : behind = [] := by
  induction h with
  | nil =>
    cases hbehind
    rfl
  | token shape =>
    rw [Bool.not_true, Bool.and_false] at shape
    cases hbehind with
    | token => rfl
    | lineEnd found => cases shape.symm.trans found
    | more found => cases shape.symm.trans found
  | lineEnd found stop => simp_all [endsLine, TriviaShape.cut]
  | @more _ c tail rest shape trivia found goOn _ ih =>
    refine ih ?_ hbehind
    cases trivia with
    | nil => rfl
    | cons v vs => simpa [endsLine] using hline

end Gathers

end NullLint.Lexer
