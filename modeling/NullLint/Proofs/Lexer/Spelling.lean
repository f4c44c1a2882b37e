import NullLint.Proofs.Lexer.Tokens

/-!
# Spellings

Marks and reserved words are each spelled in one way, and no two of them alike. A lexeme has the kind
of such a token just if it has its spelling, whatever stands before and behind it, so the name of an
identifier is never reserved.
-/

namespace NullLint

namespace Kind

/-- The mark spelled by the characters. -/
def ofMark? : List Char → Option Kind
  | [] => none
  | c :: cs => (Lexer.mark? c cs.head?).bind fun m => if m.2 = cs.length then some m.1 else none

/-- The mark or reserved word spelled by the characters. -/
def ofText? (cs : List Char) : Option Kind :=
  (ofKeyword? (String.ofList cs)).or (ofMark? cs)

/-- What is spelled can be read again. -/
theorem ofText?_of_text? {k : Kind} {s : String} (h : k.text? = some s) :
    ofText? s.toList = some k := by
  cases k <;> cases h <;> decide

theorem text?_of_ofKeyword? {word : String} {k : Kind} (h : ofKeyword? word = some k) :
    k.text? = some word := by
  unfold ofKeyword? at h
  split at h <;> cases h <;> rfl

/-- The kind of a token and its text agree. -/
structure Fits (k : Kind) (text : String) : Prop where
  /-- A kind with a spelling has this text. -/
  spelled : ∀ s, k.text? = some s → text = s
  /-- A text that spells a kind has this kind. -/
  read : ∀ k', k'.text? = some text → k = k'
  /-- An identifier has no reserved name. -/
  unreserved : k = .identifier → ofKeyword? text = none

theorem fits_of_text? {k : Kind} {text : String} (h : k.text? = some text) : k.Fits text where
  spelled s hs := Option.some.inj (h.symm.trans hs)
  read k' h' := Option.some.inj ((ofText?_of_text? h).symm.trans (ofText?_of_text? h'))
  unreserved hk := by
    subst hk
    cases h

theorem fits_of_ofText?_eq_none {k : Kind} {text : String} (hk : k.text? = none)
    (h : ofText? text.toList = none) : k.Fits text where
  spelled s hs := by
    rw [hk] at hs
    cases hs
  read k' h' := by
    rw [ofText?_of_text? h'] at h
    cases h
  unreserved _ := by
    rw [ofText?, String.ofList_toList] at h
    exact (Option.or_eq_none_iff.1 h).1

end Kind

namespace Lexer

open Kind

variable {c : Char} {cs tail : List Char}

/-- A mark is spelled by its character, or by this and the next one. -/
theorem text?_of_mark? {next : Option Char} {k : Kind} {more : Nat}
    (h : mark? c next = some (k, more)) :
    more = 0 ∧ k.text? = some (String.ofList [c]) ∨
      more = 1 ∧ ∃ d, next = some d ∧ k.text? = some (String.ofList [c, d]) := by
  unfold mark? at h
  split at h <;> cases h
  all_goals first
    | exact .inl ⟨rfl, rfl⟩
    | exact .inr ⟨rfl, _, rfl, rfl⟩

/-- A character that no mark begins is no mark alone. -/
theorem mark?_none_of_mark? {next : Option Char} (h : mark? c next = none) :
    mark? c none = none := by
  unfold mark? at h ⊢
  split at h <;> cases h
  split <;> first | rfl | contradiction

/-- No mark begins like a word, or with a digit. -/
theorem not_isWordStart_of_mark? {next : Option Char} {m : Kind × Nat} (h : mark? c next = some m) :
    isWordStart c = false ∧ c.isDigit = false := by
  unfold mark? at h
  split at h <;> cases h <;> decide

theorem isWordStart_of_ofKeyword? {k : Kind} (h : ofKeyword? (String.ofList (c :: cs)) = some k) :
    isWordStart c = true := by
  unfold ofKeyword? at h
  split at h <;> cases h
  all_goals
    rename_i hword
    have hchars := congrArg String.toList hword
    rw [String.toList_ofList] at hchars
    obtain ⟨rfl, -⟩ := List.cons.inj hchars
    decide

/-! ## Tokens -/

theorem fits_mark {k : Kind} {more : Nat} (h : mark? c tail.head? = some (k, more)) :
    k.Fits (String.ofList (c :: tail.take more)) := by
  apply fits_of_text?
  rcases text?_of_mark? h with ⟨rfl, htext⟩ | ⟨rfl, d, hd, htext⟩
  · exact htext
  · obtain ⟨rest, rfl⟩ := List.head?_eq_some_iff.1 hd
    exact htext

/-- What begins neither a word nor a mark of its length is not spelled by any kind. -/
theorem fits_unspelled {k : Kind} (hk : k.text? = none) (hword : isWordStart c = false)
    (hmark : ∀ k' more, mark? c cs.head? = some (k', more) → more ≠ cs.length) :
    k.Fits (String.ofList (c :: cs)) := by
  apply fits_of_ofText?_eq_none hk
  rw [String.toList_ofList, ofText?, Option.or_eq_none_iff]
  constructor
  · rw [Option.eq_none_iff_forall_ne_some]
    intro k' hk'
    rw [isWordStart_of_ofKeyword? hk'] at hword
    cases hword
  · rw [ofMark?, Option.bind_eq_none_iff]
    exact fun m hm => if_neg (hmark m.1 m.2 hm)

theorem fits_word (hc : isWordStart c = true) :
    (wordShape c tail).kind.Fits (String.ofList (c :: tail.take (wordShape c tail).more)) := by
  have htake : tail.take (wordShape c tail).more = tail.takeWhile isWordPart :=
    (List.prefix_iff_eq_take.1 (List.takeWhile_prefix isWordPart)).symm
  rw [htake]
  simp only [wordShape]
  cases h : ofKeyword? (String.ofList (c :: tail.takeWhile isWordPart)) with
  | some k => exact fits_of_text? (text?_of_ofKeyword? h)
  | none =>
    apply fits_of_ofText?_eq_none rfl
    rw [String.toList_ofList, ofText?, h, Option.none_or, ofMark?, Option.bind_eq_none_iff]
    intro m hm
    rw [(not_isWordStart_of_mark? hm).1] at hc
    cases hc

/-- A number that begins with a point goes on with a digit. -/
theorem two_le_numberLength (h : tail.head?.any Char.isDigit = true) :
    2 ≤ numberLength ('.' :: tail) := by
  obtain ⟨d, hd, hdigit⟩ := (Option.any_eq_true ..).1 h
  obtain ⟨rest, rfl⟩ := List.head?_eq_some_iff.1 hd
  have hwhole : digitRun ('.' :: d :: rest) = 0 := rfl
  have hfraction : 2 ≤ fractionLength ('.' :: d :: rest) := by
    simp [fractionLength, digitRun, hdigit]
    omega
  have hdecimal : digitsLength ('.' :: d :: rest) = decimalLength ('.' :: d :: rest) := rfl
  simp only [numberLength, hdecimal, decimalLength, hwhole, List.drop_zero]
  omega

theorem fits_number (hword : isWordStart c = false)
    (hc : (c.isDigit || (c == '.' && tail.head?.any Char.isDigit)) = true) :
    Kind.numericLiteral.Fits
      (String.ofList (c :: tail.take (numberLength (c :: tail) - 1))) := by
  apply fits_unspelled rfl hword
  intro k more hmark
  rw [(not_isWordStart_of_mark? hmark).2, Bool.false_or, Bool.and_eq_true, beq_iff_eq] at hc
  obtain ⟨rfl, hdigit⟩ := hc
  have hnumber := two_le_numberLength hdigit
  cases tail with
  | nil => cases hdigit
  | cons d rest =>
    obtain rfl : 0 = more := congrArg Prod.snd (Option.some.inj hmark)
    simp only [List.length_take, List.length_cons]
    omega

/-- A kind whose tokens begin with a character that begins no other ones. -/
theorem fits_quoted {k : Kind} (hk : k.text? = none) (hword : isWordStart c = false)
    (hmark : ∀ next, mark? c next = none) : k.Fits (String.ofList (c :: cs)) := by
  apply fits_unspelled hk hword
  intro k' more hm
  rw [hmark] at hm
  cases hm

theorem fits_stray {next : Option Char} (hword : isWordStart c = false)
    (hmark : mark? c next = none) : Kind.unknown.Fits (String.ofList (c :: tail.take 0)) := by
  rw [List.take_zero]
  apply fits_unspelled rfl hword
  intro k more hm
  rw [List.head?_nil, mark?_none_of_mark? hmark] at hm
  cases hm

theorem fits_tokenShape (c : Char) (tail : List Char) :
    (tokenShape c tail).kind.Fits (String.ofList (c :: tail.take (tokenShape c tail).more)) := by
  unfold tokenShape
  split
  · rename_i hc
    exact fits_word hc
  rename_i hc
  rw [Bool.not_eq_true] at hc
  split
  · rename_i hnumber
    exact fits_number hc hnumber
  split
  · exact fits_quoted rfl rfl fun _ => rfl
  · exact fits_quoted rfl rfl fun _ => rfl
  · exact fits_quoted rfl rfl fun _ => rfl
  · exact fits_quoted rfl rfl fun _ => rfl
  · exact fits_quoted rfl rfl fun _ => rfl
  split
  · rename_i hverbatim
    simp only [Bool.and_eq_true, beq_iff_eq] at hverbatim
    obtain ⟨rfl, -⟩ := hverbatim
    exact fits_quoted rfl hc fun _ => rfl
  split
  · rename_i kind more hmark
    exact fits_mark hmark
  · rename_i hmark
    exact fits_stray hc hmark

theorem fits_lexFrom (lineStart : Bool) (offset : Nat) (cs : List Char) :
    ∀ l ∈ (lexFrom lineStart offset cs).1, l.kind.Fits l.token.text := by
  fun_induction lexFrom lineStart offset cs with
  | case1 =>
    intro l hl
    obtain rfl := List.mem_singleton.1 hl
    have hempty : ofText? "".toList = none := by decide
    exact fits_of_ofText?_eq_none rfl hempty
  | case2 lineStart offset cs lead c tail h shape text trail lexemes errors hrec ih =>
    rw [hrec] at ih
    exact List.forall_mem_cons.2 ⟨fits_tokenShape c tail, ih⟩

/-- Kinds and texts of lexemes agree, in every text: a lexeme whose kind has a spelling has this text,
one whose text spells a kind has this kind, and no identifier has a reserved name. -/
theorem lex_fits (text : String) : ∀ l ∈ (lex text).1,
    (∀ s, l.kind.text? = some s → l.token.text = s) ∧
      (∀ k : Kind, k.text? = some l.token.text → l.kind = k) ∧
      (l.kind = .identifier → Kind.ofKeyword? l.token.text = none) := by
  intro l hl
  have hfits := fits_lexFrom true 0 text.toList l hl
  exact ⟨hfits.spelled, hfits.read, hfits.unreserved⟩

/-- In `a???@if` a question mark is left behind `??`, and what follows it is not reserved. -/
theorem lex_fits_verbatim :
    let question : Lexeme := ⟨⟨.question, "?", [], [], false⟩, 3⟩
    let name : Lexeme := ⟨⟨.identifier, "@if", [], [], false⟩, 4⟩
    question ∈ (lex "a???@if").1 ∧ name ∈ (lex "a???@if").1 ∧
      (∀ k : Kind, k.text? = some "?" → .question = k) ∧ Kind.ofKeyword? "@if" = none := by
  intro question name
  have hquestion : question ∈ (lex "a???@if").1 := by decide +kernel
  have hname : name ∈ (lex "a???@if").1 := by decide +kernel
  exact ⟨hquestion, hname, (lex_fits _ _ hquestion).2.1, (lex_fits _ _ hname).2.2 rfl⟩

end Lexer

end NullLint
