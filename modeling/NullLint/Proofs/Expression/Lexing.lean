import NullLint.Proofs.Lexer.Lossless
import NullLint.Proofs.Expression.Canonical

/-!
# Lexing canonical expressions

A canonical expression that is written out is cut into its own tokens again: every token ends at the
space behind it, and a `?` at the `.` or `[` that follows it.
-/

namespace NullLint

namespace Lexer

/-- No trivia stand first. -/
def Ready : List Char → Prop
  | [] => True
  | c :: tail => ∀ lineStart, triviaShape? lineStart c tail = none

/-- The characters are cut into these tokens without errors, and no trivia stand before them. -/
structure Lexes (cs : List Char) (ts : List Token) : Prop where
  ready : Ready cs
  tokens : ∀ lineStart offset, (lexFrom lineStart offset cs).1.map Lexeme.token = ts
  errors : ∀ lineStart offset, (lexFrom lineStart offset cs).2 = []

variable {cs : List Char} {ts : List Token}

theorem triviaRun_of_ready (h : Ready cs) (trailing lineStart : Bool) (offset : Nat) :
    triviaRun trailing lineStart offset cs = ⟨[], [], offset, cs⟩ := by
  rw [triviaRun.eq_def]
  cases cs with
  | nil => rfl
  | cons c tail => simp [h (lineStart && !trailing)]

theorem takeWhile_isSpace_of_ready (h : Ready cs) : cs.takeWhile isSpace = [] := by
  cases cs with
  | nil => rfl
  | cons c tail =>
    have hshape : triviaShape? false c tail = none := h false
    cases hc : isSpace c with
    | false => simp [hc]
    | true => simp [triviaShape?, hc] at hshape

/-- The single space behind a token. -/
theorem triviaRun_space (h : Ready cs) (offset : Nat) :
    triviaRun true false offset (' ' :: cs) = ⟨[⟨.whitespace, " "⟩], [], offset + 1, cs⟩ := by
  have hshape : triviaShape? false ' ' cs =
      some ⟨.whitespace, (cs.takeWhile isSpace).length, false⟩ := rfl
  rw [takeWhile_isSpace_of_ready h] at hshape
  rw [triviaRun.eq_def]
  simp only [Bool.false_and, hshape, List.length_nil, List.take_zero, List.drop_zero,
    triviaRun_of_ready h]
  rfl

theorem lexFrom_cons {c : Char} {tail : List Char} (h : Ready (c :: tail)) (lineStart : Bool)
    (offset : Nat) :
    lexFrom lineStart offset (c :: tail) =
      let shape := tokenShape c tail
      let text := c :: tail.take shape.more
      let trail := triviaRun true false (offset + Text.byteLength text) (tail.drop shape.more)
      let (lexemes, errors) := lexFrom (endsLine trail.trivia) trail.offset trail.rest
      (⟨⟨shape.kind, String.ofList text, [], trail.trivia, false⟩, offset⟩ :: lexemes,
        (shape.fault.map (Fault.toError offset text)).toList ++ trail.errors ++ errors) := by
  rw [lexFrom]
  simp only
  split
  · rename_i hnil
    simp [triviaRun_of_ready h] at hnil
  · rename_i c' tail' hcons
    rw [triviaRun_of_ready h] at hcons
    cases hcons
    simp [triviaRun_of_ready h]

theorem lexes_nil : Lexes [] [⟨.endOfFile, "", [], [], false⟩] := by
  constructor
  · trivial
  · intro lineStart offset
    rw [lexFrom_nil]
    rfl
  · intro lineStart offset
    rw [lexFrom_nil]

/-- Before `rest` the text is one token of the kind `k`. -/
def Scans (text : String) (k : Kind) (rest : List Char) : Prop :=
  ∃ c word, text.toList = c :: word ∧ Ready (c :: (word ++ rest)) ∧
    tokenShape c (word ++ rest) = ⟨k, word.length, none⟩

/-- A token is put before tokens that are lexed, with a gap between. -/
theorem Lexes.cons {text : String} {k : Kind} {trivia : List Trivia} (h : Lexes cs ts)
    (gap : List Char) (htext : Scans text k (gap ++ cs))
    (hgap : ∀ offset, ∃ after, triviaRun true false offset (gap ++ cs) = ⟨trivia, [], after, cs⟩) :
    Lexes (text.toList ++ (gap ++ cs)) (⟨k, text, [], trivia, false⟩ :: ts) := by
  obtain ⟨c, word, hword, hready, hshape⟩ := htext
  have htoken : String.ofList (c :: word) = text := by rw [← hword, String.ofList_toList]
  rw [hword, List.cons_append]
  constructor
  · exact hready
  · intro lineStart offset
    obtain ⟨after, htrail⟩ := hgap (offset + Text.byteLength (c :: word))
    simp only [lexFrom_cons hready, hshape, List.take_left, List.drop_left, htrail, htoken,
      List.map_cons, h.tokens]
  · intro lineStart offset
    obtain ⟨after, htrail⟩ := hgap (offset + Text.byteLength (c :: word))
    simp only [lexFrom_cons hready, hshape, List.take_left, List.drop_left, htrail, h.errors,
      Option.map_none, Option.toList_none, List.append_nil]

theorem Lexes.glue {text : String} {k : Kind} (h : Lexes cs ts) (htext : Scans text k cs) :
    Lexes (text.toList ++ cs) (⟨k, text, [], [], false⟩ :: ts) :=
  h.cons [] htext fun offset => ⟨offset, triviaRun_of_ready h.ready true false offset⟩

theorem Lexes.space {text : String} {k : Kind} (h : Lexes cs ts)
    (htext : Scans text k (' ' :: cs)) :
    Lexes (text.toList ++ ' ' :: cs) (⟨k, text, [], [⟨.whitespace, " "⟩], false⟩ :: ts) :=
  h.cons [' '] htext fun offset => ⟨offset + 1, triviaRun_space h.ready offset⟩

/-! ## Single tokens -/

/-- Letters, digits and underscores begin no trivia. -/
theorem ready_of_isWordChar {c : Char} (h : (c.isAlphanum || c == '_') = true)
    (tail : List Char) : Ready (c :: tail) := by
  intro lineStart
  have hne : ∀ d : Char, (d.isAlphanum || d == '_') = false → c ≠ d := by
    rintro d hd rfl
    exact Bool.false_ne_true (hd.symm.trans h)
  simp [triviaShape?, isSpace, isLineBreak, hne ' ' rfl, hne '\t' rfl, hne '\x0b' rfl,
    hne '\x0c' rfl, hne '\n' rfl, hne '\r' rfl, hne '/' rfl, hne '#' rfl]

theorem isWordPart_of_isWordChar {c : Char} (h : (c.isAlphanum || c == '_') = true) :
    isWordPart c = true := by
  simp only [Char.isAlphanum, Bool.or_eq_true] at h
  rcases h with (h | h) | h <;> simp [isWordPart, h]

/-- A word up to a space. -/
theorem scans_word {text : String} (h : Canonical.isWord text.toList = true) (cs : List Char) :
    Scans text ((Kind.ofKeyword? text).getD .identifier) (' ' :: cs) := by
  cases htext : text.toList with
  | nil => simp [htext, Canonical.isWord] at h
  | cons c word =>
    simp only [htext, Canonical.isWord, Bool.and_eq_true, List.all_eq_true] at h
    have hword : (word ++ ' ' :: cs).takeWhile isWordPart = word := by
      rw [List.takeWhile_append_of_pos fun d hd => isWordPart_of_isWordChar (h.2 d hd)]
      simp [show isWordPart ' ' = false from rfl]
    have hstart : isWordStart c = true := by
      rcases Bool.or_eq_true_iff.1 h.1 with hc | hc <;> simp [isWordStart, hc]
    have hchar : (c.isAlphanum || c == '_') = true := by
      rcases Bool.or_eq_true_iff.1 h.1 with hc | hc <;> simp [Char.isAlphanum, hc]
    refine ⟨c, word, htext, ready_of_isWordChar hchar _, ?_⟩
    rw [tokenShape.eq_def, if_pos hstart, wordShape, hword, ← htext, String.ofList_toList]

theorem isAlpha_eq_false_of_lt {c : Char} (h : c.toNat < 65) : c.isAlpha = false := by
  have hupper : c.isUpper = false := by
    apply decide_eq_false
    rintro ⟨hlow, -⟩
    exact Nat.not_le.2 h (UInt32.le_iff_toNat_le.1 hlow)
  have hlower : decide ('a'.val ≤ c.val) = false := by
    apply decide_eq_false
    intro hlow
    have hlow : 97 ≤ c.toNat := UInt32.le_iff_toNat_le.1 hlow
    omega
  change (c.isUpper || (decide ('a'.val ≤ c.val) && decide (c.val ≤ 'z'.val))) = false
  rw [hupper, hlower]
  rfl

theorem isWordStart_of_isDigit {c : Char} (h : c.isDigit = true) : isWordStart c = false := by
  have hne : c ≠ '_' := by
    rintro rfl
    cases h
  have hlt : c.toNat < 58 := by
    have hrange : 48 ≤ c.toNat ∧ c.toNat ≤ 57 := by
      simpa [Char.isDigit, UInt32.le_iff_toNat_le] using h
    omega
  have halpha : c.isAlpha = false := isAlpha_eq_false_of_lt (by omega)
  have hascii : ¬128 ≤ c.toNat := by omega
  simp [isWordStart, Text.isLetter, hne, halpha, hascii]

section Digits

variable {ds : List Char} (h : ∀ d ∈ ds, d.isDigit = true) (cs : List Char)
include h

theorem decimalLength_digits : decimalLength (ds ++ ' ' :: cs) = ds.length := by
  have hrun : (ds ++ ' ' :: cs).takeWhile (fun c => c.isDigit || c == '_') = ds := by
    rw [List.takeWhile_append_of_pos fun d hd => by simp [h d hd]]
    simp
  simp [decimalLength, digitRun, hrun, fractionLength, exponentLength]

/-- What follows the first digit is another digit or the space, hence no `x`. -/
theorem ne_x_of_digits {x y : Char} {rest : List Char} (heq : ds ++ ' ' :: cs = y :: x :: rest)
    (hy : y ≠ ' ') : ¬(x == 'x' || x == 'X') = true := by
  intro hx
  match ds, h, heq with
  | [], _, heq => exact hy (List.cons.inj heq).1.symm
  | [_], _, heq =>
    obtain ⟨-, rfl, -⟩ : _ ∧ ' ' = x ∧ _ := by simpa using heq
    cases hx
  | _ :: d :: _, h, heq =>
    obtain ⟨-, rfl, -⟩ : _ ∧ d = x ∧ _ := by simpa using heq
    have hd := h d (by simp)
    rcases Bool.or_eq_true_iff.1 hx with hx | hx <;>
      · rw [beq_iff_eq.1 hx] at hd
        cases hd

theorem digitsLength_digits : digitsLength (ds ++ ' ' :: cs) = ds.length := by
  unfold digitsLength
  split
  · rename_i x rest heq
    rw [if_neg (ne_x_of_digits h cs heq (by decide)), decimalLength_digits h]
  · exact decimalLength_digits h cs

/-- A number ends where its digits do if a space stands behind them. -/
theorem numberLength_digits : numberLength (ds ++ ' ' :: cs) = ds.length := by
  rw [numberLength, digitsLength_digits h, List.drop_left]
  simp

end Digits

theorem scans_digits {text : String} (hne : text ≠ "")
    (h : text.toList.all Char.isDigit = true) (cs : List Char) :
    Scans text .numericLiteral (' ' :: cs) := by
  rw [List.all_eq_true] at h
  cases htext : text.toList with
  | nil => exact absurd (String.toList_inj.1 htext) hne
  | cons c word =>
    rw [htext] at h
    have hc := h c List.mem_cons_self
    have hlength := numberLength_digits h cs
    refine ⟨c, word, htext, ?_, ?_⟩
    · exact ready_of_isWordChar (by simp [Char.isAlphanum, hc]) _
    · rw [tokenShape.eq_def, if_neg (by simp [isWordStart_of_isDigit hc]), if_pos (by simp [hc]),
        ← List.cons_append, hlength]
      rfl

/-- A plain literal runs up to its closing quote. -/
theorem quotedLength_quotable (body cs : List Char) (h : Canonical.isQuotable body = true) :
    quotedLength '"' false (body ++ '"' :: ' ' :: cs) = (body.length + 1, true) := by
  fun_induction Canonical.isQuotable body with
  | case1 => rfl
  | case2 => cases h
  | case3 c tail ih =>
    simp only [Bool.and_eq_true, bne_iff_ne] at h
    obtain ⟨⟨hn, hr⟩, htail⟩ := h
    simp [quotedLength, isLineBreak, hn, hr, ih htail]
  | case4 c tail hlast hguard ih =>
    simp only [Bool.and_eq_true, bne_iff_ne] at h
    obtain ⟨⟨⟨hquote, hn⟩, hr⟩, htail⟩ := h
    have hbackslash : c ≠ '\\' := by
      intro hc
      cases tail with
      | nil => exact hlast hc rfl
      | cons d ds => exact hguard d ds hc rfl
    obtain ⟨d, ds, hd⟩ := List.exists_cons_of_ne_nil
      (List.append_ne_nil_of_right_ne_nil tail (List.cons_ne_nil '"' (' ' :: cs)))
    have hrest := ih htail
    rw [hd] at hrest
    simp [hd, quotedLength, isLineBreak, hbackslash, hquote, hn, hr, hrest]

theorem scans_quoted {body : String} (h : Canonical.isQuotable body.toList = true)
    (cs : List Char) : Scans ("\"" ++ body ++ "\"") .stringLiteral (' ' :: cs) := by
  refine ⟨'"', body.toList ++ ['"'], by simp, fun b => rfl, ?_⟩
  have hshape : ∀ tail, tokenShape '"' tail = quotedShape .stringLiteral '"' false 0 tail :=
    fun _ => rfl
  rw [List.append_assoc, List.singleton_append, hshape, quotedShape,
    quotedLength_quotable body.toList cs h]
  simp

/-- The spelling of a mark or reserved word is lexed as such before a space. -/
theorem scans_mark {k : Kind} {text : String} (h : k.text? = some text) (cs : List Char) :
    Scans text k (' ' :: cs) := by
  cases k <;> cases h <;> exact ⟨_, _, rfl, fun b => rfl, rfl⟩

end Lexer

namespace Canonical

open Lexer

/-! ## Written tokens -/

/-- Written out before a text that is lexed, the tokens are lexed as they are. -/
def Writes (ts : List Token) : Prop :=
  ∀ cs us, Lexes cs us → Lexes ((written ts).toList ++ cs) (ts.map Token.spaced ++ us)

theorem writes_nil : Writes [] := by
  intro cs us h
  exact h

theorem Writes.append {ts us : List Token} (h : Writes ts) (h' : Writes us) :
    Writes (ts ++ us) := by
  intro cs vs hcs
  have happend := h _ _ (h' cs vs hcs)
  simpa [written] using happend

theorem writes_bare {k : Kind} {text : String} (hk : k ≠ .question)
    (h : ∀ cs, Scans text k (' ' :: cs)) : Writes [bare k text] := by
  intro cs us hcs
  have hspace := hcs.space (h cs)
  simpa [written, bare, Token.spaced, hk] using hspace

/-- Kinds that have one spelling and a space behind it. -/
def isMark (k : Kind) : Bool := k.text?.isSome && k != .question

theorem writes_mark {k : Kind} (hk : isMark k = true) : Writes (mark k).tokens := by
  simp only [isMark, Bool.and_eq_true, bne_iff_ne] at hk
  obtain ⟨text, htext⟩ := Option.isSome_iff_exists.1 hk.1
  apply writes_bare hk.2
  intro cs
  rw [htext]
  exact scans_mark htext cs

theorem isMark_of_operator {k : Kind}
    (h : Parser.isSignOperator k = true ∨ isStep k = true ∨ 0 < k.precedence) :
    isMark k = true := by
  revert h
  cases k <;> decide

theorem toList_written_mark {k : Kind} (hk : k ≠ .question) (ts : List Token) :
    (written ((mark k).tokens ++ ts)).toList =
      (k.text?.getD "").toList ++ ' ' :: (written ts).toList := by
  simp [written, mark, bare, hk]

/-- A `?` may be written right before a `.` or `[`. -/
theorem writes_question {k : Kind} (hk : k = .dot ∨ k = .openBracket) {ts : List Token}
    (h : Writes ((mark k).tokens ++ ts)) :
    Writes ((mark .question).tokens ++ ((mark k).tokens ++ ts)) := by
  intro cs us hcs
  have hscans : Scans "?" .question ((written ((mark k).tokens ++ ts)).toList ++ cs) := by
    rcases hk with rfl | rfl <;>
      · rw [toList_written_mark (by decide)]
        exact ⟨'?', [], rfl, fun _ => rfl, rfl⟩
  have hglue := (h cs us hcs).glue hscans
  have htext : Kind.question.text? = some "?" := rfl
  simpa [written, mark, bare, Token.spaced, htext] using hglue

theorem writes_group (k : Kind) {cs : List Green} (h : cs.Forall fun c => Writes c.tokens) :
    Writes (Green.group k cs).tokens := by
  rw [Node.tokens_branch]
  induction cs with
  | nil => exact writes_nil
  | cons c cs ih =>
    obtain ⟨hc, hcs⟩ := List.forall_cons _ _ _ |>.1 h
    exact hc.append (ih hcs)

/-! ## Written expressions -/

theorem writes_name (x : Name) : Writes x.leaf.tokens := by
  apply writes_bare (by decide)
  intro cs
  have hword := scans_word x.isWord cs
  rwa [x.notReserved] at hword

theorem writes_literal (value : Literal) : Writes value.tree.tokens := by
  cases value with
  | integer digits hne hdigits =>
    exact writes_bare (k := .numericLiteral) (by decide) (scans_digits hne hdigits)
  | string body hbody =>
    exact writes_bare (k := .stringLiteral) (by decide) (scans_quoted hbody)
  | null => exact writes_mark (k := .nullKeyword) rfl
  | true => exact writes_mark (k := .trueKeyword) rfl
  | false => exact writes_mark (k := .falseKeyword) rfl

section Layers

variable {E : Type} {nested : E → Green} (h : ∀ e, Writes (nested e).tokens)
include h

theorem writes_arguments {opening closing : Kind} (kind : Kind) (hopening : isMark opening = true)
    (hclosing : isMark closing = true) (es : List E) :
    Writes (argumentsTree nested opening closing kind es).tokens := by
  have hes : ∀ c ∈ (es.map nested).intersperse (mark .comma), Writes c.tokens := by
    have hcomma : Writes (mark .comma).tokens := writes_mark rfl
    cases es with
    | nil => exact List.forall_mem_nil _
    | cons e es =>
      simp only [List.map_cons, intersperse_cons, List.forall_mem_cons, List.forall_mem_flatMap,
        List.forall_mem_map]
      exact ⟨h e, fun e _ => ⟨hcomma, h e, List.forall_mem_nil _⟩⟩
  apply writes_group
  rw [List.forall_cons, List.forall_append]
  exact ⟨writes_mark hopening, List.forall_iff_forall_mem.2 hes, writes_mark hclosing⟩

theorem writes_primary (e : Primary E) : Writes (e.tree nested).tokens := by
  cases e with
  | name x => exact writes_name x
  | literal value => exact writes_literal value
  | this => exact writes_mark (k := .thisKeyword) rfl
  | parenthesized e =>
    apply writes_group
    exact ⟨writes_mark rfl, h e, writes_mark rfl⟩
  | creation x es =>
    apply writes_group
    exact ⟨writes_mark rfl, writes_name x, writes_arguments h _ rfl rfl es⟩

theorem writes_postfixed (e : Postfixed E) : Writes (e.tree nested).tokens := by
  induction e with
  | primary e => exact writes_primary h e
  | member e x ih =>
    apply writes_group
    exact ⟨ih, writes_mark rfl, writes_name x⟩
  | conditionalMember e x ih =>
    have haccess := writes_question (.inl rfl) ((writes_mark rfl).append (writes_name x))
    simpa [Postfixed.tree, Name.tree] using ih.append haccess
  | element e es ih =>
    apply writes_group
    exact ⟨ih, writes_arguments h _ rfl rfl es⟩
  | conditionalElement e es ih =>
    have harguments : Writes (bracketedTree nested es).tokens := writes_arguments h _ rfl rfl es
    have haccess : Writes ((mark .question).tokens ++ (bracketedTree nested es).tokens) :=
      writes_question (.inr rfl) harguments
    simpa [Postfixed.tree] using ih.append haccess
  | call e es ih =>
    apply writes_group
    exact ⟨ih, writes_arguments h _ rfl rfl es⟩
  | assertion e ih =>
    apply writes_group
    exact ⟨ih, writes_mark rfl⟩
  | step e operator ih =>
    apply writes_group
    exact ⟨ih, writes_mark (isMark_of_operator (.inr (.inl operator.2)))⟩

theorem writes_signed (e : Signed E) : Writes (e.tree nested).tokens := by
  induction e with
  | operand e => exact writes_postfixed h e
  | sign operator e ih =>
    apply writes_group
    exact ⟨writes_mark (isMark_of_operator (.inl operator.2)), ih⟩

omit h in
theorem writes_leftGrouped {joins : Kind → Bool} {O : Type} {part : O → Green}
    (h : ∀ e, Writes (part e).tokens) (hjoins : ∀ k, joins k = true → isMark k = true)
    (e : LeftGrouped joins O) : Writes (e.tree part).tokens := by
  induction e with
  | operand e => exact h e
  | join left operator right ih =>
    apply writes_group
    exact ⟨ih, writes_mark (hjoins _ operator.2), h right⟩

omit h in
theorem writes_rightGrouped {O : Type} {part : O → Green} (h : ∀ e, Writes (part e).tokens)
    (kind : Kind) {operator : Kind} (hoperator : isMark operator = true) (e : RightGrouped O) :
    Writes (e.tree kind operator part).tokens := by
  induction e with
  | operand e => exact h e
  | join left right ih =>
    apply writes_group
    exact ⟨h left, writes_mark hoperator, ih⟩

theorem writes_binaryAbove {levels : List Nat} (hlevels : ∀ level ∈ levels, 0 < level)
    (e : BinaryAbove E levels) : Writes (e.tree nested).tokens := by
  induction levels with
  | nil => exact writes_signed h e
  | cons level levels ih =>
    obtain ⟨hlevel, hlevels⟩ := List.forall_mem_cons.1 hlevels
    apply writes_leftGrouped (ih hlevels)
    intro k hk
    obtain rfl := beq_iff_eq.1 hk
    exact isMark_of_operator (.inr (.inr hlevel))

theorem writes_coalesced (e : Coalesced E) : Writes (e.tree nested).tokens :=
  writes_rightGrouped (writes_binaryAbove h (by decide)) _ rfl e

theorem writes_assigned (e : Assigned E) : Writes (e.tree nested).tokens :=
  writes_rightGrouped (writes_coalesced h) _ rfl e

end Layers

/-- Written out, an expression is lexed into its own tokens. -/
theorem writes_expression {depth : Nat} (e : Expression depth) : Writes e.tree.tokens := by
  induction depth with
  | zero => exact nomatch e
  | succ depth ih => exact writes_assigned ih e

end Canonical

end NullLint
