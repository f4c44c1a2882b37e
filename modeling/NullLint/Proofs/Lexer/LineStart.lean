import NullLint.Proofs.Lexer.ByteWise
import NullLint.Proofs.Lexer.Pieces

/-!
# Where a line begins

While it reads on, the lexer keeps in mind whether a directive may come next. Looking back over the
text it has read tells the same (`Lexer.opensLine`). Comments and literals may contain line breaks,
but one that is not the last of the file ends behind them with more than blanks.
-/

namespace NullLint.Lexer

/-- A blank that may stand before a directive. -/
def isIndent (c : Char) : Bool := c == ' ' || c == '\t'

/-- Whether behind this text a line begins, with no more than spaces and tabs on it. -/
def opensLine (behind : List Char) : Bool :=
  (behind.reverse.dropWhile isIndent).head?.all isLineBreak

theorem isLineBreak_eq_false {p : Char → Bool} (hfeed : p '\n' = false) (hreturn : p '\r' = false)
    {c : Char} (hc : p c = true) : isLineBreak c = false := by
  rw [← Bool.not_eq_true]
  intro hbreak
  obtain rfl | rfl : c = '\n' ∨ c = '\r' := by simpa [isLineBreak] using hbreak
  · cases hfeed.symm.trans hc
  · cases hreturn.symm.trans hc

section Looking

variable {behind cs : List Char}

theorem opensLine_concat (behind : List Char) (c : Char) :
    opensLine (behind ++ [c]) = if isIndent c then opensLine behind else isLineBreak c := by
  cases hc : isIndent c <;> simp [opensLine, hc]

theorem opensLine_append_of_indent (h : ∀ c ∈ cs, isIndent c = true) :
    opensLine (behind ++ cs) = opensLine behind := by
  induction cs using List.reverseRecOn with
  | nil => rw [List.append_nil]
  | append_singleton cs c ih =>
    obtain ⟨hcs, hc⟩ := List.forall_mem_append.1 h
    rw [← List.append_assoc, opensLine_concat, if_pos (hc c (by simp)), ih hcs]

/-- The text ends with more than blanks behind its last line break. -/
inductive Shuts : List Char → Prop where
  | intro (start : List Char) {c : Char} {tail : List Char} (shown : isIndent c = false)
      (line : ∀ d ∈ c :: tail, isLineBreak d = false) : Shuts (start ++ c :: tail)

/-- Behind such a text no line begins, whatever is before it. -/
theorem Shuts.opensLine_eq (h : Shuts cs) (behind : List Char) :
    opensLine (behind ++ cs) = false := by
  obtain ⟨start, hshown, hline⟩ := h
  rename_i c tail
  induction tail using List.reverseRecOn with
  | nil =>
    rw [← List.append_assoc, opensLine_concat, hshown]
    exact hline c (by simp)
  | append_singleton tail d ih =>
    rw [← List.cons_append] at hline
    obtain ⟨hline, hd⟩ := List.forall_mem_append.1 hline
    have hassoc : behind ++ (start ++ c :: (tail ++ [d])) =
        (behind ++ (start ++ c :: tail)) ++ [d] := by simp
    rw [hassoc, opensLine_concat]
    split
    · exact ih hline
    · exact hd d (by simp)

theorem Shuts.of_line {c : Char} (shown : isIndent c = false)
    (line : ∀ d ∈ c :: cs, isLineBreak d = false) : Shuts (c :: cs) :=
  .intro [] shown line

theorem Graphic.shown {c : Char} (h : Graphic c) : isIndent c = false ∧ isLineBreak c = false := by
  have hne {a : Char} (ha : ¬Graphic a) : (c == a) = false :=
    beq_eq_false_iff_ne.2 fun hc => ha (hc ▸ h)
  simp [isIndent, isLineBreak, hne (a := ' ') (by decide), hne (a := '\t') (by decide),
    hne (a := '\n') (by decide), hne (a := '\r') (by decide)]

theorem Shuts.concat (start : List Char) {c : Char} (h : Graphic c) : Shuts (start ++ [c]) :=
  .intro start h.shown.1 (by simpa using h.shown.2)

theorem Plain.shuts {n : Nat} {c : Char} (h : Plain (n + 1) (c :: cs)) :
    Shuts (c :: cs.take n) := by
  obtain ⟨hc, hcs⟩ := List.forall_mem_cons.1 (List.take_succ_cons ▸ h.graphic)
  exact .of_line hc.shown.1 (List.forall_mem_cons.2 ⟨hc.shown.2, fun d hd => (hcs d hd).shown.2⟩)

end Looking

/-! ## Trivia -/

/-- Behind a piece of trivia a line begins just where the lexer takes it to. -/
theorem Piece.opensLine_eq {kind : TriviaKind} {cs rest : List Char} (h : Piece kind cs rest)
    (hrest : rest ≠ []) (behind : List Char) :
    opensLine (behind ++ cs) = keepsLineStart (opensLine behind) kind cs := by
  cases h with
  | whitespace nonempty spaces =>
    have hline : ∀ c ∈ cs, isLineBreak c = false := fun c hc =>
      isLineBreak_eq_false (p := isSpace) rfl rfl (spaces c hc)
    cases hall : cs.all isIndent with
    | true =>
      rw [opensLine_append_of_indent (List.all_eq_true.1 hall)]
      exact (Bool.and_eq_left_iff_imp.2 fun _ => hall).symm
    | false =>
      obtain ⟨c, hc, hshown⟩ := List.all_eq_false.1 hall
      obtain ⟨start, tail, rfl⟩ := List.append_of_mem hc
      rw [Shuts.opensLine_eq (.intro start (by simpa using hshown)
        (List.forall_mem_append.1 hline).2)]
      exact ((congrArg (opensLine behind && ·) hall).trans (Bool.and_false _)).symm
  | lineFeed => exact opensLine_concat behind '\n'
  | carriageReturn => exact opensLine_concat behind '\r'
  | both => rw [List.append_cons]; exact opensLine_concat (behind ++ ['\r']) '\n'
  | lineComment line =>
    refine Shuts.opensLine_eq (.of_line (by decide) ?_) behind
    exact List.forall_mem_cons.2 ⟨by decide, List.forall_mem_cons.2 ⟨by decide, line⟩⟩
  | @closed body =>
    have hends := Shuts.concat ('/' :: '*' :: (body ++ ['*'])) (c := '/') (by decide)
    simpa [keepsLineStart] using hends.opensLine_eq behind
  | unclosed => exact absurd rfl hrest
  | directive line =>
    exact Shuts.opensLine_eq
      (.of_line (by decide) (List.forall_mem_cons.2 ⟨by decide, line⟩)) behind

namespace Gathers

variable {lineStart : Bool} {behind cs rest : List Char} {trivia xs ys : List Trivia}

/-- Within a run of trivia the lexer goes on from what it sees when it looks back. -/
theorem goesOn (h : Gathers false (opensLine behind) cs (xs ++ ys) rest)
    (hmore : (Trivia.join ys).toList ++ rest ≠ []) :
    Gathers false (opensLine (behind ++ (Trivia.join xs).toList))
      ((Trivia.join ys).toList ++ rest) ys rest := by
  induction xs generalizing behind cs with
  | nil =>
    rw [List.nil_append] at h
    rw [h.toList_append]
    simpa [Trivia.join] using h
  | cons v xs ih =>
    rw [List.cons_append] at h
    generalize hvs : v :: (xs ++ ys) = vs at h
    cases h with
    | nil => cases hvs
    | token => cases hvs
    | lineEnd _ stop => cases stop
    | @more _ c tail _ shape trivia found goOn rest' =>
      obtain ⟨rfl, rfl⟩ := List.cons.inj hvs
      have hleft : tail.drop shape.more ≠ [] := by
        rw [← rest'.toList_append]
        simpa [Trivia.join] using fun _ => hmore
      rw [← (piece_of_triviaShape? found).opensLine_eq hleft] at rest'
      simpa [Trivia.join, TriviaShape.cut] using ih rest'

/-- A directive is found only where a line begins. -/
theorem opensLine_of_directive {v : Trivia} (h : Gathers false (opensLine behind) cs (v :: ys) rest)
    (hv : v.kind = .directive) : opensLine behind = true := by
  cases h with
  | lineEnd _ stop => cases stop
  | more found =>
    cases hline : opensLine behind with
    | true => rfl
    | false =>
      rw [hline] at found
      exact absurd hv (kind_ne_directive found)

/-- Where a line begins a `#` is not left to be a token. -/
theorem opensLine_eq_false {tail : List Char}
    (h : Gathers false (opensLine behind) ('#' :: tail) [] ('#' :: tail)) :
    opensLine behind = false := by
  cases h with
  | token shape => simpa using (triviaShape?_eq_none_iff.1 shape).2.2.2

/-- What is left begins with no blank and no line break. -/
theorem not_space {c : Char} {tail : List Char}
    (h : Gathers false lineStart cs trivia (c :: tail)) :
    isSpace c = false ∧ isLineBreak c = false := by
  generalize hrest : c :: tail = rest at h
  induction h with
  | nil => cases hrest
  | token shape =>
    obtain ⟨rfl, rfl⟩ := List.cons.inj hrest
    obtain ⟨hspace, hbreak, -⟩ := triviaShape?_eq_none_iff.1 shape
    exact ⟨hspace, hbreak⟩
  | lineEnd _ stop => cases stop
  | more _ _ _ ih => exact ih hrest

/-- Behind the trivia of a token a line begins just if they end with a line break. -/
theorem opensLine_trailing (h : Gathers true lineStart cs trivia rest) (hrest : rest ≠ [])
    (hbehind : opensLine behind = false) :
    opensLine (behind ++ (Trivia.join trivia).toList) = endsLine trivia := by
  induction h generalizing behind with
  | nil => exact absurd rfl hrest
  | token => simpa [Trivia.join, endsLine] using hbehind
  | @lineEnd _ c tail shape found stop =>
    have hkind : shape.kind = .endOfLine := by simpa using stop
    have hpiece := (piece_of_triviaShape? found).opensLine_eq hrest behind
    simpa [Trivia.join, TriviaShape.cut, endsLine, hkind, keepsLineStart] using hpiece
  | @more _ c tail rest shape trivia found goOn rest' ih =>
    have hkind : shape.kind ≠ .endOfLine := by simpa using goOn
    have hleft : tail.drop shape.more ≠ [] := by
      rw [← rest'.toList_append]
      simpa using fun _ => hrest
    have hpiece := (piece_of_triviaShape? found).opensLine_eq hleft behind
    rw [hbehind] at hpiece
    have hkeeps : keepsLineStart false shape.kind (c :: tail.take shape.more) = false := by
      cases hk : shape.kind <;> simp_all [keepsLineStart]
    have hends := ih hrest (hpiece.trans hkeeps)
    cases trivia with
    | nil => simpa [Trivia.join, TriviaShape.cut, endsLine, beq_eq_false_iff_ne.2 hkind] using hends
    | cons v vs => simpa [Trivia.join, TriviaShape.cut, endsLine] using hends

end Gathers

/-! ## Tokens -/

/-- A literal that is not verbatim stays on its line. -/
theorem line_quotedLength {quote : Char} (hquote : isLineBreak quote = false) (cs : List Char) :
    ∀ d ∈ cs.take (quotedLength quote false cs).1, isLineBreak d = false := by
  fun_induction quotedLength quote false cs with
  | case1 => simp
  | case2 => simp
  | case3 c hbreak => simpa using hbreak
  | case4 c d cs hguard =>
    obtain rfl : c = '\\' := by simpa using hguard
    simp [isLineBreak]
  | case5 c d cs hguard hbreak n closed hrec ih =>
    obtain rfl : c = '\\' := by simpa using hguard
    rw [hrec] at ih
    simpa [isLineBreak] using ⟨by simpa [isLineBreak] using hbreak, by simpa [isLineBreak] using ih⟩
  | case6 => simp
  | case7 c d cs hguard hbreak hend htwice => simp at htwice
  | case8 c d cs hguard hbreak hend =>
    obtain rfl := eq_of_beq hend
    simpa using hquote
  | case9 c d cs hguard hbreak hend n closed hrec ih =>
    rw [hrec] at ih
    rw [List.take_succ_cons]
    exact List.forall_mem_cons.2 ⟨by simpa using hbreak, ih⟩

/-- A verbatim literal ends with its quote, or with the text. -/
theorem end_quotedLength (quote : Char) (cs : List Char) :
    (∃ body, cs.take (quotedLength quote true cs).1 = body ++ [quote]) ∨
      (quotedLength quote true cs).1 = cs.length := by
  fun_induction quotedLength quote true cs with
  | case1 => exact .inr rfl
  | case2 c hbreak => simp at hbreak
  | case3 => exact .inr rfl
  | case4 c d cs hguard => simp at hguard
  | case5 c d cs hguard => simp at hguard
  | case6 c d cs hguard hbreak => simp at hbreak
  | case7 c d cs hguard hbreak hend htwice n closed hrec ih =>
    rw [hrec] at ih
    obtain ⟨body, hbody⟩ | hlength := ih
    · exact .inl ⟨c :: d :: body, by simpa using hbody⟩
    · exact .inr (congrArg (· + 2) hlength)
  | case8 c d cs hguard hbreak hend =>
    obtain rfl := eq_of_beq hend
    exact .inl ⟨[], rfl⟩
  | case9 c d cs hguard hbreak hend n closed hrec ih =>
    rw [hrec] at ih
    obtain ⟨body, hbody⟩ | hlength := ih
    · exact .inl ⟨c :: body, by simpa using hbody⟩
    · exact .inr (congrArg (· + 1) hlength)

section Shapes

variable {c : Char} {cs : List Char}

/-- A literal with more text behind it ends its last line with more than blanks. -/
theorem shuts_quotedShape (kind : Kind) {quote : Char} (hquote : Graphic quote) (verbatim : Bool)
    {before : Nat} (hplain : Plain (before + 1) (c :: cs))
    (hrest : cs.drop (quotedShape kind quote verbatim before (cs.drop before)).more ≠ []) :
    Shuts (c :: cs.take (quotedShape kind quote verbatim before (cs.drop before)).more) := by
  simp only [quotedShape, List.take_add, ← List.drop_drop] at hrest ⊢
  obtain ⟨hc, hbefore⟩ := List.forall_mem_cons.1 (List.take_succ_cons ▸ hplain.graphic)
  cases verbatim with
  | false =>
    refine .of_line hc.shown.1 (List.forall_mem_cons.2 ⟨hc.shown.2, ?_⟩)
    exact List.forall_mem_append.2
      ⟨fun d hd => (hbefore d hd).shown.2, line_quotedLength hquote.shown.2 _⟩
  | true =>
    obtain ⟨body, hbody⟩ | hlength := end_quotedLength quote (cs.drop before)
    · rw [hbody, ← List.append_assoc, ← List.cons_append]
      exact .concat _ hquote
    · rw [hlength, List.drop_length] at hrest
      exact absurd rfl hrest

/-- A token with more text behind it ends its last line with more than blanks. -/
theorem shuts_tokenShape (hspace : isSpace c = false) (hbreak : isLineBreak c = false)
    (hrest : cs.drop (tokenShape c cs).more ≠ []) :
    Shuts (c :: cs.take (tokenShape c cs).more) := by
  have hshown : isIndent c = false := by
    rw [isSpace, Bool.or_eq_false_iff, Bool.or_eq_false_iff] at hspace
    exact hspace.1.1
  have word : Shuts (c :: cs.takeWhile isWordPart) :=
    .of_line hshown (List.forall_mem_cons.2 ⟨hbreak, fun d hd =>
      isLineBreak_eq_false (by decide) (by decide) (List.mem_takeWhile_imp hd)⟩)
  revert hrest
  rw [tokenShape_eq]
  split
  · intro _
    simpa only [wordShape, take_length_takeWhile] using word
  split
  · rename_i hnumber
    intro _
    have hplain := reads_numberLength.plain (c :: cs)
    rw [← Nat.sub_add_cancel (numberLength_pos hnumber)] at hplain
    exact hplain.shuts
  split
  · rename_i h
    exact shuts_quotedShape .stringLiteral (by decide) false
      ((plain_zero cs).cons (onlyGraphic_beq (by decide) c h))
  split
  · rename_i h
    exact shuts_quotedShape .characterLiteral (by decide) false
      ((plain_zero cs).cons (onlyGraphic_beq (by decide) c h))
  split
  · rename_i h
    exact shuts_quotedShape .stringLiteral (by decide) true (plain_two (by decide) (by decide) h)
  split
  · rename_i h
    exact shuts_quotedShape .stringLiteral (by decide) false (plain_two (by decide) (by decide) h)
  split
  · rename_i h
    exact shuts_quotedShape .stringLiteral (by decide) true
      (plain_three (by decide) (by decide) (by decide) h)
  split
  · intro _
    simpa only [take_length_takeWhile] using word
  intro _
  cases hmark : mark? c cs.head? with
  | none => exact .of_line hshown (by simpa using hbreak)
  | some found => exact (plain_of_mark? hmark).shuts

end Shapes

/-! ## Lexemes -/

/-- At the end of the text it does not matter whether a line begins. -/
theorem Gathers.congr_line {trailing lineStart lineStart' : Bool} {cs rest : List Char}
    {trivia : List Trivia} (h : Gathers trailing lineStart cs trivia rest)
    (hline : cs ≠ [] → lineStart = lineStart') : Gathers trailing lineStart' cs trivia rest := by
  cases cs with
  | nil =>
    cases h
    exact .nil lineStart'
  | cons c cs => exact hline (List.cons_ne_nil c cs) ▸ h

/-- The trivia before each token are those that are found when the lexer looks back. -/
theorem finds_lexFrom {after : List Token} {t : Token} (lineStart : Bool) (offset : Nat)
    (cs : List Char) : ∀ (behind : List Char) (before : List Token),
      (cs ≠ [] → lineStart = opensLine behind) →
      (lexFrom lineStart offset cs).1.map Lexeme.token = before ++ t :: after →
      Finds false (opensLine (behind ++ (spelling before).toList)) t.leading (onwards t after) := by
  fun_induction lexFrom lineStart offset cs with
  | case1 lineStart offset cs lead hnil =>
    intro behind before hline h
    have hlead := (gathers_triviaRun false lineStart offset cs).congr_line hline
    rw [hnil] at hlead
    cases before with
    | cons _ before => simp at h
    | nil =>
      obtain ⟨rfl, rfl⟩ := List.cons.inj h
      simpa [onwards, Trivia.join] using hlead.finds
  | case2 lineStart offset cs lead c tail hcons shape text trail lexemes errors hrec ih =>
    intro behind before hline h
    have hlead := gathers_triviaRun false lineStart offset cs
    have htrail : Gathers true false (tail.drop shape.more) trail.trivia trail.rest :=
      gathers_triviaRun true false _ _
    rw [hcons] at hlead
    rw [hrec] at ih
    cases before with
    | nil =>
      obtain ⟨rfl, rfl⟩ := List.cons.inj h
      have hspell := spelling_lexFrom (endsLine trail.trivia) trail.offset trail.rest
      have honwards : onwards ⟨shape.kind, String.ofList text, lead.trivia, trail.trivia, false⟩
          (lexemes.map Lexeme.token) = c :: tail := by
        rw [hrec] at hspell
        rw [onwards, hspell, htrail.toList_append]
        simp [text]
      rw [honwards]
      simpa using (hlead.congr_line hline).finds
    | cons s before =>
      obtain ⟨rfl, hrest⟩ := List.cons.inj h
      have hline' (hmore : trail.rest ≠ []) : endsLine trail.trivia =
          opensLine (behind ++ (Trivia.join lead.trivia).toList ++ text ++
            (Trivia.join trail.trivia).toList) := by
        refine (htrail.opensLine_trailing hmore ?_).symm
        obtain ⟨hspace, hbreak⟩ := hlead.not_space
        refine (shuts_tokenShape hspace hbreak ?_).opensLine_eq _
        rw [← htrail.toList_append]
        simpa using fun _ => hmore
      simpa [Token.fullText] using ih _ before hline' hrest

/-- Behind the text `before`, a `#` opens a directive just where a line begins: there each directive
is found, and only elsewhere a `#` is left to the token. -/
structure OpensDirectives (before : String) (t : Token) : Prop where
  found : ∀ xs v ys, t.leading = xs ++ v :: ys → v.kind = .directive →
    opensLine (before ++ Trivia.join xs).toList = true
  left : t.text.toList.head? = some '#' →
    opensLine (before ++ Trivia.join t.leading).toList = false

theorem opensDirectives_lex {text : String} {before after : List Token} {t : Token}
    (h : (lex text).1.map Lexeme.token = before ++ t :: after) :
    OpensDirectives (spelling before) t := by
  have hfinds := finds_lexFrom true 0 text.toList [] before (fun _ => rfl) h
  rw [List.nil_append] at hfinds
  refine ⟨fun xs v ys hleading hv => ?_, fun htext => ?_⟩
  · have hv' : v.text ≠ "" := hfinds.pieces.text_ne v (by simp [hleading])
    rw [Finds, hleading] at hfinds
    rw [String.toList_append]
    exact (hfinds.goesOn (by simp [Trivia.join, hv'])).opensLine_of_directive hv
  · obtain ⟨tail, htail⟩ := List.head?_eq_some_iff.1 htext
    rw [Finds, ← List.append_nil t.leading] at hfinds
    have hleft := hfinds.goesOn (by simp [onwards, htail])
    rw [String.toList_append]
    simp only [Trivia.join, onwards, htail] at hleft
    exact hleft.opensLine_eq_false

end NullLint.Lexer
