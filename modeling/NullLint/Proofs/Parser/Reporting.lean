import NullLint.Proofs.Lexer.ErrorSpans
import NullLint.Proofs.Lexer.Slicing
import NullLint.Proofs.Expression.Lexing

/-!
# Where errors are reported

A parser reports at two places only: behind the last token read and at the current one. So what is
to be shown of all errors of a text is shown of these two places, and carried through a parse by
`Builds.keeps`.
-/

namespace NullLint

/-! ## Reports -/

namespace ParseState

variable {s : ParseState} {e : SyntaxError}

/-- A report is dropped, or recorded behind one that starts elsewhere. -/
theorem report_cases (s : ParseState) (e : SyntaxError) :
    s.report e = s ∨ s.report e = { s with errors := e :: s.errors } ∧
      ∀ d ∈ s.errors.head?, d.start ≠ e.start := by
  unfold report
  split
  · exact .inl rfl
  · rename_i hany
    refine .inr ⟨rfl, fun d hd hstart => hany ?_⟩
    simp [Option.mem_def.1 hd, hstart]

/-- The places of errors. -/
theorem Reportable.start_eq (h : s.Reportable e) : e.start = s.lastStop ∨ e.start = s.offset := by
  cases h with
  | missing k => exact .inl rfl
  | current _ => exact .inr rfl
  | deep => exact .inr rfl

end ParseState

/-- The errors of a text are those that the parser ends with, in another order. -/
theorem errors_parse_perm (file text : String) :
    (parse file text).errors.Perm (Parser.compilationUnit (.ofText text)).2.errors :=
  (List.mergeSort_perm _ _).trans (List.reverse_perm _)

/-- What no step breaks holds when the errors of a text are sorted. -/
theorem exists_state_parse {I : ParseState → Prop} (hI : ParseState.Kept I) {text : String}
    (h : I (.ofText text)) (file : String) : ∃ s, I s ∧
      (parse file text).errors = s.errors.reverse.mergeSort fun a b => a.start ≤ b.start := by
  have hend : ∃ l ∈ (ParseState.ofText text).rest, l.kind = .endOfFile :=
    Lexer.exists_endOfFile_lexFrom true 0 text.toList
  obtain ⟨items, l, s, -, hitems, -, -, herrors⟩ := Parser.compilationUnit_parts hend
  refine ⟨s, hitems.1.keeps hI h, ?_⟩
  rw [← herrors]
  rfl

/-! ## Spans -/

namespace Lexer

variable {text : String} {l : Lexeme}

/-- A lexeme stands between two boundaries. -/
theorem isBoundary_of_mem_lex (h : l ∈ (lex text).1) :
    Text.isBoundary text.toList l.start = true ∧ Text.isBoundary text.toList l.stop = true := by
  obtain ⟨before, after, hparts⟩ := List.append_of_mem h
  obtain ⟨-, -, hslices, -⟩ := lex_slices text
  exact Text.isBoundary_of_slice? (hslices before l after hparts).2

end Lexer

/-- The error marks what stands between two boundaries, unless it is that of too deep a nesting. -/
structure SyntaxError.Fits (text : String) (e : SyntaxError) : Prop where
  start : Text.isBoundary text.toList e.start = true
  stop : e.code ≠ .tooDeeplyNested → Text.isBoundary text.toList (e.start + e.length) = true
  deep : e.code = .tooDeeplyNested → e.length = 1

/-- The parser stands between two characters and has reported what fits the text. -/
structure ParseState.InText (text : String) (s : ParseState) : Prop where
  rest : ∀ l ∈ s.rest, l ∈ (Lexer.lex text).1
  lastStop : Text.isBoundary text.toList s.lastStop = true
  errors : ∀ e ∈ s.errors, e.Fits text

namespace ParseState.InText

variable {text : String} {s : ParseState} {e : SyntaxError}

theorem offset (h : s.InText text) :
    Text.isBoundary text.toList s.offset = true ∧
      Text.isBoundary text.toList (s.offset + s.text.utf8ByteSize) = true := by
  unfold ParseState.offset ParseState.text
  cases hrest : s.rest with
  | nil => exact ⟨h.lastStop, h.lastStop⟩
  | cons l rest => exact Lexer.isBoundary_of_mem_lex (h.rest l (by simp [hrest]))

theorem fits (h : s.InText text) (he : s.Reportable e) : e.Fits text := by
  cases he with
  | missing k =>
    refine ⟨h.lastStop, fun _ => h.lastStop, fun hcode => ?_⟩
    cases k <;> cases hcode
  | current hcode => exact ⟨h.offset.1, fun _ => h.offset.2, fun hdeep => absurd hdeep hcode⟩
  | deep => exact ⟨h.offset.1, fun hcode => absurd rfl hcode, fun _ => rfl⟩

theorem kept (text : String) : Kept (InText text) where
  read hs hl h := by
    have hmem := h.rest
    rw [hs, List.forall_mem_cons] at hmem
    exact ⟨hmem.2, (Lexer.isBoundary_of_mem_lex hmem.1).2, h.errors⟩
  report {s e} he h := by
    rcases s.report_cases e with heq | ⟨heq, -⟩
    · rwa [heq]
    · rw [heq]
      exact ⟨h.rest, h.lastStop, List.forall_mem_cons.2 ⟨h.fits he, h.errors⟩⟩
  deep h := ⟨h.rest, h.lastStop, h.errors⟩

theorem ofText (text : String) : (ParseState.ofText text).InText text := by
  refine ⟨fun _ => id, Text.isBoundary_iff.2 ⟨[], _, rfl, rfl⟩, fun e he => ?_⟩
  have he : e ∈ (Lexer.lex text).2 := List.mem_reverse.1 he
  obtain ⟨hstart, hstop⟩ := ((Lexer.lex_marks text).1 e he).isBoundary
  refine ⟨hstart, fun _ => hstop, fun hcode => ?_⟩
  cases Lexer.traced_lex text e he with
  | literal code => cases code.symm.trans hcode
  | character code => cases code.symm.trans hcode
  | comment code => cases code.symm.trans hcode

end ParseState.InText

theorem fits_parse {file text : String} {e : SyntaxError} (he : e ∈ (parse file text).errors) :
    e.Fits text := by
  obtain ⟨s, hs, herrors⟩ := exists_state_parse (ParseState.InText.kept text) (.ofText text) file
  rw [herrors, List.mem_mergeSort, List.mem_reverse] at he
  exact hs.errors e he

theorem ErrorCode.id_eq_iff {code : ErrorCode} :
    code.id = tooDeeplyNested.id ↔ code = .tooDeeplyNested := by
  cases code <;> decide

/-- Every diagnostic starts between two characters. It ends between two characters too, and so in the
text, unless it reports too deep a nesting: that is given the length of one byte, whatever stands
there, so it reaches out of a text that ends there and parts a character of several bytes. -/
theorem diagnostics_within (file text : String) :
    ∀ d ∈ (parse file text).diagnostics, ∃ before after,
      text.toList = before ++ after ∧ d.start = Text.byteLength before ∧
      (d.stop ≤ text.utf8ByteSize ↔
        (d.code = ErrorCode.tooDeeplyNested.id → after ≠ [])) ∧
      (Text.isBoundary text.toList d.stop = true ↔
        (d.code = ErrorCode.tooDeeplyNested.id →
          ∃ c rest, after = c :: rest ∧ c.utf8Size = 1)) := by
  intro d hd
  obtain ⟨e, he, rfl⟩ := List.mem_map.1 hd
  have hfits := fits_parse he
  obtain ⟨before, after, hparts, hbefore⟩ := Text.isBoundary_iff.1 hfits.start
  refine ⟨before, after, hparts, hbefore.symm, ?_⟩
  have hcode : (e.toDiagnostic (parse file text).tree.file).code = ErrorCode.tooDeeplyNested.id ↔
      e.code = .tooDeeplyNested := ErrorCode.id_eq_iff
  have hstop : (e.toDiagnostic (parse file text).tree.file).stop = e.start + e.length := rfl
  rw [hcode, hstop, Text.utf8ByteSize_eq]
  by_cases hdeep : e.code = .tooDeeplyNested
  · rw [hfits.deep hdeep, ← hbefore, hparts, Text.isBoundary_append_add]
    simp only [hdeep, forall_const, Text.byteLength_append, Nat.add_le_add_iff_left]
    exact ⟨Text.byteLength_pos_iff, Text.isBoundary_one_iff⟩
  · have hbound := hfits.stop hdeep
    simp only [hdeep, false_imp_iff, iff_true]
    obtain ⟨before', after', hparts', hbefore'⟩ := Text.isBoundary_iff.1 hbound
    refine ⟨?_, hbound⟩
    rw [← hbefore', hparts', Text.byteLength_append]
    exact Nat.le_add_right ..

/-- The missing semicolon of `x` is reported in the text. -/
theorem diagnostics_within_name :
    ∃ d ∈ (parse "" "x").diagnostics, d.stop ≤ "x".utf8ByteSize ∧
      Text.isBoundary "x".toList d.stop = true := by
  obtain ⟨d, hd, hcode⟩ : ∃ d ∈ (parse "" "x").diagnostics,
      d.code ≠ ErrorCode.tooDeeplyNested.id := by decide +kernel
  obtain ⟨before, after, -, -, hle, hbound⟩ := diagnostics_within "" "x" d hd
  exact ⟨d, hd, hle.2 fun hdeep => absurd hdeep hcode, hbound.2 fun hdeep => absurd hdeep hcode⟩

/-- Opening parentheses are lexed one by one. -/
theorem lexes_openParens (n : Nat) : Lexer.Lexes (List.replicate n '(')
    (List.replicate n ⟨.openParen, "(", [], [], false⟩ ++ [⟨.endOfFile, "", [], [], false⟩]) := by
  induction n with
  | zero => exact Lexer.lexes_nil
  | succ n ih =>
    have hscans : Lexer.Scans "(" .openParen (List.replicate n '(') :=
      ⟨'(', [], rfl, fun _ => rfl, rfl⟩
    exact ih.glue hscans

/-- Behind 255 opening parentheses the report of too deep a nesting marks a byte that the text does
not have. -/
theorem diagnostics_reach_out :
    let text := String.ofList (List.replicate 255 '(')
    ∃ d ∈ (parse "" text).diagnostics, text.utf8ByteSize < d.stop := by
  intro text
  have htext : text.toList = List.replicate 255 '(' := String.toList_ofList
  have hlexes := lexes_openParens 255
  rw [← htext] at hlexes
  have hstate : ParseState.ofText text =
      { rest := located 0 (List.replicate 255 ⟨.openParen, "(", [], [], false⟩ ++
        [⟨.endOfFile, "", [], [], false⟩]) } := by
    rw [ParseState.ofText, Lexer.lex_eq_located, Lexer.lex, hlexes.tokens, hlexes.errors]
    rfl
  have herror : (⟨255, 1, .tooDeeplyNested, []⟩ : SyntaxError) ∈ (parse "" text).errors := by
    rw [(errors_parse_perm "" text).mem_iff, hstate]
    decide +kernel
  refine ⟨_, List.mem_map_of_mem herror, ?_⟩
  rw [Text.utf8ByteSize_eq, htext]
  decide +kernel

end NullLint
