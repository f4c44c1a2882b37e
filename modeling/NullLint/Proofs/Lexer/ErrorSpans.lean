import NullLint.Proofs.Lexer.Locations
import NullLint.Proofs.Text.Cuts

/-!
# What lexical errors mark

Each error of the lexer marks a part of its text that is not empty: the mark that opens a comment, a
literal from its quote on, or a single character. No two of these parts overlap, and the errors are
given out in the order of the parts.
-/

namespace NullLint

/-- The error marks a part of the characters, the first of which stands at `offset`. -/
def SyntaxError.Marks (e : SyntaxError) (offset : Nat) (cs : List Char) : Prop :=
  ∃ before part after, cs = before ++ (part ++ after) ∧ part ≠ [] ∧
    e.start = offset + Text.byteLength before ∧ e.length = Text.byteLength part

namespace SyntaxError.Marks

variable {e : SyntaxError} {offset : Nat} {as bs : List Char}

theorem append_left (h : e.Marks (offset + Text.byteLength as) bs) : e.Marks offset (as ++ bs) := by
  obtain ⟨before, part, after, rfl, hpart, hstart, hlength⟩ := h
  refine ⟨as ++ before, part, after, (List.append_assoc ..).symm, hpart, ?_, hlength⟩
  rw [hstart, Text.byteLength_append, Nat.add_assoc]

theorem append_right (h : e.Marks offset as) : e.Marks offset (as ++ bs) := by
  obtain ⟨before, part, after, rfl, hpart, hstart, hlength⟩ := h
  exact ⟨before, part, after ++ bs, by simp only [List.append_assoc], hpart, hstart, hlength⟩

theorem length_pos (h : e.Marks offset as) : 0 < e.length := by
  obtain ⟨before, part, after, -, hpart, -, hlength⟩ := h
  rw [hlength]
  exact Text.byteLength_pos_iff.2 hpart

theorem le_start (h : e.Marks offset as) : offset ≤ e.start := by
  obtain ⟨before, part, after, -, -, hstart, -⟩ := h
  rw [hstart]
  exact Nat.le_add_right ..

theorem stop_le (h : e.Marks offset as) : e.start + e.length ≤ offset + Text.byteLength as := by
  obtain ⟨before, part, after, rfl, -, hstart, hlength⟩ := h
  simp only [hstart, hlength, Text.byteLength_append]
  omega

/-- What is marked stands between two boundaries. -/
theorem isBoundary (h : e.Marks 0 as) :
    Text.isBoundary as e.start = true ∧ Text.isBoundary as (e.start + e.length) = true := by
  obtain ⟨before, part, after, rfl, -, hstart, hlength⟩ := h
  rw [hstart, hlength, Nat.zero_add]
  constructor
  · exact Text.isBoundary_iff.2 ⟨before, part ++ after, rfl, rfl⟩
  · exact Text.isBoundary_iff.2
      ⟨before ++ part, after, (List.append_assoc ..).symm, Text.byteLength_append ..⟩

end SyntaxError.Marks

namespace Lexer

/-! ## Comments -/

theorem marks_triviaRun (trailing lineStart : Bool) (offset : Nat) (cs : List Char) :
    ∀ e ∈ (triviaRun trailing lineStart offset cs).errors, e.Marks offset cs := by
  have opening {lineStart : Bool} {offset : Nat} {c : Char} {tail : List Char} {shape : TriviaShape}
      (hshape : triviaShape? lineStart c tail = some shape) {e : SyntaxError}
      (he : e ∈ if shape.unclosed then
        [(⟨offset, 2, .endOfFileInComment, []⟩ : SyntaxError)] else []) :
      e.Marks offset (c :: tail) := by
    obtain ⟨hopen, rfl⟩ := eq_of_mem_openComment he
    obtain ⟨-, rest, hrest⟩ := openComment_of_unclosed hshape hopen
    exact ⟨[], ['/', '*'], rest, hrest, List.cons_ne_nil _ _, rfl, rfl⟩
  fun_induction triviaRun trailing lineStart offset cs with
  | case1 => simp
  | case2 => simp
  | case3 lineStart offset c tail shape hshape text trivia errors after _ =>
    exact fun e he => opening hshape he
  | case4 lineStart offset c tail shape hshape text trivia errors after _ run ih =>
    intro e he
    rcases List.mem_append.1 he with he | he
    · exact opening hshape he
    · have hparts : c :: tail = text ++ tail.drop shape.more := by simp [text]
      rw [hparts]
      exact (ih e he).append_left

/-- A run of trivia has one error at most. -/
theorem length_errors_triviaRun (trailing lineStart : Bool) (offset : Nat) (cs : List Char) :
    (triviaRun trailing lineStart offset cs).errors.length ≤ 1 := by
  have opening (unclosed : Bool) (e : SyntaxError) : (if unclosed then [e] else []).length ≤ 1 := by
    cases unclosed <;> simp
  fun_induction triviaRun trailing lineStart offset cs with
  | case1 => simp
  | case2 => simp
  | case3 lineStart offset c tail shape hshape text trivia errors after _ => exact opening _ _
  | case4 lineStart offset c tail shape hshape text trivia errors after _ run ih =>
    cases hopen : shape.unclosed with
    | false => simpa [errors, hopen] using ih
    | true =>
      -- Nothing is left behind an open comment, so the run goes no further.
      have hrun : run.errors = [] := by
        simp [run, (openComment_of_unclosed hshape hopen).1, triviaRun]
      simp [errors, hopen, hrun]

/-! ## Tokens -/

/-- A fault marks the token from the quote of an open literal on. -/
theorem marks_fault {c : Char} {cs : List Char} {fault : Fault}
    (h : (tokenShape c cs).fault = some fault) (offset : Nat) :
    (fault.toError offset (c :: cs.take (tokenShape c cs).more)).Marks offset
      (c :: cs.take (tokenShape c cs).more) := by
  rcases fault_cases h with ⟨rfl, -⟩ | ⟨before, rfl, hbytes, hlt⟩
  · exact ⟨[], _, [], by simp, List.cons_ne_nil _ _, rfl, rfl⟩
  · refine ⟨_, _, [], by rw [List.append_nil, List.take_append_drop], ?_, ?_, rfl⟩
    · exact List.drop_eq_nil_iff.not.2 (Nat.not_le.2 hlt)
    · rw [hbytes]
      rfl

/-! ## The whole text -/

/-- A run of trivia takes a first part of the text. -/
theorem exists_taken_triviaRun (trailing lineStart : Bool) (offset : Nat) (cs : List Char) :
    ∃ taken, cs = taken ++ (triviaRun trailing lineStart offset cs).rest ∧
      (triviaRun trailing lineStart offset cs).offset = offset + Text.byteLength taken :=
  ⟨_, (toList_triviaRun trailing lineStart offset cs).symm, by
    rw [offset_triviaRun, Trivia.width_eq]⟩

theorem marks_lexFrom (lineStart : Bool) (offset : Nat) (cs : List Char) :
    ∀ e ∈ (lexFrom lineStart offset cs).2, e.Marks offset cs := by
  fun_induction lexFrom lineStart offset cs with
  | case1 lineStart offset cs lead h => exact marks_triviaRun _ _ _ _
  | case2 lineStart offset cs lead c tail h shape text trail lexemes errors hrec ih =>
    rw [hrec] at ih
    obtain ⟨leading, hlead, hoffset⟩ := exists_taken_triviaRun false lineStart offset cs
    obtain ⟨trailing, htrail, hoffset'⟩ := exists_taken_triviaRun true false
      (lead.offset + Text.byteLength text) (tail.drop shape.more)
    have hparts : c :: tail = text ++ tail.drop shape.more := by simp [text]
    -- What is marked behind the leading trivia is marked in the whole text.
    have behind {e : SyntaxError} (he : e.Marks lead.offset (text ++ tail.drop shape.more)) :
        e.Marks offset cs := by
      rw [hlead, show (triviaRun false lineStart offset cs).rest = c :: tail from h, hparts]
      exact .append_left (hoffset ▸ he)
    intro e he
    rw [List.mem_append, List.mem_append, List.mem_append] at he
    rcases he with ((he | he) | he) | he
    · exact marks_triviaRun _ _ _ _ e he
    · obtain ⟨fault, hfault, rfl⟩ : ∃ fault, shape.fault = some fault ∧
          fault.toError lead.offset text = e := by simpa using he
      exact behind (marks_fault hfault lead.offset).append_right
    · exact behind (marks_triviaRun _ _ _ _ e he).append_left
    · have hrest : e.Marks trail.offset trail.rest := ih e he
      refine behind (.append_left ?_)
      rw [htrail]
      exact .append_left (hoffset' ▸ hrest)

/-- The errors of the lexer mark parts of the text one behind the other. -/
theorem pairwise_lexFrom (lineStart : Bool) (offset : Nat) (cs : List Char) :
    (lexFrom lineStart offset cs).2.Pairwise fun d e => d.start + d.length ≤ e.start := by
  have single {es : List SyntaxError} (h : es.length ≤ 1) :
      es.Pairwise fun d e => d.start + d.length ≤ e.start := by
    match es, h with
    | [], _ => exact .nil
    | [e], _ => exact List.pairwise_singleton _ e
  fun_induction lexFrom lineStart offset cs with
  | case1 lineStart offset cs lead h => exact single (length_errors_triviaRun ..)
  | case2 lineStart offset cs lead c tail h shape text trail lexemes errors hrec ih =>
    rw [hrec] at ih
    have hlead : lead.errors = [] := by
      refine List.eq_nil_iff_forall_not_mem.2 fun e he => ?_
      obtain ⟨-, -, hrest⟩ := error_triviaRun _ _ _ _ e he
      exact absurd (h.symm.trans hrest) (List.cons_ne_nil c tail)
    have hfault : ∀ e ∈ (shape.fault.map (Fault.toError lead.offset text)).toList,
        e.start + e.length ≤ lead.offset + Text.byteLength text := by
      intro e he
      obtain ⟨fault, hfault, rfl⟩ : ∃ fault, shape.fault = some fault ∧
          fault.toError lead.offset text = e := by simpa using he
      exact (marks_fault hfault lead.offset).stop_le
    have htrail : ∀ e ∈ trail.errors, lead.offset + Text.byteLength text ≤ e.start ∧
        errors = [] := by
      intro e he
      obtain ⟨-, hle, hrest⟩ := error_triviaRun _ _ _ _ e he
      rw [show trail.rest = [] from hrest, lexFrom_nil] at hrec
      exact ⟨hle, (Prod.mk.inj hrec).2.symm⟩
    have hrest : ∀ e ∈ errors, lead.offset + Text.byteLength text ≤ e.start := by
      intro e he
      have hmarks := marks_lexFrom (endsLine trail.trivia) trail.offset trail.rest e
      rw [hrec] at hmarks
      exact Nat.le_trans (le_offset_triviaRun ..) (hmarks he).le_start
    rw [hlead, List.nil_append, List.append_assoc]
    refine List.pairwise_append.2 ⟨single ?_, List.pairwise_append.2
      ⟨single (length_errors_triviaRun ..), ih, ?_⟩, ?_⟩
    · cases shape.fault <;> simp
    · intro d hd e he
      rw [(htrail d hd).2] at he
      cases he
    · intro d hd e he
      refine Nat.le_trans (hfault d hd) ?_
      rcases List.mem_append.1 he with he | he
      · exact (htrail e he).1
      · exact hrest e he

/-- Each error of the lexer marks a part of the text, and these parts do not overlap. -/
theorem lex_marks (text : String) :
    (∀ e ∈ (lex text).2, e.Marks 0 text.toList) ∧
      (lex text).2.Pairwise fun d e => d.start + d.length ≤ e.start :=
  ⟨marks_lexFrom true 0 text.toList, pairwise_lexFrom true 0 text.toList⟩

/-- No two errors of the lexer start at one place. -/
theorem pairwise_start_lex (text : String) :
    (lex text).2.Pairwise fun d e => d.start < e.start := by
  obtain ⟨hmarks, happart⟩ := lex_marks text
  refine happart.imp_of_mem fun {d e} hd _ hle => ?_
  exact Nat.lt_of_lt_of_le (Nat.lt_add_of_pos_right (hmarks d hd).length_pos) hle

end Lexer

end NullLint
