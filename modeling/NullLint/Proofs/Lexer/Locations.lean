import NullLint.Proofs.LosslessParsing
import NullLint.Proofs.Syntax.Positions

/-!
# Where lexemes and lexical errors stand

The lexemes of a text stand one behind the other, and the leaves of its tree stand where they do.
An error of the lexer either is that of an open literal, or names a character that a lexeme of
unknown kind holds, or opens a comment behind all that is not trivia (`Lexer.Traced`).
-/

namespace NullLint

/-- The tokens one behind the other from an offset on, each with the place of its text. -/
def located (offset : Nat) : List Token → List Lexeme
  | [] => []
  | t :: ts =>
    ⟨t, offset + Trivia.width t.leading⟩ ::
      located (offset + Trivia.width t.leading + t.text.utf8ByteSize + Trivia.width t.trailing) ts

namespace Lexer

@[simp] theorem utf8ByteSize_ofList (cs : List Char) :
    (String.ofList cs).utf8ByteSize = Text.byteLength cs := by
  rw [Text.utf8ByteSize_eq, String.toList_ofList]

/-- A run of trivia ends behind what it takes. -/
theorem offset_triviaRun (trailing lineStart : Bool) (offset : Nat) (cs : List Char) :
    (triviaRun trailing lineStart offset cs).offset =
      offset + Trivia.width (triviaRun trailing lineStart offset cs).trivia := by
  fun_induction triviaRun trailing lineStart offset cs with
  | case1 => rfl
  | case2 => rfl
  | case3 lineStart offset c tail shape _ text trivia errors after _ =>
    simp [Trivia.width, trivia, after]
  | case4 lineStart offset c tail shape _ text trivia errors after _ run ih =>
    have hrun : run.offset = after + Trivia.width run.trivia := ih
    have hwidth : Trivia.width (trivia :: run.trivia) =
        trivia.text.utf8ByteSize + Trivia.width run.trivia := rfl
    rw [hrun, hwidth, utf8ByteSize_ofList]
    exact Nat.add_assoc _ _ _

theorem le_offset_triviaRun (trailing lineStart : Bool) (offset : Nat) (cs : List Char) :
    offset ≤ (triviaRun trailing lineStart offset cs).offset := by
  rw [offset_triviaRun]
  exact Nat.le_add_right _ _

/-- The lexemes stand one behind the other. -/
theorem lexFrom_eq_located (lineStart : Bool) (offset : Nat) (cs : List Char) :
    (lexFrom lineStart offset cs).1 =
      located offset ((lexFrom lineStart offset cs).1.map Lexeme.token) := by
  fun_induction lexFrom lineStart offset cs with
  | case1 lineStart offset cs lead h =>
    simp [located, lead, offset_triviaRun]
  | case2 lineStart offset cs lead c tail h shape text trail lexemes errors hrec ih =>
    rw [hrec] at ih
    have hlead : lead.offset = offset + Trivia.width lead.trivia := offset_triviaRun ..
    have htrail : trail.offset =
        lead.offset + Text.byteLength text + Trivia.width trail.trivia := offset_triviaRun ..
    rw [htrail, hlead] at ih
    simp only [List.map_cons, located, utf8ByteSize_ofList, hlead, ← ih]

theorem lex_eq_located (text : String) :
    (lex text).1 = located 0 ((lex text).1.map Lexeme.token) :=
  lexFrom_eq_located true 0 text.toList

/-! ## Errors -/

/-- What an error tells about the lexemes of its text. -/
inductive Traced (ls : List Lexeme) (e : SyntaxError) : Prop where
  | literal (code : e.code = .newlineInConstant) : Traced ls e
  | character (code : e.code = .unexpectedCharacter) (l : Lexeme) (mem : l ∈ ls)
      (kind : l.kind = .unknown) (start : l.start = e.start) : Traced ls e
  | comment (code : e.code = .endOfFileInComment)
      (behind : ∀ l ∈ ls, l.token.text ≠ "" → l.stop ≤ e.start) : Traced ls e

/-- A lexeme in front of the error changes nothing. -/
theorem Traced.cons {ls : List Lexeme} {e : SyntaxError} (h : Traced ls e) {l : Lexeme}
    (hl : l.stop ≤ e.start) : Traced (l :: ls) e := by
  cases h with
  | literal code => exact .literal code
  | character code m mem kind start =>
    exact .character code m (List.mem_cons_of_mem l mem) kind start
  | comment code behind => exact .comment code (List.forall_mem_cons.2 ⟨fun _ => hl, behind⟩)

/-- What is open to the end of the text starts with `/*` and takes all that follows. -/
theorem openComment_of_unclosed {lineStart : Bool} {c : Char} {cs : List Char} {shape : TriviaShape}
    (h : triviaShape? lineStart c cs = some shape) (hopen : shape.unclosed = true) :
    shape = ⟨.blockComment, cs.length, true⟩ ∧ ∃ rest, c :: cs = ['/', '*'] ++ rest := by
  unfold triviaShape? at h
  split at h
  · cases h; cases hopen
  split at h
  · cases h; cases hopen
  split at h
  · cases h; cases hopen
  split at h
  · rename_i hmark
    simp only [Bool.and_eq_true, beq_iff_eq] at hmark
    obtain ⟨rest, hrest⟩ := List.head?_eq_some_iff.1 hmark.2
    split at h
    · cases h; cases hopen
    · exact ⟨(Option.some.inj h).symm, rest, by rw [hmark.1, hrest]; rfl⟩
  split at h
  · cases h; cases hopen
  · cases h

theorem eq_of_mem_openComment {unclosed : Bool} {offset : Nat} {e : SyntaxError}
    (h : e ∈ if unclosed then [(⟨offset, 2, .endOfFileInComment, []⟩ : SyntaxError)] else []) :
    unclosed = true ∧ e = ⟨offset, 2, .endOfFileInComment, []⟩ := by
  cases unclosed with
  | false => cases h
  | true => exact ⟨rfl, List.mem_singleton.1 h⟩

/-- The only error in a run of trivia is a comment open to the end of the text. -/
theorem error_triviaRun (trailing lineStart : Bool) (offset : Nat) (cs : List Char) :
    ∀ e ∈ (triviaRun trailing lineStart offset cs).errors,
      e.code = .endOfFileInComment ∧ offset ≤ e.start ∧
        (triviaRun trailing lineStart offset cs).rest = [] := by
  fun_induction triviaRun trailing lineStart offset cs with
  | case1 => simp
  | case2 => simp
  | case3 lineStart offset c tail shape hshape text trivia errors after hline =>
    intro e he
    obtain ⟨hopen, -⟩ := eq_of_mem_openComment he
    rw [(openComment_of_unclosed hshape hopen).1] at hline
    simp at hline
  | case4 lineStart offset c tail shape hshape text trivia errors after _ run ih =>
    intro e he
    rcases List.mem_append.1 he with he | he
    · obtain ⟨hopen, rfl⟩ := eq_of_mem_openComment he
      refine ⟨rfl, Nat.le_refl _, List.length_eq_zero_iff.1 (Nat.le_zero.1 ?_)⟩
      calc
        run.rest.length ≤ (tail.drop shape.more).length := length_rest_triviaRun ..
        _ = 0 := by simp [(openComment_of_unclosed hshape hopen).1]
    · obtain ⟨hcode, hle, hrest⟩ := ih e he
      exact ⟨hcode, Nat.le_trans (Nat.le_add_right _ _) hle, hrest⟩

theorem fault_quotedShape {kind : Kind} {quote : Char} {verbatim : Bool} {before : Nat}
    {cs : List Char} {fault : Fault}
    (h : (quotedShape kind quote verbatim before cs).fault = some fault) :
    fault = .unclosed before ∧ before ≤ (quotedShape kind quote verbatim before cs).more := by
  simp only [quotedShape] at h ⊢
  split at h
  · cases h
  · exact ⟨(Option.some.inj h).symm, Nat.le_add_right ..⟩

/-- A token with a fault is a stray character of unknown kind, or an open literal: its quote is part
of the token, and what stands before the quote is made of single bytes. -/
theorem fault_cases {c : Char} {cs : List Char} {fault : Fault}
    (h : (tokenShape c cs).fault = some fault) :
    (fault = .stray ∧ (tokenShape c cs).kind = .unknown) ∨
      ∃ before, fault = .unclosed before ∧
        Text.byteLength ((c :: cs.take (tokenShape c cs).more).take before) = before ∧
        before < (c :: cs.take (tokenShape c cs).more).length := by
  generalize hshape : tokenShape c cs = shape at h ⊢
  unfold tokenShape at hshape
  split at hshape
  · subst hshape; cases h
  split at hshape
  · subst hshape; cases h
  split at hshape
  · subst hshape
    obtain ⟨rfl, -⟩ := fault_quotedShape h
    exact .inr ⟨0, rfl, by simp⟩
  · subst hshape
    obtain ⟨rfl, -⟩ := fault_quotedShape h
    exact .inr ⟨0, rfl, by simp⟩
  · subst hshape
    obtain ⟨rfl, hmore⟩ := fault_quotedShape h
    obtain ⟨n, hn⟩ := Nat.exists_eq_add_of_le' hmore
    exact .inr ⟨1, rfl, rfl, by simp [hn]⟩
  · subst hshape
    obtain ⟨rfl, hmore⟩ := fault_quotedShape h
    obtain ⟨n, hn⟩ := Nat.exists_eq_add_of_le' hmore
    exact .inr ⟨1, rfl, rfl, by simp [hn]⟩
  · subst hshape
    obtain ⟨rfl, hmore⟩ := fault_quotedShape h
    obtain ⟨n, hn⟩ := Nat.exists_eq_add_of_le' hmore
    simp only [hn, List.take_succ_cons]
    exact .inr ⟨2, rfl, rfl, by simp⟩
  split at hshape
  · subst hshape; cases h
  split at hshape
  · subst hshape; cases h
  · subst hshape
    exact .inl ⟨(Option.some.inj h).symm, rfl⟩

/-- A stray character is a token of unknown kind. -/
theorem kind_of_stray {c : Char} {cs : List Char} (h : (tokenShape c cs).fault = some .stray) :
    (tokenShape c cs).kind = .unknown := by
  rcases fault_cases h with ⟨-, hkind⟩ | ⟨before, hbefore, -⟩
  · exact hkind
  · cases hbefore

theorem traced_lexFrom (lineStart : Bool) (offset : Nat) (cs : List Char) :
    ∀ e ∈ (lexFrom lineStart offset cs).2,
      offset ≤ e.start ∧ Traced (lexFrom lineStart offset cs).1 e := by
  fun_induction lexFrom lineStart offset cs with
  | case1 lineStart offset cs lead h =>
    intro e he
    obtain ⟨hcode, hle, -⟩ := error_triviaRun _ _ _ _ e he
    exact ⟨hle, .comment hcode (by simp)⟩
  | case2 lineStart offset cs lead c tail h shape text trail lexemes errors hrec ih =>
    have hlead : offset ≤ lead.offset := le_offset_triviaRun ..
    have htrail : lead.offset + Text.byteLength text ≤ trail.offset := le_offset_triviaRun ..
    have hstop (t : Token) (ht : t.text = String.ofList text) :
        Lexeme.stop ⟨t, lead.offset⟩ = lead.offset + Text.byteLength text := by
      rw [Lexeme.stop, ht, utf8ByteSize_ofList]
    intro e he
    rw [List.mem_append, List.mem_append, List.mem_append] at he
    rcases he with ((he | he) | he) | he
    · -- A token follows the leading trivia, so no comment in it is open.
      obtain ⟨-, -, hrest⟩ := error_triviaRun _ _ _ _ e he
      exact absurd (h.symm.trans hrest) (by simp)
    · obtain ⟨fault, hfault, rfl⟩ : ∃ fault, shape.fault = some fault ∧
          fault.toError lead.offset text = e := by simpa using he
      cases fault with
      | unclosed before => exact ⟨Nat.le_trans hlead (Nat.le_add_right _ _), .literal rfl⟩
      | stray =>
        exact ⟨hlead, .character rfl _ (List.mem_cons_self ..) (kind_of_stray hfault) rfl⟩
    · obtain ⟨hcode, hle, hrest⟩ := error_triviaRun _ _ _ _ e he
      have hlexemes : ∀ l ∈ lexemes, l.token.text ≠ "" → l.stop ≤ e.start := by
        rw [show trail.rest = [] from hrest, lexFrom_nil] at hrec
        obtain ⟨rfl, -⟩ := Prod.mk.inj hrec
        simp
      refine ⟨Nat.le_trans (Nat.le_trans hlead (Nat.le_add_right _ _)) hle, ?_⟩
      exact (Traced.comment hcode hlexemes).cons (Nat.le_trans (Nat.le_of_eq (hstop _ rfl)) hle)
    · rw [hrec] at ih
      obtain ⟨hle, htraced⟩ := ih e he
      have hbehind : lead.offset + Text.byteLength text ≤ e.start := Nat.le_trans htrail hle
      refine ⟨Nat.le_trans (Nat.le_trans hlead (Nat.le_add_right _ _)) hbehind, ?_⟩
      exact htraced.cons (Nat.le_trans (Nat.le_of_eq (hstop _ rfl)) hbehind)

/-- Every error of the lexer is traced. -/
theorem traced_lex (text : String) : ∀ e ∈ (lex text).2, Traced (lex text).1 e :=
  fun e he => (traced_lexFrom true 0 text.toList e he).2

end Lexer

/-! ## The leaves of a tree -/

namespace Fills

variable {ts : List Token} {ls : List Lexeme}

/-- The tokens that the source does not lack stand where the lexemes do. -/
theorem filter_located (h : Fills ts ls) (hls : ∀ l ∈ ls, l.token.missing = false) (offset : Nat) :
    (located offset ts).filter (fun l => !l.token.missing) =
      located offset (ls.map Lexeme.token) := by
  induction h generalizing offset with
  | nil => rfl
  | read l _ ih =>
    have hl : l.token.missing = false := hls l (by simp)
    simp [located, hl, ih fun m hm => hls m (by simp [hm])]
  | absent k _ _ ih => simpa [located, Token.absent, Trivia.width] using ih hls offset

end Fills

namespace Node

variable {n : Placed}

/-- The leaves as lexemes, in order. -/
def lexemes (n : Placed) : List Lexeme :=
  n.preorder.filterMap fun m => m.token?.map fun t => ⟨t, m.span.start⟩

theorem mem_lexemes {l : Lexeme} :
    l ∈ n.lexemes ↔ ∃ m ∈ n.preorder, m.token? = some l.token ∧ m.span.start = l.start := by
  simp only [lexemes, List.mem_filterMap, Option.map_eq_some_iff]
  constructor
  · rintro ⟨m, hm, t, ht, rfl⟩
    exact ⟨m, hm, ht, rfl⟩
  · rintro ⟨m, hm, ht, hstart⟩
    exact ⟨m, hm, l.token, ht, by rw [hstart]⟩

/-- The leaves of a node that is laid out stand one behind the other. -/
theorem LaidOut.located_tokens (h : n.LaidOut) (ts : List Token) :
    located n.fullSpan.start (n.tokens ++ ts) = n.lexemes ++ located n.fullSpan.stop ts := by
  induction h generalizing ts with
  | token => rfl
  | @branch a k cs tile span below ih =>
    have hlexemes : (Node.branch a k cs).lexemes = cs.flatMap lexemes := by
      simp only [lexemes, preorder_branch, List.filterMap_cons, token?, Option.map_none,
        List.filterMap_flatMap]
      rfl
    rw [tokens_branch, hlexemes]
    change located a.fullSpan.start _ = _ ++ located a.fullSpan.stop ts
    clear span hlexemes
    generalize a.fullSpan.start = lo, a.fullSpan.stop = hi at tile
    induction cs generalizing lo with
    | nil =>
      cases tile
      rfl
    | cons c cs ihcs =>
      obtain ⟨hstart, -, hrest⟩ := Span.Tile.cons_iff.1 tile
      rw [List.flatMap_cons, List.append_assoc, ← hstart, ih c (by simp),
        ihcs (fun d hd => below d (by simp [hd])) (fun d hd => ih d (by simp [hd])) _ hrest,
        List.flatMap_cons, List.append_assoc]

theorem LaidOut.lexemes_eq (h : n.LaidOut) : n.lexemes = located n.fullSpan.start n.tokens := by
  simpa [located] using (h.located_tokens []).symm

end Node

/-- The leaves of a parsed tree that the source does not lack stand where its lexemes do. -/
theorem lexemes_parse {file text : String} {root : Placed}
    (h : (parse file text).tree.placed = some root) :
    root.lexemes.filter (fun l => !l.token.missing) = (Lexer.lex text).1 := by
  obtain rfl : (Parser.compilationUnit (.ofText text)).1.placed = root := Option.some.inj h
  obtain ⟨hlaid, hstart⟩ := Node.laidOut_placed (Tree.wellFormed_compilationUnit text)
  rw [hlaid.lexemes_eq, hstart, Node.tokens_placed,
    (fills_parse text).filter_located (Lexer.missing_lexFrom true 0 text.toList)]
  exact (Lexer.lex_eq_located text).symm

end NullLint
