import NullLint.Proofs.Parser.Reporting
import Mathlib.Data.List.Chain
import Mathlib.Data.List.Forall2
import Mathlib.Data.List.Nodup

/-!
# Errors at one place

A report is dropped only if the last one starts at the same place. The parser reports at the two
ends of the gap before the current token, so its errors come gap by gap, and within a gap they
alternate between its ends: with three of them the first and the last start at one place.
-/

namespace NullLint

/-! ## Gaps -/

/-- The gaps between the texts of lexemes, the first one from `lo` on. -/
def gaps (lo : Nat) : List Lexeme → List Span
  | [] => []
  | l :: ls => ⟨lo, l.start⟩ :: gaps l.stop ls

/-- The error starts at an end of the gap. -/
def SyntaxError.StartsAt (e : SyntaxError) (gap : Span) : Prop :=
  e.start = gap.start ∨ e.start = gap.stop

/-- The errors of each stretch start at ends of its gap. -/
def InGaps (gaps : List Span) (stretches : List (List SyntaxError)) : Prop :=
  List.Forall₂ (fun gap es => ∀ e ∈ es, e.StartsAt gap) gaps stretches

theorem le_of_mem_gaps_located {ts : List Token} {lo offset : Nat} (hlo : lo ≤ offset) :
    ∀ gap ∈ gaps lo (located offset ts), lo ≤ gap.start ∧ gap.start ≤ gap.stop := by
  induction ts generalizing lo offset with
  | nil => simp [located, gaps]
  | cons t ts ih =>
    intro gap hgap
    rcases List.mem_cons.1 hgap with rfl | hgap
    · exact ⟨Nat.le_refl _, Nat.le_trans hlo (Nat.le_add_right ..)⟩
    · obtain ⟨hle, hordered⟩ := ih (Nat.le_add_right ..) gap hgap
      refine ⟨?_, hordered⟩
      simp only [Lexeme.stop] at hle
      omega

/-- Gaps around texts lie apart. -/
theorem pairwise_gaps_located {ts : List Token} {lo offset : Nat}
    (hts : ∀ t ∈ ts.dropLast, t.text ≠ "") :
    (gaps lo (located offset ts)).Pairwise fun g h => g.stop < h.start := by
  induction ts generalizing lo offset with
  | nil => exact .nil
  | cons t ts ih =>
    cases ts with
    | nil => exact List.pairwise_singleton _ _
    | cons u us =>
      rw [List.dropLast_cons_cons, List.forall_mem_cons] at hts
      refine .cons (fun gap hgap => ?_) (ih hts.2)
      obtain ⟨hle, -⟩ := le_of_mem_gaps_located (Nat.le_add_right ..) gap hgap
      have hpos : 0 < t.text.utf8ByteSize :=
        Nat.pos_of_ne_zero fun hzero => hts.1 (String.utf8ByteSize_eq_zero_iff.1 hzero)
      simp only [Lexeme.stop] at hle
      simp only
      omega

theorem pairwise_gaps_lex (text : String) :
    (gaps 0 (Lexer.lex text).1).Pairwise fun g h => g.stop < h.start := by
  rw [Lexer.lex_eq_located]
  apply pairwise_gaps_located
  obtain ⟨before, last, hlexemes, -, hbefore⟩ := Lexer.exists_lexFrom_eq_concat true 0 text.toList
  rw [Lexer.lex, hlexemes, List.map_append, List.map_singleton, List.dropLast_concat,
    List.forall_mem_map]
  exact fun l hl => (hbefore l hl).2

/-! ## What a parser keeps -/

namespace ParseState

variable {text : String} {s : ParseState}

/-- No two reports that follow each other start at one place. -/
def Alternating (s : ParseState) : Prop := s.errors.IsChain fun d e => d.start ≠ e.start

theorem kept_alternating : Kept Alternating where
  read _ _ h := h
  report {s e} _ h := by
    rcases s.report_cases e with heq | ⟨heq, hlast⟩
    · rwa [heq]
    · rw [heq]
      exact List.isChain_cons.2 ⟨fun d hd => (hlast d hd).symm, h⟩
  deep h := h

theorem alternating_ofText (text : String) : (ParseState.ofText text).Alternating := by
  apply List.isChain_reverse.2
  exact ((Lexer.pairwise_start_lex text).imp fun hlt => hlt.ne').isChain

/-- The errors of the parser are those of the gaps passed and of the gap before the current token. -/
def ByGaps (text : String) (s : ParseState) : Prop :=
  ∃ passed stretches current,
    gaps 0 (Lexer.lex text).1 = passed ++ gaps s.lastStop s.rest ∧ InGaps passed stretches ∧
    (∀ e ∈ current, e.StartsAt ⟨s.lastStop, s.offset⟩) ∧
    s.errors.reverse = (Lexer.lex text).2 ++ (stretches ++ [current]).flatten

theorem kept_byGaps (text : String) : Kept (ByGaps text) where
  read {s l rest} hs _ h := by
    obtain ⟨passed, stretches, current, hgaps, hpassed, hcurrent, herrors⟩ := h
    have hoffset : s.offset = l.start := by simp [offset, hs]
    -- The gap before the token is passed, and nothing is reported yet in the one behind it.
    refine ⟨passed ++ [⟨s.lastStop, l.start⟩], stretches ++ [current], [], ?_, ?_, by simp, ?_⟩
    · rw [hgaps, hs]
      simp [gaps]
    · rw [← hoffset]
      exact List.rel_append hpassed (.cons hcurrent .nil)
    · simpa using herrors
  report {s e} he h := by
    rcases s.report_cases e with heq | ⟨heq, -⟩
    · rwa [heq]
    · obtain ⟨passed, stretches, current, hgaps, hpassed, hcurrent, herrors⟩ := h
      rw [heq]
      refine ⟨passed, stretches, current ++ [e], hgaps, hpassed, ?_, ?_⟩
      · intro d hd
        rcases List.mem_append.1 hd with hd | hd
        · exact hcurrent d hd
        · rw [List.mem_singleton.1 hd]
          exact he.start_eq
      · simp [herrors]
  deep h := h

theorem byGaps_ofText (text : String) : (ParseState.ofText text).ByGaps text :=
  ⟨[], [], [], rfl, .nil, by simp, by simp [ofText]⟩

/-- The errors of the parser by all gaps of the text. -/
theorem ByGaps.exists_stretches (h : s.ByGaps text) (hrest : s.rest ≠ []) : ∃ stretches,
    InGaps (gaps 0 (Lexer.lex text).1) stretches ∧
      s.errors.reverse = (Lexer.lex text).2 ++ stretches.flatten := by
  obtain ⟨passed, stretches, current, hgaps, hpassed, hcurrent, herrors⟩ := h
  obtain ⟨l, rest, hrest⟩ := List.exists_cons_of_ne_nil hrest
  have hoffset : s.offset = l.start := by simp [offset, hrest]
  have hahead (gs : List Span) : InGaps gs (gs.map fun _ => []) := by
    induction gs with
    | nil => exact .nil
    | cons gap gs ih => exact .cons (by simp) ih
  -- Nothing is reported in the gaps ahead.
  refine ⟨stretches ++ current :: (gaps l.stop rest).map fun _ => [], ?_, ?_⟩
  · rw [hgaps, hrest]
    exact List.rel_append hpassed (.cons (hoffset ▸ hcurrent) (hahead _))
  · simp [herrors]

end ParseState

/-! ## Errors of one gap -/

theorem nodup_starts_iff {gap : Span} {es : List SyntaxError} (hgap : ∀ e ∈ es, e.StartsAt gap)
    (halternating : es.IsChain fun d e => d.start ≠ e.start) :
    (es.map SyntaxError.start).Nodup ↔ es.length ≤ 2 := by
  constructor
  · intro hnodup
    -- A gap has two ends only.
    have hsub : es.map SyntaxError.start ⊆ [gap.start, gap.stop] := by
      intro n hn
      obtain ⟨e, he, rfl⟩ := List.mem_map.1 hn
      simpa [SyntaxError.StartsAt] using hgap e he
    simpa using (hnodup.subperm hsub).length_le
  · intro hlength
    match es, halternating, hlength with
    | [], _, _ => exact List.nodup_nil
    | [e], _, _ => exact List.nodup_singleton _
    | [d, e], halternating, _ =>
      simpa using (List.isChain_cons_cons.1 halternating).1

theorem exists_gap_of_mem {gaps : List Span} {stretches : List (List SyntaxError)}
    (h : InGaps gaps stretches) {es : List SyntaxError} (hes : es ∈ stretches) :
    ∃ gap ∈ gaps, ∀ e ∈ es, e.StartsAt gap := by
  induction h with
  | nil => cases hes
  | @cons gap ds gaps stretches hds _ ih =>
    rcases List.mem_cons.1 hes with rfl | hes
    · exact ⟨gap, List.mem_cons_self .., hds⟩
    · obtain ⟨gap', hgap', hstarts⟩ := ih hes
      exact ⟨gap', List.mem_cons_of_mem gap hgap', hstarts⟩

/-- Errors of gaps that lie apart start at different places. -/
theorem disjoint_starts {gaps : List Span} {stretches : List (List SyntaxError)}
    (hgaps : gaps.Pairwise fun g h => g.stop < h.start) (hle : ∀ g ∈ gaps, g.start ≤ g.stop)
    (h : InGaps gaps stretches) :
    (stretches.map (List.map SyntaxError.start)).Pairwise List.Disjoint := by
  induction h with
  | nil => exact .nil
  | @cons gap ds gaps stretches hds h ih =>
    obtain ⟨hbehind, hgaps⟩ := List.pairwise_cons.1 hgaps
    obtain ⟨hordered, hle⟩ := List.forall_mem_cons.1 hle
    refine .cons ?_ (ih hgaps hle)
    rw [List.forall_mem_map]
    intro es hes n hn hn'
    obtain ⟨gap', hgap', hstarts⟩ := exists_gap_of_mem h hes
    obtain ⟨d, hd, rfl⟩ := List.mem_map.1 hn
    obtain ⟨e, he, heq⟩ := List.mem_map.1 hn'
    have hlt := hbehind gap' hgap'
    have hordered' := hle gap' hgap'
    rcases hds d hd with hd | hd <;> rcases hstarts e he with he | he <;> omega

/-- Errors that come gap by gap and alternate start at different places just if there are two at most
in each gap. -/
theorem nodup_flatten_starts_iff {gaps : List Span} {stretches : List (List SyntaxError)}
    (hgaps : gaps.Pairwise fun g h => g.stop < h.start) (hle : ∀ g ∈ gaps, g.start ≤ g.stop)
    (h : InGaps gaps stretches)
    (halternating : stretches.flatten.IsChain fun d e => d.start ≠ e.start) :
    (stretches.flatten.map SyntaxError.start).Nodup ↔ ∀ es ∈ stretches, es.length ≤ 2 := by
  have hstretch : ∀ es ∈ stretches, (es.map SyntaxError.start).Nodup ↔ es.length ≤ 2 := by
    intro es hes
    obtain ⟨gap, -, hstarts⟩ := exists_gap_of_mem h hes
    obtain ⟨before, after, rfl⟩ := List.append_of_mem hes
    rw [List.flatten_append, List.flatten_cons] at halternating
    exact nodup_starts_iff hstarts halternating.right_of_append.left_of_append
  rw [List.map_flatten, List.nodup_flatten, List.forall_mem_map]
  constructor
  · exact fun hnodup es hes => (hstretch es hes).1 (hnodup.1 es hes)
  · exact fun hlength => ⟨fun es hes => (hstretch es hes).2 (hlength es hes),
      disjoint_starts hgaps hle h⟩

/-- The errors of the parser come gap by gap behind those of the lexer, each at an end of its gap and
elsewhere than the one before. So two diagnostics of one file start at the same place just if an
error of the parser starts where one of the lexer does, or a gap has three errors. -/
theorem errors_alternate (file text : String) : ∃ stretches,
    InGaps (gaps 0 (Lexer.lex text).1) stretches ∧
    (parse file text).errors =
      ((Lexer.lex text).2 ++ stretches.flatten).mergeSort (fun d e => d.start ≤ e.start) ∧
    ((Lexer.lex text).2 ++ stretches.flatten).IsChain (fun d e => d.start ≠ e.start) ∧
    (((parse file text).diagnostics.map Diagnostic.start).Nodup ↔
      (∀ d ∈ (Lexer.lex text).2, ∀ e ∈ stretches.flatten, d.start ≠ e.start) ∧
        ∀ es ∈ stretches, es.length ≤ 2) := by
  have hend : ∃ l ∈ (ParseState.ofText text).rest, l.kind = .endOfFile :=
    Lexer.exists_endOfFile_lexFrom true 0 text.toList
  obtain ⟨s, ⟨halternating, hbyGaps, l, hl, -⟩, hparse⟩ := exists_state_parse
    (ParseState.kept_alternating.and ((ParseState.kept_byGaps text).and ParseState.kept_endOfFile))
    ⟨ParseState.alternating_ofText text, ParseState.byGaps_ofText text, hend⟩ file
  obtain ⟨stretches, hstretches, herrors⟩ :=
    hbyGaps.exists_stretches (List.ne_nil_of_mem hl)
  rw [herrors] at hparse
  have hchain : ((Lexer.lex text).2 ++ stretches.flatten).IsChain fun d e => d.start ≠ e.start := by
    rw [← herrors]
    exact List.isChain_reverse.2 (halternating.imp fun _ _ hne => hne.symm)
  refine ⟨stretches, hstretches, hparse, hchain, ?_⟩
  have hstarts : ((parse file text).diagnostics.map Diagnostic.start).Perm
      (((Lexer.lex text).2 ++ stretches.flatten).map SyntaxError.start) := by
    rw [ParseResult.diagnostics, List.map_map, hparse]
    exact (List.mergeSort_perm _ _).map _
  have hlexer : ((Lexer.lex text).2.map SyntaxError.start).Nodup :=
    List.pairwise_map.2 ((Lexer.pairwise_start_lex text).imp fun hlt => hlt.ne)
  have hordered : ∀ gap ∈ gaps 0 (Lexer.lex text).1, gap.start ≤ gap.stop := by
    rw [Lexer.lex_eq_located]
    exact fun gap hgap => (le_of_mem_gaps_located (Nat.le_refl 0) gap hgap).2
  rw [hstarts.nodup_iff, List.map_append, List.nodup_append,
    nodup_flatten_starts_iff (pairwise_gaps_lex text) hordered hstretches hchain.right_of_append]
  simp only [List.forall_mem_map, hlexer, true_and, and_comm]

/-- Behind `if ` three errors start at the end of the keyword, and two at the end of the text. -/
theorem errors_alternate_if : ¬((parse "" "if ").diagnostics.map Diagnostic.start).Nodup := by
  have hstarts : ((parse "" "if ").diagnostics.map Diagnostic.start).Perm
      ((Parser.compilationUnit (.ofText "if ")).2.errors.map SyntaxError.start) := by
    rw [ParseResult.diagnostics, List.map_map]
    exact (errors_parse_perm "" "if ").map _
  rw [hstarts.nodup_iff]
  decide +kernel

end NullLint
