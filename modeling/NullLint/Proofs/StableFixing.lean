import NullLint.Proofs.Fix.Tidiness

/-!
# Fixing what is fixed

A text that reads as the outcome of a run starts a second run where the first one ended: it finds
nothing, unless the first run stopped for having made as many passes as there may be
(`fixAll_again`).
-/

namespace NullLint

/-- A run without passes stays where it is. -/
theorem Tree.Passes.eq_of_nil {t u : Tree} (h : Passes t [] u) : u = t := by
  cases h
  rfl

/-- A file that parses is left as it is just if nothing is found in it. -/
theorem passes_eq_nil_iff {file text : String} {options : AnalysisOptions} {outcome : FixOutcome}
    (herrors : (parse file text).errors = []) (hok : fixAll file text options = .ok outcome) :
    (outcome.passes = [] ↔ (parse file text).tree.check options = []) ∧
      (outcome.passes = [] → outcome.text = text) := by
  have hempty : (parse file text).errors.isEmpty = true := by simp [herrors]
  obtain ⟨outcome', hok', hpasses, -, hremaining, hstop⟩ := fixAll_eq_ok file text options hempty
  obtain rfl : outcome' = outcome := Except.ok.inj (hok'.symm.trans hok)
  have hsame : outcome'.passes = [] → outcome'.tree = (parse file text).tree := by
    intro hnil
    rw [hnil] at hpasses
    exact hpasses.eq_of_nil
  refine ⟨⟨fun hnil => ?_, fun hcheck => ?_⟩, fun hnil => ?_⟩
  · rw [hnil] at hstop
    rw [← hsame hnil, ← hremaining]
    exact hstop.resolve_right (by simp [maxFixPasses])
  · simp only [fixAll, analyze, hempty, hcheck, fixPasses, maxFixPasses, bind, Except.bind,
      List.isEmpty_nil, if_true] at hok
    cases hok
    rfl
  · rw [FixOutcome.text, hsame hnil, text_parse]

/-- Fixing is idempotent as long as sixteen passes are enough. A second run over the text of the
first outcome gives an outcome; if that text reads as the tree of the first outcome, it changes
nothing whenever the first run made less than sixteen passes, and, where the text has no errors,
just if the first run left nothing to report. -/
theorem fixAll_again (file text : String) (options : AnalysisOptions) :
    ∃ first second, fixAll file text options = .ok first ∧
      fixAll file first.text options = .ok second ∧
      ((parse file first.text).tree.sameAs first.tree = true → first.passes.length < 16 →
        second.passes = [] ∧ second.text = first.text) ∧
      ((parse file first.text).errors = [] →
        (parse file first.text).tree.sameAs first.tree = true →
          (second.passes = [] ∧ second.text = first.text ↔ first.remaining = [])) := by
  have hleft (text : String) (herrors : (parse file text).errors ≠ []) :
      ∃ outcome, fixAll file text options = .ok outcome ∧ outcome.passes = [] ∧
        outcome.text = text :=
    fixAll_of_errors file text options (by simpa using herrors)
  by_cases herrors : (parse file text).errors = []
  · obtain ⟨first, hfirst, -⟩ := fixAll_eq_ok file text options (by simp [herrors])
    by_cases hread : (parse file first.text).errors = []
    · obtain ⟨second, hsecond, -⟩ := fixAll_eq_ok file first.text options (by simp [hread])
      obtain ⟨hiff, htext⟩ := passes_eq_nil_iff hread hsecond
      have hremaining (hsame : (parse file first.text).tree.sameAs first.tree = true) :
          (second.passes = [] ∧ second.text = first.text ↔ first.remaining = []) ∧
            (first.remaining = [] ∨ first.passes.length = 16) := by
        obtain ⟨hparsed, hremaining, hstop⟩ := parse_outcome herrors hfirst hread hsame
        rw [and_iff_left_of_imp htext, hiff, hparsed, ← hremaining]
        exact ⟨Iff.rfl, hstop⟩
      refine ⟨first, second, hfirst, hsecond, fun hsame hlt => ?_, fun _ hsame =>
        (hremaining hsame).1⟩
      obtain ⟨hnothing, hstop⟩ := hremaining hsame
      exact hnothing.2 (hstop.resolve_right (Nat.ne_of_lt hlt))
    · obtain ⟨second, hsecond, hpasses, htext⟩ := hleft first.text hread
      exact ⟨first, second, hfirst, hsecond, fun _ _ => ⟨hpasses, htext⟩,
        fun hnil => absurd hnil hread⟩
  · obtain ⟨first, hfirst, hpasses, htext⟩ := hleft text herrors
    refine ⟨first, first, hfirst, ?_, fun _ _ => ⟨hpasses, rfl⟩, ?_⟩
    · rw [htext]
      exact hfirst
    · rw [htext]
      exact fun hnil => absurd hnil herrors

/-- Two passes over a chain of accesses, with comments and a line break in it, leave nothing for a
second run. -/
theorem fixAll_again_chain :
    ∃ first second, fixAll "" "this /* a */ ?.\nToString() ?.ToString(); // b" {} = .ok first ∧
      fixAll "" first.text {} = .ok second ∧ first.passes.length = 2 ∧
      first.text = "this.\nToString().ToString(); // b" ∧ second.passes = [] ∧
      second.text = first.text := by
  obtain ⟨first, second, hfirst, hsecond, hagain, -⟩ :=
    fixAll_again "" "this /* a */ ?.\nToString() ?.ToString(); // b" {}
  have hread : (fixAll "" "this /* a */ ?.\nToString() ?.ToString(); // b" {}).toOption.map
      (fun o => (o.passes.length, o.text, (parse "" o.text).tree.sameAs o.tree)) =
        some (2, "this.\nToString().ToString(); // b", true) := by
    decide +kernel
  rw [hfirst] at hread
  obtain ⟨hlength, hrest⟩ := Prod.mk.inj (Option.some.inj hread)
  obtain ⟨htext, hsame⟩ := Prod.mk.inj hrest
  obtain ⟨hpasses, hunchanged⟩ := hagain hsame (by omega)
  exact ⟨first, second, hfirst, hsecond, hlength, htext, hpasses, hunchanged⟩

/-- What two runs in a row do can be computed. -/
theorem exists_outcomes {file text : String} {options : AnalysisOptions} {m n : Nat}
    (h : ((fixAll file text options).toOption.map fun first => (first.passes.length,
      (fixAll file first.text options).toOption.map fun second => second.passes.length)) =
        some (m, some n)) :
    ∃ first second, fixAll file text options = .ok first ∧
      fixAll file first.text options = .ok second ∧ first.passes.length = m ∧
      second.passes.length = n := by
  cases hfirst : fixAll file text options with
  | error e => simp [hfirst, Except.toOption] at h
  | ok first =>
    cases hsecond : fixAll file first.text options with
    | error e => simp [hfirst, hsecond, Except.toOption] at h
    | ok second =>
      simp only [hfirst, hsecond, Except.toOption, Option.map_some, Option.some.injEq,
        Prod.mk.injEq] at h
      exact ⟨first, second, rfl, hsecond, h.1, h.2⟩

/-! A text that is put together from others has the characters of each in turn. Taking them from
there spares evaluation the bytes of the whole text. -/

theorem Lexer.lex_join (texts : List String) :
    lex (String.join texts) = lexFrom true 0 (texts.flatMap String.toList) := by
  rw [lex, String.toList_join]

theorem parse_join (file : String) (texts : List String) : parse file (String.join texts) =
    let (lexemes, errors) := Lexer.lexFrom true 0 (texts.flatMap String.toList)
    let (root, state) := Parser.compilationUnit { rest := lexemes, errors := errors.reverse }
    ⟨⟨file, some root⟩, state.errors.reverse.mergeSort fun a b => a.start ≤ b.start⟩ := by
  rw [← Lexer.lex_join]
  rfl

theorem FixOutcome.text_eq_join (o : FixOutcome) :
    o.text = String.join (((o.tree.root.map Node.tokens).getD []).map Token.fullText) := by
  rw [FixOutcome.text, Tree.text]
  cases o.tree.root <;> rfl

/-- A chain of accesses, each to what the one before it returns. -/
def accessChain (n : Nat) : String :=
  String.join ("this" :: List.replicate n "?.ToString()" ++ [";"])

/-- A second run need not find its work done. Sixteen passes are not enough for a chain of seventeen
accesses, which loses one operator in each; and without its operator, the text of a comparison may
declare a variable, whose type makes another operator redundant. -/
theorem fixAll_not_idempotent :
    (∃ first second, fixAll "" (accessChain 17) {} = .ok first ∧
      fixAll "" first.text {} = .ok second ∧ first.passes.length = 16 ∧
      second.passes.length = 1) ∧
    ∃ first second, fixAll "" "int a = 1; a! < b > c = new C(); c?.F();" {} = .ok first ∧
      fixAll "" first.text {} = .ok second ∧ first.passes.length = 1 ∧
      second.passes.length = 1 := by
  constructor
  · refine exists_outcomes ?_
    simp only [fixAll, analyze, parse_join, FixOutcome.text_eq_join, accessChain]
    decide +kernel
  · exact exists_outcomes (by decide +kernel)

end NullLint
