import NullLint.Proofs.Check.Reports
import NullLint.Proofs.Lexer.Locations
import NullLint.Proofs.Parser.Shapes

/-!
# Findings beside lexical errors

A finding is dropped for what is wrong in the tree, and an error of the lexer need not leave a trace
there. A character that begins no token always does: it ends up in an error node of every branch
around it. An open literal is a literal like any other, and an open comment begins behind all nodes
with a text, so neither of them drops a finding.
-/

namespace NullLint

namespace Node

variable {n : Placed}

theorem isMalformed_of_unknown {m : Placed} {d : Nat} {t : Token} (h : n.Shaped d)
    (hm : m ∈ n.preorder) (ht : m.token? = some t) (hunknown : t.kind = .unknown) :
    n.isMalformed = true := by
  obtain ⟨e, he, hkind, -⟩ := h.exists_errorNode hm ht hunknown
  exact List.any_eq_true.2 ⟨e, he, by simp [hkind]⟩

/-- A span that is not empty ends with that of a child. -/
theorem exists_stop_innerSpan {lo : Nat} {cs : List Placed}
    (h : (innerSpan lo cs).start < (innerSpan lo cs).stop) :
    ∃ c ∈ cs, c.span.start < c.span.stop ∧ c.span.stop = (innerSpan lo cs).stop := by
  simp only [innerSpan] at h ⊢
  cases hlast : ((cs.map span).filter fun s => !s.isEmpty).getLast? with
  | none => simp [hlast, Span.emptyAt] at h
  | some last =>
    obtain ⟨hmem, hne⟩ := List.mem_filter.1 (List.mem_of_getLast? hlast)
    obtain ⟨c, hc, rfl⟩ := List.mem_map.1 hmem
    refine ⟨c, hc, by simpa [Span.isEmpty] using hne, ?_⟩
    cases hfirst : ((cs.map span).filter fun s => !s.isEmpty).head? with
    | none => simp [List.head?_eq_none_iff.1 hfirst] at hlast
    | some first => rfl

/-- A node with a text ends where one of its leaves does. -/
theorem LaidOut.stop_le (h : n.LaidOut) (hne : n.span.start < n.span.stop) {bound : Nat}
    (hleaves : ∀ l ∈ n.lexemes, l.token.text ≠ "" → l.stop ≤ bound) : n.span.stop ≤ bound := by
  induction h with
  | @token id offset t =>
    refine hleaves ⟨t, offset + Trivia.width t.leading⟩ (List.mem_singleton_self _) ?_
    rintro (hempty : t.text = "")
    simp [span, tag, tokenPlace, hempty] at hne
  | @branch a k cs tile span below ih =>
    rw [show (Node.branch a k cs).span = innerSpan a.fullSpan.start cs from span] at hne ⊢
    obtain ⟨c, hc, hcne, hstop⟩ := exists_stop_innerSpan hne
    rw [← hstop]
    refine ih c hc hcne fun l hl => hleaves l ?_
    obtain ⟨m, hm, hml⟩ := mem_lexemes.1 hl
    exact mem_lexemes.2 ⟨m, mem_preorder_branch.2 (.inr ⟨c, hc, hm⟩), hml⟩

end Node

/-! ## What an error of the lexer does to a tree -/

section Parsed

variable {file text : String} {root m : Placed} {e : SyntaxError}
  (hroot : (parse file text).tree.placed = some root)
include hroot

theorem laidOut_parse : root.LaidOut := by
  obtain rfl : (Parser.compilationUnit (.ofText text)).1.placed = root := Option.some.inj hroot
  exact (Node.laidOut_placed (Tree.wellFormed_compilationUnit text)).1

/-- A leaf with a text is a lexeme. -/
theorem mem_lex_of_mem_lexemes {l : Lexeme} (hl : l ∈ root.lexemes) (htext : l.token.text ≠ "") :
    l ∈ (Lexer.lex text).1 := by
  rw [← lexemes_parse hroot, List.mem_filter]
  refine ⟨hl, ?_⟩
  obtain ⟨n, hn, htoken, -⟩ := Node.mem_lexemes.1 hl
  have hmem : l.token ∈ (parse file text).tree.nodes.filterMap Node.token? := by
    rw [Tree.nodes_of_placed hroot]
    exact List.mem_filterMap.2 ⟨n, hn, htoken⟩
  cases hmissing : l.token.missing with
  | false => rfl
  | true =>
    have habsent := (parse_lossless file text).2.2 _ hmem hmissing
    exact absurd (congrArg Token.text habsent) htext

/-- An open comment begins behind every node that has a text. -/
theorem stop_le_of_openComment (he : e ∈ (Lexer.lex text).2) (hcode : e.code = .endOfFileInComment)
    (hm : m ∈ root.preorder) (hne : m.span.start < m.span.stop) : m.span.stop ≤ e.start := by
  refine ((laidOut_parse hroot).of_mem hm).stop_le hne fun l hl htext => ?_
  obtain ⟨n, hn, hnl⟩ := Node.mem_lexemes.1 hl
  have hroots : l ∈ root.lexemes := Node.mem_lexemes.2 ⟨n, Node.mem_preorder_trans hn hm, hnl⟩
  cases Lexer.traced_lex text e he with
  | literal code => simp [hcode] at code
  | character code => simp [hcode] at code
  | comment _ behind => exact behind l (mem_lex_of_mem_lexemes hroot hroots htext) htext

/-- A stray character is a leaf of the tree. -/
theorem exists_strayLeaf (he : e ∈ (Lexer.lex text).2) (hcode : e.code = .unexpectedCharacter) :
    ∃ n ∈ root.preorder, ∃ t, n.token? = some t ∧ t.kind = .unknown ∧ n.span.start = e.start := by
  cases Lexer.traced_lex text e he with
  | literal code => simp [hcode] at code
  | comment code => simp [hcode] at code
  | character _ l mem kind start =>
    rw [← lexemes_parse hroot] at mem
    obtain ⟨n, hn, htoken, hstart⟩ := Node.mem_lexemes.1 (List.mem_filter.1 mem).1
    exact ⟨n, hn, l.token, htoken, kind, hstart.trans start⟩

theorem isMalformed_root_of_stray (he : e ∈ (Lexer.lex text).2)
    (hcode : e.code = .unexpectedCharacter) : root.isMalformed = true := by
  obtain ⟨root', hroot', -, -, hshaped⟩ := shaped_parse file text
  obtain rfl : root = root' := Option.some.inj (hroot.symm.trans hroot')
  obtain ⟨n, hn, t, htoken, hunknown, -⟩ := exists_strayLeaf hroot he hcode
  exact Node.isMalformed_of_unknown hshaped hn htoken hunknown

/-- A branch around a stray character holds an error node. -/
theorem isMalformed_of_stray (he : e ∈ (Lexer.lex text).2) (hcode : e.code = .unexpectedCharacter)
    (hm : m ∈ root.preorder) (hbranch : m.token? = none) (hstart : m.span.start < e.start)
    (hstop : e.start < m.span.stop) : m.isMalformed = true := by
  have hlaid := laidOut_parse hroot
  obtain ⟨root', hroot', -, -, hshaped⟩ := shaped_parse file text
  obtain rfl : root = root' := Option.some.inj (hroot.symm.trans hroot')
  obtain ⟨n, hn, t, htoken, hunknown, hplace⟩ := exists_strayLeaf hroot he hcode
  have hbelow : n ∈ m.preorder := by
    obtain ⟨hnlo, hnle, hnhi⟩ := (hlaid.of_mem hn).within_span
    obtain ⟨hmlo, hmle, hmhi⟩ := (hlaid.of_mem hm).within_span
    rcases hlaid.nested_or_apart hn hm with hin | hin | hapart
    · exact hin
    · cases n with
      | token =>
        obtain rfl := List.mem_singleton.1 hin
        cases hbranch
      | branch => cases htoken
    · omega
  rcases hshaped.of_mem hm with hm | ⟨error, -, -, hchild, hleaves⟩
  · exact Node.isMalformed_of_unknown hm hbelow htoken hunknown
  · have hleaf := hleaves m hchild
    rw [hbranch] at hleaf
    cases hleaf

end Parsed

/-! ## Findings -/

theorem member?_eq_some {path : List Placed} {m : Placed} (h : Path.member? path = some m) :
    m ∈ path ∧ m.kind.isToken = false := by
  refine ⟨List.mem_of_mem_tail (List.mem_of_find?_eq_some h), ?_⟩
  have hkind := List.find?_some h
  revert hkind
  cases m.kind <;> decide

/-- Findings are judged by the tree alone. -/
theorem mem_findings_iff {file text : String} {options : AnalysisOptions} {f : Finding}
    {path : List Placed} (hf : f ∈ (parse file text).tree.rawFindings options .never)
    (hpath : (parse file text).tree.path? f.node = some path) :
    f ∈ (analyze file text options).findings ↔
      (Path.flowScope? path).any Node.isMalformed = false := by
  have henabled : options.rule.enabled = true := by
    by_contra hdisabled
    have hnone : (parse file text).tree.rawFindings options .never = [] := by
      simp only [Tree.rawFindings, Tree.checker, Checker.checkTree, hdisabled]
      rfl
    simp [hnone] at hf
  have hcheck : (analyze file text options).findings = (parse file text).tree.check options := rfl
  rw [hcheck, Tree.mem_check_iff _ options henabled, Tree.isSoundAt, hpath, Option.bind_some,
    Bool.not_eq_true']
  exact and_iff_right hf

/-- Of the errors of the lexer a stray character drops the findings in the member around it, and all
in top-level code. An open comment stands in no member and drops none, and with an open literal it
is the rest of the member, or of the file, that decides. -/
theorem findings_beside_lexicalError {file text : String} {options : AnalysisOptions}
    {root : Placed} {e : SyntaxError} {f : Finding} {path : List Placed}
    (hroot : (parse file text).tree.placed = some root) (he : e ∈ (Lexer.lex text).2)
    (hf : f ∈ (parse file text).tree.rawFindings options .never)
    (hpath : (parse file text).tree.path? f.node = some path) :
    (∀ m, Path.member? path = some m → m.span.start < e.start → e.start < m.span.stop →
      (f ∈ (analyze file text options).findings ↔
        e.code = .newlineInConstant ∧ m.isMalformed = false)) ∧
    (Path.member? path = none →
      (f ∈ (analyze file text options).findings ↔
        e.code ≠ .unexpectedCharacter ∧ root.isMalformed = false)) := by
  obtain ⟨root', hroot', hnumbered, hwf, -⟩ := shaped_parse file text
  obtain rfl : root = root' := Option.some.inj (hroot.symm.trans hroot')
  have hdescends : Node.Descends root [] path := by
    rw [Tree.path?, hroot, Option.bind_some] at hpath
    exact Node.descends_of_path? hnumbered hpath
  rw [mem_findings_iff hf hpath]
  constructor
  · intro m hmember hstart hstop
    obtain ⟨hmem, hkind⟩ := member?_eq_some hmember
    have hm : m ∈ root.preorder :=
      ((hdescends.mem_preorder_of_mem hmem).resolve_left List.not_mem_nil).1
    have hbranch : m.token? = none := by
      rw [Option.eq_none_iff_forall_ne_some]
      intro t ht
      have htoken := (hwf.of_mem hm).token?_iff_isToken.1 ⟨t, ht⟩
      simp [hkind] at htoken
    rw [Path.flowScope?, hmember, Option.some_or, Option.any_some, iff_and_self]
    intro hsound
    cases Lexer.traced_lex text e he with
    | literal code => exact code
    | character code =>
      rw [isMalformed_of_stray hroot he code hm hbranch hstart hstop] at hsound
      cases hsound
    | comment code =>
      have hle := stop_le_of_openComment hroot he code hm (Nat.lt_trans hstart hstop)
      omega
  · intro hmember
    obtain ⟨before, hsuffix⟩ := hdescends.suffix
    have hlast : path.getLast? = some root := by
      rw [← hsuffix, List.getLast?_append]
      rfl
    rw [Path.flowScope?, hmember, Option.none_or, hlast, Option.any_some, iff_and_self]
    rintro hsound hcode
    rw [isMalformed_root_of_stray hroot he hcode] at hsound
    cases hsound

/-- An error in the member around a finding can be computed. -/
theorem exists_inside_member (text : String) (findings : List Finding) (code : ErrorCode)
    (h : ((Lexer.lex text).2.head?.bind fun e => findings.head?.bind fun f =>
      ((parse "" text).tree.path? f.node).bind fun path => (Path.member? path).map fun m =>
        (e.code, decide (m.span.start < e.start), decide (e.start < m.span.stop))) =
          some (code, true, true)) :
    ∃ e ∈ (Lexer.lex text).2, ∃ f ∈ findings, ∃ path m, e.code = code ∧
      (parse "" text).tree.path? f.node = some path ∧ Path.member? path = some m ∧
        m.span.start < e.start ∧ e.start < m.span.stop := by
  obtain ⟨e, he, h⟩ := Option.bind_eq_some_iff.1 h
  obtain ⟨f, hf, h⟩ := Option.bind_eq_some_iff.1 h
  obtain ⟨path, hpath, h⟩ := Option.bind_eq_some_iff.1 h
  obtain ⟨m, hm, h⟩ := Option.map_eq_some_iff.1 h
  simp only [Prod.mk.injEq, decide_eq_true_eq] at h
  exact ⟨e, List.mem_of_head? he, f, List.mem_of_head? hf, path, m, h.1, hpath, hm, h.2⟩

/-- In `class C { void M() { 1!; $ } }` the finding in the method is dropped for the `$`. -/
theorem findings_beside_stray_method :
    let text := "class C \x7b void M() \x7b 1!; $ \x7d \x7d"
    ∃ e ∈ (Lexer.lex text).2, ∃ f ∈ (parse "" text).tree.rawFindings {} .never, ∃ path m,
      (parse "" text).tree.path? f.node = some path ∧ Path.member? path = some m ∧
        m.span.start < e.start ∧ e.start < m.span.stop ∧ f ∉ (analyze "" text {}).findings := by
  intro text
  obtain ⟨e, he, f, hf, path, m, hcode, hpath, hm, hstart, hstop⟩ :=
    exists_inside_member text ((parse "" text).tree.rawFindings {} .never) .unexpectedCharacter
      (by decide +kernel)
  obtain ⟨root, hroot, -⟩ := shaped_parse "" text
  have hiff := (findings_beside_lexicalError hroot he hf hpath).1 m hm hstart hstop
  simp only [hcode, reduceCtorEq, false_and, iff_false] at hiff
  exact ⟨e, he, f, hf, path, m, hpath, hm, hstart, hstop, hiff⟩

/-- In `class C { int f = 1!+'a` the line ends before the literal; `; }` on the next line completes
the field, and the finding in it is given out. -/
theorem finding_beside_openLiteral :
    let text := "class C \x7b int f = 1!+'a\n; \x7d"
    ∃ e ∈ (Lexer.lex text).2, ∃ f ∈ (analyze "" text {}).findings, ∃ path m,
      e.code = .newlineInConstant ∧ (parse "" text).tree.path? f.node = some path ∧
        Path.member? path = some m ∧ m.span.start < e.start ∧ e.start < m.span.stop :=
  exists_inside_member _ _ _ (by decide +kernel)

end NullLint
