import NullLint.Proofs.CleanParsing
import NullLint.Proofs.Fix.Dropping
import NullLint.Proofs.Fix.Passes
import NullLint.Proofs.Syntax.Outlines

/-!
# Outcomes that are read again

The outline of a tree with its tokens tells the tree (`Node.eq_of_outline_eq`). Lexemes have the
trivia that are found around them, and a pass only drops marks, so the tokens of an outcome still do
(`Tree.Tidy`). Hence a text that reads as a tree of the same shape as the outcome reads as the very
outcome (`parse_outcome`).
-/

namespace NullLint

/-- The tokens of a tree parsed without errors are the lexemes of the text. -/
theorem tokens_of_errors_eq_nil {file text : String} {root : Green}
    (herrors : (parse file text).errors = []) (hroot : (parse file text).tree.root = some root) :
    root.tokens = (Lexer.lex text).1.map Lexeme.token := by
  obtain ⟨-, root', hroot', -, -, -, hread⟩ := conforms_of_errors_eq_nil herrors
  obtain rfl := Option.some.inj (hroot.symm.trans hroot')
  obtain rfl := Option.some.inj (hroot.symm.trans (root_parse file text))
  have hpresent : ∀ l ∈ (Lexer.lex text).1, l.token.missing = false :=
    Lexer.missing_lexFrom true 0 text.toList
  rw [← (fills_parse text).filter_present hpresent, List.filter_eq_self.2]
  intro t ht
  obtain ⟨l, hl, rfl⟩ := hread t ht
  simp [hpresent l hl]

namespace Tree

variable {t u : Tree}

/-- The tokens of the tree were read and have the trivia that are found around them, and every null
operator stands behind an anchor. -/
structure Tidy (t : Tree) : Prop where
  exists_root : ∃ root, t.root = some root ∧ root.Anchored ∧ Lexer.Spaced true root.tokens ∧
    ∀ token ∈ root.tokens, token.missing = false

theorem tidy_parse {file text : String} (herrors : (parse file text).errors = []) :
    (parse file text).tree.Tidy := by
  obtain ⟨-, root, hroot, -, -, hconforms, hread⟩ := conforms_of_errors_eq_nil herrors
  refine ⟨root, hroot, hconforms.anchored hread, ?_, ?_⟩
  · rw [tokens_of_errors_eq_nil herrors hroot]
    exact Lexer.spaced_lexFrom true 0 text.toList
  · intro token htoken
    obtain ⟨l, hl, rfl⟩ := hread token htoken
    exact Lexer.missing_lexFrom true 0 text.toList l hl

/-- A pass keeps a tree tidy. -/
theorem Pass.tidy {changes : List TextChange} (h : Pass t changes u) (ht : t.Derived)
    (htidy : t.Tidy) : u.Tidy ∧ u.Derived ∧ u.file = t.file := by
  obtain ⟨ms, hms, hreplace⟩ := h.removes
  obtain ⟨root, hroot, hanchored, hspaced, hmissing⟩ := htidy
  obtain ⟨root', hroot', hwf⟩ := ht.root
  obtain rfl := Option.some.inj (hroot.symm.trans hroot')
  have hplaced : t.placed = some root.placed := by simp [placed, hroot]
  have hfragment : ∀ id g, lastFragment? (t.removals ms) id = some g →
      ∃ m ∈ ms, m.id = id ∧ Relation.ReflTransGen Drop m.tokens g.tokens ∧ g.Anchored ∧
        g.EndsAnchored := by
    intro id g hg
    obtain ⟨e, he, rfl, hfragment⟩ := exists_edit_of_lastFragment? hg
    obtain ⟨m, hm, rfl⟩ := List.mem_map.1 he
    obtain ⟨op, hop⟩ := hms.operation m hm
    have hmem : m ∈ root.placed.preorder := nodes_of_placed hplaced ▸ hms.mem m hm
    obtain ⟨g', hg', hdropped⟩ := exists_dropped t.file
      (((Node.wellFormed_placed root).2 hwf).of_mem hmem)
      (((Node.anchored_placed root).2 hanchored).of_mem hmem) hop
    obtain rfl : g' = g := Option.some.inj (hg'.symm.trans hfragment)
    exact ⟨m, hm, rfl, hdropped⟩
  have hdrops : Relation.ReflTransGen Drop root.tokens
      (root.placed.substitute (lastFragment? (t.removals ms))).tokens := by
    rw [← Node.tokens_placed root]
    refine Node.drops_substitute fun m hm g hg => ?_
    obtain ⟨m', hm', hid, hdropped, -⟩ := hfragment m.id g hg
    have hmem : m ∈ t.nodes := nodes_of_placed hplaced ▸ hm
    obtain rfl := eq_of_id_eq (hms.mem m' hm') hmem hid
    exact hdropped
  have hderived : u.Derived := .replaceMany ht (hms.derived ht) hreplace
  obtain rfl := hms.eq_substitute ht hroot hreplace
  refine ⟨⟨_, rfl, ?_, Drop.spaced_closure hdrops hspaced, Drop.missing_closure hdrops hmissing⟩,
    hderived, rfl⟩
  refine Node.anchored_substitute (fun id g hg => ?_) ((Node.anchored_placed root).2 hanchored)
  obtain ⟨m, -, -, -, hg⟩ := hfragment id g hg
  exact hg

theorem Passes.tidy {infos : List FixInfo} (h : Passes t infos u) (ht : t.Derived)
    (htidy : t.Tidy) : u.Tidy ∧ u.Derived ∧ u.file = t.file := by
  induction h with
  | done t => exact ⟨htidy, ht, rfl⟩
  | pass first rest ih =>
    obtain ⟨hu, hderived, hfile⟩ := first.tidy ht htidy
    obtain ⟨hv, hderived', hfile'⟩ := ih hderived hu
    exact ⟨hv, hderived', hfile'.trans hfile⟩

/-- The tokens of a tidy tree are the lexemes of its text, if they have the same kinds and texts. -/
theorem Tidy.tokens_eq {root : Green} (htidy : t.Tidy) (hroot : t.root = some root)
    (hlabels : (Lexer.lex t.text).1.map (fun l => (l.token.kind, l.token.text)) =
      root.tokens.map fun t => (t.kind, t.text)) :
    (Lexer.lex t.text).1.map Lexeme.token = root.tokens := by
  obtain ⟨root', hroot', -, hspaced, hmissing⟩ := htidy
  obtain rfl := Option.some.inj (hroot.symm.trans hroot')
  have htext : t.text = spelling root.tokens := by
    rw [text, hroot]
    rfl
  rw [Lexer.lex, htext] at hlabels ⊢
  refine hspaced.lexFrom_eq hmissing ?_
  rw [List.map_map]
  exact hlabels

/-- A tidy tree is the tree of its text, if that has the same outline. -/
theorem Tidy.parse_eq (htidy : t.Tidy) (ht : t.Derived)
    (herrors : (parse t.file t.text).errors = [])
    (hsame : (parse t.file t.text).tree.sameAs t = true) : (parse t.file t.text).tree = t := by
  obtain ⟨root, hroot, hwf⟩ := ht.root
  obtain ⟨-, read, hread, -, hwfRead, -⟩ := conforms_of_errors_eq_nil herrors
  have houtline : read.outline = root.outline := (sameAs_iff hread hroot).1 hsame
  have hlexed := tokens_of_errors_eq_nil herrors hread
  have hlabels : read.tokens.map (fun t => (t.kind, t.text)) =
      root.tokens.map fun t => (t.kind, t.text) := by
    rw [Node.tokens_of_outline hwfRead, houtline, ← Node.tokens_of_outline hwf]
  have htokens : read.tokens = root.tokens := by
    rw [hlexed, List.map_map] at hlabels
    exact hlexed.trans (htidy.tokens_eq hroot hlabels)
  obtain rfl := Node.eq_of_outline_eq hwfRead hwf houtline htokens
  calc
    (parse t.file t.text).tree = ⟨t.file, (parse t.file t.text).tree.root⟩ := rfl
    _ = ⟨t.file, t.root⟩ := by rw [hread, hroot]
    _ = t := rfl

end Tree

/-- The outcome of fixing a file that parses is the tree of its text, if that has no errors and the
same outline. -/
theorem parse_outcome {file text : String} {options : AnalysisOptions} {outcome : FixOutcome}
    (herrors : (parse file text).errors = []) (hok : fixAll file text options = .ok outcome)
    (hread : (parse file outcome.text).errors = [])
    (hsame : (parse file outcome.text).tree.sameAs outcome.tree = true) :
    (parse file outcome.text).tree = outcome.tree ∧
      outcome.remaining = outcome.tree.check options ∧
      (outcome.remaining = [] ∨ outcome.passes.length = 16) := by
  obtain ⟨outcome', hok', hpasses, -, hremaining, hstop⟩ :=
    fixAll_eq_ok file text options (by simp [herrors])
  obtain rfl : outcome' = outcome := Except.ok.inj (hok'.symm.trans hok)
  obtain ⟨htidy, hderived, hfile⟩ := hpasses.tidy (.parse file text) (Tree.tidy_parse herrors)
  have hfile : outcome'.tree.file = file := hfile
  have hparsed := htidy.parse_eq hderived
  rw [hfile] at hparsed
  exact ⟨hparsed hread hsame, hremaining, hstop⟩

end NullLint
