import NullLint.Proofs.Syntax.Conformity

/-!
# Parsing without errors

A text is parsed without errors just if its lexemes are in order and its tree is undamaged: it has
neither a token put in nor an error node. The tree of such a text conforms to the grammar, so that
all its nodes can be viewed.
-/

open Computability

namespace NullLint

open Grammar

theorem depthOnRecord_ofText (text : String) : (ParseState.ofText text).DepthOnRecord := by
  intro h
  cases h

/-- The tree of a file is made of its items and the end of the file. -/
theorem parse_parts (file text : String) :
    ∃ items l s, (parse file text).tree.root =
        some (.group .compilationUnit (items ++ [.leaf l.token])) ∧
      Makes (oneOf Kind.isFileItem)∗ (.ofText text) items s ∧
      l ∈ (Lexer.lex text).1 ∧ l.kind = .endOfFile ∧
      ((parse file text).errors = [] ↔ s.errors = []) := by
  have hend : ∃ l ∈ (ParseState.ofText text).rest, l.kind = .endOfFile :=
    Lexer.exists_endOfFile_lexFrom true 0 text.toList
  obtain ⟨items, l, s, hroot, hitems, hl, hk, herrors⟩ := Parser.compilationUnit_parts hend
  refine ⟨items, l, s, ?_, hitems, hl, hk, ?_⟩
  · rw [root_parse, hroot]
  · rw [errors_parse_eq_nil, herrors]

/-- What is parsed without errors conforms to the grammar, and its tokens are the lexemes. -/
theorem conforms_of_errors_eq_nil {file text : String} (h : (parse file text).errors = []) :
    (Lexer.lex text).2 = [] ∧ ∃ root, (parse file text).tree.root = some root ∧
      root.kind = .compilationUnit ∧ root.WellFormed ∧ root.Conforms ∧
      ∀ t ∈ root.tokens, ∃ l ∈ (Lexer.lex text).1, l.token = t := by
  obtain ⟨items, l, s, hroot, hitems, hl, hk, herrors⟩ := parse_parts file text
  have hquiet : s.Quiet := (hitems.1.depthOnRecord (depthOnRecord_ofText text)).quiet (herrors.1 h)
  have hwf := Tree.wellFormed_compilationUnit text
  rw [← Option.some.inj (hroot.symm.trans (root_parse file text))] at hwf
  refine ⟨errors_ofText.1 (hitems.1.quiet hquiet).errors, _, hroot, rfl, hwf, ?_, ?_⟩
  · apply Node.conforms_branch.2
    constructor
    · rw [List.map_append]
      exact Language.append_mem_mul (hitems.2 hquiet) (hk ▸ singleton_mem_just l.kind)
    · rw [List.forall_mem_append]
      exact ⟨hitems.1.conforms hquiet, by simpa using Node.conforms_token () l.token⟩
  · rw [Node.tokens_branch, List.flatMap_append, List.forall_mem_append]
    exact ⟨hitems.1.tokens_read hquiet, by simpa using ⟨l, hl, rfl⟩⟩

namespace Node

variable {α : Type} {n m : Node α}

theorem token_mem_tokens {t : Token} (hm : m ∈ n.preorder) (ht : m.token? = some t) :
    t ∈ n.tokens := by
  rw [← filterMap_token?_preorder]
  exact List.mem_filterMap.2 ⟨m, hm, ht⟩

/-- A conforming tree whose tokens were all read is undamaged. -/
theorem Conforms.undamaged (h : n.Conforms) (hwf : n.WellFormed)
    (htokens : ∀ t ∈ n.tokens, t.missing = false) : n.Undamaged := by
  intro m hm
  have hmwf := hwf.of_mem hm
  cases m with
  | token a t =>
    refine ⟨htokens t (token_mem_tokens hm rfl), fun hk => ?_⟩
    have htoken := (wellFormed_token.1 hmwf).isToken
    rw [show t.kind = .errorNode from hk] at htoken
    cases htoken
  | branch a k cs =>
    refine ⟨rfl, ?_⟩
    rintro rfl
    exact (h _ hm rfl).elim

/-- A conforming tree whose tokens are lexemes can be viewed. -/
theorem Conforms.readable {text : String} (h : n.Conforms) (hwf : n.WellFormed)
    (htokens : ∀ t ∈ n.tokens, ∃ l ∈ (Lexer.lex text).1, l.token = t) : n.Readable := by
  refine ⟨hwf, h, fun m hm hk => ?_⟩
  cases m with
  | token a t =>
    obtain ⟨l, hl, rfl⟩ := htokens t (token_mem_tokens hm rfl)
    have hlk : l.kind = .identifier := hk
    exact Lexer.text_ne_lexFrom true 0 text.toList l hl (by simp [hlk])
  | branch a k cs =>
    -- No production makes a branch of the kind of a token.
    obtain rfl : k = .identifier := hk
    exact (h _ hm rfl).elim

end Node

/-- The nodes of a text without errors can be viewed. -/
theorem readable_of_errors_eq_nil {file text : String} (h : (parse file text).errors = []) :
    ∀ n ∈ (parse file text).tree.nodes, n.Readable := by
  obtain ⟨-, root, hroot, -, hwf, hconforms, htokens⟩ := conforms_of_errors_eq_nil h
  rw [← Node.tokens_placed root] at htokens
  rw [Tree.nodes_of_placed (by rw [Tree.placed, hroot]; rfl)]
  intro n hn
  exact (Node.Conforms.readable ((Node.conforms_placed root).2 hconforms)
    ((Node.wellFormed_placed root).2 hwf) htokens).of_mem hn

/-- A text is parsed without errors just if its lexemes have none and its tree has neither a token
put in nor an error node. -/
theorem parse_errors_eq_nil_iff (file text : String) :
    (parse file text).errors = [] ↔ (Lexer.lex text).2 = [] ∧
      ∀ n ∈ (parse file text).tree.nodes, n.isMissing = false ∧ n.kind ≠ .errorNode := by
  obtain ⟨items, l, s, hroot, hitems, hl, hk, herrors⟩ := parse_parts file text
  have hundamaged : (∀ n ∈ (parse file text).tree.nodes,
      n.isMissing = false ∧ n.kind ≠ .errorNode) ↔
      (Green.group .compilationUnit (items ++ [.leaf l.token])).Undamaged := by
    rw [Tree.nodes_of_placed (by rw [Tree.placed, hroot]; rfl)]
    exact Node.undamaged_placed _
  rw [hundamaged]
  constructor
  · intro h
    obtain ⟨hlex, root, hroot', -, hwf, hconforms, htokens⟩ := conforms_of_errors_eq_nil h
    obtain rfl := Option.some.inj (hroot.symm.trans hroot')
    refine ⟨hlex, hconforms.undamaged hwf fun t ht => ?_⟩
    obtain ⟨l, hl, rfl⟩ := htokens t ht
    exact Lexer.missing_lexFrom true 0 text.toList l hl
  · rintro ⟨hlex, h⟩
    have hitemsUndamaged := (List.forall_mem_append.1 (Node.undamaged_branch.1 h).2).1
    exact herrors.2 (hitems.1.errors_eq_nil (errors_ofText.2 hlex) hitemsUndamaged)

/-- The tree of a text without errors conforms to the grammar: the children of every branch are a
production of its kind, every view of a node's kind has an answer with parts of the right kinds, and
every conditional access is the first child of the access that it guards. -/
theorem parse_conforms (file text : String) (h : (parse file text).errors = []) :
    ∀ n ∈ (parse file text).tree.nodes,
      (n.token? = none → n.children.map Node.kind ∈ production n.kind) ∧ n.Viewed ∧
      (n.kind = .conditionalAccessExpression → ∃ p ∈ (parse file text).tree.nodes,
        (p.kind = .memberAccessExpression ∨ p.kind = .elementAccessExpression) ∧
          p.children.head? = some n) := by
  obtain ⟨-, root, hroot, hkind, hwf, hconforms, htokens⟩ := conforms_of_errors_eq_nil h
  have hreadable : root.placed.Readable := by
    rw [← Node.tokens_placed root] at htokens
    apply Node.Conforms.readable _ _ htokens
    · exact (Node.conforms_placed root).2 hconforms
    · exact (Node.wellFormed_placed root).2 hwf
  rw [Tree.nodes_of_placed (by rw [Tree.placed, hroot]; rfl)]
  intro n hn
  refine ⟨hreadable.conforms n hn, (hreadable.of_mem hn).viewed, fun hk => ?_⟩
  refine hreadable.guards ?_ hn hk
  have hplaced : root.placed.kind = .compilationUnit := by
    rw [← hkind, ← Node.kind_map (fun _ => ()) root.placed, ← Node.erase, Node.erase_placed]
  simp [hplaced]

/-- Every node of `if (a?.b[c!] == null) { var x = new T(0, -y); } else f();` can be viewed. -/
theorem parse_conforms_branches :
    let r := parse "" "if (a?.b[c!] == null) { var x = new T(0, -y); } else f();"
    r.errors = [] ∧ ∀ n ∈ r.tree.nodes, n.Viewed := by
  intro r
  have h : r.errors = [] := by decide +kernel
  exact ⟨h, fun n hn => (parse_conforms _ _ h n hn).2.1⟩

end NullLint
