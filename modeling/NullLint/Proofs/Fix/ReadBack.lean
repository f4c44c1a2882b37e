import NullLint.Proofs.Fix.Tidiness
import NullLint.Proofs.Reparsing.Declarations
import NullLint.Proofs.Syntax.Relabeling

/-!
# Reading back what was fixed

Each pass makes the tree lose null operators (`Tree.Pass.loses`). So there are two ways only for the
text of an outcome not to be read as its tree: its tokens may run together where a mark has stood
between them, and a statement that is an expression may spell a declaration without its operators
(`fixAll_reads_back_iff`).
-/

namespace NullLint

open Checker (operation? Operation)

/-! ## Passes lose null operators -/

/-- Trees lose operators where the nodes replaced do. -/
theorem Node.loses_substitute {σ : Nat → Option Green} {n : Placed}
    (h : ∀ m ∈ n.preorder, ∀ g, σ m.id = some g → m.erase.Loses g) :
    n.erase.Loses (n.substitute σ) := by
  induction n using replacing_induction σ with
  | replaced n g hg =>
    rw [substitute_of_eq_some hg]
    exact h n (self_mem_preorder n) g hg
  | token a t hnone =>
    rw [substitute_token hnone]
    exact .refl _
  | branch a k cs hnone ih =>
    rw [substitute_branch hnone, erase_branch]
    refine .branch k (List.forall₂_map_left_iff.2 (List.forall₂_map_right_iff.2 ?_))
    refine List.forall₂_same.2 fun c hc => ih c hc fun m hm => h m ?_
    exact mem_preorder_branch.2 (.inr ⟨c, hc, hm⟩)

namespace Tree

/-- Only the trivia behind the last token change, which is no `?`. -/
theorem loses_updateLast (trailing : List Trivia) {n : Green} (h : n.EndsAnchored) :
    n.Loses (updateLast (fun t => { t with trailing := trailing }) n) := by
  obtain ⟨t, ht, hk, -⟩ := h
  induction n using Node.induction with
  | token a u =>
    obtain rfl : u = t := by simpa using ht
    exact .token ⟨rfl, rfl, fun hquestion => absurd hquestion hk⟩
  | branch a k cs ih =>
    rcases List.eq_nil_or_concat cs with rfl | ⟨init, c, rfl⟩
    · cases ht
    · rw [List.concat_eq_append] at ih ht ⊢
      rw [Node.lastToken?_branch] at ht
      rw [updateLast_group]
      refine .branch k (List.rel_append (List.forall₂_same.2 fun c _ => .refl c) (.cons ?_ .nil))
      exact ih c (by simp) (by simpa using ht)

theorem loses_withoutOperator {n : Placed} {op : Operation} (file : String) (hwf : n.WellFormed)
    (hn : n.Anchored) (hop : operation? n = some op) :
    ∃ g, (withoutOperator file n).root = some g ∧ n.erase.Loses g := by
  obtain ⟨mark, -, hroot⟩ := exists_operand file hwf hop
  obtain ⟨a, k, b, mark', rfl, hk, -⟩ := Node.eq_branch_of_operation hwf hop
  have hends : op.operand.erase.EndsAnchored := by
    obtain ⟨t, ht, hanchor⟩ := (Node.anchored_branch.1 hn).1 hk _ _ rfl
    exact ⟨t, (Node.lastToken?_map _ _).trans ht, hanchor⟩
  exact ⟨_, hroot, .operator _ hk (loses_updateLast _ hends)⟩

variable {t u : Tree}

theorem Pass.loses {changes : List TextChange} {root : Green} (h : Pass t changes u)
    (ht : t.Derived) (htidy : t.Tidy) (hroot : t.root = some root) :
    ∃ root', u.root = some root' ∧ root.Loses root' := by
  obtain ⟨ms, hms, hreplace⟩ := h.removes
  obtain rfl := hms.eq_substitute ht hroot hreplace
  obtain ⟨_, hroot', hwf⟩ := ht.root
  obtain rfl := Option.some.inj (hroot.symm.trans hroot')
  obtain ⟨_, hroot', hanchored, -⟩ := htidy
  obtain rfl := Option.some.inj (hroot.symm.trans hroot')
  have hplaced : t.placed = some root.placed := by simp [placed, hroot]
  have hloses := Node.loses_substitute (σ := lastFragment? (t.removals ms)) (n := root.placed)
    fun m hm g hg => ?_
  · rw [Node.erase_placed] at hloses
    exact ⟨_, rfl, hloses⟩
  · obtain ⟨op, hop, hfragment⟩ := hms.operation_of_fragment (nodes_of_placed hplaced ▸ hm) hg
    obtain ⟨g', hg', hloses⟩ := loses_withoutOperator t.file
      (((Node.wellFormed_placed root).2 hwf).of_mem hm)
      (((Node.anchored_placed root).2 hanchored).of_mem hm) hop
    obtain rfl : g' = g := Option.some.inj (hg'.symm.trans hfragment)
    exact hloses

/-- A run makes a tidy tree lose null operators. -/
theorem Passes.loses {infos : List FixInfo} {root : Green} (h : Passes t infos u) (ht : t.Derived)
    (htidy : t.Tidy) (hroot : t.root = some root) :
    ∃ root', u.root = some root' ∧ root.Loses root' := by
  induction h generalizing root with
  | done t => exact ⟨root, hroot, .refl root⟩
  | pass first rest ih =>
    obtain ⟨mid, hmid, hloses⟩ := first.loses ht htidy hroot
    obtain ⟨htidy', hderived, -⟩ := first.tidy ht htidy
    obtain ⟨root', hroot', hloses'⟩ := ih hderived htidy' hmid
    exact ⟨root', hroot', hloses.trans hloses'⟩

end Tree

/-! ## Reading the text of a tree -/

/-- A file without errors is read as a plain tree. A plain tree that is left when null operators are
lost is what each text with its tokens is read as. -/
theorem reread_parse {file text : String} (herrors : (parse file text).errors = []) :
    ∃ root, (parse file text).tree.root = some root ∧ root.Plain ∧
      ∀ n text', root.Loses n → n.Plain → (Lexer.lex text').2 = [] →
        (Lexer.lex text').1.map Lexeme.token = n.tokens →
          (parse file text').errors = [] ∧ (parse file text').tree.root = some n := by
  have hend : ∃ l ∈ (ParseState.ofText text).rest, l.kind = .endOfFile :=
    Lexer.exists_endOfFile_lexFrom true 0 text.toList
  have hread := Parser.rereads_compilationUnit hend (depthOnRecord_ofText text)
    (errors_parse_eq_nil.1 herrors)
  refine ⟨_, root_parse file text, hread.plain _ (List.mem_singleton_self _),
    fun n text' hloses hplain hlexed htokens => ?_⟩
  obtain ⟨-, m, hm, -, hgives⟩ :=
    hread.again [n] [] (.cons hloses .nil) (by simpa using hplain) trivial
  obtain rfl : n = m := by simpa using hm
  have hstart : (ParseState.ofText text').tokens = n.tokens ++ [] := by
    rw [List.append_nil, ← htokens]
    rfl
  obtain ⟨hroot, -, hsame⟩ := hgives trivial (.ofText text') hstart
  exact ⟨errors_parse_eq_nil.2 (hsame.trans (errors_ofText.2 hlexed)), congrArg some hroot⟩

theorem Node.plain_map {α β : Type} (f : α → β) {n : Node α} : (n.map f).Plain ↔ n.Plain := by
  simp [Plain, preorder_map]

theorem Node.plain_placed {n : Green} : n.placed.Plain ↔ n.Plain := by
  conv_rhs => rw [← erase_placed n]
  exact (plain_map _).symm

/-- The text of the outcome reads as its tree just if it is made of the same tokens and no statement
that is an expression has come to spell a declaration. -/
theorem fixAll_reads_back_iff {file text : String} {options : AnalysisOptions}
    {outcome : FixOutcome} (herrors : (parse file text).errors = [])
    (hok : fixAll file text options = .ok outcome) :
    ((parse file outcome.text).errors = [] ∧
        (parse file outcome.text).tree.sameAs outcome.tree = true) ↔
      ((Lexer.lex outcome.text).2 = [] ∧
        (Lexer.lex outcome.text).1.map (fun l => (l.token.kind, l.token.text)) =
          (outcome.tree.nodes.filterMap Node.token?).map fun t => (t.kind, t.text)) ∧
      ∀ n ∈ outcome.tree.nodes, n.kind = .expressionStatement → declares n.tokens = false := by
  obtain ⟨outcome', hok', hpasses, -⟩ := fixAll_eq_ok file text options (by simp [herrors])
  obtain rfl : outcome' = outcome := Except.ok.inj (hok'.symm.trans hok)
  have htidy := Tree.tidy_parse herrors
  obtain ⟨root, hroot, -, hagain⟩ := reread_parse herrors
  obtain ⟨left, hleft, hloses⟩ := hpasses.loses (.parse file text) htidy hroot
  obtain ⟨htidyLeft, -⟩ := hpasses.tidy (.parse file text) htidy
  have hnodes : outcome'.tree.nodes = left.placed.preorder :=
    Tree.nodes_of_placed (by simp [Tree.placed, hleft])
  have htokens : outcome'.tree.nodes.filterMap Node.token? = left.tokens := by
    rw [hnodes, Node.filterMap_token?_preorder, Node.tokens_placed]
  have hplain : (∀ n ∈ outcome'.tree.nodes, n.kind = .expressionStatement →
      declares n.tokens = false) ↔ left.Plain := by
    rw [hnodes]
    exact Node.plain_placed
  rw [htokens, hplain]
  constructor
  · rintro ⟨hread, hsame⟩
    obtain ⟨hparsed, -⟩ := parse_outcome herrors hok hread hsame
    obtain ⟨left', hleft', hplain, -⟩ := reread_parse hread
    rw [hparsed] at hleft'
    obtain rfl := Option.some.inj (hleft.symm.trans hleft')
    refine ⟨⟨(conforms_of_errors_eq_nil hread).1, ?_⟩, hplain⟩
    rw [tokens_of_errors_eq_nil hread (hparsed ▸ hleft), List.map_map]
    rfl
  · rintro ⟨⟨hlexed, hlabels⟩, hplain⟩
    have htokens := htidyLeft.tokens_eq hleft hlabels
    obtain ⟨hread, hleft'⟩ := hagain left outcome'.text hloses hplain hlexed htokens
    exact ⟨hread, (Tree.sameAs_iff hleft' hleft).2 rfl⟩

/-- A comparison that has lost its operator is still one if it spells no declaration. -/
theorem fixAll_reads_back_comparison :
    (parse "" "int a = 1; a! < b;").errors = [] ∧
      ∃ outcome, fixAll "" "int a = 1; a! < b;" {} = .ok outcome ∧
        outcome.text = "int a = 1; a < b;" ∧ (parse "" outcome.text).errors = [] ∧
        (parse "" outcome.text).tree.sameAs outcome.tree = true := by
  have herrors : (parse "" "int a = 1; a! < b;").errors = [] := by decide +kernel
  obtain ⟨outcome, hok, -⟩ := fixAll_eq_ok "" "int a = 1; a! < b;" {} (by simp [herrors])
  have hcond : (fixAll "" "int a = 1; a! < b;" {}).toOption.map (fun o =>
      (o.text, (Lexer.lex o.text).2, decide ((Lexer.lex o.text).1.map (fun l =>
        (l.token.kind, l.token.text)) = (o.tree.nodes.filterMap Node.token?).map fun t =>
          (t.kind, t.text)), o.tree.nodes.all fun n =>
            n.kind != .expressionStatement || !declares n.tokens)) =
      some ("int a = 1; a < b;", [], true, true) := by
    decide +kernel
  simp only [hok, Except.toOption, Option.map_some, Option.some.injEq, Prod.mk.injEq,
    decide_eq_true_eq, List.all_eq_true] at hcond
  obtain ⟨htext, hlexed, hlabels, hplain⟩ := hcond
  have hplain : ∀ n ∈ outcome.tree.nodes, n.kind = .expressionStatement →
      declares n.tokens = false := fun n hn hk => by simpa [hk] using hplain n hn
  exact ⟨herrors, outcome, hok, htext,
    (fixAll_reads_back_iff herrors hok).2 ⟨⟨hlexed, hlabels⟩, hplain⟩⟩

end NullLint
