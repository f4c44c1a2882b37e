import NullLint.Fix.FixAll
import NullLint.Proofs.Fix.Removal
import NullLint.Proofs.Fix.Selection
import NullLint.Proofs.Fix.Splice

/-!
# Passes

A pass over a tree removes some of its null operators, at least one, and none inside another. Its
changes of the text and its edits of the tree come to the same, and each change takes away one
operator. Fixing a file is a run of such passes, from the file as it was read to one without
findings, or until as many passes are made as there may be.
-/

namespace NullLint

namespace Node

/-- Nodes that are not empty can be put one after the other in one way only. -/
theorem eq_of_pairwise_precedes {ms ns : List Placed}
    (hne : ∀ m ∈ ms, m.fullSpan.start < m.fullSpan.stop) (hmem : ∀ m, m ∈ ns ↔ m ∈ ms)
    (hns : ns.Pairwise Precedes) (hms : ms.Pairwise Precedes) : ns = ms := by
  have hnodup (l : List Placed) (hl : ∀ m ∈ l, m ∈ ms) (h : l.Pairwise Precedes) : l.Nodup := by
    refine h.imp_of_mem fun {a b} ha _ hab heq => ?_
    subst heq
    exact Nat.not_le_of_lt (hne a (hl a ha)) hab
  have hperm : ns.Perm ms :=
    (List.perm_ext_iff_of_nodup (hnodup ns (fun m => (hmem m).1) hns)
      (hnodup ms (fun _ hm => hm) hms)).2 hmem
  apply hperm.eq_of_pairwise _ hns hms
  intro a b ha hb hab hba
  have hlt := hne a ((hmem a).1 ha)
  have hlt' := hne b hb
  unfold Precedes at hab hba
  omega

/-- Nodes that lie one after the other and are not empty are the outermost ones, if just these are
replaced. -/
theorem outermost_eq {σ : Nat → Option Green} {n : Placed} {ms : List Placed} (hlaid : n.LaidOut)
    (hσ : ∀ m ∈ n.preorder, (∃ g, σ m.id = some g) ↔ m ∈ ms) (hmem : ∀ m ∈ ms, m ∈ n.preorder)
    (hne : ∀ m ∈ ms, m.fullSpan.start < m.fullSpan.stop) (hms : ms.Pairwise Precedes) :
    n.outermost σ = ms := by
  have hsubset : ∀ m ∈ n.outermost σ, m ∈ ms := by
    intro m hm
    obtain ⟨hpre, hg⟩ := of_mem_outermost hm
    exact (hσ m hpre).1 hg
  apply eq_of_pairwise_precedes hne _ (pairwise_outermost σ hlaid) hms
  intro m
  constructor
  · exact hsubset m
  · intro hm
    obtain ⟨g, hg⟩ := (hσ m (hmem m hm)).2 hm
    obtain ⟨o, ho, hmo⟩ := exists_outermost (hmem m hm) hg
    by_cases heq : m = o
    · exact heq ▸ ho
    · -- Of two different nodes of the list none lies in the other.
      have hsymm : Std.Symm fun a b : Placed => Precedes a b ∨ Precedes b a :=
        ⟨fun _ _ => Or.symm⟩
      have hpairwise : ms.Pairwise fun a b => Precedes a b ∨ Precedes b a := hms.imp Or.inl
      have hdisjoint := hpairwise.forall hm (hsubset o ho) heq
      have hin := (hlaid.of_mem (of_mem_outermost ho).1).within_fullSpan hmo
      have hlo := hin.lo_le
      have hhi := hin.le_hi
      have hlt := hne m hm
      unfold Precedes at hdisjoint
      omega

end Node

/-! ## Removals -/

namespace FixEdit

/-- The edit that removes the null operator at a node of a tree. -/
def removal (t : Tree) (n : Placed) : FixEdit :=
  ⟨some n.id, n.fullSpan, Tree.withoutOperator t.file n⟩

theorem removing_eq {t : Tree} {n : Placed} (hn : n ∈ t.nodes) :
    removing t (some n.id) = .ok (removal t n) := by
  have hnode : t.node? n.id = some n := Tree.node?_eq_some_iff.2 ⟨hn, rfl⟩
  simp [removing, hnode, removal]

/-- The edits for findings that name null operators. -/
theorem exists_removals {t : Tree} {findings : List Finding}
    (h : ∀ f ∈ findings, ∃ n ∈ t.nodes, ∃ op, Checker.operation? n = some op ∧ f.node = n.id) :
    ∃ ns : List Placed, ns.length = findings.length ∧
      findings.mapM (fun f => removing t (some f.node)) = .ok (ns.map (removal t)) ∧
      ∀ n ∈ ns, n ∈ t.nodes ∧ ∃ op, Checker.operation? n = some op := by
  induction findings with
  | nil => exact ⟨[], rfl, rfl, by simp⟩
  | cons f fs ih =>
    obtain ⟨n, hn, op, hop, hnode⟩ := h f (by simp)
    obtain ⟨ns, hlength, hmap, hns⟩ := ih fun f' hf' => h f' (by simp [hf'])
    refine ⟨n :: ns, by simp [hlength], ?_, ?_⟩
    · rw [List.mapM_cons, hnode, removing_eq hn, hmap]
      rfl
    · intro m hm
      rcases List.mem_cons.1 hm with rfl | hm
      · exact ⟨hn, op, hop⟩
      · exact hns m hm

end FixEdit

/-! ## One pass -/

namespace Tree

open Checker (operation? Operation)

variable {t u : Tree}

/-- Null operators of a tree that lie one after the other. -/
structure Removable (t : Tree) (ms : List Placed) : Prop where
  mem : ∀ m ∈ ms, m ∈ t.nodes
  operation : ∀ m ∈ ms, ∃ op, operation? m = some op
  precedes : ms.Pairwise Node.Precedes

/-- The fragments of a list of removals. -/
def removals (t : Tree) (ms : List Placed) : List (Nat × Tree) :=
  ms.map fun m => (m.id, withoutOperator t.file m)

/-- What the changes of a pass from `t` to `u` are: there are some, they turn the text of `t` into
that of `u`, and each takes away one null operator. -/
structure Pass (t : Tree) (changes : List TextChange) (u : Tree) : Prop where
  nonempty : changes ≠ []
  text : TextChange.applyAll t.text changes = u.text
  operators : t.operatorCount = u.operatorCount + changes.length
  removes : ∃ ms, t.Removable ms ∧ t.replaceMany (t.removals ms) = some u

theorem Derived.withoutOperator {n : Placed} {op : Operation} (ht : t.Derived) (hn : n ∈ t.nodes)
    (hop : operation? n = some op) : (withoutOperator t.file n).Derived := by
  obtain ⟨root, hroot, -⟩ := ht.root
  have hnodes : t.nodes = root.placed.preorder := nodes_of_placed (by simp [placed, hroot])
  have hoperand : op.operand ∈ t.nodes := by
    rw [hnodes] at hn ⊢
    refine Node.mem_preorder_trans (Node.mem_preorder_of_mem_children ?_) hn
    rw [(Checker.operation?_eq_some hop).2.1]
    exact List.mem_cons_self
  have hextract : t.extract op.operand.id = some ⟨t.file, some op.operand.erase⟩ := by
    simp [Tree.extract, node?_eq_some_iff.2 ⟨hoperand, rfl⟩]
  have hnode : t.node? n.id = some n := node?_eq_some_iff.2 ⟨hn, rfl⟩
  rw [withoutOperator_eq t.file hop, ← hnode]
  exact .withTriviaOf (ht.extract hextract) ht n.id

/-- Removing an operator replaces some bytes. -/
theorem Derived.start_lt_stop {n : Placed} {op : Operation} (ht : t.Derived) (hn : n ∈ t.nodes)
    (hop : operation? n = some op) : n.fullSpan.start < n.fullSpan.stop := by
  obtain ⟨root, hroot, hwf⟩ := ht.root
  have hnodes : t.nodes = root.placed.preorder := nodes_of_placed (by simp [placed, hroot])
  rw [hnodes] at hn
  exact Node.start_lt_stop_of_operation (((Node.wellFormed_placed root).2 hwf).of_mem hn)
    ((Node.laidOut_placed hwf).1.of_mem hn) hop

theorem replacements_removal (ms : List Placed) :
    Batch.replacements (ms.map (FixEdit.removal t)) = t.removals ms := by
  rw [Batch.replacements, List.filterMap_map]
  exact congrFun (List.filterMap_eq_map (f := fun m => (m.id, withoutOperator t.file m))) ms

namespace Removable

variable {ms : List Placed} {m : Placed}

theorem lastFragment?_eq (h : t.Removable ms) (hm : m ∈ ms) :
    lastFragment? (t.removals ms) m.id = (withoutOperator t.file m).root := by
  have he : (m.id, withoutOperator t.file m) ∈ t.removals ms := List.mem_map_of_mem hm
  apply lastFragment?_of_unique he
  intro e' he' hid
  obtain ⟨m', hm', rfl⟩ := List.mem_map.1 he'
  obtain rfl := eq_of_id_eq (h.mem m' hm') (h.mem m hm) hid
  rfl

theorem derived (h : t.Removable ms) (ht : t.Derived) : ∀ e ∈ t.removals ms, e.2.Derived := by
  intro e he
  obtain ⟨m, hm, rfl⟩ := List.mem_map.1 he
  obtain ⟨op, hop⟩ := h.operation m hm
  exact ht.withoutOperator (h.mem m hm) hop

/-- The fragment for an operator has one operator less. -/
theorem exists_fragment (h : t.Removable ms) (ht : t.Derived) (hm : m ∈ ms) :
    ∃ g, lastFragment? (t.removals ms) m.id = some g ∧
      m.operatorCount = g.operatorCount + 1 := by
  obtain ⟨root, hroot, hwf⟩ := ht.root
  have hplaced : t.placed = some root.placed := by simp [placed, hroot]
  have hn : m ∈ root.placed.preorder := nodes_of_placed hplaced ▸ h.mem m hm
  obtain ⟨op, hop⟩ := h.operation m hm
  obtain ⟨g, hg, hcount⟩ := root_withoutOperator t.file
    (((Node.wellFormed_placed root).2 hwf).of_mem hn) hop
  exact ⟨g, (h.lastFragment?_eq hm).trans hg, hcount⟩

/-- A fragment is that of an operator of the list. -/
theorem operation_of_fragment {g : Green} (h : t.Removable ms) (hm : m ∈ t.nodes)
    (hg : lastFragment? (t.removals ms) m.id = some g) :
    ∃ op, operation? m = some op ∧ (Tree.withoutOperator t.file m).root = some g := by
  obtain ⟨e, he, hid, hfragment⟩ := exists_edit_of_lastFragment? hg
  obtain ⟨m', hm', rfl⟩ := List.mem_map.1 he
  obtain rfl := eq_of_id_eq (h.mem m' hm') hm hid
  obtain ⟨op, hop⟩ := h.operation m' hm'
  exact ⟨op, hop, hfragment⟩

/-- Replacing the operators is substitution. -/
theorem eq_substitute {root : Green} (h : t.Removable ms) (ht : t.Derived)
    (hroot : t.root = some root) (hreplace : t.replaceMany (t.removals ms) = some u) :
    u = ⟨t.file, some (root.placed.substitute (lastFragment? (t.removals ms)))⟩ := by
  have hplaced : t.placed = some root.placed := by simp [placed, hroot]
  refine eq_of_replaceMany hplaced (fun e he => ?_) hreplace
  obtain ⟨g, hg, -⟩ := (h.derived ht e he).root
  simp [hg]

/-- Just the operators of the list are replaced. -/
theorem exists_fragment_iff (h : t.Removable ms) (ht : t.Derived) (hm : m ∈ t.nodes) :
    (∃ g, lastFragment? (t.removals ms) m.id = some g) ↔ m ∈ ms := by
  constructor
  · rintro ⟨g, hg⟩
    obtain ⟨e, he, hid, -⟩ := exists_edit_of_lastFragment? hg
    obtain ⟨m', hm', rfl⟩ := List.mem_map.1 he
    exact eq_of_id_eq (h.mem m' hm') hm hid ▸ hm'
  · intro hmem
    obtain ⟨g, hg, -⟩ := h.exists_fragment ht hmem
    exact ⟨g, hg⟩

theorem outermost_eq (h : t.Removable ms) (ht : t.Derived) {root : Placed}
    (hroot : t.placed = some root) (hlaid : root.LaidOut) :
    root.outermost (lastFragment? (t.removals ms)) = ms := by
  have hnodes := nodes_of_placed hroot
  apply Node.outermost_eq hlaid _ (hnodes ▸ h.mem) _ h.precedes
  · intro m hm
    exact h.exists_fragment_iff ht (hnodes ▸ hm)
  · intro m hm
    obtain ⟨op, hop⟩ := h.operation m hm
    exact ht.start_lt_stop (h.mem m hm) hop

/-- The changes of the text put in the fragments of the removals. -/
theorem textChanges_eq (h : t.Removable ms) :
    (ms.map fun m => (FixEdit.removal t m).textChange) =
      ms.map (TextChange.replacing (lastFragment? (t.removals ms))) := by
  apply List.map_congr_left
  intro m hm
  rw [TextChange.replacing, h.lastFragment?_eq hm]
  rfl

/-- Removing operators that lie one after the other is a pass. -/
theorem pass (h : t.Removable ms) (ht : t.Derived) (hne : ms ≠ [])
    (hreplace : t.replaceMany (t.removals ms) = some u) :
    Pass t (ms.map fun m => (FixEdit.removal t m).textChange) u := by
  obtain ⟨root, hroot, hwf⟩ := ht.root
  have hplaced : t.placed = some root.placed := by simp [placed, hroot]
  obtain ⟨hlaid, hstart⟩ := Node.laidOut_placed hwf
  have hremoves : ∃ ms, t.Removable ms ∧ t.replaceMany (t.removals ms) = some u := ⟨ms, h, hreplace⟩
  obtain rfl := h.eq_substitute ht hroot hreplace
  have htext := TextChange.applyAll_replacing (lastFragment? (t.removals ms)) hlaid hstart
  have hcount := Node.countP_substitute (lastFragment? (t.removals ms)) Checker.isOperatorKind
    root.placed
  rw [h.outermost_eq ht hplaced hlaid] at htext hcount
  refine ⟨by simpa using hne, ?_, ?_, hremoves⟩
  · rw [text_eq_print_placed hroot, h.textChanges_eq, htext]
    rfl
  · rw [List.length_map, operatorCount, nodes_of_placed hplaced, operatorCount_of_root rfl]
    apply hcount
    intro m hm g hg
    obtain ⟨g', hg', hremoved⟩ := h.exists_fragment ht hm
    rw [hg'] at hg
    cases hg
    exact hremoved

end Removable

/-- A batch of removals makes a pass. -/
theorem exists_pass (ht : t.Derived) {ns : List Placed} (hne : ns ≠ [])
    (hns : ∀ n ∈ ns, n ∈ t.nodes ∧ ∃ op, operation? n = some op) :
    ∃ outcome, Batch.apply t (ns.map (FixEdit.removal t)) = .ok outcome ∧
      outcome.tree.Derived ∧ Pass t (outcome.applied.map FixEdit.textChange) outcome.tree := by
  have htargets : ∀ e ∈ ns.map (FixEdit.removal t), Batch.Targets t.size e := by
    intro e he
    obtain ⟨n, hn, rfl⟩ := List.mem_map.1 he
    exact ⟨n.id, rfl, lt_size_iff.2 ⟨n, (hns n hn).1, rfl⟩⟩
  have hspans : ∀ e ∈ ns.map (FixEdit.removal t), e.span.start < e.span.stop := by
    intro e he
    obtain ⟨n, hn, rfl⟩ := List.mem_map.1 he
    obtain ⟨hmem, op, hop⟩ := hns n hn
    exact ht.start_lt_stop hmem hop
  obtain ⟨outcome, happly, happlied, hsub, hprecedes, hreplace⟩ :=
    Batch.apply_eq_ok (by simpa using hne) htargets hspans
  have hsorted := List.map_mergeSort (l := ns) (f := FixEdit.removal t) (s := FixEdit.before)
    (r := fun a b => (FixEdit.removal t a).before (FixEdit.removal t b)) fun _ _ _ _ => rfl
  rw [← hsorted] at hsub
  obtain ⟨ms, hms, hmap⟩ := List.sublist_map_iff.1 hsub
  rw [hmap] at happlied hprecedes hreplace
  rw [replacements_removal] at hreplace
  have hmem : ∀ m ∈ ms, m ∈ ns := fun m hm => List.mem_mergeSort.1 (hms.subset hm)
  have hpairwise := List.pairwise_map.1 hprecedes
  have hremovable : t.Removable ms :=
    ⟨fun m hm => (hns m (hmem m hm)).1, fun m hm => (hns m (hmem m hm)).2, hpairwise⟩
  refine ⟨outcome, happly, .replaceMany ht (hremovable.derived ht) hreplace, ?_⟩
  rw [hmap, List.map_map]
  exact hremovable.pass ht (by simpa using happlied) hreplace

/-! ## Runs -/

/-- The passes lead from one tree to another. -/
inductive Passes : Tree → List FixInfo → Tree → Prop where
  | done (t : Tree) : Passes t [] t
  | pass {t u v : Tree} {info : FixInfo} {infos : List FixInfo} (first : Pass t info.changes u)
      (rest : Passes u infos v) : Passes t (info :: infos) v

namespace Passes

variable {infos : List FixInfo}

/-- The changes of all passes, one after the other, turn the first text into the last. -/
theorem replay (h : Passes t infos u) :
    infos.foldl (fun text info => TextChange.applyAll text info.changes) t.text = u.text := by
  induction h with
  | done t => rfl
  | pass first rest ih => rw [List.foldl_cons, first.text, ih]

/-- Each change of a run takes away one operator. -/
theorem operators (h : Passes t infos u) :
    t.operatorCount = u.operatorCount + (infos.flatMap FixInfo.changes).length := by
  induction h with
  | done t => rfl
  | pass first rest ih =>
    rw [List.flatMap_cons, List.length_append, first.operators, ih]
    omega

theorem nonempty (h : Passes t infos u) : ∀ info ∈ infos, info.changes ≠ [] := by
  induction h with
  | done t => simp
  | pass first rest ih =>
    intro info hinfo
    rcases List.mem_cons.1 hinfo with rfl | hinfo
    · exact first.nonempty
    · exact ih info hinfo

end Passes

end Tree

theorem FixInfo.changes_removeOperators (file : String) (changes : List TextChange) :
    (FixInfo.removeOperators file changes).changes = changes := by
  simp [FixInfo.changes, FixInfo.removeOperators]

/-- A run over a derived tree does not fail. It stops at a tree without findings, or after as many
passes as there may be. -/
theorem fixPasses_eq_ok (options : AnalysisOptions) (file : String) (limit : Nat) {t : Tree}
    (ht : t.Derived) :
    ∃ final infos, fixPasses options file limit t (t.check options) =
        .ok (final, infos, final.check options) ∧ t.Passes infos final ∧ infos.length ≤ limit ∧
      (final.check options = [] ∨ infos.length = limit) := by
  induction limit generalizing t with
  | zero => exact ⟨t, [], rfl, .done t, Nat.le_refl 0, .inr rfl⟩
  | succ limit ih =>
    by_cases hfindings : t.check options = []
    · refine ⟨t, [], ?_, .done t, Nat.zero_le _, .inl hfindings⟩
      simp [fixPasses, hfindings]
    · obtain ⟨ns, hlength, hedits, hns⟩ := FixEdit.exists_removals
        fun f (hf : f ∈ t.check options) => Tree.operation_of_mem_check hf
      have hne : ns ≠ [] := by
        rintro rfl
        exact hfindings (List.length_eq_zero_iff.1 hlength.symm)
      obtain ⟨outcome, happly, hderived, hpass⟩ := Tree.exists_pass ht hne hns
      obtain ⟨final, infos, hrest, hpasses, hle, hstop⟩ := ih hderived
      have happlied : outcome.applied.isEmpty = false := by
        simpa using hpass.nonempty
      refine ⟨final, .removeOperators file (outcome.applied.map FixEdit.textChange) :: infos, ?_,
        .pass ?_ hpasses, Nat.succ_le_succ hle, ?_⟩
      · have hfound : (t.check options).isEmpty = false := by simpa using hfindings
        simp only [fixPasses, hfound, hedits, happly, BatchOutcome.isUnchanged, happlied, hrest,
          bind, Except.bind, Bool.false_eq_true, if_false]
        rfl
      · rwa [FixInfo.changes_removeOperators]
      · exact hstop.imp_right fun h => congrArg (· + 1) h

/-! ## Files -/

theorem text_parse (file text : String) : (parse file text).tree.text = text :=
  (fills_parse text).spelling_eq.trans (Lexer.spelling_lex text)

/-- Fixing a file that parses is a run of passes from its tree. -/
theorem fixAll_eq_ok (file text : String) (options : AnalysisOptions)
    (h : (parse file text).errors.isEmpty = true) :
    ∃ outcome, fixAll file text options = .ok outcome ∧
      (parse file text).tree.Passes outcome.passes outcome.tree ∧
      outcome.passes.length ≤ maxFixPasses ∧
      outcome.remaining = outcome.tree.check options ∧
      (outcome.remaining = [] ∨ outcome.passes.length = maxFixPasses) := by
  obtain ⟨final, infos, hrun, hpasses, hle, hstop⟩ :=
    fixPasses_eq_ok options file maxFixPasses (.parse file text)
  refine ⟨⟨analyze file text options, final, infos, final.check options⟩, ?_, hpasses, hle, rfl,
    hstop⟩
  simp only [fixAll, analyze, h, hrun, bind, Except.bind, if_true]
  rfl

/-- A file that does not parse is left alone. -/
theorem fixAll_of_errors (file text : String) (options : AnalysisOptions)
    (h : (parse file text).errors.isEmpty = false) :
    ∃ outcome, fixAll file text options = .ok outcome ∧ outcome.passes = [] ∧
      outcome.text = text := by
  refine ⟨⟨analyze file text options, (parse file text).tree, [],
    (parse file text).tree.check options⟩, ?_, rfl, text_parse file text⟩
  simp [fixAll, analyze, h]

/-- The changes of the passes, each applied to the text that the pass before it gave, turn the text
of the file into the text of the fixed tree. -/
theorem fixAll_replays (file text : String) (options : AnalysisOptions) :
    ∃ outcome, fixAll file text options = .ok outcome ∧
      outcome.passes.foldl (fun current pass => TextChange.applyAll current pass.changes) text =
        outcome.text := by
  cases herrors : (parse file text).errors.isEmpty with
  | true =>
    obtain ⟨outcome, hok, hpasses, -⟩ := fixAll_eq_ok file text options herrors
    have hreplay := hpasses.replay
    rw [text_parse] at hreplay
    exact ⟨outcome, hok, hreplay⟩
  | false =>
    obtain ⟨outcome, hok, hpasses, htext⟩ := fixAll_of_errors file text options herrors
    refine ⟨outcome, hok, ?_⟩
    rw [hpasses, htext]
    rfl

/-- Fixing never fails and accounts for every operator. A file with errors is left alone. Else every
pass makes a change, each change removes one operator, there are at most sixteen passes, and what
remains is what a check of the fixed tree finds: nothing, unless all sixteen passes were made. -/
theorem fixAll_accounts (file text : String) (options : AnalysisOptions) :
    ∃ outcome, fixAll file text options = .ok outcome ∧
      if (parse file text).errors.isEmpty then
        (∀ pass ∈ outcome.passes, pass.changes ≠ []) ∧ outcome.passes.length ≤ 16 ∧
          (parse file text).tree.operatorCount =
            outcome.tree.operatorCount + outcome.fixedCount ∧
          outcome.remaining = outcome.tree.check options ∧
          (outcome.remaining = [] ∨ outcome.passes.length = 16)
      else
        outcome.passes = [] ∧ outcome.text = text := by
  cases herrors : (parse file text).errors.isEmpty with
  | true =>
    obtain ⟨outcome, hok, hpasses, hle, hremaining, hstop⟩ :=
      fixAll_eq_ok file text options herrors
    exact ⟨outcome, hok, hpasses.nonempty, hle, hpasses.operators, hremaining, hstop⟩
  | false =>
    obtain ⟨outcome, hok, hpasses, htext⟩ := fixAll_of_errors file text options herrors
    exact ⟨outcome, hok, hpasses, htext⟩

/-- The fixed text need not read as the fixed tree: once `a! < b > c;` has lost its operator, it
declares a variable `c` of type `a<b>`. -/
theorem fixAll_reads_as_declaration :
    ∃ outcome, fixAll "" "int a = 1; a! < b > c;" {} = .ok outcome ∧
      (parse "" "int a = 1; a! < b > c;").errors.isEmpty = true ∧
      outcome.text = "int a = 1; a < b > c;" ∧
      (parse "" outcome.text).tree.sameAs outcome.tree = false := by
  have herrors : (parse "" "int a = 1; a! < b > c;").errors.isEmpty = true := by decide +kernel
  obtain ⟨outcome, hok, -⟩ := fixAll_eq_ok "" "int a = 1; a! < b > c;" {} herrors
  have hread : (fixAll "" "int a = 1; a! < b > c;" {}).toOption.map (fun o =>
      (o.text, (parse "" o.text).tree.sameAs o.tree)) = some ("int a = 1; a < b > c;", false) := by
    decide +kernel
  rw [hok] at hread
  obtain ⟨htext, hsame⟩ := Prod.mk.inj (Option.some.inj hread)
  exact ⟨outcome, hok, herrors, htext, hsame⟩

end NullLint
