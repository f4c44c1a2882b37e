import NullLint.Proofs.Fix.Passes

/-!
# Batches as partitions

A batch fails just if one of its edits has no target in the tree. A batch of removals sorts its
edits into those made and those in conflict with one made. The null operators of a tree differ in where
they begin or in how long they are, so there is only one order in which the edits are taken, and the
outcome does not depend on the order in which they are given.
-/

namespace NullLint

/-! ## Null operators -/

namespace Node

open Checker (operation? Operation)

variable {m n : Placed} {op op' : Operation}

/-- A null operator ends behind those inside it. -/
theorem stop_lt_stop_of_below {c : Placed} (hwf : n.WellFormed) (hlaid : n.LaidOut)
    (hop : operation? n = some op) (hop' : operation? m = some op') (hc : c ∈ n.children)
    (hm : m ∈ c.preorder) : m.fullSpan.stop < n.fullSpan.stop := by
  have hlt := operand_stop_lt_stop hwf hlaid hop
  obtain ⟨a, k, b, mark, rfl, -⟩ := eq_branch_of_operation hwf hop
  simp only [children_branch, List.mem_cons, List.not_mem_nil, or_false] at hc
  rcases hc with rfl | rfl
  · have hoperand : op.operand ∈ (branch a k [op.operand, token b mark]).preorder :=
      mem_preorder_of_mem_children (by simp)
    have hin := (hlaid.of_mem hoperand).within_fullSpan hm
    exact Nat.lt_of_le_of_lt hin.le_hi hlt
  · -- The mark is a token, and a token is no operator.
    obtain rfl : m = token b mark := by simpa using hm
    have hchildren := (Checker.operation?_eq_some hop').2.1
    simp at hchildren

/-- No two null operators of a tree take up the same bytes. -/
theorem eq_of_fullSpan_eq {root : Placed} (hwf : root.WellFormed) (hlaid : root.LaidOut)
    (hm : m ∈ root.preorder) (hn : n ∈ root.preorder) (hop : operation? m = some op)
    (hop' : operation? n = some op') (hspan : m.fullSpan = n.fullSpan) : m = n := by
  induction root using Node.induction with
  | token a t =>
    rw [preorder_token, List.mem_singleton] at hm hn
    rw [hm, hn]
  | branch a k cs ih =>
    rcases mem_preorder_branch.1 hm with rfl | ⟨c, hc, hmc⟩
    · rcases mem_preorder_branch.1 hn with rfl | ⟨d, hd, hnd⟩
      · rfl
      · have hlt := stop_lt_stop_of_below hwf hlaid hop hop' hd hnd
        exact absurd (congrArg Span.stop hspan.symm) (Nat.ne_of_lt hlt)
    · rcases mem_preorder_branch.1 hn with rfl | ⟨d, hd, hnd⟩
      · have hlt := stop_lt_stop_of_below hwf hlaid hop' hop hc hmc
        exact absurd (congrArg Span.stop hspan) (Nat.ne_of_lt hlt)
      · have hwfBelow := (wellFormed_branch.1 hwf).2
        have hmlaid := hlaid.of_mem hm
        have hmlt := start_lt_stop_of_operation (hwf.of_mem hm) hmlaid hop
        cases hlaid with
        | branch tile _ below =>
          by_cases hcd : c = d
          · subst hcd
            exact ih c hc (hwfBelow c hc) (below c hc) hmc hnd
          · -- Two children share no bytes, and an operator takes up some.
            have hsymm : Std.Symm fun a b : Placed => Precedes a b ∨ Precedes b a :=
              ⟨fun _ _ => Or.symm⟩
            have hpairwise : cs.Pairwise fun a b => Precedes a b ∨ Precedes b a :=
              (List.pairwise_map.1 tile.pairwise).imp Or.inl
            have hdisjoint := hpairwise.forall hc hd hcd
            have hin := (below c hc).within_fullSpan hmc
            have hin' := (below d hd).within_fullSpan hnd
            have h₁ := hin.lo_le
            have h₂ := hin.le_hi
            have h₃ := hin'.lo_le
            have h₄ := hin'.le_hi
            rw [← hspan] at h₃ h₄
            unfold Precedes at hdisjoint
            omega

end Node

namespace Tree

open Checker (operation?)

variable {t : Tree}

/-- If there is a root, branches have kinds of nodes in it and tokens kinds of tokens, and the marks
of null operators are not empty. -/
def WellFormed (t : Tree) : Prop := ∀ root, t.root = some root → root.WellFormed

theorem Derived.wellFormed (h : t.Derived) : t.WellFormed := by
  intro root hroot
  obtain ⟨root', hroot', hwf⟩ := h.root
  rw [hroot] at hroot'
  cases hroot'
  exact hwf

/-- The edit removes a null operator of the tree. -/
def Removes (t : Tree) (e : FixEdit) : Prop :=
  ∃ n ∈ t.nodes, (operation? n).isSome = true ∧ FixEdit.removing t (some n.id) = .ok e

theorem Removes.exists_node {e : FixEdit} (h : t.Removes e) :
    ∃ n ∈ t.nodes, (∃ op, operation? n = some op) ∧ e = FixEdit.removal t n := by
  obtain ⟨n, hn, hop, he⟩ := h
  rw [FixEdit.removing_eq hn] at he
  exact ⟨n, hn, Option.isSome_iff_exists.1 hop, (Except.ok.inj he).symm⟩

theorem Removes.targets {e : FixEdit} (h : t.Removes e) : Batch.Targets t.size e := by
  obtain ⟨n, hn, -, rfl⟩ := h.exists_node
  exact ⟨n.id, rfl, lt_size_iff.2 ⟨n, hn, rfl⟩⟩

theorem exists_root_of_mem_nodes {n : Placed} (hwf : t.WellFormed) (hn : n ∈ t.nodes) :
    ∃ root : Placed, t.nodes = root.preorder ∧ root.WellFormed ∧ root.LaidOut := by
  cases hroot : t.root with
  | none => simp [nodes, placed, hroot] at hn
  | some root =>
    have hrootWf := hwf root hroot
    exact ⟨root.placed, nodes_of_placed (by simp [placed, hroot]),
      (Node.wellFormed_placed root).2 hrootWf, (Node.laidOut_placed hrootWf).1⟩

/-- A removal replaces some bytes. -/
theorem Removes.start_lt_stop {e : FixEdit} (hwf : t.WellFormed) (h : t.Removes e) :
    e.span.start < e.span.stop := by
  obtain ⟨n, hn, ⟨op, hop⟩, rfl⟩ := h.exists_node
  obtain ⟨root, hnodes, hrootWf, hlaid⟩ := exists_root_of_mem_nodes hwf hn
  rw [hnodes] at hn
  exact Node.start_lt_stop_of_operation (hrootWf.of_mem hn) (hlaid.of_mem hn) hop

/-- Of two different removals one is taken before the other. -/
theorem Removes.eq_of_before {d e : FixEdit} (hwf : t.WellFormed) (hd : t.Removes d)
    (he : t.Removes e) (hde : d.before e = true) (hed : e.before d = true) : d = e := by
  have hdlt := hd.start_lt_stop hwf
  have helt := he.start_lt_stop hwf
  obtain ⟨m, hm, ⟨op, hop⟩, rfl⟩ := hd.exists_node
  obtain ⟨n, hn, ⟨op', hop'⟩, rfl⟩ := he.exists_node
  obtain ⟨root, hnodes, hrootWf, hlaid⟩ := exists_root_of_mem_nodes hwf hm
  obtain ⟨hstart, hlength⟩ := FixEdit.start_eq_of_before hde hed
  have hspan : m.fullSpan = n.fullSpan := by
    simp only [FixEdit.removal, Span.length] at hstart hlength hdlt helt
    have hstop : m.fullSpan.stop = n.fullSpan.stop := by omega
    exact congrArg₂ Span.mk hstart hstop
  rw [hnodes] at hm hn
  rw [Node.eq_of_fullSpan_eq hrootWf hlaid hm hn hop hop' hspan]

end Tree

/-! ## Batches of removals -/

namespace Batch

open FixEdit (Apart Precedes)

variable {t : Tree} {edits edits' : List FixEdit}

/-- Removals are taken in one order, however they are given. -/
theorem mergeSort_eq_of_perm (hwf : t.WellFormed) (hremoves : ∀ e ∈ edits, t.Removes e)
    (hperm : edits'.Perm edits) :
    edits'.mergeSort FixEdit.before = edits.mergeSort FixEdit.before := by
  have hsorted (es : List FixEdit) :
      (es.mergeSort FixEdit.before).Pairwise fun a b => a.before b = true :=
    List.pairwise_mergeSort FixEdit.before_trans FixEdit.before_total es
  have hsame : (edits'.mergeSort FixEdit.before).Perm (edits.mergeSort FixEdit.before) :=
    (List.mergeSort_perm edits' _).trans (hperm.trans (List.mergeSort_perm edits _).symm)
  apply hsame.eq_of_pairwise _ (hsorted edits') (hsorted edits)
  intro d e hd he hde hed
  have hdmem := hremoves d (hperm.subset (List.mem_mergeSort.1 hd))
  have hemem := hremoves e (List.mem_mergeSort.1 he)
  exact hdmem.eq_of_before hwf hemem hde hed

theorem apply_eq_of_perm (hwf : t.WellFormed) (hremoves : ∀ e ∈ edits, t.Removes e)
    (hperm : edits'.Perm edits) : apply t edits' = apply t edits := by
  unfold apply
  rw [mergeSort_eq_of_perm hwf hremoves hperm]

theorem not_targets_iff {e : FixEdit} :
    ¬ Targets t.size e ↔ ∀ id, e.target = some id → t.contains id = false := by
  simp [Targets, Tree.contains]

/-- One edit begins before the other and shares no bytes with it. -/
def Ordered (a b : FixEdit) : Prop :=
  a.span.overlaps b.span = false ∧ a.span.start < b.span.start

theorem Selects.ordered {conflicts : List Conflict} {applied : List FixEdit} {size : Nat}
    (h : Selects size [] (edits.mergeSort FixEdit.before) applied conflicts)
    (hspans : ∀ e ∈ edits, e.span.start < e.span.stop) : applied.Pairwise Ordered := by
  have hsorted := List.pairwise_mergeSort FixEdit.before_trans FixEdit.before_total edits
  apply ((hsorted.sublist h.sublist).and (h.apart .nil)).imp_of_mem
  rintro a b ha hb ⟨hbefore, hapart⟩
  have halt := hspans a (List.mem_mergeSort.1 (h.sublist.subset ha))
  have hblt := hspans b (List.mem_mergeSort.1 (h.sublist.subset hb))
  have hprecedes : a.span.stop ≤ b.span.start := FixEdit.precedes_of_apart hblt hbefore hapart
  exact ⟨hapart, Nat.lt_of_lt_of_le halt hprecedes⟩

/-- A batch fails just if the target of an edit is not in the tree. In a well-formed tree, as every
derived one is, a batch of removals of null operators succeeds and is a partition: the edits made
and those in conflict are the edits given, the edits made share no bytes and lie in order, every
conflict names an edit made that shares bytes with it, and some edit is made if one is given. The
outcome is the same for the edits in any order. -/
theorem apply_partitions (t : Tree) :
    (∀ edits, (∃ target, apply t edits = .error (.nodeNotFound target)) ↔
        ∃ e ∈ edits, ∀ id, e.target = some id → t.contains id = false) ∧
      (t.Derived → t.WellFormed) ∧
      (t.WellFormed → ∀ edits, (∀ e ∈ edits, t.Removes e) →
        ∃ outcome, apply t edits = .ok outcome ∧
          (outcome.applied ++ outcome.conflicts.map Conflict.edit).Perm edits ∧
          outcome.applied.Pairwise Ordered ∧
          (∀ c ∈ outcome.conflicts, NamedBy outcome.applied c) ∧
          (edits ≠ [] → outcome.applied ≠ []) ∧
          ∀ edits', edits'.Perm edits → apply t edits' = .ok outcome) := by
  refine ⟨fun edits => ?_, Tree.Derived.wellFormed, fun hwf edits hremoves => ?_⟩
  · constructor
    · rintro ⟨target, herror⟩
      rcases apply_cases t edits with ⟨outcome, hok, -⟩ | ⟨e, he, hmissing, -⟩
      · rw [hok] at herror
        cases herror
      · exact ⟨e, he, not_targets_iff.1 hmissing⟩
    · rintro ⟨e, he, hmissing⟩
      rcases apply_cases t edits with ⟨outcome, -, hselects, -⟩ | ⟨e', -, -, herror⟩
      · have htargets := hselects.targets e (List.mem_mergeSort.2 he)
        exact absurd htargets (not_targets_iff.2 hmissing)
      · exact ⟨e'.target, herror⟩
  · rcases apply_cases t edits with ⟨outcome, hok, hselects, -⟩ | ⟨e, he, hmissing, -⟩
    · refine ⟨outcome, hok, ?_, ?_, hselects.named, ?_, ?_⟩
      · exact hselects.perm.trans (List.mergeSort_perm edits FixEdit.before)
      · exact hselects.ordered fun e he => (hremoves e he).start_lt_stop hwf
      · exact fun hne => hselects.ne_nil (mergeSort_ne_nil hne)
      · exact fun edits' hperm => (apply_eq_of_perm hwf hremoves hperm).trans hok
    · exact absurd (hremoves e he).targets hmissing

/-- In `a!?.b(c!);` the removals of `a!` and `c!` are made, and that of the `?` around `a!` is in
conflict with the first, in whichever order the three are given. -/
theorem apply_partitions_nested :
    let t := (parse "" "a!?.b(c!);").tree
    let edits := [5, 4, 15].filterMap fun id => (t.node? id).map (FixEdit.removal t)
    ∃ outcome, apply t edits = .ok outcome ∧ apply t edits.reverse = .ok outcome ∧
      outcome.tree.text = "a?.b(c);" ∧ outcome.applied.length = 2 ∧
      (outcome.applied ++ outcome.conflicts.map Conflict.edit).Perm edits := by
  intro t edits
  have hoperators : [5, 4, 15].all (fun id =>
      (t.node? id).all fun n => (Checker.operation? n).isSome) = true := by decide +kernel
  have hremoves : ∀ e ∈ edits, t.Removes e := by
    intro e he
    obtain ⟨id, hid, hedit⟩ := List.mem_filterMap.1 he
    obtain ⟨n, hn, rfl⟩ := Option.map_eq_some_iff.1 hedit
    have hoperator := List.all_eq_true.1 hoperators id hid
    rw [hn, Option.all_some] at hoperator
    have hmem := (Tree.node?_eq_some_iff.1 hn).1
    exact ⟨n, hmem, hoperator, FixEdit.removing_eq hmem⟩
  obtain ⟨-, hderived, hpartition⟩ := apply_partitions t
  obtain ⟨outcome, hok, hperm, -, -, -, hsame⟩ :=
    hpartition (hderived (.parse "" "a!?.b(c!);")) edits hremoves
  have hsorted : edits.mergeSort FixEdit.before = edits :=
    List.mergeSort_of_pairwise (by decide +kernel)
  have hread : (apply t edits).toOption.map (fun o => (o.tree.text, o.applied.length)) =
      some ("a?.b(c);", 2) := by
    unfold apply
    rw [hsorted]
    decide +kernel
  rw [hok] at hread
  obtain ⟨htext, happlied⟩ := Prod.mk.inj (Option.some.inj hread)
  exact ⟨outcome, hok, hsame edits.reverse edits.reverse_perm, htext, happlied, hperm⟩

end Batch

end NullLint
