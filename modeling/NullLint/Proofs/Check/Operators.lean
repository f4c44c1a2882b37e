import NullLint.Analysis
import NullLint.Proofs.Syntax.Derivation

/-!
# Operators and findings

A null operator is a node over its operand and its mark. Every finding names a null operator of the
tree that was checked, whatever the host answers and whenever the run is stopped.
-/

namespace NullLint

namespace Checker

theorem operatorShape?_eq_some {n operand token : Placed} {mark : Kind}
    (h : n.operatorShape? mark = some (operand, token)) :
    n.children = [operand, token] ∧ token.kind = mark := by
  unfold Node.operatorShape? at h
  split at h
  · rename_i a b hchildren
    split at h
    · rename_i hshape
      cases h
      exact ⟨hchildren, by simp_all⟩
    · cases h
  · cases h

theorem expression?_eq_conditionalAccess {n operand token : Placed}
    (h : n.expression? = some (.conditionalAccess operand token)) :
    n.kind = .conditionalAccessExpression ∧ n.operatorShape? .question = some (operand, token) := by
  unfold Node.expression? at h
  split at h
  · rename_i hkind
    obtain ⟨p, hp, hshape⟩ := Option.map_eq_some_iff.1 h
    cases hshape
    exact ⟨hkind, hp⟩
  · obtain ⟨p, -, hshape⟩ := Option.map_eq_some_iff.1 h
    cases hshape
  · obtain ⟨p, -, hshape⟩ := Option.map_eq_some_iff.1 h
    cases hshape
  · split at h <;> cases h

theorem expression?_eq_nullAssertion {n operand token : Placed}
    (h : n.expression? = some (.nullAssertion operand token)) :
    n.kind = .suppressNullableWarningExpression ∧
      n.operatorShape? .exclamation = some (operand, token) := by
  unfold Node.expression? at h
  split at h
  · obtain ⟨p, -, hshape⟩ := Option.map_eq_some_iff.1 h
    cases hshape
  · rename_i hkind
    obtain ⟨p, hp, hshape⟩ := Option.map_eq_some_iff.1 h
    cases hshape
    exact ⟨hkind, hp⟩
  · obtain ⟨p, -, hshape⟩ := Option.map_eq_some_iff.1 h
    cases hshape
  · split at h <;> cases h

/-- A null operator has its operand and its mark for children. -/
theorem operation?_eq_some {n : Placed} {op : Operation} (h : operation? n = some op) :
    isOperatorKind n.kind = true ∧ n.children = [op.operand, op.token] ∧
      (op.token.kind = .question ∨ op.token.kind = .exclamation) := by
  unfold operation? at h
  split at h
  · rename_i operand token hexpr
    cases h
    obtain ⟨hkind, hshape⟩ := expression?_eq_conditionalAccess hexpr
    obtain ⟨hchildren, hmark⟩ := operatorShape?_eq_some hshape
    exact ⟨by simp [hkind, isOperatorKind], hchildren, .inl hmark⟩
  · rename_i operand token hexpr
    cases h
    obtain ⟨hkind, hshape⟩ := expression?_eq_nullAssertion hexpr
    obtain ⟨hchildren, hmark⟩ := operatorShape?_eq_some hshape
    exact ⟨by simp [hkind, isOperatorKind], hchildren, .inr hmark⟩
  · cases h

theorem judge_eq_some {c : Checker} {path : List Placed} {history : History} {f : Finding}
    (h : (c.judge path history).1 = some f) :
    ∃ n op, path.head? = some n ∧ operation? n = some op ∧ f.node = n.id := by
  unfold judge at h
  cases hhead : path.head?.bind fun n => (operation? n).map fun op => (n, op) with
  | none =>
    rw [hhead] at h
    cases h
  | some p =>
    rw [hhead] at h
    obtain ⟨n, hn, hop⟩ := Option.bind_eq_some_iff.1 hhead
    obtain ⟨op, hoperation, rfl⟩ := Option.map_eq_some_iff.1 hop
    obtain ⟨reason, -, rfl⟩ := Option.map_eq_some_iff.1 h
    exact ⟨n, op, hn, hoperation, rfl⟩

theorem analyze_eq_some {c : Checker} {id : Nat} {history : History} {f : Finding}
    (h : (c.analyze id history).1 = some f) :
    ∃ n op, (c.path id).head? = some n ∧ operation? n = some op ∧ f.node = n.id := by
  unfold analyze at h
  split at h
  · cases hpoll : c.signal history with
    | false =>
      simp only [bind, StateT.bind, Checking.poll, hpoll] at h
      exact judge_eq_some h
    | true =>
      simp only [bind, StateT.bind, Checking.poll, hpoll] at h
      cases h
  · cases h

theorem mem_visit {c : Checker} {nodes : List Nat} {history : History} {f : Finding}
    (h : f ∈ (c.visit nodes history).1) :
    ∃ id ∈ nodes, ∃ n op, (c.path id).head? = some n ∧ operation? n = some op ∧ f.node = n.id := by
  induction nodes generalizing history with
  | nil => cases h
  | cons id nodes ih =>
    cases hpoll : c.signal history with
    | true =>
      simp only [visit, bind, StateT.bind, Checking.poll, hpoll] at h
      cases h
    | false =>
      simp only [visit, bind, StateT.bind, Checking.poll, hpoll] at h
      rcases List.mem_append.1 h with h | h
      · exact ⟨id, by simp, analyze_eq_some (Option.mem_toList.1 h)⟩
      · obtain ⟨id', hid', hn⟩ := ih h
        exact ⟨id', by simp [hid'], hn⟩

end Checker

namespace Tree

theorem head?_path_checker {t : Tree} {options : AnalysisOptions} {signal : Signal} {n : Placed}
    (hn : n ∈ t.nodes) : ((t.checker options signal).path n.id).head? = some n := by
  obtain ⟨file, root⟩ := t
  cases root with
  | none => cases hn
  | some root =>
    have hmem : n ∈ root.placed.preorder := hn
    obtain ⟨path, hpath⟩ := Node.exists_descends hmem []
    have hfound := Node.path?_of_descends root.numbered_placed hpath
    simp [Checker.path, checker, placed, hfound]

/-- Every finding in a tree names a null operator of the tree. -/
theorem operation_of_mem_check {t : Tree} {options : AnalysisOptions} {signal : Signal}
    {f : Finding} (h : f ∈ t.check options signal) :
    ∃ n ∈ t.nodes, ∃ op, Checker.operation? n = some op ∧ f.node = n.id := by
  have hraw : f ∈ (t.checker options signal).checkTree.result := by
    unfold check at h
    split at h
    · cases h
    · exact (List.mem_filter.1 h).1
  have hvisit : f ∈ ((t.checker options signal).visit (t.checker options signal).operatorNodes
      []).1 := by
    unfold Checker.checkTree Checking.result at hraw
    split at hraw
    · exact List.mem_mergeSort.1 hraw
    · cases hraw
  obtain ⟨id, hid, n, op, hhead, hop, hnode⟩ := Checker.mem_visit hvisit
  obtain ⟨m, hm, rfl⟩ := List.mem_map.1 hid
  have hmem : m ∈ t.nodes := (List.mem_filter.1 hm).1
  have heq : m = n := Option.some.inj ((head?_path_checker hmem).symm.trans hhead)
  subst heq
  exact ⟨m, hmem, op, hop, hnode⟩

end Tree

end NullLint
