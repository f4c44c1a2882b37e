import NullLint.Fix.Edit
import NullLint.Proofs.Check.Operators
import NullLint.Proofs.Syntax.Positions

/-!
# Removing one operator

The fragment that takes the place of a null operator is its operand with other outer trivia. It has
one null operator less, and the operator that it replaces is never empty.
-/

namespace NullLint

namespace Node

variable {α β : Type}

/-- The kinds of a node and of those below it, parents first. -/
def kinds (n : Node α) : List Kind := n.preorder.map kind

@[simp] theorem kinds_token (a : α) (t : Token) : (token a t).kinds = [t.kind] := rfl

@[simp] theorem kinds_branch (a : α) (k : Kind) (cs : List (Node α)) :
    (branch a k cs).kinds = k :: cs.flatMap kinds := by
  simp only [kinds, preorder_branch, List.map_cons, kind_branch, List.map_flatMap]
  rfl

@[simp] theorem kinds_map (f : α → β) (n : Node α) : (n.map f).kinds = n.kinds := by
  induction n with
  | token a t => rfl
  | branch a k cs ih =>
    rw [map_branch, kinds_branch, kinds_branch, List.flatMap_map]
    exact congrArg _ (List.flatMap_congr ih)

@[simp] theorem kinds_erase (n : Node α) : n.erase.kinds = n.kinds := kinds_map _ n

@[simp] theorem kinds_placed (n : Green) : n.placed.kinds = n.kinds := by
  rw [← kinds_erase, erase_placed]

/-- Number of null operators. -/
def operatorCount (n : Node α) : Nat :=
  n.preorder.countP fun m => Checker.isOperatorKind m.kind

theorem operatorCount_eq (n : Node α) :
    n.operatorCount = n.kinds.countP Checker.isOperatorKind := by
  rw [kinds, List.countP_map]
  rfl

end Node

namespace Tree

/-- Number of null operators. -/
def operatorCount (t : Tree) : Nat :=
  t.nodes.countP fun n => Checker.isOperatorKind n.kind

theorem operatorCount_of_root {t : Tree} {root : Green} (h : t.root = some root) :
    t.operatorCount = root.operatorCount := by
  have hnodes : t.nodes = root.placed.preorder := nodes_of_placed (by simp [placed, h])
  rw [operatorCount, hnodes, root.operatorCount_eq, ← root.kinds_placed,
    ← root.placed.operatorCount_eq]
  rfl

/-! ## Outer trivia -/

theorem kinds_updateFirst {f : Token → Token} (hf : KeepsText f) (n : Green) :
    (updateFirst f n).kinds = n.kinds := by
  fun_induction updateFirst f n with
  | case1 a t => simp [(hf t).1]
  | case2 a k => simp
  | case3 a k c cs ih => simp [ih]

mutual

theorem kinds_updateLast {f : Token → Token} (hf : KeepsText f) (n : Green) :
    (updateLast f n).kinds = n.kinds := by
  cases n with
  | token a t => simp [updateLast, (hf t).1]
  | branch a k cs => simp [updateLast, kinds_updateLastIn hf cs]

theorem kinds_updateLastIn {f : Token → Token} (hf : KeepsText f) (cs : List Green) :
    (updateLastIn f cs).flatMap Node.kinds = cs.flatMap Node.kinds := by
  match cs with
  | [] => rfl
  | [c] => simp [updateLastIn, kinds_updateLast hf c]
  | c :: d :: cs =>
    simp only [updateLastIn, List.flatMap_cons]
    rw [kinds_updateLastIn hf (d :: cs), List.flatMap_cons]

end

theorem kinds_withTriviaOf (file : String) (n : Green) (node : Option Placed) :
    (withTriviaOf ⟨file, some n⟩ node).root.map Node.kinds = some n.kinds := by
  refine congrArg some ((kinds_updateLast ?_ _).trans (kinds_updateFirst ?_ n))
  · exact fun _ => ⟨rfl, rfl⟩
  · exact fun _ => ⟨rfl, rfl⟩

end Tree

/-! ## Removable nodes -/

namespace Node

open Checker (operation? Operation isOperatorKind)

variable {n : Placed} {op : Operation}

/-- A mark is a token with a text. -/
theorem eq_token_of_mark (hwf : n.WellFormed)
    (hkind : n.kind = .question ∨ n.kind = .exclamation) :
    ∃ a t, n = .token a t ∧ t.text ≠ "" ∧ isOperatorKind t.kind = false := by
  cases n with
  | token a t =>
    refine ⟨a, t, rfl, (wellFormed_token.1 hwf).mark hkind, ?_⟩
    rcases hkind with hkind | hkind <;> simp_all [isOperatorKind]
  | branch a k cs =>
    have hnode := (wellFormed_branch.1 hwf).1
    rcases hkind with rfl | rfl <;> cases hnode

theorem eq_branch_of_operation (hwf : n.WellFormed) (hop : operation? n = some op) :
    ∃ a k b mark, n = .branch a k [op.operand, .token b mark] ∧ isOperatorKind k = true ∧
      mark.text ≠ "" ∧ isOperatorKind mark.kind = false := by
  obtain ⟨hkind, hchildren, hmark⟩ := Checker.operation?_eq_some hop
  cases n with
  | token a t => cases hchildren
  | branch a k cs =>
    obtain rfl : cs = [op.operand, op.token] := hchildren
    have htoken : op.token.WellFormed := (wellFormed_branch.1 hwf).2 _ (by simp)
    obtain ⟨b, mark, heq, htext, hcount⟩ := eq_token_of_mark htoken hmark
    exact ⟨a, k, b, mark, by rw [heq], hkind, htext, hcount⟩

/-- The mark of a null operator stands behind its operand. -/
theorem operand_stop_lt_stop (hwf : n.WellFormed) (hlaid : n.LaidOut)
    (hop : operation? n = some op) : op.operand.fullSpan.stop < n.fullSpan.stop := by
  obtain ⟨a, k, b, mark, rfl, -, htext, -⟩ := eq_branch_of_operation hwf hop
  have hpos : mark.text.utf8ByteSize ≠ 0 := by simpa using htext
  cases hlaid with
  | branch tile _ below =>
    obtain ⟨-, -, hmark⟩ := Span.Tile.cons_iff.1 tile
    obtain ⟨hstart, -, hend⟩ := Span.Tile.cons_iff.1 hmark
    have hstop := hend.le
    cases below (token b mark) (by simp) with
    | token =>
      simp only [fullSpan, tag, tokenPlace] at hstart hstop ⊢
      omega

/-- A null operator takes up some bytes. -/
theorem start_lt_stop_of_operation (hwf : n.WellFormed) (hlaid : n.LaidOut)
    (hop : operation? n = some op) : n.fullSpan.start < n.fullSpan.stop := by
  have hmem : op.operand ∈ n.preorder := by
    apply mem_preorder_of_mem_children
    simp [(Checker.operation?_eq_some hop).2.1]
  have hin := hlaid.within_fullSpan hmem
  calc
    n.fullSpan.start ≤ op.operand.fullSpan.start := hin.lo_le
    _ ≤ op.operand.fullSpan.stop := hin.ordered
    _ < n.fullSpan.stop := operand_stop_lt_stop hwf hlaid hop

end Node

namespace Tree

open Checker (operation? Operation isOperatorKind)

variable {n : Placed} {op : Operation}

theorem withoutOperator_eq (file : String) (hop : operation? n = some op) :
    withoutOperator file n = withTriviaOf ⟨file, some op.operand.erase⟩ (some n) := by
  unfold Checker.operation? at hop
  split at hop
  · rename_i hexpr
    cases hop
    simp only [withoutOperator, hexpr]
  · rename_i hexpr
    cases hop
    simp only [withoutOperator, hexpr]
  · cases hop

/-- Removing a null operator leaves a fragment with one operator less. -/
theorem root_withoutOperator (file : String) (hwf : n.WellFormed) (hop : operation? n = some op) :
    ∃ g, (withoutOperator file n).root = some g ∧ n.operatorCount = g.operatorCount + 1 := by
  rw [withoutOperator_eq file hop]
  obtain ⟨a, k, b, mark, rfl, hk, -, hmark⟩ := Node.eq_branch_of_operation hwf hop
  obtain ⟨g, hg, hkinds⟩ := Option.map_eq_some_iff.1
    (kinds_withTriviaOf file op.operand.erase (some (.branch a k [op.operand, .token b mark])))
  refine ⟨g, hg, ?_⟩
  rw [Node.operatorCount_eq, Node.operatorCount_eq, hkinds, Node.kinds_erase]
  simp [hk, hmark]

end Tree

end NullLint
