import NullLint.Proofs.Arena.Forest
import NullLint.Proofs.Syntax.Endings
import NullLint.Proofs.Syntax.Intervals

/-!
# Walks in an arena

In a tree that an arena holds, the walks find what the tree has: the nodes below a node in preorder,
its first and its last token, and the text that its tokens spell. Upwards they meet the root. The
number of nodes in the tree is enough steps for each of them.
-/

namespace NullLint.Arena

variable {a : Arena} {p : Option Nat} {n : Node Nat} {ns : List (Node Nat)} {i steps : Nat}

/-! ## Nodes -/

theorem Holds.node? (h : a.Holds p n) : ∃ d, a.node? n.tag = some
    { kind := n.kind, missing := n.isMissing, parent := p, children := n.children.map Node.tag,
      data := d } ∧ d.isSome = n.token?.isSome := by
  cases h with
  | token hnode hdata => exact ⟨_, hnode, rfl⟩
  | branch hnode hcs => exact ⟨_, hnode, rfl⟩

theorem Holds.parent? (h : a.Holds p n) : a.parent? n.tag = p := by
  obtain ⟨d, hnode, -⟩ := h.node?
  simp [Arena.parent?, hnode]

theorem Holds.children (h : a.Holds p n) : a.children n.tag = n.children.map Node.tag := by
  obtain ⟨d, hnode, -⟩ := h.node?
  simp [Arena.children, hnode]

/-- Just the tokens of the tree have entries. -/
theorem Holds.token? (h : a.Holds p n) : a.token? n.tag = n.token?.map Token.data := by
  cases h with
  | token hnode hdata => simpa [Arena.token?, Node.tag, hnode, Node.token?] using hdata
  | branch hnode hcs => simp [Arena.token?, Node.tag, hnode, Node.token?]

/-- The entry of a node below. -/
theorem Holds.token?_of_mem (h : a.Holds p n) {leaf : Option (Node Nat)}
    (hleaf : ∀ l ∈ leaf, l ∈ n.preorder) :
    (leaf.map Node.tag).bind a.token? = (leaf.bind Node.token?).map Token.data := by
  cases leaf with
  | none => rfl
  | some l =>
    obtain ⟨q, hl⟩ := h.of_mem (hleaf l rfl)
    exact hl.token?

/-! ## Downwards -/

/-- A child leaves one step less. -/
theorem size_le_of_child {k : Kind} {cs : List (Node Nat)} {c : Node Nat} (hc : c ∈ cs)
    (h : (Node.branch i k cs).size ≤ steps + 1) : c.size ≤ steps := by
  have hlt : c.size < (Node.branch i k cs).size := Node.size_lt_of_mem_children hc
  omega

theorem Holds.firstTokenWithin (h : a.Holds p n) (hsteps : n.size ≤ steps) :
    a.firstTokenWithin steps n.tag = n.firstLeaf?.map Node.tag := by
  induction steps generalizing p n with
  | zero => exact absurd n.size_pos (by omega)
  | succ steps ih =>
    cases h with
    | token hnode hdata => simp [Arena.firstTokenWithin, Node.tag, hnode, Node.firstLeaf?]
    | @branch _ i k cs hnode hcs =>
      cases cs with
      | nil => simp [Arena.firstTokenWithin, Node.tag, hnode, Node.firstLeaf?]
      | cons c cs =>
        have hc := ih (hcs c (by simp)) (size_le_of_child (by simp) hsteps)
        simpa [Arena.firstTokenWithin, Node.tag, hnode, Node.firstLeaf?] using hc

theorem Holds.lastTokenWithin (h : a.Holds p n) (hsteps : n.size ≤ steps) :
    a.lastTokenWithin steps n.tag = n.lastLeaf?.map Node.tag := by
  induction steps generalizing p n with
  | zero => exact absurd n.size_pos (by omega)
  | succ steps ih =>
    cases h with
    | token hnode hdata => simp [Arena.lastTokenWithin, Node.tag, hnode, Node.lastLeaf?]
    | @branch _ i k cs hnode hcs =>
      cases hlast : cs.getLast? with
      | none =>
        simp [Arena.lastTokenWithin, Node.tag, hnode, Node.lastLeaf?, Node.lastLeafIn?_eq, hlast]
      | some c =>
        have hmem : c ∈ cs := List.mem_of_getLast? hlast
        have hc := ih (hcs c hmem) (size_le_of_child hmem hsteps)
        simpa [Arena.lastTokenWithin, Node.tag, hnode, Node.lastLeaf?, Node.lastLeafIn?_eq, hlast]
          using hc

theorem Holds.firstToken (h : a.Holds p n) (hsize : n.size ≤ a.size) :
    a.firstToken n.tag = n.firstLeaf?.map Node.tag := h.firstTokenWithin hsize

theorem Holds.lastToken (h : a.Holds p n) (hsize : n.size ≤ a.size) :
    a.lastToken n.tag = n.lastLeaf?.map Node.tag := h.lastTokenWithin hsize

theorem firstToken_eq_none (h : a.node? i = none) : a.firstToken i = none := by
  rw [Arena.firstToken]
  cases a.size <;> simp [Arena.firstTokenWithin, h]

theorem lastToken_eq_none (h : a.node? i = none) : a.lastToken i = none := by
  rw [Arena.lastToken]
  cases a.size <;> simp [Arena.lastTokenWithin, h]

/-- The nodes on the stack are met with all that is below them, in preorder. -/
theorem descendantsWithin_eq (h : ∀ n ∈ ns, ∃ p, a.Holds p n)
    (hsteps : (ns.flatMap Node.indices).length ≤ steps) :
    a.descendantsWithin steps (ns.map Node.tag) = ns.flatMap Node.indices := by
  induction steps generalizing ns with
  | zero =>
    rw [List.eq_nil_of_length_eq_zero (Nat.le_zero.1 hsteps)]
    rfl
  | succ steps ih =>
    cases ns with
    | nil => rfl
    | cons n ns =>
      obtain ⟨⟨p, hn⟩, hns⟩ := List.forall_mem_cons.1 h
      cases hn with
      | @token _ i d t hnode hdata =>
        have hrest := ih hns (by simp at hsteps ⊢; omega)
        simpa [Arena.descendantsWithin, Node.tag, hnode] using hrest
      | @branch _ i k cs hnode hcs =>
        have hboth : ∀ m ∈ cs ++ ns, ∃ q, a.Holds q m := fun m hm =>
          (List.mem_append.1 hm).elim (fun hm => ⟨_, hcs m hm⟩) (hns m)
        have hrest := ih hboth (by simp at hsteps ⊢; omega)
        simpa [Arena.descendantsWithin, Node.tag, hnode] using hrest

/-- What a held tree has below its root, and its size, which is enough steps. -/
theorem Holds.descendants (h : a.Holds p n) (hsize : n.size ≤ a.size) :
    a.descendants n.tag = n.indices := by
  have hheld : ∀ m ∈ [n], ∃ q, a.Holds q m := by simpa using ⟨p, h⟩
  have hall := descendantsWithin_eq hheld (by simpa [Node.length_indices] using hsize)
  simpa [Arena.descendants] using hall

/-! ## Text -/

theorem filterMap_filter_token? (is : List Nat) :
    (is.filter fun j => (a.node? j).any fun n => n.data.isSome).filterMap a.token? =
      is.filterMap a.token? := by
  rw [List.filterMap_filter]
  refine List.filterMap_congr fun j _ => ?_
  rw [Arena.token?]
  cases a.node? j with
  | none => rfl
  | some m => cases hdata : m.data <;> simp [hdata]

/-- The entries of a tree are those of its tokens. -/
theorem Holds.filterMap_token? (h : a.Holds p n) :
    n.indices.filterMap a.token? = n.tokens.map Token.data := by
  rw [Node.indices, List.filterMap_map, ← Node.filterMap_token?_preorder, List.map_filterMap]
  refine List.filterMap_congr fun m hm => ?_
  obtain ⟨q, hheld⟩ := h.of_mem hm
  exact hheld.token?

/-- The text of a node is what its tokens spell, one after the other. -/
theorem Holds.sourceText (h : a.Holds p n) (hsize : n.size ≤ a.size) :
    a.sourceText n.tag = n.print := by
  rw [Arena.sourceText, tokensOf, h.descendants hsize, filterMap_filter_token?,
    h.filterMap_token?, List.map_map]
  rfl

/-! ## Upwards -/

/-- One step more leads from a node to its parent. -/
theorem mem_ancestorsWithin_succ {i j q : Nat} (h : j = i ∨ j ∈ a.ancestorsWithin steps i)
    (hq : a.parent? j = some q) : q ∈ a.ancestorsWithin (steps + 1) i := by
  induction steps generalizing i with
  | zero =>
    obtain rfl : j = i := by simpa [ancestorsWithin] using h
    simp [ancestorsWithin, hq]
  | succ steps ih =>
    rw [ancestorsWithin]
    rcases h with rfl | h
    · simp [hq]
    · rw [ancestorsWithin] at h
      cases hi : a.parent? i with
      | none => simp [hi] at h
      | some r =>
        simp only [hi, List.mem_cons] at h ⊢
        exact .inr (ih h)

/-- From each node of a tree a walk upwards meets the root. -/
theorem Holds.mem_ancestorsWithin (h : a.Holds p n) (hi : i ∈ n.indices)
    (hsteps : n.size ≤ steps + 1) : n.tag = i ∨ n.tag ∈ a.ancestorsWithin steps i := by
  induction h generalizing steps with
  | token => exact .inl (List.mem_singleton.1 hi).symm
  | @branch p j k cs hnode hcs ih =>
    rw [Node.indices_branch, List.mem_cons] at hi
    rcases hi with rfl | hi
    · exact .inl rfl
    · obtain ⟨c, hc, hi⟩ := List.mem_flatMap.1 hi
      have hlt := size_le_of_child hc hsteps
      obtain ⟨steps, rfl⟩ := Nat.exists_eq_add_one.2 (c.size_pos.trans_le hlt)
      exact .inr (mem_ancestorsWithin_succ (ih c hc hi hlt) (hcs c hc).parent?)

end NullLint.Arena
