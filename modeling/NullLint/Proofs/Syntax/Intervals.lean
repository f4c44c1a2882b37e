import NullLint.Proofs.Syntax.Numbering

/-!
# Numbers of a subtree

A tree laid out is numbered in preorder. So the numbers of the nodes below a node are an interval
that starts with its own, of two nodes one holds the other or one stands before the other, and the
children of a node take turns.
-/

namespace NullLint.Node

/-- The number behind those of the node and everything below it. -/
def endId (n : Placed) : Nat := n.id + n.size

/-- The node and everything below it are numbered in preorder, one after the other. -/
def Serial (n : Placed) : Prop := n.preorder.map id = List.range' n.id n.size

theorem size_pos {α : Type} (n : Node α) : 0 < n.size := by
  cases n <;> simp

theorem id_lt_endId (n : Placed) : n.id < n.endId :=
  Nat.lt_add_of_pos_right n.size_pos

/-- The root of a text has the number zero. -/
theorem id_placed {α : Type} (n : Node α) : n.placed.id = 0 := by
  obtain ⟨below, hbelow⟩ := n.placed.preorder_eq_cons
  have hhead := congrArg List.head? n.ids_placed
  rw [hbelow, List.map_cons, List.head?_cons, List.head?_range] at hhead
  split at hhead
  · cases hhead
  · exact Option.some.inj hhead

theorem serial_placed {α : Type} (n : Node α) : n.placed.Serial := by
  have hsize : n.placed.size = n.size := by
    simpa [size] using congrArg List.length n.ids_placed
  rw [Serial, n.ids_placed, hsize, n.id_placed, List.range_eq_range']

theorem Serial.pairwise_preorder {n : Placed} (h : n.Serial) :
    n.preorder.Pairwise fun c d => c.id < d.id := by
  rw [← List.pairwise_map (f := id) (R := (· < ·)), h]
  exact List.pairwise_lt_range'

/-- What lies below a node stands together. -/
theorem preorder_infix {α : Type} {m n : Node α} (h : m ∈ n.preorder) :
    m.preorder <:+: n.preorder := by
  induction n with
  | token a t => simp_all
  | branch a k cs ih =>
    rcases mem_preorder_branch.1 h with rfl | ⟨c, hc, hm⟩
    · exact List.infix_refl _
    · obtain ⟨before, after, rfl⟩ := List.append_of_mem hc
      refine (ih c hc hm).trans
        ⟨branch a k (before ++ c :: after) :: before.flatMap preorder, after.flatMap preorder, ?_⟩
      simp

namespace Serial

variable {root m n : Placed}

theorem numbered (h : n.Serial) : n.Numbered := by
  rw [Numbered, h]
  exact List.nodup_range'

theorem of_mem (h : root.Serial) (hn : n ∈ root.preorder) : n.Serial := by
  obtain ⟨before, after, hsplit⟩ := preorder_infix hn
  have hids := congrArg (List.map id) hsplit
  rw [h, List.map_append, List.map_append] at hids
  obtain ⟨k, -, hleft, -⟩ := List.range'_eq_append_iff.1 hids.symm
  obtain ⟨l, -, -, hmiddle⟩ := List.range'_eq_append_iff.1 hleft.symm
  have hlength : n.size = k - l := by
    simpa [size] using congrArg List.length hmiddle
  obtain ⟨below, hbelow⟩ := n.preorder_eq_cons
  have hhead := congrArg List.head? hmiddle
  rw [← hlength, List.head?_range', if_neg (Nat.ne_of_gt n.size_pos), hbelow] at hhead
  rw [Serial, hmiddle, ← hlength]
  exact congrArg (List.range' · n.size) (Option.some.inj hhead).symm

/-- The nodes below a node are those whose numbers lie between its own and its end. -/
theorem mem_preorder_iff (h : root.Serial) (hm : m ∈ root.preorder) (hn : n ∈ root.preorder) :
    m ∈ n.preorder ↔ n.id ≤ m.id ∧ m.id < n.endId := by
  have hids : m.id ∈ n.preorder.map id ↔ n.id ≤ m.id ∧ m.id < n.endId := by
    rw [h.of_mem hn, List.mem_range'_1]
    rfl
  rw [← hids]
  constructor
  · exact List.mem_map_of_mem
  · intro hmem
    obtain ⟨m', hm', hid⟩ := List.mem_map.1 hmem
    obtain rfl := h.numbered.eq_of_id_eq (mem_preorder_trans hm' hn) hm hid
    exact hm'

theorem endId_le (h : n.Serial) (hm : m ∈ n.preorder) : m.endId ≤ n.endId := by
  have hlast : m.id + (m.size - 1) ∈ m.preorder.map id := by
    have := m.size_pos
    rw [h.of_mem hm, List.mem_range'_1]
    omega
  have hmem := ((preorder_sublist hm).map id).subset hlast
  rw [h, List.mem_range'_1] at hmem
  unfold endId
  omega

theorem id_le (h : n.Serial) (hm : m ∈ n.preorder) : n.id ≤ m.id :=
  ((h.mem_preorder_iff hm (self_mem_preorder n)).1 hm).1

/-- Of two nodes one holds the other or one stands before the other. -/
theorem nested_or_apart (h : root.Serial) (hm : m ∈ root.preorder) (hn : n ∈ root.preorder) :
    m ∈ n.preorder ∨ n ∈ m.preorder ∨ m.endId ≤ n.id ∨ n.endId ≤ m.id := by
  rw [h.mem_preorder_iff hm hn, h.mem_preorder_iff hn hm]
  omega

theorem id_lt_child {c : Placed} (h : n.Serial) (hc : c ∈ n.children) : n.id < c.id := by
  have hmem := mem_preorder_of_mem_children hc
  have hne := h.numbered.id_ne_of_mem_child hc (self_mem_preorder c)
  have := h.id_le hmem
  omega

/-- One child ends before the next one starts. -/
theorem pairwise_children (h : n.Serial) :
    n.children.Pairwise fun c d => c.endId ≤ d.id := by
  have hsorted : n.children.Pairwise fun c d => c.id < d.id := by
    cases n with
    | token => exact .nil
    | branch a k cs =>
      have hall := h.pairwise_preorder
      rw [preorder_branch] at hall
      exact (List.pairwise_cons.1 hall).2.sublist (sublist_flatMap_preorder cs)
  refine hsorted.imp_of_mem fun {c d} hc hd hlt => ?_
  have hcn := mem_preorder_of_mem_children hc
  have hdn := mem_preorder_of_mem_children hd
  rcases h.nested_or_apart hcn hdn with hin | hin | hapart | hapart
  · exact absurd ((h.of_mem hdn).id_le hin) (by omega)
  · obtain rfl := h.numbered.child_eq hc hd hin (self_mem_preorder d) rfl
    exact absurd hlt (Nat.lt_irrefl _)
  · exact hapart
  · exact absurd hapart (by have := d.id_lt_endId; omega)

end Serial

end NullLint.Node
