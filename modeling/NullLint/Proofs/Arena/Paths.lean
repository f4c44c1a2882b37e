import NullLint.Proofs.Arena.Tokens

/-!
# Paths and links in an arena

A path says which child to take at each node. In a tree that an arena holds just one path leads from
the root to each position, and the order of these paths is the preorder of the positions. Where the
arena is the forest of one tree, the parent of a node is the one node that has it as a child.
-/

namespace NullLint.Arena

/-- The position reached by a path: at each node, the child in the next place is taken. -/
def follow (a : Arena) (i : Nat) : (path : List Nat) → Option Nat
  | [] => some i
  | k :: path => (a.children i)[k]?.bind fun c => a.follow c path

/-- Wherever paths from `r` lead to two positions, the one to `i` stands before the one to `j`. -/
def Before (a : Arena) (r i j : Nat) : Prop :=
  ∀ path path', a.follow r path = some i → a.follow r path' = some j → path < path'

variable {a : Arena} {p : Option Nat} {n : Node Nat} {cs : List (Node Nat)} {i j k : Nat}
  {kind : Kind} {path path' : List Nat}

theorem Holds.follow_cons (h : a.Holds p n) :
    a.follow n.tag (k :: path) = n.children[k]?.bind fun c => a.follow c.tag path := by
  simp [follow, h.children, Option.bind_map]

/-- Paths stay in the tree. -/
theorem Holds.mem_of_follow (h : a.Holds p n) (hpath : a.follow n.tag path = some j) :
    j ∈ n.indices := by
  induction path generalizing p n with
  | nil =>
    obtain rfl : n.tag = j := Option.some.inj hpath
    exact n.tag_mem_indices
  | cons k path ih =>
    rw [h.follow_cons] at hpath
    obtain ⟨c, hc, hpath⟩ := Option.bind_eq_some_iff.1 hpath
    have hmem : c ∈ n.children := List.mem_of_getElem? hc
    exact Node.mem_indices_of_child hmem (ih (h.child hmem) hpath)

/-- A path leads to each position of the tree. -/
theorem Holds.exists_follow (h : a.Holds p n) (hj : j ∈ n.indices) :
    ∃ path, a.follow n.tag path = some j := by
  induction h with
  | token => exact ⟨[], congrArg some (List.mem_singleton.1 hj).symm⟩
  | @branch p i kind cs hnode hcs ih =>
    rw [Node.indices_branch, List.mem_cons] at hj
    rcases hj with rfl | hj
    · exact ⟨[], rfl⟩
    · obtain ⟨c, hc, hj⟩ := List.mem_flatMap.1 hj
      obtain ⟨path, hpath⟩ := ih c hc hj
      obtain ⟨k, hk⟩ := List.mem_iff_getElem?.1 hc
      refine ⟨k :: path, ?_⟩
      rw [(Holds.branch hnode hcs).follow_cons, Node.children, hk]
      exact hpath

/-- To a position below the root leads a path into the child that it is below. -/
theorem Holds.follow_into (h : a.Holds p (.branch i kind cs))
    (hnodup : (Node.branch i kind cs).indices.Nodup) (hk : k < cs.length) (hj : j ∈ cs[k].indices)
    (hpath : a.follow i path = some j) :
    ∃ path', path = k :: path' ∧ a.follow cs[k].tag path' = some j := by
  rw [Node.indices_branch, List.nodup_cons, List.nodup_flatMap] at hnodup
  obtain ⟨hroot, -, hapart⟩ := hnodup
  cases path with
  | nil =>
    obtain rfl : i = j := Option.some.inj hpath
    exact absurd (List.mem_flatMap.2 ⟨cs[k], List.getElem_mem hk, hj⟩) hroot
  | cons k' path =>
    obtain ⟨c, hc, hpath⟩ := Option.bind_eq_some_iff.1 (h.follow_cons.symm.trans hpath)
    obtain ⟨hk', rfl⟩ := List.getElem?_eq_some_iff.1 hc
    have hj' := (h.child (List.getElem_mem hk')).mem_of_follow hpath
    rw [List.pairwise_iff_getElem] at hapart
    rcases Nat.lt_trichotomy k k' with hlt | rfl | hlt
    · exact (List.disjoint_left.1 (hapart k k' hk hk' hlt) hj hj').elim
    · exact ⟨path, rfl, hpath⟩
    · exact (List.disjoint_left.1 (hapart k' k hk' hk hlt) hj' hj).elim

/-- The root is reached by no step at all. -/
theorem Holds.follow_root (h : a.Holds p n) (hnodup : n.indices.Nodup)
    (hpath : a.follow n.tag path = some n.tag) : path = [] := by
  cases path with
  | nil => rfl
  | cons k path =>
    rw [h.follow_cons] at hpath
    obtain ⟨c, hc, hpath⟩ := Option.bind_eq_some_iff.1 hpath
    have hmem : c ∈ n.children := List.mem_of_getElem? hc
    have hbelow := (h.child hmem).mem_of_follow hpath
    cases n with
    | token => cases hmem
    | branch i kind cs =>
      rw [Node.indices_branch, List.nodup_cons] at hnodup
      exact absurd (List.mem_flatMap.2 ⟨c, hmem, hbelow⟩) hnodup.1

/-- Just one path leads to a position. -/
theorem Holds.follow_unique (h : a.Holds p n) (hnodup : n.indices.Nodup)
    (hpath : a.follow n.tag path = some j) (hpath' : a.follow n.tag path' = some j) :
    path = path' := by
  have hj := h.mem_of_follow hpath
  induction h generalizing path path' with
  | token hnode hdata =>
    obtain rfl := List.mem_singleton.1 hj
    rw [(Holds.token hnode hdata).follow_root hnodup hpath,
      (Holds.token hnode hdata).follow_root hnodup hpath']
  | @branch p i kind cs hnode hcs ih =>
    have h := Holds.branch hnode hcs
    rw [Node.indices_branch, List.mem_cons] at hj
    rcases hj with rfl | hj
    · rw [h.follow_root hnodup hpath, h.follow_root hnodup hpath']
    · obtain ⟨c, hc, hj⟩ := List.mem_flatMap.1 hj
      obtain ⟨k, hk, rfl⟩ := List.mem_iff_getElem.1 hc
      obtain ⟨below, rfl, hbelow⟩ := h.follow_into hnodup hk hj hpath
      obtain ⟨below', rfl, hbelow'⟩ := h.follow_into hnodup hk hj hpath'
      rw [Node.indices_branch, List.nodup_cons, List.nodup_flatMap] at hnodup
      rw [ih cs[k] hc (hnodup.2.1 cs[k] hc) hbelow hbelow' hj]

/-- The preorder of a tree is the order of the paths. -/
theorem Holds.pairwise_before (h : a.Holds p n) (hnodup : n.indices.Nodup) :
    n.indices.Pairwise (a.Before n.tag) := by
  induction h with
  | token => exact List.pairwise_singleton ..
  | @branch p i kind cs hnode hcs ih =>
    have h := Holds.branch hnode hcs
    have hbelow := hnodup
    rw [Node.indices_branch, List.nodup_cons, List.nodup_flatMap] at hbelow
    rw [Node.indices_branch, List.pairwise_cons, List.pairwise_flatMap]
    refine ⟨fun j hj path path' hpath hpath' => ?_, fun c hc => ?_, ?_⟩
    · rw [h.follow_root hnodup hpath]
      cases path' with
      | nil =>
        obtain rfl : i = j := Option.some.inj hpath'
        exact absurd hj hbelow.1
      | cons k path' => exact List.nil_lt_cons k path'
    · obtain ⟨k, hk, rfl⟩ := List.mem_iff_getElem.1 hc
      refine List.Pairwise.imp_of_mem ?_ (ih cs[k] hc (hbelow.2.1 cs[k] hc))
      intro x y hx hy hbefore path path' hpath hpath'
      obtain ⟨into, rfl, hinto⟩ := h.follow_into hnodup hk hx hpath
      obtain ⟨into', rfl, hinto'⟩ := h.follow_into hnodup hk hy hpath'
      exact List.cons_lt_cons_self.2 (hbefore into into' hinto hinto')
    · refine List.pairwise_iff_getElem.2 fun k k' hk hk' hlt x hx y hy path path' hpath hpath' => ?_
      obtain ⟨into, rfl, -⟩ := h.follow_into hnodup hk hx hpath
      obtain ⟨into', rfl, -⟩ := h.follow_into hnodup hk' hy hpath'
      exact List.Lex.rel hlt

/-! ## Links -/

/-- Below the root of a tree each node is held under the node that has it as a child. -/
theorem Holds.eq_or_child (h : a.Holds p n) {m : Node Nat} (hm : m ∈ n.preorder) :
    m = n ∨ ∃ q ∈ n.preorder, m ∈ q.children ∧ a.Holds (some q.tag) m := by
  induction h with
  | token hnode hdata => exact .inl (by simpa using hm)
  | @branch p i kind cs hnode hcs ih =>
    rcases Node.mem_preorder_branch.1 hm with rfl | ⟨c, hc, hm⟩
    · exact .inl rfl
    · refine .inr ?_
      rcases ih c hc hm with rfl | ⟨q, hq, hchild, hheld⟩
      · exact ⟨.branch i kind cs, Node.self_mem_preorder _, hc, hcs m hc⟩
      · exact ⟨q, Node.mem_preorder_branch.2 (.inr ⟨c, hc, hq⟩), hchild, hheld⟩

theorem Forest.exists_node (h : a.Forest [n]) (hi : i < a.size) : ∃ m ∈ n.preorder, m.tag = i :=
  List.mem_map.1 (h.mem_indices_iff.2 hi)

theorem lt_size_of_node? {m : ArenaNode} (h : a.node? i = some m) : i < a.size :=
  (List.getElem?_eq_some_iff.1 h).1

/-- A node is the parent of just its children. -/
theorem Forest.parent?_eq_some_iff (h : a.Forest [n]) :
    a.parent? j = some i ↔ j ∈ a.children i := by
  have hn := h.holds n (by simp)
  constructor
  · intro hparent
    obtain ⟨m, hnode, -⟩ := Option.bind_eq_some_iff.1 hparent
    obtain ⟨m, hm, rfl⟩ := h.exists_node (lt_size_of_node? hnode)
    rcases hn.eq_or_child hm with rfl | ⟨q, hq, hchild, hheld⟩
    · exact absurd (hn.parent?.symm.trans hparent) nofun
    · obtain rfl : q.tag = i := Option.some.inj (hheld.parent?.symm.trans hparent)
      obtain ⟨_, hq⟩ := hn.of_mem hq
      exact hq.children ▸ List.mem_map_of_mem hchild
  · intro hchild
    cases hnode : a.node? i with
    | none => simp [children, hnode] at hchild
    | some m =>
      obtain ⟨q, hq, rfl⟩ := h.exists_node (lt_size_of_node? hnode)
      obtain ⟨_, hheld⟩ := hn.of_mem hq
      obtain ⟨c, hc, rfl⟩ := List.mem_map.1 (hheld.children ▸ hchild)
      exact (hheld.child hc).parent?

/-- Each entry of the second list belongs to one node. -/
theorem Forest.existsUnique_entry (h : a.Forest [n]) {d : Nat} (hd : d < a.tokens.length) :
    ∃! i, (a.node? i).bind ArenaNode.data = some d := by
  have hmem : d ∈ a.nodes.filterMap ArenaNode.data := by
    rw [h.data]
    exact List.mem_range.2 hd
  obtain ⟨m, hm, hdata⟩ := List.mem_filterMap.1 hmem
  obtain ⟨i, hi⟩ := List.mem_iff_getElem?.1 hm
  have hentry : (a.node? i).bind ArenaNode.data = some d := by
    rw [node?, hi]
    exact hdata
  exact ⟨i, hentry, fun j hj => h.unshared j i d hj hentry⟩

end NullLint.Arena
