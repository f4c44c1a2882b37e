import NullLint.Arena.Basic
import NullLint.Proofs.Syntax.Relabeling
import Mathlib.Data.List.Perm.Basic
import Mathlib.Data.List.Range

/-!
# What an arena holds

A tree whose tags are positions says how some nodes of an arena hang together (`Arena.Holds`): each
node has the children and the parent that it has in the tree. An arena is the forest of some trees
if these take up all its positions, each of them once (`Arena.Forest`): then no node is out of
their reach, and none stands in two places. A new token is a new tree, and a new branch takes the
last trees together.
-/

namespace NullLint

/-- The tags of a node and of everything below it, in preorder. -/
def Node.indices (n : Node Nat) : List Nat := n.preorder.map Node.tag

namespace Node

@[simp] theorem indices_token (i : Nat) (t : Token) : (Node.token i t).indices = [i] := rfl

@[simp] theorem indices_branch (i : Nat) (k : Kind) (cs : List (Node Nat)) :
    (Node.branch i k cs).indices = i :: cs.flatMap indices := by
  simp only [indices, preorder_branch, List.map_cons, List.map_flatMap, tag]
  rfl

theorem tag_mem_indices (n : Node Nat) : n.tag ∈ n.indices :=
  List.mem_map_of_mem (self_mem_preorder n)

theorem length_indices (n : Node Nat) : n.indices.length = n.size := by
  rw [indices, List.length_map, size]

theorem mem_indices_of_child {n c : Node Nat} {i : Nat} (hc : c ∈ n.children)
    (hi : i ∈ c.indices) : i ∈ n.indices := by
  cases n with
  | token => cases hc
  | branch j k cs =>
    rw [indices_branch]
    exact List.mem_cons_of_mem _ (List.mem_flatMap.2 ⟨c, hc, hi⟩)

end Node

namespace Arena

open List (Perm)
open scoped List

variable {a b : Arena} {p : Option Nat} {n : Node Nat} {ns ms cs : List (Node Nat)} {i : Nat}

/-! ## Trees in an arena -/

/-- The arena holds the tree, under the given parent. -/
inductive Holds (a : Arena) : Option Nat → Node Nat → Prop
  | token {p : Option Nat} {i d : Nat} {t : Token}
      (hnode : a.node? i =
        some { kind := t.kind, missing := t.missing, parent := p, data := some d })
      (hdata : a.tokens[d]? = some t.data) : Holds a p (.token i t)
  | branch {p : Option Nat} {i : Nat} {k : Kind} {cs : List (Node Nat)}
      (hnode : a.node? i = some { kind := k, parent := p, children := cs.map Node.tag })
      (hcs : ∀ c ∈ cs, Holds a (some i) c) : Holds a p (.branch i k cs)

theorem Holds.child (h : a.Holds p n) {c : Node Nat} (hc : c ∈ n.children) :
    a.Holds (some n.tag) c := by
  cases h with
  | token => cases hc
  | branch hnode hcs => exact hcs c hc

/-- Nodes below a tree that an arena holds are held as well. -/
theorem Holds.of_mem (h : a.Holds p n) {m : Node Nat} (hm : m ∈ n.preorder) :
    ∃ q, a.Holds q m := by
  induction h with
  | token hnode hdata =>
    obtain rfl := List.mem_singleton.1 hm
    exact ⟨_, .token hnode hdata⟩
  | branch hnode hcs ih =>
    rcases Node.mem_preorder_branch.1 hm with rfl | ⟨c, hc, hm⟩
    · exact ⟨_, .branch hnode hcs⟩
    · exact ih c hc hm

/-- The tokens of `b` begin with those of `a`. -/
def Keeps (a b : Arena) : Prop := a.tokens <+: b.tokens

theorem Keeps.getElem? (h : a.Keeps b) {d : Nat} {data : TokenData}
    (hd : a.tokens[d]? = some data) : b.tokens[d]? = some data := by
  obtain ⟨more, hmore⟩ := h
  rw [← hmore, List.getElem?_append_left (List.getElem?_eq_some_iff.1 hd).1, hd]

/-- A tree stays where its nodes do. -/
theorem Holds.of_node? (h : a.Holds p n) (hnodes : ∀ i ∈ n.indices, b.node? i = a.node? i)
    (hkeeps : a.Keeps b) : b.Holds p n := by
  induction h with
  | token hnode hdata =>
    exact .token ((hnodes _ (by simp)).trans hnode) (hkeeps.getElem? hdata)
  | @branch p i k cs hnode hcs ih =>
    exact .branch ((hnodes i (by simp)).trans hnode) fun c hc =>
      ih c hc fun j hj => hnodes j (Node.mem_indices_of_child hc hj)

/-- A tree whose topmost node gets a parent. -/
theorem Holds.adopted (h : a.Holds p n) {q : Nat} (hnodup : n.indices.Nodup)
    (hroot : b.node? n.tag = (a.node? n.tag).map fun m => { m with parent := some q })
    (hnodes : ∀ i ∈ n.indices, i ≠ n.tag → b.node? i = a.node? i) (hkeeps : a.Keeps b) :
    b.Holds (some q) n := by
  cases h with
  | token hnode hdata =>
    rw [Node.tag, hnode] at hroot
    exact .token hroot (hkeeps.getElem? hdata)
  | @branch _ i k cs hnode hcs =>
    rw [Node.tag, hnode] at hroot
    rw [Node.indices_branch, List.nodup_cons] at hnodup
    refine .branch hroot fun c hc => (hcs c hc).of_node? (fun j hj => ?_) hkeeps
    have hmem : j ∈ cs.flatMap Node.indices := List.mem_flatMap.2 ⟨c, hc, hj⟩
    refine hnodes j (by simp [hmem]) ?_
    rintro rfl
    exact hnodup.1 hmem

/-! ## Forests -/

/-- The trees take up all positions of the arena, each of them once, and the token nodes take up all
entries of its second list, in order. -/
structure Forest (a : Arena) (ns : List (Node Nat)) : Prop where
  holds : ∀ n ∈ ns, a.Holds none n
  indices : (ns.flatMap Node.indices).Perm (List.range a.size)
  data : a.nodes.filterMap ArenaNode.data = List.range a.tokens.length

theorem Forest.nodup (h : a.Forest ns) : (ns.flatMap Node.indices).Nodup :=
  h.indices.nodup_iff.2 List.nodup_range

theorem Forest.mem_iff (h : a.Forest ns) : i ∈ ns.flatMap Node.indices ↔ i < a.size := by
  rw [h.indices.mem_iff, List.mem_range]

theorem Forest.lt_size (h : a.Forest ns) (hn : n ∈ ns) (hi : i ∈ n.indices) : i < a.size :=
  h.mem_iff.1 (List.mem_flatMap.2 ⟨n, hn, hi⟩)

theorem Forest.nodup_of_mem (h : a.Forest ns) (hn : n ∈ ns) : n.indices.Nodup :=
  (List.nodup_flatMap.1 h.nodup).1 n hn

/-- A tree that takes up the arena alone has all its nodes. -/
theorem Forest.size_eq (h : a.Forest [n]) : n.size = a.size := by
  simpa [Node.length_indices] using h.indices.length_eq

theorem Forest.mem_indices_iff (h : a.Forest [n]) : i ∈ n.indices ↔ i < a.size := by
  simpa using h.mem_iff

theorem forest_empty : Forest {} [] := ⟨by simp, by simp [size], by simp⟩

/-! ## Growth -/

@[simp] theorem size_addToken (k : Kind) (data : TokenData) (missing : Bool) :
    (a.addToken k data missing).2.size = a.size + 1 := by
  simp [addToken, size]

theorem node?_addToken {k : Kind} {data : TokenData} {missing : Bool} (h : i < a.size) :
    (a.addToken k data missing).2.node? i = a.node? i := by
  simp only [node?, addToken]
  exact List.getElem?_append_left h

/-- A new token is one more tree. -/
theorem Forest.addToken (h : a.Forest ns) (t : Token) :
    (a.addToken t.kind t.data t.missing).2.Forest (ns ++ [.token a.size t]) where
  holds n hn := by
    have hkeeps : a.Keeps (a.addToken t.kind t.data t.missing).2 := List.prefix_append _ _
    rcases List.mem_append.1 hn with hn | hn
    · exact (h.holds n hn).of_node? (fun i hi => node?_addToken (h.lt_size hn hi)) hkeeps
    · obtain rfl := List.mem_singleton.1 hn
      refine .token (d := a.tokens.length) ?_ ?_
      · simp [node?, Arena.addToken, size]
      · simp [Arena.addToken]
  indices := by
    rw [List.flatMap_append, size_addToken, List.range_succ]
    exact h.indices.append (by simp)
  data := by
    simp [Arena.addToken, h.data, List.range_succ]

theorem getElem?_adopt (q : Nat) (is : List Nat) (nodes : List ArenaNode) (j : Nat) :
    (adopt q is nodes)[j]? =
      if j ∈ is then nodes[j]?.map fun m => { m with parent := some q } else nodes[j]? := by
  induction is generalizing nodes with
  | nil => simp [adopt]
  | cons i is ih =>
    rw [adopt, ih, List.getElem?_modify]
    by_cases hj : j ∈ is
    · by_cases hi : i = j
      · simp [hi, hj, Function.comp_def]
      · simp [hi, hj]
    · by_cases hi : i = j
      · simp [hi, hj]
      · simp [hi, hj, Ne.symm hi]

@[simp] theorem length_adopt (q : Nat) (is : List Nat) (nodes : List ArenaNode) :
    (adopt q is nodes).length = nodes.length := by
  induction is generalizing nodes with
  | nil => rfl
  | cons i is ih => rw [adopt, ih, List.length_modify]

/-- Token nodes keep their entries when they get a parent. -/
theorem filterMap_data_adopt (q : Nat) (is : List Nat) (nodes : List ArenaNode) :
    (adopt q is nodes).filterMap ArenaNode.data = nodes.filterMap ArenaNode.data := by
  have hmap : (adopt q is nodes).map ArenaNode.data = nodes.map ArenaNode.data := by
    refine List.ext_getElem? fun j => ?_
    rw [List.getElem?_map, List.getElem?_map, getElem?_adopt]
    split
    · simp [Function.comp_def]
    · rfl
  simpa only [List.filterMap_map, Function.id_comp] using congrArg (List.filterMap id) hmap

@[simp] theorem size_addNode (k : Kind) (is : List Nat) :
    (a.addNode k is).2.size = a.size + 1 := by
  simp [addNode, size]

theorem node?_addNode {k : Kind} {is : List Nat} (h : i < a.size) :
    (a.addNode k is).2.node? i =
      if i ∈ is then (a.node? i).map fun m => { m with parent := some a.size }
      else a.node? i := by
  simp only [node?, addNode]
  rw [List.getElem?_append_left (by rwa [length_adopt]), getElem?_adopt]

theorem Forest.disjoint (h : a.Forest (ns ++ cs)) {m : Node Nat} (hm : m ∈ ns)
    (hi : i ∈ m.indices) : i ∉ cs.map Node.tag := by
  have hnodup := h.nodup
  rw [List.flatMap_append, List.nodup_append] at hnodup
  intro hmem
  obtain ⟨c, hc, rfl⟩ := List.mem_map.1 hmem
  exact hnodup.2.2 _ (List.mem_flatMap.2 ⟨m, hm, hi⟩) _
    (List.mem_flatMap.2 ⟨c, hc, c.tag_mem_indices⟩) rfl

/-- Below the topmost node of a tree stands the topmost node of no tree. -/
theorem Forest.tag_ne (h : a.Forest ns) {m : Node Nat} (hm : m ∈ ns) (hn : n ∈ ns)
    (hi : i ∈ m.indices) (hne : i ≠ m.tag) : i ≠ n.tag := by
  rintro rfl
  have hapart := (List.nodup_flatMap.1 h.nodup).2
  have hmn : m ≠ n := fun heq => hne (congrArg Node.tag heq.symm)
  have : Std.Symm (Function.onFun List.Disjoint Node.indices) := ⟨fun _ _ h _ hy hx => h hx hy⟩
  exact hapart.forall hm hn hmn hi n.tag_mem_indices

/-- A new branch takes its children together. -/
theorem Forest.addNode (h : a.Forest (ns ++ cs)) (k : Kind) :
    (a.addNode k (cs.map Node.tag)).2.Forest (ns ++ [.branch a.size k cs]) where
  holds n hn := by
    have hkeeps : a.Keeps (a.addNode k (cs.map Node.tag)).2 := List.prefix_refl _
    rcases List.mem_append.1 hn with hn | hn
    · have hmem : n ∈ ns ++ cs := List.mem_append_left _ hn
      refine (h.holds n hmem).of_node? (fun i hi => ?_) hkeeps
      rw [node?_addNode (h.lt_size hmem hi), if_neg (h.disjoint hn hi)]
    · obtain rfl := List.mem_singleton.1 hn
      refine .branch ?_ fun c hc => ?_
      · simp [node?, Arena.addNode, size]
      · have hmem : c ∈ ns ++ cs := List.mem_append_right _ hc
        refine (h.holds c hmem).adopted (h.nodup_of_mem hmem) ?_ (fun i hi hne => ?_) hkeeps
        · rw [node?_addNode (h.lt_size hmem c.tag_mem_indices), if_pos (List.mem_map_of_mem hc)]
        · rw [node?_addNode (h.lt_size hmem hi), if_neg]
          intro htag
          obtain ⟨d, hd, rfl⟩ := List.mem_map.1 htag
          exact h.tag_ne hmem (List.mem_append_right _ hd) hi hne rfl
  indices := by
    have hindices := h.indices
    rw [List.flatMap_append] at hindices
    rw [List.flatMap_append, size_addNode, List.range_succ]
    calc
      ns.flatMap Node.indices ++ [Node.branch a.size k cs].flatMap Node.indices
      _ = ns.flatMap Node.indices ++ a.size :: cs.flatMap Node.indices := by simp
      _ ~ a.size :: (ns.flatMap Node.indices ++ cs.flatMap Node.indices) := List.perm_middle
      _ ~ a.size :: List.range a.size := hindices.cons _
      _ ~ List.range a.size ++ [a.size] := (List.perm_append_singleton _ _).symm
  data := by
    have hdata := filterMap_data_adopt a.size (cs.map Node.tag) a.nodes
    simp [Arena.addNode, hdata, h.data]

end Arena

end NullLint
