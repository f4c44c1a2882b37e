import NullLint.Arena.Tree
import NullLint.Proofs.Arena.Copying
import NullLint.Proofs.Arena.Declarations
import NullLint.Proofs.Arena.Tokens

/-!
# Trees in arenas and trees as values

A tree in an arena shows a tree that is a value if its arena is the forest of just this tree
(`ArenaTree.Shows`): a permutation leads from the numbers of the nodes to their positions. Parsing
and every edit give trees that show what they give for values, so that an edit never leaves a node
behind.
-/

namespace NullLint

/-! ## Positions -/

namespace Node

theorem size_erase {α : Type} (n : Node α) : n.erase.size = n.size := size_map _ n

theorem eq_of_map_erase_of_flatMap_indices {cs ds : List (Node Nat)}
    (h : ∀ c ∈ cs, ∀ d : Node Nat, c.erase = d.erase → c.indices = d.indices → c = d)
    (herase : cs.map erase = ds.map erase)
    (hindices : cs.flatMap indices = ds.flatMap indices) : cs = ds := by
  induction cs generalizing ds with
  | nil => simpa using herase.symm
  | cons c cs ih =>
    cases ds with
    | nil => cases herase
    | cons d ds =>
      rw [List.map_cons, List.map_cons, List.cons.injEq] at herase
      have hlength : c.indices.length = d.indices.length := by
        rw [length_indices, length_indices, ← size_erase, herase.1, size_erase]
      rw [List.flatMap_cons, List.flatMap_cons] at hindices
      obtain ⟨hc, hcs⟩ := List.append_inj hindices hlength
      rw [h c (by simp) d herase.1 hc, ih (fun e he => h e (by simp [he])) herase.2 hcs]

/-- A tree is known from its shape and its positions. -/
theorem eq_of_erase_of_indices {m n : Node Nat} (herase : m.erase = n.erase)
    (hindices : m.indices = n.indices) : m = n := by
  induction m generalizing n with
  | token i t =>
    cases n with
    | token j u =>
      obtain rfl : i = j := by simpa using hindices
      cases herase
      rfl
    | branch j k ds => cases herase
  | branch i k cs ih =>
    cases n with
    | token j u => cases herase
    | branch j l ds =>
      rw [erase_branch, erase_branch] at herase
      rw [indices_branch, indices_branch, List.cons.injEq] at hindices
      obtain ⟨rfl, hbelow⟩ := hindices
      injection herase with _ hk hchildren
      rw [hk, eq_of_map_erase_of_flatMap_indices (fun c hc _ => ih c hc) hchildren hbelow]

theorem indices_relocate (g : Nat → Nat) (n : Placed) :
    (n.relocate g).indices = (n.preorder.map id).map g := by
  rw [indices, relocate, preorder_map, List.map_map, List.map_map]
  exact List.map_congr_left fun m _ => tag_map _ m

end Node

/-- The position in place `k` of a list, and `k` itself behind the last one. -/
def placeIn (is : List Nat) (k : Nat) : Nat := is[k]?.getD k

section PlaceIn

variable {is : List Nat} {k : Nat}

theorem placeIn_of_lt (hk : k < is.length) : placeIn is k = is[k] := by
  simp [placeIn, hk]

theorem placeIn_of_le (hk : is.length ≤ k) : placeIn is k = k := by
  simp [placeIn, List.getElem?_eq_none hk]

variable (h : is.Perm (List.range is.length))
include h

theorem placeIn_lt_iff : placeIn is k < is.length ↔ k < is.length := by
  rcases Nat.lt_or_ge k is.length with hk | hk
  · have hmem : placeIn is k ∈ is := placeIn_of_lt hk ▸ List.getElem_mem hk
    exact iff_of_true (List.mem_range.1 (h.mem_iff.1 hmem)) hk
  · rw [placeIn_of_le hk]

theorem placeIn_bijective : (placeIn is).Bijective := by
  constructor
  · intro j k hjk
    have hiff : j < is.length ↔ k < is.length := by
      rw [← placeIn_lt_iff h, hjk, placeIn_lt_iff h]
    rcases Nat.lt_or_ge k is.length with hk | hk
    · rw [placeIn_of_lt (hiff.2 hk), placeIn_of_lt hk] at hjk
      exact (h.nodup_iff.2 List.nodup_range).getElem_inj_iff.1 hjk
    · have hj : is.length ≤ j := Nat.le_of_not_lt fun hj => hk.not_gt (hiff.1 hj)
      rwa [placeIn_of_le hj, placeIn_of_le hk] at hjk
  · intro i
    rcases Nat.lt_or_ge i is.length with hi | hi
    · obtain ⟨k, hk, rfl⟩ := List.mem_iff_getElem.1 (h.mem_iff.2 (List.mem_range.2 hi))
      exact ⟨k, placeIn_of_lt hk⟩
    · exact ⟨i, placeIn_of_le hi⟩

/-- Positions in any order are a permutation of all numbers, applied to these in order. -/
theorem exists_perm_of_perm_range : ∃ g : Equiv.Perm Nat, is = (List.range is.length).map g := by
  refine ⟨Equiv.ofBijective _ (placeIn_bijective h), List.ext_getElem (by simp) fun k hk _ => ?_⟩
  rw [List.getElem_map, List.getElem_range]
  exact (placeIn_of_lt hk).symm

end PlaceIn

/-- A tree that takes up an arena is laid out in it by a permutation. -/
theorem Node.exists_relocate {n : Node Nat} (h : n.indices.Perm (List.range n.size)) :
    ∃ g : Equiv.Perm Nat, n.erase.placed.relocate g = n := by
  rw [← length_indices] at h
  obtain ⟨g, hg⟩ := exists_perm_of_perm_range h
  refine ⟨g, eq_of_erase_of_indices (by simp) ?_⟩
  rw [indices_relocate, ids_placed, size_erase, ← length_indices, ← hg]

/-! ## Trees -/

namespace ArenaTree

/-- The arena is the forest of just the tree `u`; the node with the number `id` stands at `g id`. -/
structure Shows (t : ArenaTree) (u : Tree) (g : Equiv.Perm Nat) : Prop where
  file : t.file = u.file
  text : t.text = u.text
  root : t.root = u.placed.map fun root => g root.id
  forest : t.arena.Forest (u.placed.toList.map (Node.relocate g))

theorem shows_ofFragment {file : String} {fragment : Arena.Fragment} {green : Option Green}
    (h : fragment.Shows green) : ∃ g, (ofFragment file fragment).Shows ⟨file, green⟩ g := by
  obtain ⟨arena, root⟩ := fragment
  obtain ⟨n, hroot, hgreen, hforest⟩ := h
  dsimp only at hroot hforest
  subst hroot hgreen
  cases n with
  | none => exact ⟨1, rfl, rfl, rfl, hforest⟩
  | some n =>
    have hsize : n.size = arena.size := hforest.size_eq
    obtain ⟨g, hg⟩ := Node.exists_relocate (n := n) (by simpa [hsize] using hforest.indices)
    refine ⟨g, rfl, ?_, ?_, ?_⟩
    · have hprint : arena.sourceText n.tag = n.erase.print := by
        rw [(hforest.holds n (by simp)).sourceText hsize.le, Node.print, Node.print, Node.erase,
          Node.tokens_map]
      exact hprint
    · have htag : n.tag = g n.erase.placed.id := by rw [← Node.tag_relocate (g := g), hg]
      simp [ofFragment, Tree.placed, htag]
    · simpa [ofFragment, Tree.placed, hg] using hforest

variable {t : ArenaTree} {u : Tree} {g : Equiv.Perm Nat}

theorem Shows.fragment (h : t.Shows u g) : t.fragment.Shows u.root := by
  refine ⟨u.placed.map (Node.relocate g), ?_, ?_, ?_⟩
  · simp [ArenaTree.fragment, h.root, Function.comp_def]
  · simp [Tree.placed, Function.comp_def]
  · simpa [ArenaTree.fragment, Option.toList_map] using h.forest

theorem Shows.indices (h : t.Shows u g) :
    ((List.range u.size).map g).Perm (List.range t.arena.size) := by
  have hnodes : (u.placed.toList.map (Node.relocate g)).flatMap Node.indices =
      (u.nodes.map Node.id).map g := by
    rw [Tree.nodes]
    cases u.placed with
    | none => rfl
    | some root => simpa using Node.indices_relocate g root
  rw [← Tree.ids_nodes, ← hnodes]
  exact h.forest.indices

theorem Shows.size_eq (h : t.Shows u g) : t.arena.size = u.size := by
  simpa using h.indices.length_eq.symm

theorem Shows.lt_size_iff (h : t.Shows u g) (id : Nat) : g id < t.arena.size ↔ id < u.size := by
  rw [← List.mem_range, ← h.indices.mem_iff, List.mem_map_of_injective g.injective, List.mem_range]

/-- The arena holds each node of the tree in its position. -/
theorem Shows.holds (h : t.Shows u g) {n : Placed} (hn : n ∈ u.nodes) :
    (∃ p, t.arena.Holds p (n.relocate g)) ∧ (n.relocate g).indices.Nodup ∧
      ∀ i ∈ (n.relocate g).indices, i < t.arena.size := by
  have hforest := h.forest
  rw [Tree.nodes] at hn
  cases hroot : u.placed with
  | none => simp [hroot] at hn
  | some root =>
    simp only [hroot, Option.map_some, Option.getD_some, Option.toList_some, List.map_singleton]
      at hn hforest
    have hmem : n.relocate g ∈ (root.relocate g).preorder := by
      rw [Node.relocate, Node.relocate, Node.preorder_map]
      exact List.mem_map_of_mem hn
    have hsublist : (n.relocate g).indices.Sublist (root.relocate g).indices :=
      (Node.preorder_sublist hmem).map _
    exact ⟨(hforest.holds _ (by simp)).of_mem hmem,
      (hforest.nodup_of_mem (by simp)).sublist hsublist,
      fun i hi => hforest.lt_size (by simp) (hsublist.subset hi)⟩

theorem Shows.size_le (h : t.Shows u g) {n : Placed} (hn : n ∈ u.nodes) :
    (n.relocate g).size ≤ t.arena.size := by
  obtain ⟨-, hnodup, hlt⟩ := h.holds hn
  have hsubperm := List.subperm_of_subset hnodup fun i hi => List.mem_range.2 (hlt i hi)
  simpa [Node.length_indices] using hsubperm.length_le

/-- All nodes of the arena belong to the tree. -/
theorem Shows.contains_iff (h : t.Shows u g) (i : Nat) :
    t.contains i = true ↔ i < t.arena.size := by
  have hsome : (t.arena.node? i).isSome = true ↔ i < t.arena.size := by
    simp [Arena.node?, Arena.size]
  rw [contains, Bool.and_eq_true, hsome, and_iff_left_iff_imp]
  intro hi
  have hforest := h.forest
  have hroot := h.root
  cases hplaced : u.placed with
  | none =>
    have hsize := (hplaced ▸ hforest).indices.length_eq
    simp at hsize
    omega
  | some root =>
    rw [hplaced] at hforest hroot
    have hsize : (root.relocate g).size ≤ t.arena.size + 1 := hforest.size_eq.le.trans (by omega)
    have hmet := (hforest.holds (root.relocate g) (by simp)).mem_ancestorsWithin
      (hforest.mem_indices_iff.2 hi) hsize
    rw [Node.tag_relocate] at hmet
    simpa [hroot, Arena.isAncestorOrSelf, Arena.ancestors, @eq_comm _ i] using hmet

theorem Shows.contains_eq (h : t.Shows u g) (id : Nat) : t.contains (g id) = u.contains id := by
  rw [Bool.eq_iff_iff, h.contains_iff, h.lt_size_iff, Tree.contains, decide_eq_true_eq]

/-! ## Parsing -/

theorem parse_shows (file text : String) :
    ∃ g, (parse file text).Shows (NullLint.parse file text).tree g := by
  refine shows_ofFragment ?_
  obtain ⟨-, -, got, hforest, n, rfl, hgreen, hroot⟩ := ArenaParser.plants_compilationUnit
    { ahead := { rest := (Lexer.lex text).1, errors := (Lexer.lex text).2.reverse } } [] rfl
    (by simpa using Arena.forest_empty)
  rw [List.nil_append] at hforest
  exact ⟨some n, congrArg some hroot.symm, congrArg some hgreen, hforest⟩

end ArenaTree

end NullLint
