import NullLint.Proofs.Arena.Showing

/-!
# Edits of trees in arenas

Edits in arenas and edits of values go in step: where the trees show the values, and the positions
of the targets are those of their numbers, the results show the values that the same edits give, or
there is no result on either side.
-/

namespace NullLint.ArenaTree

variable {t source : ArenaTree} {u v : Tree} {g g' : Equiv.Perm Nat}

/-! ## Copies -/

/-- A copy of a node is the forest of what it is rebuilt to. -/
theorem Shows.copySubtree (h : t.Shows u g) {σ : Arena.Substitutes} {τ : Tree.Substitution}
    (hσ : σ.Show g τ) {n : Placed} (hn : n ∈ u.nodes) :
    (Arena.copySubtree σ t.arena (some (g n.id))).Shows (Tree.rebuild τ [] n).head? := by
  obtain ⟨⟨p, hheld⟩, hnodup, hlt⟩ := h.holds hn
  exact Arena.copySubtree_shows hσ hheld hnodup hlt

/-- A subtree is copied as it is. -/
theorem extract_shows (h : t.Shows u g) (id : Nat) :
    Option.Rel (fun t' u' => ∃ g', t'.Shows u' g') (t.extract (g id)) (u.extract id) := by
  rw [extract, h.contains_eq, Tree.contains, Tree.extract]
  cases hn : u.node? id with
  | none =>
    have hsize : ¬id < u.size := by simpa [Tree.node?, Tree.size] using hn
    simp [hsize]
  | some n =>
    obtain ⟨hmem, rfl⟩ := Tree.node?_eq_some_iff.1 hn
    have hsize : n.id < u.size := Tree.lt_size_iff.2 ⟨n, hmem, rfl⟩
    simp only [hsize, decide_true, if_true, Option.map_some, Option.rel_some_some]
    have hcopy := h.copySubtree (σ := fun _ => none) (τ := fun _ => none) (fun _ => .none) hmem
    have hsame : Tree.rebuild (fun _ => none) [] n = [n.erase] := by
      have hrebuild := Tree.rebuild_eq (fun _ => none) [] n
      rwa [Node.substitute_self n (by simp)] at hrebuild
    rw [hsame] at hcopy
    rw [h.file]
    exact shows_ofFragment hcopy

/-- The same edits: of a position and of the number of its node, with a fragment and the value that
it shows. -/
def SameEdits (g : Equiv.Perm Nat) (edits : List (Nat × ArenaTree)) (edits' : List (Nat × Tree)) :
    Prop :=
  List.Forall₂ (fun e e' => e.1 = g e'.1 ∧ ∃ g', e.2.Shows e'.2 g') edits edits'

variable {edits : List (Nat × ArenaTree)} {edits' : List (Nat × Tree)}

/-- The last edit of a node is the same one. -/
theorem SameEdits.show (h : SameEdits g edits edits') :
    (substitutes edits).Show g (Tree.substitution edits') := by
  intro id
  have hreverse := List.forall₂_reverse_iff.2 h
  simp only [substitutes, Tree.substitution]
  generalize edits.reverse = es at hreverse ⊢
  generalize edits'.reverse = es' at hreverse ⊢
  induction hreverse with
  | nil => exact .none
  | @cons e e' es es' he _ ih =>
    obtain ⟨htarget, g', hshows⟩ := he
    by_cases hid : e'.1 = id
    · have hposition : e.1 = g id := htarget.trans (congrArg g hid)
      simpa [hid, hposition] using hshows.fragment
    · have hposition : e.1 ≠ g id := fun heq => hid (g.injective (htarget.symm.trans heq))
      simpa [hid, hposition] using ih

theorem SameEdits.all_contains (h : SameEdits g edits edits') (ht : t.Shows u g) :
    (edits.all fun e => t.contains e.1) = edits'.all fun e => decide (e.1 < u.size) := by
  induction h with
  | nil => rfl
  | @cons e e' es es' he _ ih =>
    rw [List.all_cons, List.all_cons, ih, he.1, ht.contains_eq, Tree.contains]

/-- A tree with nothing in it gives a copy with nothing in it. -/
theorem copySubtree_none {σ : Arena.Substitutes} {a : Arena} (h : a.size = 0) :
    (Arena.copySubtree σ a none).Shows none := by
  refine ⟨none, ?_, rfl, ?_⟩
  · simp [Arena.copySubtree, Arena.roundsOf, h, Arena.CopyState.run]
  · simpa [Arena.copySubtree, Arena.roundsOf, h, Arena.CopyState.run] using Arena.forest_empty

/-- The same edits have both results or none, and the results show the same. -/
theorem replaceMany_shows (h : t.Shows u g) (hedits : SameEdits g edits edits') :
    Option.Rel (fun t' u' => ∃ g', t'.Shows u' g') (t.replaceMany edits)
      (u.replaceMany edits') := by
  rw [replaceMany, Tree.replaceMany, hedits.all_contains h]
  split
  · rw [Option.rel_some_some, h.file]
    refine shows_ofFragment ?_
    rw [h.root]
    cases hroot : u.placed with
    | none =>
      refine copySubtree_none ?_
      rw [h.size_eq, Tree.size, Tree.nodes, hroot]
      rfl
    | some root =>
      refine h.copySubtree hedits.show ?_
      rw [Tree.nodes_of_placed hroot]
      exact root.self_mem_preorder
  · exact .none

/-! ## Outer trivia -/

theorem Shows.node?_eq_none (h : t.Shows u g) {id : Nat} (hid : u.node? id = none) :
    t.arena.node? (g id) = none := by
  have hsize : ¬id < u.size := by simpa [Tree.node?, Tree.size] using hid
  rw [← h.lt_size_iff] at hsize
  simpa [Arena.node?, Arena.size] using hsize

/-- The first token below a node, or none where there is no node. -/
theorem Shows.firstToken (h : t.Shows u g) (id : Nat) :
    (t.arena.firstToken (g id)).bind t.arena.token? =
      (((u.node? id).bind Node.firstLeaf?).bind Node.token?).map Token.data := by
  cases hn : u.node? id with
  | none => rw [Arena.firstToken_eq_none (h.node?_eq_none hn)]; rfl
  | some n =>
    obtain ⟨hmem, rfl⟩ := Tree.node?_eq_some_iff.1 hn
    obtain ⟨p, hheld⟩ := (h.holds hmem).1
    rw [← Node.tag_relocate (g := g), hheld.firstToken (h.size_le hmem),
      hheld.token?_of_mem fun l hl => Node.mem_preorder_of_firstLeaf? hl]
    exact congrArg _ (Node.firstLeaf?_map _ n)

theorem Shows.lastToken (h : t.Shows u g) (id : Nat) :
    (t.arena.lastToken (g id)).bind t.arena.token? =
      (((u.node? id).bind Node.lastLeaf?).bind Node.token?).map Token.data := by
  cases hn : u.node? id with
  | none => rw [Arena.lastToken_eq_none (h.node?_eq_none hn)]; rfl
  | some n =>
    obtain ⟨hmem, rfl⟩ := Tree.node?_eq_some_iff.1 hn
    obtain ⟨p, hheld⟩ := (h.holds hmem).1
    rw [← Node.tag_relocate (g := g), hheld.lastToken (h.size_le hmem),
      hheld.token?_of_mem fun l hl => Node.mem_preorder_of_lastLeaf? hl]
    exact congrArg _ (Node.lastToken?_map _ n)

theorem withTriviaFrom_shows (h : t.Shows u g) (hsource : source.Shows v g') (id : Nat) :
    ∃ g'', (t.withTriviaFrom source (g' id)).Shows (u.withTriviaOf (v.node? id)) g'' := by
  rw [withTriviaFrom, Tree.withTriviaOf, h.file]
  refine shows_ofFragment ?_
  rw [hsource.firstToken, hsource.lastToken, Option.map_map, Option.map_map]
  have hforest := h.forest
  cases hplaced : u.placed with
  | none =>
    have hroot : u.root = none := by simpa [Tree.placed] using hplaced
    rw [hplaced] at hforest
    rw [h.root, hplaced, hroot]
    exact ⟨none, rfl, rfl, hforest⟩
  | some root =>
    have hroot : u.root = some root.erase := by
      obtain ⟨green, hgreen, rfl⟩ := Option.map_eq_some_iff.1 hplaced
      rw [hgreen, Node.erase_placed]
    rw [hplaced] at hforest
    obtain ⟨m, hm, htag, herase⟩ := Arena.Forest.outerTrivia (n := root.relocate g) hforest _ _
    rw [Node.tag_relocate] at hm htag
    rw [Node.erase_relocate] at herase
    rw [h.root, hplaced, hroot]
    exact ⟨some m, congrArg some htag.symm, congrArg some herase, hm⟩

end NullLint.ArenaTree
