import NullLint.Proofs.Arena.Editing
import NullLint.Proofs.Arena.Paths

/-!
# Links in derived trees

Every tree that comes from parsed files by edits shows a derived tree that is a value
(`Derived.shows`). So its arena holds no node that is out of reach and none that two nodes share:
the parent of a node is the one node that has it as a child, and from the root one path leads to
each node.
-/

namespace NullLint.ArenaTree

/-- Trees that come from parsed files by edits. -/
inductive Derived : ArenaTree → Prop where
  | parse (file text : String) : Derived (parse file text)
  | extract {t fragment : ArenaTree} {i : Nat} (ht : Derived t)
      (h : t.extract i = some fragment) : Derived fragment
  | replaceMany {t result : ArenaTree} {edits : List (Nat × ArenaTree)} (ht : Derived t)
      (hedits : ∀ e ∈ edits, Derived e.2) (h : t.replaceMany edits = some result) :
      Derived result
  | withTriviaFrom {t source : ArenaTree} (ht : Derived t) (hsource : Derived source) (i : Nat) :
      Derived (t.withTriviaFrom source i)

theorem Derived.replace {t fragment result : ArenaTree} {i : Nat} (ht : Derived t)
    (hfragment : Derived fragment) (h : t.replace i fragment = some result) : Derived result :=
  .replaceMany ht (by simpa using hfragment) h

variable {t : ArenaTree} {u : Tree} {g : Equiv.Perm Nat}

/-- Edits whose fragments show derived trees are the same as some edits with these. -/
theorem exists_sameEdits (g : Equiv.Perm Nat) {edits : List (Nat × ArenaTree)}
    (h : ∀ e ∈ edits, ∃ u g', u.Derived ∧ e.2.Shows u g') :
    ∃ edits', SameEdits g edits edits' ∧ ∀ e ∈ edits', e.2.Derived := by
  induction edits with
  | nil => exact ⟨[], .nil, nofun⟩
  | cons e edits ih =>
    obtain ⟨⟨u, g', hu, hshows⟩, hrest⟩ := List.forall_mem_cons.1 h
    obtain ⟨edits', hsame, hderived⟩ := ih hrest
    refine ⟨(g.symm e.1, u) :: edits', .cons ⟨by simp, g', hshows⟩ hsame, ?_⟩
    exact List.forall_mem_cons.2 ⟨hu, hderived⟩

/-- Every derived tree shows one that is a value. -/
theorem Derived.shows (ht : t.Derived) : ∃ u g, u.Derived ∧ t.Shows u g := by
  induction ht with
  | parse file text =>
    obtain ⟨g, hg⟩ := parse_shows file text
    exact ⟨_, g, .parse file text, hg⟩
  | @extract t fragment i ht h ih =>
    obtain ⟨u, g, hu, hshows⟩ := ih
    have hresult := extract_shows hshows (g.symm i)
    rw [Equiv.apply_symm_apply, h] at hresult
    cases hfragment : u.extract (g.symm i) with
    | none => exact absurd (hfragment ▸ hresult) nofun
    | some fragment' =>
      rw [hfragment, Option.rel_some_some] at hresult
      obtain ⟨g', hg'⟩ := hresult
      exact ⟨fragment', g', hu.extract hfragment, hg'⟩
  | @replaceMany t result edits ht hedits h ih ihedits =>
    obtain ⟨u, g, hu, hshows⟩ := ih
    obtain ⟨edits', hsame, hderived⟩ := exists_sameEdits g ihedits
    have hresult := replaceMany_shows hshows hsame
    rw [h] at hresult
    cases hresult' : u.replaceMany edits' with
    | none => exact absurd (hresult' ▸ hresult) nofun
    | some result' =>
      rw [hresult', Option.rel_some_some] at hresult
      obtain ⟨g', hg'⟩ := hresult
      exact ⟨result', g', hu.replaceMany hderived hresult', hg'⟩
  | @withTriviaFrom t source ht hsource i ih ihsource =>
    obtain ⟨u, g, hu, hshows⟩ := ih
    obtain ⟨v, g', hv, hsourceShows⟩ := ihsource
    obtain ⟨g'', hg''⟩ := withTriviaFrom_shows hshows hsourceShows (g'.symm i)
    rw [Equiv.apply_symm_apply] at hg''
    exact ⟨_, g'', hu.withTriviaOf hv _, hg''⟩

/-! ## Links -/

/-- The nodes of the arena are linked from `r` down. -/
structure Linked (t : ArenaTree) (r : Nat) : Prop where
  root : t.root = some r
  contains : ∀ i, t.contains i = true ↔ i < t.arena.size
  /-- No node is out of reach, and none is reached in two ways. -/
  reached : ∀ i, i < t.arena.size → ∃! path, t.arena.follow r path = some i
  /-- No path leads out of the arena. -/
  inside : ∀ path i, t.arena.follow r path = some i → i < t.arena.size
  parent : ∀ c p, t.arena.parent? c = some p ↔ c ∈ t.arena.children p
  noParent : t.arena.parent? r = none
  /-- Just nodes of token kinds have entries, and they have no children. -/
  leaves : ∀ i n, t.arena.node? i = some n →
    ((t.arena.token? i).isSome = true ↔ n.kind.isToken = true) ∧
      (n.data.isSome = true ↔ n.kind.isToken = true) ∧ (n.kind.isToken = true → n.children = [])
  /-- Each entry belongs to one node. -/
  entries : ∀ d, d < t.arena.tokens.length →
    ∃! i, (t.arena.node? i).bind ArenaNode.data = some d
  /-- The text is that of all tokens in preorder. -/
  text : ∃ is : List Nat, is.Perm (List.range t.arena.size) ∧ is.Pairwise (t.arena.Before r) ∧
    t.text = String.join ((is.filterMap t.arena.token?).map TokenData.fullText)

/-- In a well-formed tree just the tokens have entries, and they have no children. -/
theorem leaf_of_wellFormed {a : Arena} {p : Option Nat} {n : Node Nat} (h : a.Holds p n)
    (hwf : n.WellFormed) :
    ((a.token? n.tag).isSome = true ↔ n.kind.isToken = true) ∧
      (n.token?.isSome = true ↔ n.kind.isToken = true) ∧
      (n.kind.isToken = true → n.children = []) := by
  have hiff : n.token?.isSome = true ↔ n.kind.isToken = true :=
    Option.isSome_iff_exists.trans hwf.token?_iff_isToken
  refine ⟨by rw [h.token?, Option.isSome_map, hiff], hiff, fun hkind => ?_⟩
  cases n with
  | token i t => rfl
  | branch i k cs => exact absurd (hiff.2 hkind) nofun

/-- An arena that is the forest of one well-formed tree is linked from its root down. -/
theorem Shows.linked_of_wellFormed (h : t.Shows u g) {green : Green} (hgreen : u.root = some green)
    (hwf : green.WellFormed) : t.Linked (g green.placed.id) := by
  have hroot : u.placed = some green.placed := by rw [Tree.placed, hgreen]; rfl
  generalize hplaced : green.placed = root at hroot
  have hforest : t.arena.Forest [root.relocate g] := by simpa [hroot] using h.forest
  have hheld := hforest.holds _ (List.mem_singleton_self _)
  have hnodup := hforest.nodup_of_mem (List.mem_singleton_self _)
  have hwf' : (root.relocate g).WellFormed :=
    (Node.wellFormed_map _ _).2 (hplaced ▸ (Node.wellFormed_placed green).2 hwf)
  rw [← Node.tag_relocate (g := g)]
  exact {
    root := by simp [h.root, hroot]
    contains := h.contains_iff
    reached := by
      intro i hi
      obtain ⟨path, hpath⟩ := hheld.exists_follow (hforest.mem_indices_iff.2 hi)
      exact ⟨path, hpath, fun path' hpath' => hheld.follow_unique hnodup hpath' hpath⟩
    inside := fun path i hpath => hforest.mem_indices_iff.1 (hheld.mem_of_follow hpath)
    parent := fun c p => hforest.parent?_eq_some_iff
    noParent := hheld.parent?
    leaves := by
      intro i m hm
      obtain ⟨n, hn, rfl⟩ := hforest.exists_node (Arena.lt_size_of_node? hm)
      obtain ⟨p, hn'⟩ := hheld.of_mem hn
      obtain ⟨htoken, hdata, hchildren⟩ := leaf_of_wellFormed hn' (hwf'.of_mem hn)
      obtain ⟨d, hnode, hd⟩ := hn'.node?
      obtain rfl := Option.some.inj (hnode.symm.trans hm)
      exact ⟨htoken, by rw [hd, hdata], fun hkind => by simp [hchildren hkind]⟩
    entries := fun d hd => hforest.existsUnique_entry hd
    text := by
      refine ⟨(root.relocate g).indices, ?_, hheld.pairwise_before hnodup, ?_⟩
      · simpa using hforest.indices
      · have htokens : (root.relocate g).tokens = green.tokens := by
          rw [Node.relocate, Node.tokens_map, ← hplaced, Node.tokens_placed]
        rw [hheld.filterMap_token?, htokens, List.map_map, h.text, Tree.text, hgreen]
        rfl }

/-- The arena of a derived tree holds this tree and nothing else. From the root one path leads to
each position, so that no node is an orphan and none is shared; a node is the parent of just its
children, and the root has none. Just the nodes with kinds of tokens have entries, each its own, and
the tokens spell the text in preorder. -/
theorem Derived.linked (ht : t.Derived) : ∃ r, t.Linked r := by
  obtain ⟨u, g, hu, hshows⟩ := ht.shows
  obtain ⟨green, hgreen, hwf⟩ := hu.root
  exact ⟨_, hshows.linked_of_wellFormed hgreen hwf⟩

/-- In `a!.b(;`, where an argument and a parenthesis are missing, `a!` is replaced by its operand
with the trivia of `a!`; then the parent of the name `a` is the access. -/
theorem linked_operand :
    let t := parse "" "a!.b(;"
    ∃ u r, ((t.extract 1).bind fun operand => t.replace 3 (operand.withTriviaFrom t 3)) = some u ∧
      u.Linked r ∧ u.text = "a.b(;" ∧ u.arena.parent? 1 = some 5 ∧ 1 ∈ u.arena.children 5 := by
  intro t
  have hparts : (((t.extract 1).bind fun operand =>
      t.replace 3 (operand.withTriviaFrom t 3)).map fun u => (u.text, u.arena.parent? 1)) =
      some ("a.b(;", some 5) := by decide +kernel
  obtain ⟨u, hu, hparts⟩ := Option.map_eq_some_iff.1 hparts
  obtain ⟨htext, hparent⟩ := Prod.mk.inj hparts
  obtain ⟨operand, hoperand, hreplace⟩ := Option.bind_eq_some_iff.1 hu
  have ht : t.Derived := .parse "" "a!.b(;"
  have hfragment := (ht.extract hoperand).withTriviaFrom ht 3
  obtain ⟨r, hlinked⟩ := (ht.replace hfragment hreplace).linked
  exact ⟨u, r, hu, hlinked, htext, hparent, (hlinked.parent 1 5).1 hparent⟩

end NullLint.ArenaTree
