import NullLint.Proofs.Syntax.Derivation

/-!
# Outlines and shapes

An outline lists the nodes of a tree in preorder, each with its kind, its text and the number of its
children. The numbers tell where the outline of each child ends, so trees with one outline have one
shape: they are equal as ordered trees labelled by kinds and by the texts of tokens
(`shape_eq_iff`). Trivia count neither for the outline nor for the shape; a tree is told by its shape
and its tokens (`eq_of_shape_eq`).
-/

namespace NullLint

/-- An ordered tree labelled by kinds, and by texts where tokens stand. -/
inductive Shape where
  | node (kind : Kind) (text : Option String) (children : List Shape)

/-- No branch has the kind of a token. -/
theorem Token.WellFormed.kind_ne {t : Token} {k : Kind} (ht : t.WellFormed)
    (hk : k.isNode = true) : t.kind ≠ k := by
  rintro rfl
  simpa [Kind.isToken, hk] using ht.isToken

namespace Node

variable {α : Type}

mutual

/-- The tree with kinds and texts of tokens for labels. -/
def shape : Node α → Shape
  | .token _ t => .node t.kind (some t.text) []
  | .branch _ k cs => .node k none (shapeAll cs)

/-- The shapes of a list of nodes. -/
def shapeAll : List (Node α) → List Shape
  | [] => []
  | c :: cs => shape c :: shapeAll cs

end

theorem shapeAll_eq_map (cs : List (Node α)) : shapeAll cs = cs.map shape := by
  induction cs with
  | nil => rfl
  | cons c cs ih => simp [shapeAll, ih]

@[simp] theorem shape_token (a : α) (t : Token) :
    (token a t).shape = .node t.kind (some t.text) [] := rfl

@[simp] theorem shape_branch (a : α) (k : Kind) (cs : List (Node α)) :
    (branch a k cs).shape = .node k none (cs.map shape) := by
  rw [shape, shapeAll_eq_map]

@[simp] theorem outline_token (a : α) (t : Token) :
    (token a t).outline = [(t.kind, 0, t.text)] := rfl

theorem outline_branch (a : α) (k : Kind) (cs : List (Node α)) :
    (branch a k cs).outline = (k, cs.length, "") :: cs.flatMap outline := by
  simp only [outline, preorder_branch, List.map_cons, List.map_flatMap]
  rfl

/-! ## Outlines tell shapes -/

/-- The outline tells the shape of the node and where the outline ends. -/
def Decodes (m : Node α) : Prop :=
  ∀ {n : Node α} {r r' : List (Kind × Nat × String)}, n.WellFormed →
    m.outline ++ r = n.outline ++ r' → m.shape = n.shape ∧ r = r'

theorem shapes_of_outlines {cs ds : List (Node α)} (hcs : ∀ c ∈ cs, Decodes c)
    (hds : ∀ d ∈ ds, d.WellFormed) (hlength : cs.length = ds.length)
    {r r' : List (Kind × Nat × String)}
    (houtlines : cs.flatMap outline ++ r = ds.flatMap outline ++ r') :
    cs.map shape = ds.map shape ∧ r = r' := by
  induction cs generalizing ds with
  | nil =>
    obtain rfl : ds = [] := List.length_eq_zero_iff.1 hlength.symm
    exact ⟨rfl, houtlines⟩
  | cons c cs ih =>
    cases ds with
    | nil => cases hlength
    | cons d ds =>
      rw [List.flatMap_cons, List.flatMap_cons, List.append_assoc, List.append_assoc]
        at houtlines
      obtain ⟨hshape, hothers⟩ := hcs c (by simp) (hds d (by simp)) houtlines
      obtain ⟨hshapes, hr⟩ := ih (fun e he => hcs e (by simp [he]))
        (fun e he => hds e (by simp [he])) (by simpa using hlength) hothers
      exact ⟨by rw [List.map_cons, List.map_cons, hshape, hshapes], hr⟩

theorem WellFormed.decodes {m : Node α} (hm : m.WellFormed) : Decodes m := by
  induction hm with
  | @token a t ht =>
    intro n r r' hn houtline
    cases hn with
    | @token b u _ =>
      obtain ⟨hlabel, hr⟩ := List.cons.inj houtline
      obtain ⟨hkind, htext⟩ : t.kind = u.kind ∧ t.text = u.text := by
        simpa [label, leafText] using hlabel
      exact ⟨by rw [shape_token, shape_token, hkind, htext], hr⟩
    | branch hk _ =>
      rw [outline_branch] at houtline
      obtain ⟨hlabel, -⟩ := List.cons.inj houtline
      exact absurd (congrArg Prod.fst hlabel) (ht.kind_ne hk)
  | @branch a k cs hk hcs ih =>
    intro n r r' hn houtline
    rw [outline_branch] at houtline
    cases hn with
    | token hu =>
      obtain ⟨hlabel, -⟩ := List.cons.inj houtline
      exact absurd (congrArg Prod.fst hlabel).symm (hu.kind_ne hk)
    | @branch b l ds _ hds =>
      rw [outline_branch] at houtline
      obtain ⟨hlabel, houtlines⟩ := List.cons.inj houtline
      obtain ⟨rfl, hlength⟩ : k = l ∧ cs.length = ds.length := by simpa using hlabel
      obtain ⟨hshapes, hr⟩ := shapes_of_outlines ih hds hlength houtlines
      exact ⟨by rw [shape_branch, shape_branch, hshapes], hr⟩

theorem outlines_of_shapes {cs ds : List (Node α)}
    (hcs : ∀ c ∈ cs, ∀ {d : Node α}, c.shape = d.shape → c.outline = d.outline)
    (hshapes : cs.map shape = ds.map shape) : cs.map outline = ds.map outline := by
  induction cs generalizing ds with
  | nil =>
    obtain rfl : ds = [] := List.map_eq_nil_iff.1 hshapes.symm
    rfl
  | cons c cs ih =>
    obtain ⟨d, ds, rfl, hshape, hshapes⟩ := List.map_eq_cons_iff.1 hshapes.symm
    rw [List.map_cons, List.map_cons, hcs c (by simp) hshape.symm,
      ih (fun e he => hcs e (by simp [he])) hshapes.symm]

/-- Nodes of one shape have one outline. -/
theorem outline_eq_of_shape_eq {m n : Node α} (h : m.shape = n.shape) : m.outline = n.outline := by
  induction m generalizing n with
  | token a t =>
    cases n with
    | token b u =>
      obtain ⟨hkind, htext⟩ : t.kind = u.kind ∧ t.text = u.text := by simpa using h
      rw [outline_token, outline_token, hkind, htext]
    | branch b l ds => simp at h
  | branch a k cs ih =>
    cases n with
    | token b u => simp at h
    | branch b l ds =>
      obtain ⟨rfl, hshapes⟩ : k = l ∧ cs.map shape = ds.map shape := by simpa using h
      have houtlines := outlines_of_shapes ih hshapes
      have hlength : cs.length = ds.length := by simpa using congrArg List.length houtlines
      rw [outline_branch, outline_branch, hlength, List.flatMap_def, houtlines,
        List.flatMap_def]

/-- Well-formed nodes have one outline just if they have one shape. -/
theorem shape_eq_iff {m n : Node α} (hm : m.WellFormed) (hn : n.WellFormed) :
    m.outline = n.outline ↔ m.shape = n.shape := by
  constructor
  · intro houtline
    exact (hm.decodes hn (congrArg (· ++ []) houtline)).1
  · exact outline_eq_of_shape_eq

/-! ## Shapes and tokens tell trees -/

/-- The outline of a well-formed node shows kinds and texts of its tokens. -/
theorem tokens_of_outline {n : Node α} (h : n.WellFormed) :
    n.tokens.map (fun t => (t.kind, t.text)) =
      (n.outline.filter fun l => l.1.isToken).map fun l => (l.1, l.2.2) := by
  induction n with
  | token a t =>
    have htoken := (wellFormed_token.1 h).isToken
    simp [htoken]
  | branch a k cs ih =>
    obtain ⟨hk, hcs⟩ := wellFormed_branch.1 h
    have hnode : k.isToken = false := by simp [Kind.isToken, hk]
    rw [tokens_branch, outline_branch, List.filter_cons_of_neg (by simp [hnode]),
      List.filter_flatMap, List.map_flatMap, List.map_flatMap]
    exact List.flatMap_congr fun c hc => ih c hc (hcs c hc)

theorem length_tokens_of_shape_eq {m n : Node α} (hm : m.WellFormed) (hn : n.WellFormed)
    (h : m.shape = n.shape) : m.tokens.length = n.tokens.length := by
  have htokens := tokens_of_outline hm
  rw [outline_eq_of_shape_eq h, ← tokens_of_outline hn] at htokens
  simpa using congrArg List.length htokens

theorem eq_of_shapes_eq {cs ds : List Green} (hcs : ∀ c ∈ cs, c.WellFormed)
    (hds : ∀ d ∈ ds, d.WellFormed)
    (heq : ∀ c ∈ cs, ∀ {d : Green}, c.WellFormed → d.WellFormed → c.shape = d.shape →
      c.tokens = d.tokens → c = d)
    (hshapes : cs.map shape = ds.map shape)
    (htokens : cs.flatMap tokens = ds.flatMap tokens) : cs = ds := by
  induction cs generalizing ds with
  | nil => exact (List.map_eq_nil_iff.1 hshapes.symm).symm
  | cons c cs ih =>
    obtain ⟨d, ds, rfl, hshape, hshapes⟩ := List.map_eq_cons_iff.1 hshapes.symm
    obtain ⟨hc, hcs⟩ := List.forall_mem_cons.1 hcs
    obtain ⟨hd, hds⟩ := List.forall_mem_cons.1 hds
    have hlength := length_tokens_of_shape_eq hc hd hshape.symm
    obtain ⟨hfirst, hothers⟩ := List.append_inj htokens hlength
    rw [heq c (by simp) hc hd hshape.symm hfirst,
      ih hcs hds (fun e he => heq e (by simp [he])) hshapes.symm hothers]

theorem eq_of_shape_eq {m n : Green} (hm : m.WellFormed) (hn : n.WellFormed)
    (hshape : m.shape = n.shape) (htokens : m.tokens = n.tokens) : m = n := by
  induction m using Node.induction generalizing n with
  | token a t =>
    cases n with
    | token b u => simpa using htokens
    | branch b l ds => simp at hshape
  | branch a k cs ih =>
    cases n with
    | token b u => simp at hshape
    | branch b l ds =>
      obtain ⟨rfl, hshapes⟩ : k = l ∧ cs.map shape = ds.map shape := by simpa using hshape
      rw [tokens_branch, tokens_branch] at htokens
      rw [eq_of_shapes_eq (wellFormed_branch.1 hm).2 (wellFormed_branch.1 hn).2 ih hshapes htokens]

theorem eq_of_outline_eq {m n : Green} (hm : m.WellFormed) (hn : n.WellFormed)
    (houtline : m.outline = n.outline) (htokens : m.tokens = n.tokens) : m = n :=
  eq_of_shape_eq hm hn ((shape_eq_iff hm hn).1 houtline) htokens

end Node

namespace Tree

variable {f : Token → Token}

/-! ## Outer trivia -/

/-- The outline does not depend on the trivia of the first token. -/
theorem outline_updateFirst (hf : KeepsText f) (n : Green) :
    (updateFirst f n).outline = n.outline := by
  fun_induction updateFirst f n with
  | case1 a t =>
    obtain ⟨hkind, htext⟩ := hf t
    rw [Node.outline_token, Node.outline_token, hkind, htext]
  | case2 a k => rfl
  | case3 a k c cs ih =>
    rw [Node.outline_branch, Node.outline_branch, List.flatMap_cons, List.flatMap_cons, ih]
    rfl

mutual

/-- The outline does not depend on the trivia of the last token. -/
theorem outline_updateLast (hf : KeepsText f) (n : Green) :
    (updateLast f n).outline = n.outline := by
  cases n with
  | token a t =>
    obtain ⟨hkind, htext⟩ := hf t
    rw [updateLast, Node.outline_token, Node.outline_token, hkind, htext]
  | branch a k cs =>
    have houtlines := outlines_updateLastIn hf cs
    have hlength : (updateLastIn f cs).length = cs.length := by
      simpa using congrArg List.length houtlines
    rw [updateLast, Node.outline_branch, Node.outline_branch, hlength,
      List.flatMap_def, houtlines, List.flatMap_def]

theorem outlines_updateLastIn (hf : KeepsText f) (cs : List Green) :
    (updateLastIn f cs).map Node.outline = cs.map Node.outline := by
  match cs with
  | [] => rfl
  | [c] => rw [updateLastIn, List.map_singleton, List.map_singleton, outline_updateLast hf c]
  | c :: d :: cs =>
    rw [updateLastIn, List.map_cons, List.map_cons, outlines_updateLastIn hf (d :: cs)]

end

/-- The outline of the root; there is none without a root. -/
def outline (t : Tree) : List (Kind × Nat × String) := (t.root.map Node.outline).getD []

theorem sameAs_eq_true_iff {t u : Tree} : t.sameAs u = true ↔ t.outline = u.outline := by
  rw [sameAs, beq_iff_eq]
  rfl

theorem sameAs_iff {t u : Tree} {g g' : Green} (ht : t.root = some g) (hu : u.root = some g') :
    t.sameAs u = true ↔ g.outline = g'.outline := by
  rw [sameAs_eq_true_iff, outline, outline, ht, hu]
  rfl

theorem outline_withTriviaOf (t : Tree) (node : Option Placed) :
    (t.withTriviaOf node).outline = t.outline := by
  obtain ⟨file, root⟩ := t
  cases root with
  | none => rfl
  | some root =>
    have hlast := outline_updateLast (f := fun token =>
      { token with trailing := (((node.bind (·.lastLeaf?)).bind (·.token?)).map
        Token.trailing).getD [] }) (fun _ => ⟨rfl, rfl⟩)
    have hfirst := outline_updateFirst (f := fun token =>
      { token with leading := (((node.bind (·.firstLeaf?)).bind (·.token?)).map
        Token.leading).getD [] }) (fun _ => ⟨rfl, rfl⟩) root
    exact (hlast _).trans hfirst

/-- Two trees made by parsing and editing count as the same just if they are equal as ordered trees
labelled by kinds and token texts. To count as the same is an equivalence, and taking over the outer
trivia of any node changes nothing on either side. -/
theorem sameAs_decides_shape {t u : Tree} (ht : t.Derived) (hu : u.Derived) :
    (t.sameAs u = true ↔ t.root.map Node.shape = u.root.map Node.shape) ∧
      Equivalence (fun v w : Tree => v.sameAs w = true) ∧
      ∀ node, (t.withTriviaOf node).sameAs u = t.sameAs u ∧
        t.sameAs (u.withTriviaOf node) = t.sameAs u := by
  obtain ⟨root, hroot, hwf⟩ := ht.root
  obtain ⟨root', hroot', hwf'⟩ := hu.root
  refine ⟨?_, ?_, fun node => ⟨?_, ?_⟩⟩
  · rw [sameAs_iff hroot hroot', Node.shape_eq_iff hwf hwf', hroot, hroot']
    simp
  · constructor
    · intro v
      exact sameAs_eq_true_iff.2 rfl
    · intro v w hvw
      exact sameAs_eq_true_iff.2 (sameAs_eq_true_iff.1 hvw).symm
    · intro v w x hvw hwx
      exact sameAs_eq_true_iff.2 ((sameAs_eq_true_iff.1 hvw).trans (sameAs_eq_true_iff.1 hwx))
  · rw [Bool.eq_iff_iff, sameAs_eq_true_iff, sameAs_eq_true_iff, outline_withTriviaOf]
  · rw [Bool.eq_iff_iff, sameAs_eq_true_iff, sameAs_eq_true_iff, outline_withTriviaOf]

/-- The text of a comment does not count, but a second mark does. -/
theorem sameAs_decides_shape_comment :
    let t := (parse "" "a!;").tree
    let u := (parse "" " a /* b */ ! ;").tree
    let v := (parse "" "a!!;").tree
    t.root.map Node.shape = u.root.map Node.shape ∧
      t.root.map Node.shape ≠ v.root.map Node.shape := by
  intro t u v
  obtain ⟨hsame, -, -⟩ := sameAs_decides_shape (.parse "" "a!;") (.parse "" " a /* b */ ! ;")
  obtain ⟨hother, -, -⟩ := sameAs_decides_shape (.parse "" "a!;") (.parse "" "a!!;")
  constructor
  · exact hsame.1 (by decide +kernel)
  · intro hshape
    have hdiffer : t.sameAs v = false := by decide +kernel
    rw [hother.2 hshape] at hdiffer
    cases hdiffer

end Tree

end NullLint
