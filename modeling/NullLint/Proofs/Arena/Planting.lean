import NullLint.Arena.Parser.Basic
import NullLint.Proofs.Arena.Forest

/-!
# Parsers in step

A parser that fills an arena goes in step with one that gives trees if it reads the same, leaves the
depth as it was, and turns the trees that it was handed into those that the other one gives
(`Plants`): the arena stays a forest of the trees that it was not handed and of these. So no node
that it makes is lost, and none is used twice.
-/

namespace NullLint.ArenaParser

variable {α β γ δ : Type}

/-- `q` reads what `p` reads and makes the nodes that `p` gives. It takes the last trees of a
forest, `held`, and leaves others in their place, of which `post` tells together with the
results. -/
def Plants (p : Parser β) (q : ArenaParser α) (d : Nat) (held : List (Node Nat))
    (post : List (Node Nat) → β → α → Prop) : Prop :=
  ∀ (s : ArenaState) (others : List (Node Nat)), s.depth = d → s.arena.Forest (others ++ held) →
    (q s).2.ahead = (p s.ahead).2 ∧ (q s).2.depth = d ∧
      ∃ got, (q s).2.arena.Forest (others ++ got) ∧ post got (p s.ahead).1 (q s).1

/-- One tree, which stands where the position says. -/
def IsNode (got : List (Node Nat)) (g : Green) (i : Nat) : Prop :=
  ∃ n, got = [n] ∧ n.erase = g ∧ n.tag = i

/-- Some trees, which stand where the positions say. -/
def AreNodes (got : List (Node Nat)) (gs : List Green) (is : List Nat) : Prop :=
  got.map Node.erase = gs ∧ got.map Node.tag = is

variable {p : Parser β} {q : ArenaParser α} {f : β → Parser δ} {g : α → ArenaParser γ} {d : Nat}
  {held kept ns : List (Node Nat)} {post : List (Node Nat) → β → α → Prop}
  {post' : List (Node Nat) → δ → γ → Prop}

theorem plants_pure {b : β} {a : α} (h : post held b a) : Plants (pure b) (pure a) d held post :=
  fun _ _ hd hforest => ⟨rfl, hd, held, hforest, h⟩

theorem plants_nil : Plants (pure []) (pure []) d [] AreNodes := plants_pure ⟨rfl, rfl⟩

/-- In a sequence, the trees that the first part is not handed wait for the second one. -/
theorem Plants.bind (kept : List (Node Nat)) (h : Plants p q d held post)
    (h' : ∀ got b a, post got b a → Plants (f b) (g a) d (kept ++ got) post') :
    Plants (p >>= f) (q >>= g) d (kept ++ held) post' := by
  intro s others hd hforest
  rw [← List.append_assoc] at hforest
  obtain ⟨hahead, hdepth, got, hgot, hpost⟩ := h s (others ++ kept) hd hforest
  rw [List.append_assoc] at hgot
  have hnext := h' got _ _ hpost (q s).2 others hdepth hgot
  rw [hahead] at hnext
  exact hnext

theorem Plants.then (h : Plants p q d [] post)
    (h' : ∀ got b a, post got b a → Plants (f b) (g a) d (kept ++ got) post') :
    Plants (p >>= f) (q >>= g) d kept post' := by
  simpa using h.bind kept h'

/-- Behind a part that makes one node of the trees that it is handed. -/
theorem Plants.nodeOf {p : Parser Green} {q : ArenaParser Nat} {f : Green → Parser δ}
    {g : Nat → ArenaParser γ} (kept : List (Node Nat)) (h : Plants p q d held IsNode)
    (h' : ∀ n : Node Nat, Plants (f n.erase) (g n.tag) d (kept ++ [n]) post') :
    Plants (p >>= f) (q >>= g) d (kept ++ held) post' := by
  refine h.bind kept ?_
  rintro _ _ _ ⟨n, rfl, rfl, rfl⟩
  exact h' n

/-- Behind a part that makes one node. -/
theorem Plants.node {p : Parser Green} {q : ArenaParser Nat} {f : Green → Parser δ}
    {g : Nat → ArenaParser γ} (h : Plants p q d [] IsNode)
    (h' : ∀ n : Node Nat, Plants (f n.erase) (g n.tag) d (kept ++ [n]) post') :
    Plants (p >>= f) (q >>= g) d kept post' := by
  simpa using h.nodeOf kept h'

/-- Behind a part that makes some nodes. -/
theorem Plants.nodes {p : Parser (List Green)} {q : ArenaParser (List Nat)}
    {f : List Green → Parser δ} {g : List Nat → ArenaParser γ} (h : Plants p q d [] AreNodes)
    (h' : ∀ ns : List (Node Nat),
      Plants (f (ns.map Node.erase)) (g (ns.map Node.tag)) d (kept ++ ns) post') :
    Plants (p >>= f) (q >>= g) d kept post' := by
  refine h.then ?_
  rintro ns _ _ ⟨rfl, rfl⟩
  exact h' ns

/-- Behind a part that makes no nodes. -/
theorem Plants.lift {f : β → Parser δ} {g : β → ArenaParser γ} (p : Parser β)
    (h : ∀ b, Plants (f b) (g b) d kept post') :
    Plants (p >>= f) (lift p >>= g) d kept post' := by
  intro s others hd hforest
  exact h (p s.ahead).1 { s with ahead := (p s.ahead).2 } others hd hforest

theorem Plants.ite {c : Prop} [Decidable c] {p' : Parser β} {q' : ArenaParser α}
    (h : c → Plants p q d held post) (h' : ¬c → Plants p' q' d held post) :
    Plants (if c then p else p') (if c then q else q') d held post := by
  split
  · exact h ‹c›
  · exact h' ‹¬c›

/-! ## Nodes -/

theorem plants_leaf (t : Token) : Plants (pure (.leaf t)) (leaf t) d [] IsNode := by
  intro s others hd hforest
  rw [List.append_nil] at hforest
  exact ⟨rfl, hd, [.token s.arena.size t], hforest.addToken t, _, rfl, rfl, rfl⟩

/-- A branch takes the last trees together. -/
theorem Plants.group (kept : List (Node Nat)) {k : Kind} {is : List Nat} {p : Parser δ}
    {g : Nat → ArenaParser γ} (his : ns.map Node.tag = is)
    (h : ∀ i, Plants p (g i) d (kept ++ [.branch i k ns]) post') :
    Plants p (group k is >>= g) d (kept ++ ns) post' := by
  subst his
  intro s others hd hforest
  rw [← List.append_assoc] at hforest
  have hgrown := hforest.addNode k
  rw [List.append_assoc] at hgrown
  exact h s.arena.size { s with arena := (s.arena.addNode k (ns.map Node.tag)).2 } others hd hgrown

theorem plants_group {k : Kind} {gs : List Green} {is : List Nat} (hgs : held.map Node.erase = gs)
    (his : held.map Node.tag = is) :
    Plants (pure (.group k gs)) (ArenaParser.group k is) d held IsNode := by
  subst hgs his
  intro s others hd hforest
  refine ⟨rfl, hd, [.branch s.arena.size k held], hforest.addNode k, _, rfl, ?_, rfl⟩
  exact Node.erase_branch _ _ _

theorem plants_advance : Plants Parser.advance advance d [] IsNode := by
  intro s others hd hforest
  unfold Parser.advance advance
  cases s.ahead.rest with
  | nil => exact plants_leaf _ s others hd hforest
  | cons l rest => exact plants_leaf l.token { s with ahead := _ } others hd hforest

theorem plants_expect (k : Kind) : Plants (Parser.expect k) (expect k) d [] IsNode := by
  intro s others hd hforest
  unfold Parser.expect expect
  split
  · exact plants_advance s others hd hforest
  · exact plants_leaf (.absent k) { s with ahead := _ } others hd hforest

theorem plants_accept (k : Kind) : Plants (Parser.accept k) (accept k) d [] AreNodes := by
  intro s others hd hforest
  unfold Parser.accept accept
  split
  · obtain ⟨hahead, hdepth, got, hgot, n, rfl, hn, hi⟩ := plants_advance s others hd hforest
    exact ⟨hahead, hdepth, [n], hgot, congrArg (fun g => [g]) hn, congrArg (fun i => [i]) hi⟩
  · exact ⟨rfl, hd, [], hforest, rfl, rfl⟩

theorem plants_skip (code : ErrorCode) : Plants (Parser.skip code) (skip code) d [] IsNode := by
  refine Plants.lift _ fun _ => ?_
  refine plants_advance.node fun n => ?_
  exact plants_group (by simp) (by simp)

/-! ## Depth -/

theorem Plants.deeper (h : Plants p q (d + 1) held post) : Plants p (deeper q) d held post := by
  intro s others hd hforest
  obtain ⟨hahead, hdepth, hgot⟩ := h { s with depth := s.depth + 1 } others (by simp [hd]) hforest
  exact ⟨hahead, (congrArg (· - 1) hdepth).trans (Nat.add_sub_cancel d 1), hgot⟩

/-- What runs one level deeper is decided by the counter. -/
theorem nesting_eq (recover inside : ArenaParser Nat) {s : ArenaState} (hd : s.depth = d) :
    nesting recover inside s =
      ArenaParser.deeper (if d + 1 ≤ maxParseDepth then inside else recover) s := by
  subst hd
  by_cases h : s.depth + 1 ≤ maxParseDepth
  · simp [nesting, ArenaParser.deeper, enter, bind, StateT.bind, h]
  · simp [nesting, ArenaParser.deeper, enter, bind, StateT.bind, h]

theorem plants_nesting {p : Parser Green} {recover inside : ArenaParser Nat}
    (hd : d + 1 ≤ maxParseDepth) (h : Plants p inside (d + 1) [] IsNode) :
    Plants p (nesting recover inside) d [] IsNode := by
  intro s others hs hforest
  rw [nesting_eq recover inside hs, if_pos hd]
  exact h.deeper s others hs hforest

theorem plants_nesting_too_deep {p : Parser Green} {recover inside : ArenaParser Nat}
    (hd : maxParseDepth ≤ d) (h : Plants p recover (d + 1) [] IsNode) :
    Plants p (nesting recover inside) d [] IsNode := by
  intro s others hs hforest
  rw [nesting_eq recover inside hs, if_neg (by omega)]
  exact h.deeper s others hs hforest

/-! ## Loops -/

/-- The rule for collecting nodes, of which a relation that append keeps may tell more. -/
theorem plants_collect {item : Parser (List Green × Bool)} {item' : ArenaParser (List Nat × Bool)}
    {rel : List (Node Nat) → List Green → List Nat → Prop}
    (append : ∀ {ns gs is ms hs js}, rel ns gs is → rel ms hs js →
      rel (ns ++ ms) (gs ++ hs) (is ++ js))
    (h : Plants item item' d [] fun got b a => rel got b.1 a.1 ∧ a.2 = b.2) :
    Plants (Parser.collect item) (collect item') d [] rel := by
  intro s
  induction hlength : s.ahead.rest.length using Nat.strong_induction_on generalizing s with
  | h length ih =>
    intro others hd hforest
    obtain ⟨hahead, hdepth, got, hgot, hrel, hmore⟩ := h s others hd hforest
    rw [Parser.collect, collect]
    rcases hi : item s.ahead with ⟨⟨gs, more⟩, t⟩
    rcases hi' : item' s with ⟨⟨is, more'⟩, s'⟩
    simp only [hi, hi'] at hahead hdepth hgot hrel hmore ⊢
    subst hahead hmore
    by_cases hgo : more' = true ∧ s'.ahead.rest.length < s.ahead.rest.length
    · rw [dif_pos hgo, dif_pos hgo]
      obtain ⟨hahead, hdepth', got', hgot', hrel'⟩ := ih _ (hlength ▸ hgo.2) s' rfl (others ++ got)
        hdepth (by simpa using hgot)
      exact ⟨hahead, hdepth', got ++ got', by simpa using hgot', append hrel hrel'⟩
    · rw [dif_neg hgo, dif_neg hgo]
      exact ⟨rfl, hdepth, got, hgot, hrel⟩

theorem plants_collectWhile {item : Parser (List Green)} {item' : ArenaParser (List Nat)}
    {rel : List (Node Nat) → List Green → List Nat → Prop} (nil : rel [] [] [])
    (append : ∀ {ns gs is ms hs js}, rel ns gs is → rel ms hs js →
      rel (ns ++ ms) (gs ++ hs) (is ++ js))
    (more : ParseState → Bool) (h : Plants item item' d [] rel) :
    Plants (Parser.collectWhile more item) (collectWhile more item') d [] rel := by
  refine plants_collect append fun s others hd hforest => ?_
  cases hm : more s.ahead with
  | true =>
    obtain ⟨hahead, hdepth, got, hgot, hrel⟩ := h s others hd hforest
    exact ⟨hahead, hdepth, got, hgot, hrel, rfl⟩
  | false =>
    exact ⟨rfl, hd, [], hforest, nil, rfl⟩

theorem AreNodes.append {ns ms : List (Node Nat)} {gs hs : List Green} {is js : List Nat}
    (h : AreNodes ns gs is) (h' : AreNodes ms hs js) :
    AreNodes (ns ++ ms) (gs ++ hs) (is ++ js) := by
  obtain ⟨rfl, rfl⟩ := h
  obtain ⟨rfl, rfl⟩ := h'
  exact ⟨List.map_append, List.map_append⟩

theorem plants_nodesWhile {item : Parser (List Green)} {item' : ArenaParser (List Nat)}
    (more : ParseState → Bool) (h : Plants item item' d [] AreNodes) :
    Plants (Parser.collectWhile more item) (collectWhile more item') d [] AreNodes :=
  plants_collectWhile ⟨rfl, rfl⟩ AreNodes.append more h

/-- What a step makes of a tree: it leaves it alone, or gives another one. -/
def IsNext (n : Node Nat) (got : List (Node Nat)) (g : Option Green) (i : Option Nat) : Prop :=
  (got = [n] ∧ g = none ∧ i = none) ∨ ∃ m, got = [m] ∧ g = some m.erase ∧ i = some m.tag

/-- The rule for refining a node. -/
theorem plants_refine {step : Green → Parser (Option Green)}
    {step' : Nat → ArenaParser (Option Nat)}
    (h : ∀ n : Node Nat, Plants (step n.erase) (step' n.tag) d [n] (IsNext n)) (n : Node Nat) :
    Plants (Parser.refine step n.erase) (refine step' n.tag) d [n] IsNode := by
  intro s
  induction hlength : s.ahead.rest.length using Nat.strong_induction_on generalizing s n with
  | h length ih =>
    intro others hd hforest
    obtain ⟨hahead, hdepth, got, hgot, hnext⟩ := h n s others hd hforest
    rw [Parser.refine, refine]
    rcases hi : step n.erase s.ahead with ⟨g, t⟩
    rcases hi' : step' n.tag s with ⟨i, s'⟩
    simp only [hi, hi'] at hahead hdepth hgot hnext ⊢
    subst hahead
    obtain ⟨rfl, rfl, rfl⟩ | ⟨m, rfl, rfl, rfl⟩ := hnext
    · exact ⟨rfl, hdepth, [n], hgot, n, rfl, rfl, rfl⟩
    · dsimp only
      by_cases hgo : s'.ahead.rest.length < s.ahead.rest.length
      · rw [dif_pos hgo, dif_pos hgo]
        exact ih _ (hlength ▸ hgo) m s' rfl others hdepth hgot
      · rw [dif_neg hgo, dif_neg hgo]
        exact ⟨rfl, hdepth, [m], hgot, m, rfl, rfl, rfl⟩

/-- A step that gives a branch over the last trees. -/
theorem plants_some {k : Kind} {n : Node Nat} {gs : List Green} {is : List Nat}
    (hgs : held.map Node.erase = gs) (his : held.map Node.tag = is) :
    Plants (pure (some (.group k gs))) (do return some (← ArenaParser.group k is)) d held
      (IsNext n) := by
  subst hgs
  refine Plants.group [] his fun i => plants_pure ?_
  exact .inr ⟨_, rfl, congrArg some (Node.erase_branch _ _ _).symm, rfl⟩

theorem plants_none {n : Node Nat} : Plants (pure none) (pure none) d [n] (IsNext n) :=
  plants_pure (.inl ⟨rfl, rfl, rfl⟩)

theorem plants_commaSeparated {item : Parser (List Green)} {item' : ArenaParser (List Nat)}
    (h : Plants item item' d [] AreNodes) :
    Plants (Parser.commaSeparated item) (commaSeparated item') d [] AreNodes := by
  refine h.nodes fun first => ?_
  refine Plants.nodes (plants_nodesWhile _ ?_) fun others => ?_
  · refine plants_advance.node fun comma => ?_
    refine h.nodes fun ns => ?_
    exact plants_pure ⟨by simp, by simp⟩
  · exact plants_pure ⟨by simp, by simp⟩

/-- One node as a list. -/
theorem Plants.single {p : Parser Green} {q : ArenaParser Nat} (h : Plants p q d [] IsNode) :
    Plants (do return [← p]) (do return [← q]) d [] AreNodes :=
  h.node fun _ => plants_pure ⟨rfl, rfl⟩

theorem plants_modifiers : Plants Parser.modifiers modifiers d [] AreNodes :=
  plants_nodesWhile _ plants_advance.single

theorem plants_element {item : Parser Green} {item' : ArenaParser Nat} (code : ErrorCode)
    (h : Plants item item' d [] IsNode) :
    Plants (Parser.element code item) (element code item') d [] AreNodes := by
  refine Plants.lift _ fun before => ?_
  refine h.node fun n => ?_
  refine Plants.lift _ fun s => ?_
  refine Plants.ite (fun _ => ?_) fun _ => ?_
  · refine (plants_skip code).node fun error => ?_
    exact plants_pure ⟨by simp, by simp⟩
  · exact plants_pure ⟨by simp, by simp⟩

theorem plants_giveUp (withSemicolon : Bool) :
    Plants (Parser.giveUp withSemicolon) (giveUp withSemicolon) d [] IsNode := by
  refine Plants.lift _ fun _ => ?_
  refine (plants_nodesWhile _ plants_advance.single).nodes fun skipped => ?_
  refine Plants.ite (fun _ => ?_) fun _ => ?_
  · refine (plants_accept .semicolon).nodes fun semicolon => ?_
    exact plants_group (by simp) (by simp)
  · refine plants_group (by simp) (by simp)

end NullLint.ArenaParser
