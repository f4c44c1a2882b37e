import NullLint.Proofs.Syntax.Derivation

/-!
# Positions

The full spans of a tree laid out tile its text. `Node.LaidOut` says of a placed node what layout
has to give: a token lies behind its leading trivia, the full spans of the children of a branch
follow one another, and a branch reaches from its first child with a text to its last one. From
this alone every full span cuts out the printed node, and every span lies in its full span.
-/

namespace NullLint

namespace Text

/-- Bytes of a string are bytes of its characters. -/
theorem utf8ByteSize_eq (s : String) : s.utf8ByteSize = byteLength s.toList := by
  rw [← String.ofList_toList (s := s)]
  generalize s.toList = cs
  rw [String.toList_ofList]
  induction cs with
  | nil => rfl
  | cons c cs ih =>
    rw [String.ofList_cons, String.utf8ByteSize_append, ih]
    simp

/-- A slice is the part that stands between its ends. -/
theorem slice?_of_toList_eq {text part : String} (as bs : List Char) {start stop : Nat}
    (h : text.toList = as ++ (part.toList ++ bs)) (hstart : start = byteLength as)
    (hstop : stop = start + byteLength part.toList) : slice? text start stop = some part := by
  subst hstart hstop
  simp [slice?, sliceList?, h]

end Text

/-! ## Tilings -/

namespace Span

/-- The span lies between two offsets. -/
structure Within (s : Span) (lo hi : Nat) : Prop where
  lo_le : lo ≤ s.start
  ordered : s.start ≤ s.stop
  le_hi : s.stop ≤ hi

theorem Within.mono {s : Span} {lo lo' hi hi' : Nat} (h : s.Within lo hi) (hlo : lo' ≤ lo)
    (hhi : hi ≤ hi') : s.Within lo' hi' :=
  ⟨Nat.le_trans hlo h.lo_le, h.ordered, Nat.le_trans h.le_hi hhi⟩

/-- The spans lead from `lo` to `hi`, each beginning where the one before it ends. -/
inductive Tile : Nat → List Span → Nat → Prop where
  | nil (lo : Nat) : Tile lo [] lo
  | cons {lo mid hi : Nat} {ss : List Span} (h : lo ≤ mid) (rest : Tile mid ss hi) :
      Tile lo (⟨lo, mid⟩ :: ss) hi

namespace Tile

variable {lo hi : Nat} {s : Span} {ss : List Span}

theorem cons_iff : Tile lo (s :: ss) hi ↔ s.start = lo ∧ lo ≤ s.stop ∧ Tile s.stop ss hi := by
  constructor
  · intro h
    cases h with
    | cons h rest => exact ⟨rfl, h, rest⟩
  · rintro ⟨rfl, h, rest⟩
    exact .cons h rest

theorem le (h : Tile lo ss hi) : lo ≤ hi := by
  induction h with
  | nil => exact Nat.le_refl _
  | cons h _ ih => exact Nat.le_trans h ih

theorem of_mem (h : Tile lo ss hi) (hs : s ∈ ss) : lo ≤ s.start ∧ s.stop ≤ hi := by
  induction h with
  | nil => simp at hs
  | cons h rest ih =>
    rcases List.mem_cons.1 hs with rfl | hs
    · exact ⟨Nat.le_refl _, rest.le⟩
    · exact ⟨Nat.le_trans h (ih hs).1, (ih hs).2⟩

theorem pairwise (h : Tile lo ss hi) : ss.Pairwise fun s t => s.stop ≤ t.start := by
  induction h with
  | nil => exact .nil
  | cons h rest ih => exact .cons (fun t ht => (rest.of_mem ht).1) ih

theorem of_append {ss' : List Span} (h : Tile lo (ss ++ ss') hi) :
    ∃ mid, Tile lo ss mid ∧ Tile mid ss' hi := by
  induction ss generalizing lo with
  | nil => exact ⟨lo, .nil lo, h⟩
  | cons s ss ih =>
    obtain ⟨hs, hle, rest⟩ := cons_iff.1 h
    obtain ⟨mid, hleft, hright⟩ := ih rest
    exact ⟨mid, cons_iff.2 ⟨hs, hle, hleft⟩, hright⟩

end Tile

end Span

namespace Trivia

theorem width_eq (ts : List Trivia) : width ts = Text.byteLength (join ts).toList := by
  induction ts with
  | nil => rfl
  | cons t ts ih =>
    have hwidth : width (t :: ts) = t.text.utf8ByteSize + width ts := rfl
    rw [hwidth, ih, Lexer.toList_join_trivia, Text.byteLength_append, Text.utf8ByteSize_eq]

end Trivia

namespace Node

/-! ## Printed nodes -/

section Print

variable {α : Type}

theorem print_token (a : α) (t : Token) : (token a t).print = t.fullText := by
  simp [print]

theorem toList_print_branch (a : α) (k : Kind) (cs : List (Node α)) :
    (branch a k cs).print.toList = cs.flatMap fun c => c.print.toList := by
  induction cs with
  | nil => rfl
  | cons c cs ih =>
    simp only [print, tokens_branch, List.flatMap_cons, List.map_append] at ih ⊢
    simp [ih]

end Print

/-! ## Layout -/

/-- What layout gives for a node and those below it. -/
inductive LaidOut : Placed → Prop where
  | token {id offset : Nat} {t : Token} : LaidOut (.token (tokenPlace id offset t) t)
  | branch {a : Place} {k : Kind} {cs : List Placed}
      (tile : Span.Tile a.fullSpan.start (cs.map fullSpan) a.fullSpan.stop)
      (span : a.span = innerSpan a.fullSpan.start cs) (below : ∀ c ∈ cs, LaidOut c) :
      LaidOut (.branch a k cs)

theorem start_of_tile {lo hi : Nat} {cs : List Placed} (h : Span.Tile lo (cs.map fullSpan) hi) :
    ((cs.head?.map fun c => c.fullSpan.start).getD lo) = lo := by
  cases cs with
  | nil => rfl
  | cons c cs =>
    obtain ⟨hc, -⟩ := Span.Tile.cons_iff.1 h
    simp [hc]

mutual

theorem laidOut_layOut {α : Type} (next offset : Nat) (n : Node α) (h : n.WellFormed) :
    (n.layOut next offset).1.LaidOut ∧ offset ≤ (n.layOut next offset).2.2 ∧
      (n.layOut next offset).1.fullSpan = ⟨offset, (n.layOut next offset).2.2⟩ := by
  cases n with
  | token a t =>
    have hkind := (wellFormed_token.1 h).isToken
    simp only [layOut, hkind, if_true]
    refine ⟨.token, ?_, rfl⟩
    simp only [tokenPlace]
    omega
  | branch a k cs =>
    obtain ⟨hk, hcs⟩ := wellFormed_branch.1 h
    obtain ⟨hbelow, htile⟩ := laidOut_layOutAll (next + 1) offset cs hcs
    have hstart := start_of_tile htile
    have hkind : k.isToken = false := by rw [k.isToken_eq_not_isNode, hk, Bool.not_true]
    simp only [layOut, hkind, Bool.false_eq_true, if_false]
    refine ⟨.branch ?_ rfl hbelow, htile.le, ?_⟩
    · simpa only [branchPlace, hstart] using htile
    · exact congrArg (Span.mk · _) hstart

theorem laidOut_layOutAll {α : Type} (next offset : Nat) (cs : List (Node α))
    (h : ∀ c ∈ cs, c.WellFormed) :
    (∀ c ∈ (layOutAll next offset cs).1, c.LaidOut) ∧
      Span.Tile offset ((layOutAll next offset cs).1.map fullSpan)
        (layOutAll next offset cs).2.2 := by
  match cs with
  | [] => exact ⟨by simp [layOutAll], .nil offset⟩
  | c :: cs =>
    obtain ⟨hc, hle, hspan⟩ := laidOut_layOut next offset c (h c (by simp))
    obtain ⟨hcs, htile⟩ := laidOut_layOutAll (layOut next offset c).2.1
      (layOut next offset c).2.2 cs fun d hd => h d (by simp [hd])
    simp only [layOutAll, List.map_cons, List.forall_mem_cons, hspan]
    exact ⟨⟨hc, hcs⟩, .cons hle htile⟩

end

theorem laidOut_placed {n : Green} (h : n.WellFormed) :
    n.placed.LaidOut ∧ n.placed.fullSpan.start = 0 := by
  obtain ⟨hlaid, -, hspan⟩ := laidOut_layOut 0 0 n h
  exact ⟨hlaid, congrArg Span.start hspan⟩

/-- Consecutive nodes end where their texts do. -/
theorem stop_of_tile {lo hi : Nat} {cs : List Placed} (h : Span.Tile lo (cs.map fullSpan) hi)
    (hcs : ∀ c ∈ cs, c.fullSpan.stop = c.fullSpan.start + Text.byteLength c.print.toList) :
    hi = lo + Text.byteLength (cs.flatMap fun c => c.print.toList) := by
  induction cs generalizing lo with
  | nil =>
    cases h
    rfl
  | cons c cs ih =>
    obtain ⟨hstart, -, rest⟩ := Span.Tile.cons_iff.1 h
    have hc := hcs c (by simp)
    have hrest := ih rest fun d hd => hcs d (by simp [hd])
    rw [List.flatMap_cons, Text.byteLength_append, hrest, hc, hstart, Nat.add_assoc]

/-- The spans of consecutive nodes follow one another. -/
theorem pairwise_span_of_tile {lo hi : Nat} {cs : List Placed}
    (h : Span.Tile lo (cs.map fullSpan) hi)
    (hcs : ∀ c ∈ cs, c.span.Within c.fullSpan.start c.fullSpan.stop) :
    (cs.map span).Pairwise fun s t => s.stop ≤ t.start := by
  refine List.pairwise_map.2 ((List.pairwise_map.1 h.pairwise).imp_of_mem fun hc hd hcd => ?_)
  exact Nat.le_trans (hcs _ hc).le_hi (Nat.le_trans hcd (hcs _ hd).lo_le)

/-- The span of a branch lies where its children do. -/
theorem within_innerSpan {lo hi : Nat} {cs : List Placed}
    (h : Span.Tile lo (cs.map fullSpan) hi)
    (hcs : ∀ c ∈ cs, c.span.Within c.fullSpan.start c.fullSpan.stop) :
    (innerSpan lo cs).Within lo hi := by
  have hwithin : ∀ s ∈ (cs.map span).filter (fun s => !s.isEmpty), s.Within lo hi := by
    intro s hs
    obtain ⟨c, hc, rfl⟩ := List.mem_map.1 (List.mem_filter.1 hs).1
    obtain ⟨hlo, hhi⟩ := h.of_mem (List.mem_map_of_mem hc)
    exact (hcs c hc).mono hlo hhi
  have hpairwise : ((cs.map span).filter fun s => !s.isEmpty).Pairwise
      fun s t => s.stop ≤ t.start := (pairwise_span_of_tile h hcs).filter _
  unfold innerSpan
  generalize (cs.map span).filter (fun s => !s.isEmpty) = spans at hwithin hpairwise
  cases spans with
  | nil => exact ⟨Nat.le_refl lo, Nat.le_refl lo, h.le⟩
  | cons first rest =>
    have hfirst := hwithin first (by simp)
    obtain ⟨last, hlast⟩ : ∃ last, (first :: rest).getLast? = some last :=
      ⟨_, List.getLast?_cons⟩
    have hmem := List.mem_of_getLast? hlast
    have hle := hwithin last hmem
    simp only [List.head?_cons, hlast]
    refine ⟨hfirst.lo_le, ?_, hle.le_hi⟩
    rcases List.mem_cons.1 hmem with rfl | hmem
    · exact hfirst.ordered
    · have hbefore := (List.pairwise_cons.1 hpairwise).1 last hmem
      exact Nat.le_trans hfirst.ordered (Nat.le_trans hbefore hle.ordered)

/-- The span of a branch covers its children, as far as they are not empty. -/
theorem covers_innerSpan {lo hi : Nat} {cs : List Placed} {c : Placed}
    (h : Span.Tile lo (cs.map fullSpan) hi)
    (hcs : ∀ c ∈ cs, c.span.Within c.fullSpan.start c.fullSpan.stop) (hc : c ∈ cs)
    (hne : c.span.start < c.span.stop) : (innerSpan lo cs).covers c.span = true := by
  have hmem : c.span ∈ (cs.map span).filter (fun s => !s.isEmpty) :=
    List.mem_filter.2 ⟨List.mem_map_of_mem hc, by simpa [Span.isEmpty] using hne⟩
  have hordered : ∀ s ∈ (cs.map span).filter (fun s => !s.isEmpty), s.start ≤ s.stop := by
    intro s hs
    obtain ⟨d, hd, rfl⟩ := List.mem_map.1 (List.mem_filter.1 hs).1
    exact (hcs d hd).ordered
  have hpairwise : ((cs.map span).filter fun s => !s.isEmpty).Pairwise
      fun s t => s.stop ≤ t.start := (pairwise_span_of_tile h hcs).filter _
  unfold innerSpan
  generalize (cs.map span).filter (fun s => !s.isEmpty) = spans at hmem hordered hpairwise
  obtain ⟨before, after, rfl⟩ := List.append_of_mem hmem
  obtain ⟨-, hafter, hbefore⟩ := List.pairwise_append.1 hpairwise
  obtain ⟨first, hfirst, hle⟩ : ∃ first, (before ++ c.span :: after).head? = some first ∧
      first.start ≤ c.span.start := by
    cases before with
    | nil => exact ⟨c.span, rfl, Nat.le_refl _⟩
    | cons s before =>
      refine ⟨s, rfl, Nat.le_trans (hordered s (by simp)) ?_⟩
      exact hbefore s (by simp) c.span (by simp)
  obtain ⟨last, hlast, hle'⟩ : ∃ last, (before ++ c.span :: after).getLast? = some last ∧
      c.span.stop ≤ last.stop := by
    obtain ⟨last, hlast⟩ : ∃ last, (c.span :: after).getLast? = some last :=
      ⟨_, List.getLast?_cons⟩
    refine ⟨last, by rw [List.getLast?_append, hlast, Option.some_or], ?_⟩
    rcases List.mem_cons.1 (List.mem_of_getLast? hlast) with rfl | hmem
    · exact Nat.le_refl _
    · exact Nat.le_trans ((List.pairwise_cons.1 hafter).1 last hmem) (hordered last (by simp [hmem]))
  simp [hfirst, hlast, Span.covers, hle, hle']

/-- How a node stands in a text: its full span cuts out the printed node, and the span of a token
cuts out the token; the full spans of the children of a branch tile its own. -/
structure Positioned (text : String) (n : Placed) : Prop where
  print : Text.slice? text n.fullSpan.start n.fullSpan.stop = some n.print
  children : n.token? = none →
    Span.Tile n.fullSpan.start (n.children.map fullSpan) n.fullSpan.stop
  token : ∀ t, n.token? = some t → Text.slice? text n.span.start n.span.stop = some t.text
  span : n.span.Within n.fullSpan.start n.fullSpan.stop

namespace LaidOut

variable {n : Placed}

theorem of_mem {m : Placed} (h : n.LaidOut) (hm : m ∈ n.preorder) : m.LaidOut := by
  induction h with
  | token =>
    obtain rfl := List.mem_singleton.1 hm
    exact .token
  | branch tile span below ih =>
    rcases mem_preorder_branch.1 hm with rfl | ⟨c, hc, hm⟩
    · exact .branch tile span below
    · exact ih c hc hm

/-- A node takes up the bytes of its text. -/
theorem stop_eq (h : n.LaidOut) :
    n.fullSpan.stop = n.fullSpan.start + Text.byteLength n.print.toList := by
  induction h with
  | @token id offset t =>
    simp only [fullSpan, tag, tokenPlace, print_token, Token.fullText, String.toList_append,
      Text.byteLength_append, Trivia.width_eq, Text.utf8ByteSize_eq]
    omega
  | @branch a k cs tile span below ih =>
    rw [toList_print_branch]
    exact stop_of_tile tile ih

theorem start_le_stop (h : n.LaidOut) : n.fullSpan.start ≤ n.fullSpan.stop := by
  rw [h.stop_eq]
  exact Nat.le_add_right _ _

theorem within_span (h : n.LaidOut) : n.span.Within n.fullSpan.start n.fullSpan.stop := by
  induction h with
  | token => exact ⟨Nat.le_add_right _ _, Nat.le_add_right _ _, Nat.le_add_right _ _⟩
  | @branch a k cs tile span below ih =>
    rw [show (Node.branch a k cs).span = innerSpan a.fullSpan.start cs from span]
    exact within_innerSpan tile ih

/-- A node below another takes up a part of its bytes. -/
theorem within_fullSpan {m : Placed} (h : n.LaidOut) (hm : m ∈ n.preorder) :
    m.fullSpan.Within n.fullSpan.start n.fullSpan.stop := by
  induction h with
  | token =>
    obtain rfl := List.mem_singleton.1 hm
    exact ⟨Nat.le_refl _, start_le_stop .token, Nat.le_refl _⟩
  | branch tile span below ih =>
    rcases mem_preorder_branch.1 hm with rfl | ⟨c, hc, hmc⟩
    · exact ⟨Nat.le_refl _, tile.le, Nat.le_refl _⟩
    · obtain ⟨hlo, hhi⟩ := tile.of_mem (List.mem_map_of_mem hc)
      exact (ih c hc hmc).mono hlo hhi

/-- Of two nodes one holds the other or one ends before the other begins. -/
theorem nested_or_apart {m m' : Placed} (h : n.LaidOut) (hm : m ∈ n.preorder)
    (hm' : m' ∈ n.preorder) :
    m ∈ m'.preorder ∨ m' ∈ m.preorder ∨ m.fullSpan.stop ≤ m'.fullSpan.start ∨
      m'.fullSpan.stop ≤ m.fullSpan.start := by
  induction h with
  | token =>
    obtain rfl := List.mem_singleton.1 hm
    exact .inr (.inl hm')
  | @branch a k cs tile span below ih =>
    rcases mem_preorder_branch.1 hm with rfl | ⟨c, hc, hmc⟩
    · exact .inr (.inl hm')
    rcases mem_preorder_branch.1 hm' with rfl | ⟨d, hd, hmd⟩
    · exact .inl hm
    by_cases hcd : c = d
    · subst hcd
      exact ih c hc hmc hmd
    · -- Two children share no bytes.
      have hsymm : Std.Symm fun c d : Placed =>
          c.fullSpan.stop ≤ d.fullSpan.start ∨ d.fullSpan.stop ≤ c.fullSpan.start :=
        ⟨fun _ _ => Or.symm⟩
      have hpairwise : cs.Pairwise fun c d : Placed =>
          c.fullSpan.stop ≤ d.fullSpan.start ∨ d.fullSpan.stop ≤ c.fullSpan.start :=
        (List.pairwise_map.1 tile.pairwise).imp Or.inl
      have hdisjoint := hpairwise.forall hc hd hcd
      obtain ⟨hlo, -, hhi⟩ := (below c hc).within_fullSpan hmc
      obtain ⟨hlo', -, hhi'⟩ := (below d hd).within_fullSpan hmd
      omega

/-- A node covers those of its children that are not empty. -/
theorem covers_child {c : Placed} (h : n.LaidOut) (hc : c ∈ n.children)
    (hne : c.span.start < c.span.stop) : n.span.covers c.span = true := by
  cases h with
  | token => cases hc
  | @branch a k cs tile span below =>
    rw [show (Node.branch a k cs).span = innerSpan a.fullSpan.start cs from span]
    exact covers_innerSpan tile (fun d hd => (below d hd).within_span) hc hne

/-- In a text where the node is printed at its full span, every node below it is. -/
theorem positioned {text : String} (h : n.LaidOut) (before after : List Char)
    (htext : text.toList = before ++ (n.print.toList ++ after))
    (hstart : n.fullSpan.start = Text.byteLength before) :
    ∀ m ∈ n.preorder, m.Positioned text := by
  induction h generalizing before after with
  | @token id offset t =>
    intro m hm
    obtain rfl := List.mem_singleton.1 hm
    have hlaid : (Node.token (tokenPlace id offset t) t).LaidOut := .token
    refine ⟨Text.slice?_of_toList_eq before after htext hstart hlaid.stop_eq, by simp [token?], ?_,
      hlaid.within_span⟩
    rintro t ⟨⟩
    rw [print_token, Token.fullText, String.toList_append, String.toList_append] at htext
    refine Text.slice?_of_toList_eq (before ++ (Trivia.join t.leading).toList)
      ((Trivia.join t.trailing).toList ++ after) (by simpa using htext) ?_ ?_
    · rw [Text.byteLength_append, ← hstart, ← Trivia.width_eq]
      rfl
    · rw [← Text.utf8ByteSize_eq]
      rfl
  | @branch a k cs tile span below ih =>
    intro m hm
    have hlaid : (Node.branch a k cs).LaidOut := .branch tile span below
    rcases mem_preorder_branch.1 hm with rfl | ⟨c, hc, hmc⟩
    · exact ⟨Text.slice?_of_toList_eq before after htext hstart hlaid.stop_eq, fun _ => tile,
        by simp [token?], hlaid.within_span⟩
    · -- The text before a child is that before the branch and that of the children before it.
      obtain ⟨left, right, rfl⟩ := List.append_of_mem hc
      rw [List.map_append] at tile
      obtain ⟨mid, hleft, hright⟩ := tile.of_append
      have hmid := stop_of_tile hleft fun d hd => (below d (by simp [hd])).stop_eq
      obtain ⟨hcstart, -⟩ := Span.Tile.cons_iff.1 hright
      refine ih c hc (before ++ left.flatMap fun d => d.print.toList)
        ((right.flatMap fun d => d.print.toList) ++ after) ?_ ?_ m hmc
      · rw [htext, toList_print_branch]
        simp
      · rw [hcstart, hmid, Text.byteLength_append, ← hstart]
        rfl

end LaidOut

end Node

namespace Tree

theorem text_eq_print_placed {t : Tree} {root : Green} (h : t.root = some root) :
    t.text = root.placed.print := by
  simp [text, h, Node.print, Node.tokens_placed]

/-- Positions tile the text of a derived tree: the root takes up the whole text, every full span
cuts out its node, and the full spans of the children of a branch follow one another through that
of the branch; the span of a token cuts out the token. -/
theorem Derived.positions_tile {t : Tree} (ht : t.Derived) :
    ∃ root, t.placed = some root ∧ root.fullSpan = ⟨0, t.text.utf8ByteSize⟩ ∧
      ∀ n ∈ t.nodes, n.Positioned t.text := by
  obtain ⟨root, hroot, hwf⟩ := ht.root
  have hplaced : t.placed = some root.placed := by simp [placed, hroot]
  have htext := text_eq_print_placed hroot
  obtain ⟨hlaid, hstart⟩ := Node.laidOut_placed hwf
  refine ⟨root.placed, hplaced, ?_, ?_⟩
  · have hstop := hlaid.stop_eq
    rw [hstart, Nat.zero_add, ← Text.utf8ByteSize_eq, ← htext] at hstop
    rw [← hstart, ← hstop]
  · rw [nodes_of_placed hplaced]
    exact hlaid.positioned [] [] (by simp [htext]) hstart

/-- In ` é! .m(;`, where an argument and a parenthesis are missing, `é!` is replaced by its
operand: seven bytes are left. -/
theorem positions_tile_operand :
    let t := (parse "" " é! .m(;").tree
    ∃ u root, ((t.extract 5).bind fun operand => t.replace 4 operand) = some u ∧
      u.text = " é.m(;" ∧ u.placed = some root ∧ root.fullSpan = ⟨0, 7⟩ ∧
      ∀ n ∈ u.nodes, n.Positioned u.text := by
  intro t
  have htext : ((t.extract 5).bind fun operand => t.replace 4 operand).map Tree.text =
      some " é.m(;" := by decide +kernel
  obtain ⟨u, hu, htext⟩ := Option.map_eq_some_iff.1 htext
  obtain ⟨operand, hoperand, hreplace⟩ := Option.bind_eq_some_iff.1 hu
  have ht : t.Derived := .parse "" " é! .m(;"
  obtain ⟨root, hroot, hspan, hnodes⟩ := (ht.replace (ht.extract hoperand) hreplace).positions_tile
  refine ⟨u, root, hu, htext, hroot, ?_, hnodes⟩
  rw [hspan, htext]
  decide +kernel

end Tree

end NullLint
