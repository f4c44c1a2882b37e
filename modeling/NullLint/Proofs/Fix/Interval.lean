import NullLint.Proofs.Fix.Dropping
import NullLint.Proofs.Fix.Tidiness
import NullLint.Proofs.Parser.Shapes
import NullLint.Proofs.Syntax.Outlines

/-!
# The bytes that removing an operator deletes

Removing a null operator takes one interval out of the text, from the end of the operand's last
token to the end of the mark: the trivia before the mark go with it, and those behind it stay.
Trivia do not count for the outline, so the fragment and the operand have the same one, and putting
in either gives trees that count as the same.
-/

namespace NullLint

namespace Text

/-- `shorter` is `text` without the bytes from `start` to `stop`. -/
def Without (text : String) (start stop : Nat) (shorter : String) : Prop :=
  ∃ kept rest, slice? text 0 start = some kept ∧
    slice? text stop text.utf8ByteSize = some rest ∧ start ≤ stop ∧ shorter = kept ++ rest

theorem without_of_toList_eq {text shorter : String} {start stop : Nat} (kept cut rest : List Char)
    (htext : text.toList = kept ++ (cut ++ rest)) (hshorter : shorter.toList = kept ++ rest)
    (hstart : start = byteLength kept) (hstop : stop = byteLength (kept ++ cut)) :
    Without text start stop shorter := by
  have hsize : text.utf8ByteSize = byteLength (kept ++ cut) + byteLength rest := by
    rw [utf8ByteSize_eq, htext, ← List.append_assoc, byteLength_append]
  refine ⟨String.ofList kept, String.ofList rest, ?_, ?_, ?_, ?_⟩
  · exact slice?_of_toList_eq [] (cut ++ rest) (by simpa using htext) rfl (by simpa using hstart)
  · refine slice?_of_toList_eq (kept ++ cut) [] (by simpa using htext) hstop ?_
    rw [hsize, hstop, String.toList_ofList]
  · rw [hstart, hstop, byteLength_append]
    exact Nat.le_add_right _ _
  · rw [← String.ofList_append, ← hshorter, String.ofList_toList]

/-- What is cut out stands between what is before it and what is behind it. -/
theorem exists_of_slice? {text part : String} {start stop : Nat}
    (h : slice? text start stop = some part) :
    ∃ before after, text.toList = before ++ (part.toList ++ after) ∧
      start = byteLength before ∧ stop = start + byteLength part.toList := by
  obtain ⟨cs, hcs, rfl⟩ := Option.map_eq_some_iff.1 h
  unfold sliceList? at hcs
  split at hcs
  · rename_i hle
    obtain ⟨⟨before, rest⟩, hbefore, hcs⟩ := Option.bind_eq_some_iff.1 hcs
    obtain ⟨⟨part, after⟩, hpart, hcs⟩ := Option.bind_eq_some_iff.1 hcs
    obtain rfl : part = cs := Option.some.inj hcs
    obtain ⟨htext, hstart⟩ := eq_of_splitAt? hbefore
    obtain ⟨rfl, hlength⟩ := eq_of_splitAt? hpart
    refine ⟨before, after, by rw [htext, String.toList_ofList], hstart.symm, ?_⟩
    rw [String.toList_ofList, hlength]
    omega
  · cases hcs

end Text

/-- A single change replaces what stands where it begins. -/
theorem TextChange.toList_applyAll_singleton {text : String} {c : TextChange}
    {before part after : List Char} (htext : text.toList = before ++ (part ++ after))
    (hstart : c.start = Text.byteLength before) (hlength : c.length = Text.byteLength part) :
    (applyAll text [c]).toList = before ++ (c.newText.toList ++ after) := by
  simp [applyAll, splice, htext, hstart, hlength]

/-! ## Outlines -/

namespace Node

variable {σ σ' : Nat → Option Green}

/-- Fragments of the same outlines make trees of the same outline. -/
theorem outline_substitute_congr (h : ∀ id, (σ id).map outline = (σ' id).map outline)
    (n : Placed) : (n.substitute σ).outline = (n.substitute σ').outline := by
  induction n using replacing_induction σ with
  | replaced n g hσ =>
    have hid := h n.id
    rw [hσ, Option.map_some] at hid
    obtain ⟨g', hσ', houtline⟩ := Option.map_eq_some_iff.1 hid.symm
    rw [substitute_of_eq_some hσ, substitute_of_eq_some hσ', houtline]
  | token a t hσ =>
    have hid := h a.id
    rw [hσ, Option.map_none] at hid
    rw [substitute_token hσ, substitute_token (Option.map_eq_none_iff.1 hid.symm)]
  | branch a k cs hσ ih =>
    have hid := h a.id
    rw [hσ, Option.map_none] at hid
    rw [substitute_branch hσ, substitute_branch (Option.map_eq_none_iff.1 hid.symm),
      outline_branch, outline_branch, List.flatMap_map, List.flatMap_map]
    exact congrArg₂ _ (by simp) (List.flatMap_congr ih)

end Node

/-! ## Last tokens -/

namespace Span.Tile

theorem nil_iff {lo hi : Nat} : Tile lo [] hi ↔ lo = hi := by
  constructor
  · intro h
    cases h
    rfl
  · rintro rfl
    exact .nil lo

theorem of_concat {lo hi : Nat} {s : Span} {ss : List Span} (h : Tile lo (ss ++ [s]) hi) :
    s.stop = hi := by
  obtain ⟨mid, -, hlast⟩ := h.of_append
  obtain ⟨-, -, hnil⟩ := cons_iff.1 hlast
  exact nil_iff.1 hnil

end Span.Tile

namespace Node

/-- The last leaf of a node stands at its end. -/
theorem LaidOut.lastLeaf? {n last : Placed} (h : n.LaidOut) (hlast : n.lastLeaf? = some last) :
    ∃ id offset t, last = .token (tokenPlace id offset t) t ∧ n.lastToken? = some t ∧
      last.fullSpan.stop = n.fullSpan.stop := by
  induction h with
  | @token id offset t =>
    obtain rfl := Option.some.inj hlast
    exact ⟨id, offset, t, rfl, by simp, rfl⟩
  | @branch a k cs tile span below ih =>
    rw [Node.lastLeaf?, lastLeafIn?_eq] at hlast
    obtain ⟨c, hc, hlast⟩ := Option.bind_eq_some_iff.1 hlast
    obtain ⟨id, offset, t, hleaf, htoken, hstop⟩ := ih c (List.mem_of_getLast? hc) hlast
    refine ⟨id, offset, t, hleaf, by rw [lastToken?_branch, hc]; exact htoken, ?_⟩
    obtain ⟨init, rfl⟩ := List.getLast?_eq_some_iff.1 hc
    rw [List.map_append] at tile
    exact hstop.trans tile.of_concat

/-- A node that ends with a token has a last leaf. -/
theorem EndsInToken.exists_lastLeaf {α : Type} {n : Node α} (h : n.EndsInToken) :
    ∃ last t, n.lastLeaf? = some last ∧ last.token? = some t := by
  obtain ⟨t, ht⟩ := Option.isSome_iff_exists.1 h
  obtain ⟨last, hlast, htoken⟩ := Option.bind_eq_some_iff.1 ht
  exact ⟨last, t, hlast, htoken⟩

/-- Behind the text of a token stand its trailing trivia. -/
theorem stop_tokenPlace (id offset : Nat) (t : Token) :
    (tokenPlace id offset t).fullSpan.stop =
      (tokenPlace id offset t).span.stop + Text.byteLength (Trivia.join t.trailing).toList := by
  rw [← Trivia.width_eq]
  rfl

end Node

namespace Tree

open Checker (operation? Operation)

variable {t : Tree} {n last : Placed} {op : Operation}

/-- The fragment for a null operator prints the operand up to its last token and then what stands
behind the mark. -/
theorem exists_cut (file : String) (hwf : n.WellFormed) (hlaid : n.LaidOut)
    (hop : operation? n = some op) (hlast : op.operand.lastLeaf? = some last) :
    ∃ g kept cut rest, (withoutOperator file n).root = some g ∧
      n.print.toList = kept ++ (cut ++ rest) ∧ g.print.toList = kept ++ rest ∧
      last.span.stop = n.fullSpan.start + Text.byteLength kept ∧
      op.token.span.stop = n.fullSpan.start + Text.byteLength (kept ++ cut) := by
  obtain ⟨mark, htokens, hroot⟩ := exists_operand file hwf hop
  obtain ⟨-, hchildren, -⟩ := Checker.operation?_eq_some hop
  obtain ⟨a, k, b, mark', rfl, -⟩ := Node.eq_branch_of_operation hwf hop
  obtain rfl : mark' = mark := by simpa using htokens
  obtain ⟨-, htoken⟩ := List.cons.inj hchildren
  rw [← (List.cons.inj htoken).1]
  have hstop := hlaid.stop_eq
  cases hlaid with
  | branch tile _ below =>
    obtain ⟨hstart, -, tile⟩ := Span.Tile.cons_iff.1 tile
    obtain ⟨-, -, tile⟩ := Span.Tile.cons_iff.1 tile
    have hoperand : op.operand.LaidOut := below _ (by simp)
    obtain ⟨id, offset, t, rfl, ht, hend⟩ := hoperand.lastLeaf? hlast
    have herased : op.operand.erase.lastToken? = some t := (Node.lastToken?_map _ _).trans ht
    obtain ⟨before, hbefore, hupdated⟩ :=
      tokens_updateLast (fun t => { t with trailing := mark'.trailing }) herased
    rw [Node.erase, Node.tokens_map] at hbefore
    have hprint : op.operand.print.toList =
        (spelling before ++ Trivia.join t.leading ++ t.text).toList ++
          (Trivia.join t.trailing).toList := by
      rw [Node.print, hbefore]
      simp [spelling, Token.fullText]
    have hmark : (Node.branch a k [op.operand, .token b mark']).print.toList =
        op.operand.print.toList ++ mark'.fullText.toList := by
      simp [Node.toList_print_branch, Node.print_token]
    refine ⟨_, (spelling before ++ Trivia.join t.leading ++ t.text).toList,
      (Trivia.join t.trailing ++ Trivia.join mark'.leading ++ mark'.text).toList,
      (Trivia.join mark'.trailing).toList, hroot, ?_, ?_, ?_, ?_⟩
    · rw [hmark, hprint]
      simp [Token.fullText]
    · rw [Node.print, hupdated]
      simp [spelling, Token.fullText]
    · have hoperandStop := hoperand.stop_eq
      rw [hprint, Text.byteLength_append, hstart, ← hend] at hoperandStop
      have hplace := Node.stop_tokenPlace id offset t
      change (Node.tokenPlace id offset t).fullSpan.stop = a.fullSpan.start + _ at hoperandStop
      change (Node.tokenPlace id offset t).span.stop = a.fullSpan.start + _
      omega
    · cases below (.token b mark') (by simp) with
      | @token id' offset' =>
        have hplace := Node.stop_tokenPlace id' offset' mark'
        have hmarkStop : (Node.tokenPlace id' offset' mark').fullSpan.stop = a.fullSpan.stop :=
          Span.Tile.nil_iff.1 tile
        change a.fullSpan.stop = a.fullSpan.start + _ at hstop
        rw [hmark, hprint] at hstop
        change (Node.tokenPlace id' offset' mark').span.stop = a.fullSpan.start + _
        simp only [Token.fullText, String.toList_append, Text.byteLength_append] at hstop ⊢
        omega

/-- Removing a null operator deletes what stands between the last token of the operand and the end
of the mark. -/
theorem Derived.apply_removing (ht : t.Derived) (hn : n ∈ t.nodes) (hop : operation? n = some op)
    (hlast : op.operand.lastLeaf? = some last) :
    ∃ edit result fragment, FixEdit.removing t (some n.id) = .ok edit ∧ edit.apply t = .ok result ∧
      t.removeOperator n.id = some fragment ∧ t.replace n.id fragment = some result ∧
      Text.Without t.text last.span.stop op.token.span.stop result.text := by
  obtain ⟨root, hroot, hwf⟩ := ht.root
  have hplaced : t.placed = some root.placed := by simp [placed, hroot]
  have hmem : n ∈ root.placed.preorder := nodes_of_placed hplaced ▸ hn
  have hlaid := (Node.laidOut_placed hwf).1.of_mem hmem
  obtain ⟨g, kept, cut, rest, hg, hprint, hfragment, hstart, hstop⟩ :=
    exists_cut t.file (((Node.wellFormed_placed root).2 hwf).of_mem hmem) hlaid hop hlast
  have hremovable : t.Removable [n] := ⟨by simpa using hn, by simp [hop], List.pairwise_singleton _ _⟩
  have hlt : n.id < t.size := lt_size_iff.2 ⟨n, hn, rfl⟩
  obtain ⟨result, hresult⟩ : ∃ result, t.replaceMany (t.removals [n]) = some result :=
    ⟨_, replaceMany_eq hplaced (by simp [removals, hg]) (by simpa [removals] using hlt)⟩
  have htext := (hremovable.pass ht (by simp) hresult).text
  have hreplace : t.replace n.id (Tree.withoutOperator t.file n) = some result := hresult
  refine ⟨FixEdit.removal t n, result, Tree.withoutOperator t.file n, FixEdit.removing_eq hn, ?_, ?_,
    hreplace, ?_⟩
  · simp [FixEdit.apply, FixEdit.removal, hreplace]
  · simp [removeOperator, node?_eq_some_iff.2 ⟨hn, rfl⟩]
  · obtain ⟨-, -, -, hpositioned⟩ := ht.positions_tile
    obtain ⟨before, after, hsource, hbefore, hlength⟩ :=
      Text.exists_of_slice? (hpositioned n hn).print
    have hfragmentText : (FixEdit.removal t n).textChange.newText = g.print := by
      simp [FixEdit.textChange, FixEdit.removal, text, hg]
    have hafter := TextChange.toList_applyAll_singleton (c := (FixEdit.removal t n).textChange)
      hsource hbefore (show n.fullSpan.length = _ by rw [Span.length, hlength]; omega)
    rw [List.map_singleton] at htext
    rw [htext, hfragmentText, hfragment] at hafter
    refine Text.without_of_toList_eq (before ++ kept) cut (rest ++ after) ?_ ?_ ?_ ?_
    · rw [hsource, hprint]
      simp
    · rw [hafter]
      simp
    · rw [hstart, hbefore, Text.byteLength_append]
    · rw [hstop, hbefore, List.append_assoc, Text.byteLength_append before]

/-- The fragment for a null operator counts as the same as its operand, and so do the trees in which
either has taken its place. -/
theorem Derived.sameAs_removing (ht : t.Derived) (hn : n ∈ t.nodes) (hop : operation? n = some op) :
    ∃ fragment operand u v, t.removeOperator n.id = some fragment ∧
      t.extract op.operand.id = some operand ∧ fragment.sameAs operand = true ∧
      t.replace n.id fragment = some u ∧ t.replace n.id operand = some v ∧ u.sameAs v = true := by
  obtain ⟨root, hroot, hwf⟩ := ht.root
  have hplaced : t.placed = some root.placed := by simp [placed, hroot]
  have hnodes := nodes_of_placed hplaced
  have hmem : n ∈ root.placed.preorder := hnodes ▸ hn
  obtain ⟨mark, -, hfragment⟩ :=
    exists_operand t.file (((Node.wellFormed_placed root).2 hwf).of_mem hmem) hop
  have hoperand : op.operand ∈ t.nodes := by
    rw [hnodes]
    refine Node.mem_preorder_trans (Node.mem_preorder_of_mem_children ?_) hmem
    simp [(Checker.operation?_eq_some hop).2.1]
  have houtline := outline_updateLast (f := fun t => { t with trailing := mark.trailing })
    (fun _ => ⟨rfl, rfl⟩) op.operand.erase
  have hlt : n.id < t.size := lt_size_iff.2 ⟨n, hn, rfl⟩
  have hreplace (fragment : Tree) (h : fragment.root.isSome = true) :
      t.replace n.id fragment = some ⟨t.file, some (root.placed.substitute
        (lastFragment? [(n.id, fragment)]))⟩ :=
    replaceMany_eq hplaced (by simpa using h) (by simpa using hlt)
  refine ⟨Tree.withoutOperator t.file n, ⟨t.file, some op.operand.erase⟩, _, _, ?_, ?_, ?_,
    hreplace _ (by simp [hfragment]), hreplace _ rfl, ?_⟩
  · simp [removeOperator, node?_eq_some_iff.2 ⟨hn, rfl⟩]
  · simp [Tree.extract, node?_eq_some_iff.2 ⟨hoperand, rfl⟩]
  · exact (sameAs_iff hfragment rfl).2 houtline
  · refine (sameAs_iff rfl rfl).2 (Node.outline_substitute_congr (fun id => ?_) root.placed)
    rw [lastFragment?_singleton, lastFragment?_singleton]
    split
    · rw [hfragment, Option.map_some, Option.map_some, houtline]
    · rfl

end Tree

open Checker (operation?) in
/-- In the tree of every source text, removing the operator of a null operator expression deletes
from the text the bytes from the end of the operand's last token to the end of the mark, and no
others; the fragment counts as the same as the operand, and the tree as the one in which the operand
takes the place of the expression. -/
theorem removing_deletes_interval (file text : String) {n : Placed} {op : Checker.Operation}
    (hn : n ∈ (parse file text).tree.nodes) (hop : operation? n = some op) :
    let t := (parse file text).tree
    ∃ last edit result fragment operand replaced,
      op.operand.lastLeaf? = some last ∧ FixEdit.removing t (some n.id) = .ok edit ∧
      edit.apply t = .ok result ∧
      Text.Without text last.span.stop op.token.span.stop result.text ∧
      t.removeOperator n.id = some fragment ∧ t.extract op.operand.id = some operand ∧
      fragment.sameAs operand = true ∧ t.replace n.id operand = some replaced ∧
      result.sameAs replaced = true := by
  intro t
  have ht : t.Derived := .parse file text
  obtain ⟨root, hroot, -, -, hshaped⟩ := shaped_parse file text
  have hmem : n ∈ root.preorder := Tree.nodes_of_placed hroot ▸ hn
  obtain ⟨hkind, hchildren, -⟩ := Checker.operation?_eq_some hop
  obtain ⟨last, -, hlast, -⟩ :=
    (hshaped.endsInToken hmem hkind op.operand (by simp [hchildren])).exists_lastLeaf
  obtain ⟨edit, result, fragment, hedit, happly, hfragment, hresult, hwithout⟩ :=
    ht.apply_removing hn hop hlast
  obtain ⟨fragment', operand, u, replaced, hfragment', hoperand, hsame, hu, hreplaced, hsame'⟩ :=
    ht.sameAs_removing hn hop
  obtain rfl := Option.some.inj (hfragment.symm.trans hfragment')
  obtain rfl := Option.some.inj (hresult.symm.trans hu)
  have htext : t.text = text := (parse_lossless file text).1
  exact ⟨last, edit, result, fragment, operand, replaced, hlast, hedit, happly, htext ▸ hwithout,
    hfragment, hoperand, hsame, hreplaced, hsame'⟩

/-- In `/* a */ a /* b */ /* c */ ! /* d */.m(;` the comments between the name and the mark go with
the mark. -/
theorem removing_deletes_interval_comments :
    let t := (parse "" "/* a */ a /* b */ /* c */ ! /* d */.m(;").tree
    ∃ n ∈ t.nodes, ∃ op last edit result fragment operand replaced,
      Checker.operation? n = some op ∧ op.operand.lastLeaf? = some last ∧
      FixEdit.removing t (some n.id) = .ok edit ∧ edit.apply t = .ok result ∧
      Text.Without "/* a */ a /* b */ /* c */ ! /* d */.m(;" last.span.stop op.token.span.stop
        result.text ∧
      t.removeOperator n.id = some fragment ∧ t.extract op.operand.id = some operand ∧
      fragment.sameAs operand = true ∧ t.replace n.id operand = some replaced ∧
      result.sameAs replaced = true ∧ result.text = "/* a */ a /* d */.m(;" := by
  intro t
  have hfound : ∃ n ∈ t.nodes, (Checker.operation? n).isSome = true ∧ n.id = 4 := by
    decide +kernel
  obtain ⟨n, hn, hsome, hid⟩ := hfound
  obtain ⟨op, hop⟩ := Option.isSome_iff_exists.1 hsome
  obtain ⟨last, edit, result, fragment, operand, replaced, hlast, hedit, happly, hwithout, hfragment,
    hoperand, hsame, hreplaced, hsame'⟩ :=
    removing_deletes_interval "" "/* a */ a /* b */ /* c */ ! /* d */.m(;" hn hop
  have htext : ((FixEdit.removing t (some 4)).bind fun e => (e.apply t).map Tree.text).toOption =
      some "/* a */ a /* d */.m(;" := by decide +kernel
  rw [← hid, hedit] at htext
  change ((edit.apply t).map Tree.text).toOption = _ at htext
  rw [happly] at htext
  exact ⟨n, hn, op, last, edit, result, fragment, operand, replaced, hop, hlast, hedit, happly,
    hwithout, hfragment, hoperand, hsame, hreplaced, hsame', Option.some.inj htext⟩

end NullLint
