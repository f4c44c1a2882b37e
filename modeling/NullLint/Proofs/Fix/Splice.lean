import NullLint.Fix.TextChange
import NullLint.Proofs.Syntax.Positions
import NullLint.Proofs.Text.Cuts

/-!
# Splicing and substitution

Splicing the texts of fragments into the text of a tree spells the tree with the fragments put in.
The changes are those of the outermost nodes replaced, each at the full span of its node; the text
between them is the text of the tokens that the substitution copies.
-/

namespace NullLint

namespace Node

/-- One node ends before the other begins. -/
def Precedes (a b : Placed) : Prop := a.fullSpan.stop ≤ b.fullSpan.start

/-- The outermost nodes replaced lie one after the other. -/
theorem pairwise_outermost (σ : Nat → Option Green) {n : Placed} (hlaid : n.LaidOut) :
    (n.outermost σ).Pairwise Precedes := by
  induction n using replacing_induction σ with
  | replaced n g hσ => simp [outermost_of_eq_some hσ]
  | token a t hσ => simp [outermost_token hσ]
  | branch a k cs hσ ih =>
    cases hlaid with
    | branch tile _ below =>
      rw [outermost_branch hσ]
      refine List.pairwise_flatMap.2 ⟨fun c hc => ih c hc (below c hc), ?_⟩
      refine (List.pairwise_map.1 tile.pairwise).imp_of_mem fun {c d} hc hd hcd m hm m' hm' => ?_
      have hin := (below c hc).within_fullSpan (of_mem_outermost hm).1
      have hin' := (below d hd).within_fullSpan (of_mem_outermost hm').1
      exact Nat.le_trans hin.le_hi (Nat.le_trans hcd hin'.lo_le)

end Node

namespace TextChange

/-- The text before the first change is kept. -/
theorem splice_append (offset : Nat) (kept rest : List Char) {changes : List TextChange}
    (h : ∀ c ∈ changes, offset + Text.byteLength kept ≤ c.start) :
    splice offset (kept ++ rest) changes =
      kept ++ splice (offset + Text.byteLength kept) rest changes := by
  induction changes with
  | nil => rfl
  | cons c cs ih =>
    have hc := h c (by simp)
    have hcs := ih fun d hd => h d (by simp [hd])
    have hstart : c.start - offset =
        Text.byteLength kept + (c.start - (offset + Text.byteLength kept)) := by omega
    have hlt : ¬ c.start < offset := by omega
    have hlt' : ¬ c.start < offset + Text.byteLength kept := by omega
    simp only [splice, if_neg hlt, if_neg hlt', hstart, Text.splitAt?_append_add]
    cases hsplit : Text.splitAt? rest (c.start - (offset + Text.byteLength kept)) with
    | none => exact hcs
    | some p =>
      obtain ⟨between, tail⟩ := p
      simp only [Option.map_some]
      cases hcut : Text.splitAt? tail c.length with
      | none => exact hcs
      | some q => simp only [List.append_assoc]

/-- The change that puts the fragment of `σ` in the place of a node. -/
def replacing (σ : Nat → Option Green) (n : Placed) : TextChange :=
  ⟨n.fullSpan.start, n.fullSpan.length, ((σ n.id).map Node.print).getD ""⟩

variable {σ : Nat → Option Green}

/-- From the start of a node on, its changes turn its text into that of the node substituted. -/
def Spells (σ : Nat → Option Green) (n : Placed) : Prop :=
  ∀ (rest : List Char) (later : List TextChange), (∀ c ∈ later, n.fullSpan.stop ≤ c.start) →
    splice n.fullSpan.start (n.print.toList ++ rest)
        ((n.outermost σ).map (replacing σ) ++ later) =
      (n.substitute σ).print.toList ++ splice n.fullSpan.stop rest later

theorem spells_of_eq_some {n : Placed} {g : Green} (hlaid : n.LaidOut) (hσ : σ n.id = some g) :
    Spells σ n := by
  intro rest later _
  have hlength : n.fullSpan.length = Text.byteLength n.print.toList := by
    rw [Span.length, hlaid.stop_eq, Nat.add_sub_cancel_left]
  have hstop : (replacing σ n).stop = n.fullSpan.stop := by
    rw [hlaid.stop_eq, ← hlength]
    rfl
  have hcut : Text.splitAt? (n.print.toList ++ rest) (replacing σ n).length =
      some (n.print.toList, rest) := by
    rw [show (replacing σ n).length = n.fullSpan.length from rfl, hlength, Text.splitAt?_append]
  rw [Node.outermost_of_eq_some hσ, Node.substitute_of_eq_some hσ]
  have hstart : (replacing σ n).start = n.fullSpan.start := rfl
  have htext : (replacing σ n).newText = g.print := by simp [replacing, hσ]
  simp only [List.map_cons, List.map_nil, List.cons_append, List.nil_append, splice, hstart,
    Nat.lt_irrefl, if_false, Nat.sub_self, Text.splitAt?, hcut, hstop, htext]

theorem spells_token {a : Place} {t : Token} (hlaid : (Node.token a t).LaidOut)
    (hσ : σ a.id = none) : Spells σ (.token a t) := by
  intro rest later hlater
  have hprint : ((Node.token a t).substitute σ).print = (Node.token a t).print := by
    rw [Node.substitute_token hσ, Node.print_token, Node.print_token]
  rw [Node.outermost_token hσ, hprint, List.map_nil, List.nil_append]
  rw [hlaid.stop_eq] at hlater ⊢
  exact splice_append _ _ _ hlater

/-- The changes in a list of consecutive nodes. -/
theorem splice_of_tile {lo hi : Nat} {cs : List Placed}
    (tile : Span.Tile lo (cs.map Node.fullSpan) hi) (hlaid : ∀ c ∈ cs, c.LaidOut)
    (hcs : ∀ c ∈ cs, Spells σ c) {later : List TextChange} (hlater : ∀ c ∈ later, hi ≤ c.start)
    (rest : List Char) :
    splice lo ((cs.flatMap fun c => c.print.toList) ++ rest)
        ((cs.flatMap (Node.outermost σ)).map (replacing σ) ++ later) =
      (cs.flatMap fun c => (c.substitute σ).print.toList) ++ splice hi rest later := by
  induction cs generalizing lo with
  | nil =>
    cases tile
    rfl
  | cons c cs ih =>
    obtain ⟨rfl, -, tile'⟩ := Span.Tile.cons_iff.1 tile
    have hrest := ih tile' (fun d hd => hlaid d (by simp [hd])) fun d hd => hcs d (by simp [hd])
    -- The changes in later nodes begin at or after the end of this one.
    have hafter : ∀ d ∈ (cs.flatMap (Node.outermost σ)).map (replacing σ) ++ later,
        c.fullSpan.stop ≤ d.start := by
      intro d hd
      rcases List.mem_append.1 hd with hd | hd
      · obtain ⟨m, hm, rfl⟩ := List.mem_map.1 hd
        obtain ⟨e, he, hm⟩ := List.mem_flatMap.1 hm
        have hin := (hlaid e (by simp [he])).within_fullSpan (Node.of_mem_outermost hm).1
        exact Nat.le_trans (tile'.of_mem (List.mem_map_of_mem he)).1 hin.lo_le
      · exact Nat.le_trans tile'.le (hlater d hd)
    have hc := hcs c (by simp) ((cs.flatMap fun c => c.print.toList) ++ rest) _ hafter
    simp only [List.flatMap_cons, List.map_append, List.append_assoc] at hc ⊢
    rw [hc, hrest]

/-- Splicing in the fragments of the outermost nodes replaced spells the node substituted. -/
theorem spells_substitute {n : Placed} (hlaid : n.LaidOut) : Spells σ n := by
  induction n using Node.replacing_induction σ with
  | replaced n g hσ => exact spells_of_eq_some hlaid hσ
  | token a t hσ => exact spells_token hlaid hσ
  | branch a k cs hσ ih =>
    intro rest later hlater
    cases hlaid with
    | branch tile _ below =>
      have hcs : ∀ c ∈ cs, Spells σ c := fun c hc => ih c hc (below c hc)
      have hchildren := splice_of_tile tile below hcs hlater rest
      rw [Node.outermost_branch hσ, Node.substitute_branch hσ, Node.toList_print_branch,
        Node.toList_print_branch, List.flatMap_map]
      exact hchildren

theorem pairwise_replacing {n : Placed} (hlaid : n.LaidOut) :
    ((n.outermost σ).map (replacing σ)).Pairwise fun a b => a.before b = true := by
  have hpairwise := Node.pairwise_outermost σ hlaid
  refine List.pairwise_map.2 (hpairwise.imp_of_mem fun {a b} ha _ hab => ?_)
  have hle : a.fullSpan.stop ≤ b.fullSpan.start := hab
  have hin := (hlaid.within_fullSpan (Node.of_mem_outermost ha).1).ordered
  simp only [before, Bool.or_eq_true, Bool.and_eq_true, decide_eq_true_eq, beq_iff_eq]
  simp only [replacing, Span.length]
  omega

/-- Applied to the text of a tree, the changes of the outermost nodes replaced spell the tree
substituted. -/
theorem applyAll_replacing (σ : Nat → Option Green) {n : Placed} (hlaid : n.LaidOut)
    (hstart : n.fullSpan.start = 0) :
    applyAll n.print ((n.outermost σ).map (replacing σ)) = (n.substitute σ).print := by
  have hn : Spells σ n := spells_substitute hlaid
  have hspells := hn [] [] (by simp)
  simp only [List.append_nil, hstart, splice] at hspells
  rw [applyAll, List.mergeSort_of_pairwise (pairwise_replacing hlaid), hspells,
    String.ofList_toList]

end TextChange

end NullLint
