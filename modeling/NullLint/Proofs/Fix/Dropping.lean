import Mathlib.Logic.Relation
import NullLint.Proofs.Fix.Removal
import NullLint.Proofs.Lexer.Spacing
import NullLint.Proofs.Syntax.Endings

/-!
# Tokens that a removal drops

Removing a null operator drops its mark. The token before the mark takes over the trivia behind it,
and no other token changes (`Drop`). The token before a mark has a text and is no slash, which
nothing behind could turn into a comment, so the tokens stay spaced. Nor is it the `?` of an access,
which has no trivia behind it.
-/

namespace NullLint

open Relation (ReflTransGen)

/-! ## Dropping tokens -/

/-- The token is no `?`, has a text and is no slash. -/
def Token.IsAnchor (t : Token) : Prop := t.kind ≠ .question ∧ t.text ≠ "" ∧ t.text ≠ "/"

/-- A token is dropped, and the one before it takes over the trivia behind it. -/
inductive Drop : List Token → List Token → Prop where
  | mk (before : List Token) {t : Token} (mark : Token) (after : List Token) (anchor : t.IsAnchor) :
      Drop (before ++ t :: mark :: after) (before ++ { t with trailing := mark.trailing } :: after)

namespace Drop

variable {ts us ts' us' : List Token}

theorem append_left (vs : List Token) (h : Drop ts us) : Drop (vs ++ ts) (vs ++ us) := by
  obtain ⟨before, mark, after, anchor⟩ := h
  rw [← List.append_assoc, ← List.append_assoc]
  exact .mk _ mark after anchor

theorem append_right (vs : List Token) (h : Drop ts us) : Drop (ts ++ vs) (us ++ vs) := by
  obtain ⟨before, mark, after, anchor⟩ := h
  simpa using .mk before mark (after ++ vs) anchor

theorem append_closure (h : ReflTransGen Drop ts us) (h' : ReflTransGen Drop ts' us') :
    ReflTransGen Drop (ts ++ ts') (us ++ us') :=
  (h.lift (· ++ ts') fun _ _ => append_right ts').trans
    (h'.lift (us ++ ·) fun _ _ => append_left us)

theorem flatMap_closure {α β : Type} {f : α → List Token} {g : β → List Token} {r : α → β}
    {cs : List α} (h : ∀ c ∈ cs, ReflTransGen Drop (f c) (g (r c))) :
    ReflTransGen Drop (cs.flatMap f) ((cs.map r).flatMap g) := by
  induction cs with
  | nil => exact .refl
  | cons c cs ih =>
    rw [List.map_cons, List.flatMap_cons, List.flatMap_cons]
    exact append_closure (h c (by simp)) (ih fun d hd => h d (by simp [hd]))

theorem spaced_closure {lineStart : Bool} (h : ReflTransGen Drop ts us)
    (hts : Lexer.Spaced lineStart ts) : Lexer.Spaced lineStart us := by
  induction h with
  | refl => exact hts
  | tail _ step ih =>
    obtain ⟨before, mark, after, anchor⟩ := step
    exact ih.drop anchor.2.1 anchor.2.2

theorem missing_closure (h : ReflTransGen Drop ts us) (hts : ∀ t ∈ ts, t.missing = false) :
    ∀ t ∈ us, t.missing = false := by
  induction h with
  | refl => exact hts
  | tail _ step ih =>
    obtain ⟨before, mark, after, anchor⟩ := step
    simp only [List.forall_mem_append, List.forall_mem_cons] at ih ⊢
    exact ⟨ih.1, ih.2.1, ih.2.2.2⟩

end Drop

/-! ## Operands -/

namespace Node

open Checker (isOperatorKind)

variable {α β : Type}

/-- The last token is an anchor. -/
def EndsAnchored (n : Node α) : Prop := ∃ t, n.lastToken? = some t ∧ t.IsAnchor

/-- Every null operator in the node stands behind an anchor. -/
def Anchored (n : Node α) : Prop :=
  ∀ m ∈ n.preorder, isOperatorKind m.kind = true →
    ∀ operand mark, m.children = [operand, mark] → operand.EndsAnchored

theorem Anchored.of_mem {m n : Node α} (h : n.Anchored) (hm : m ∈ n.preorder) : m.Anchored :=
  fun o ho => h o (mem_preorder_trans ho hm)

theorem anchored_token (a : α) (t : Token) : (token a t).Anchored := by
  intro m hm _ operand mark hchildren
  obtain rfl : m = .token a t := by simpa using hm
  cases hchildren

theorem anchored_branch {a : α} {k : Kind} {cs : List (Node α)} :
    (branch a k cs).Anchored ↔
      (isOperatorKind k = true → ∀ operand mark, cs = [operand, mark] → operand.EndsAnchored) ∧
        ∀ c ∈ cs, c.Anchored := by
  constructor
  · intro h
    refine ⟨h _ (self_mem_preorder _), fun c hc => h.of_mem ?_⟩
    exact mem_preorder_of_mem_children (n := branch a k cs) hc
  · rintro ⟨hk, hcs⟩ m hm
    rcases mem_preorder_branch.1 hm with rfl | ⟨c, hc, hm⟩
    · exact hk
    · exact hcs c hc m hm

@[simp] theorem anchored_map (f : α → β) (n : Node α) : (n.map f).Anchored ↔ n.Anchored := by
  induction n with
  | token a t => exact iff_of_true (anchored_token _ t) (anchored_token a t)
  | branch a k cs ih =>
    rw [map_branch, anchored_branch, anchored_branch, List.forall_mem_map]
    refine and_congr (forall_congr' fun _ => ⟨fun h o p hcs => ?_, fun h o p hcs => ?_⟩)
      (forall₂_congr ih)
    · subst hcs
      simpa [EndsAnchored] using h (o.map f) (p.map f) rfl
    · obtain ⟨o, p, rfl, rfl, -⟩ : ∃ o' p', cs = [o', p'] ∧ o'.map f = o ∧ p'.map f = p := by
        simpa [List.map_eq_cons_iff] using hcs
      simpa [EndsAnchored] using h o p rfl

theorem anchored_placed (n : Green) : n.placed.Anchored ↔ n.Anchored := by
  rw [← anchored_map fun _ => (), ← erase, erase_placed]

theorem tokens_subset {m n : Node α} (hm : m ∈ n.preorder) : m.tokens ⊆ n.tokens := by
  rw [← filterMap_token?_preorder, ← filterMap_token?_preorder]
  exact ((preorder_sublist hm).filterMap _).subset

/-- In a conforming node the operand of a null operator ends with a token that is no `?` and no
slash. -/
theorem Conforms.exists_last_of_operand {m n operand mark : Node α} (h : n.Conforms)
    (hm : m ∈ n.preorder) (hop : isOperatorKind m.kind = true)
    (hchildren : m.children = [operand, mark]) :
    ∃ t ∈ n.tokens, operand.lastToken? = some t ∧ Grammar.isEnding t.kind = true := by
  have hin : operand ∈ n.preorder :=
    mem_preorder_trans (mem_preorder_of_mem_children (by simp [hchildren])) hm
  have hending : Grammar.isEnding operand.kind = true := by
    have htoken : m.token? = none := by
      cases m with
      | token a t => cases hchildren
      | branch a k cs => rfl
    have hword := h m hm htoken
    have hkind : m.kind = .conditionalAccessExpression ∨
        m.kind = .suppressNullableWarningExpression := by
      simpa [isOperatorKind] using hop
    have halone : operand.kind.standsAlone = true := by
      rw [hchildren, List.map_cons, List.map_cons] at hword
      rcases hkind with hk | hk
      · rw [hk] at hword
        exact (Grammar.cons_mem_oneOf_mul.1 hword).1
      · rw [hk] at hword
        exact (Grammar.cons_mem_oneOf_mul.1 hword).1
    revert halone
    cases operand.kind <;> decide
  have hconforms : operand.Conforms := fun o ho => h o (mem_preorder_trans ho hin)
  obtain ⟨t, ht, hk⟩ := hconforms.exists_lastToken hending
  exact ⟨t, tokens_subset hin (mem_tokens_of_lastToken? ht), ht, hk⟩

/-- In a conforming node whose tokens are lexemes, marks stand behind anchors. -/
theorem Conforms.anchored {text : String} {n : Node α} (h : n.Conforms)
    (htokens : ∀ t ∈ n.tokens, ∃ l ∈ (Lexer.lex text).1, l.token = t) : n.Anchored := by
  intro m hm hop operand mark hchildren
  obtain ⟨t, hmem, ht, hk⟩ := h.exists_last_of_operand hm hop hchildren
  obtain ⟨l, hl, rfl⟩ := htokens t hmem
  simp only [Grammar.isEnding, Bool.and_eq_true, bne_iff_ne] at hk
  obtain ⟨⟨⟨⟨⟨hslash, hquestion⟩, hfile⟩, -⟩, -⟩, -⟩ := hk
  exact ⟨_, ht, hquestion, Lexer.text_ne_lexFrom true 0 text.toList l hl hfile,
    Lexer.text_ne_slash_lexFrom true 0 text.toList l hl hslash⟩

end Node

/-! ## Fragments -/

namespace Tree

open Checker (operation? Operation isOperatorKind)

theorem lastToken?_updateLast (f : Token → Token) (n : Green) :
    (updateLast f n).lastToken? = n.lastToken?.map f := by
  induction n using Node.induction with
  | token a t => simp [updateLast]
  | branch a k cs ih =>
    rcases List.eq_nil_or_concat cs with rfl | ⟨before, c, rfl⟩
    · rfl
    · rw [List.concat_eq_append] at ih ⊢
      rw [updateLast_group, Node.lastToken?_branch, Node.lastToken?_branch]
      simpa using ih c (by simp)

/-- Changing the last token changes the last one of the tokens. -/
theorem tokens_updateLast (f : Token → Token) {n : Green} {t : Token} (h : n.lastToken? = some t) :
    ∃ before, n.tokens = before ++ [t] ∧ (updateLast f n).tokens = before ++ [f t] := by
  induction n using Node.induction with
  | token a u =>
    obtain rfl : u = t := by simpa using h
    exact ⟨[], rfl, rfl⟩
  | branch a k cs ih =>
    rcases List.eq_nil_or_concat cs with rfl | ⟨init, c, rfl⟩
    · cases h
    · rw [List.concat_eq_append] at ih h ⊢
      rw [Node.lastToken?_branch] at h
      obtain ⟨before, htokens, hupdated⟩ := ih c (by simp) (by simpa using h)
      refine ⟨init.flatMap Node.tokens ++ before, ?_, ?_⟩
      · simp [htokens]
      · rw [updateLast_group]
        simp [hupdated]

theorem anchored_updateLast {f : Token → Token} {n : Green} (h : n.Anchored) :
    (updateLast f n).Anchored := by
  induction n using Node.induction with
  | token a t => exact Node.anchored_token _ _
  | branch a k cs ih =>
    obtain ⟨hk, hcs⟩ := Node.anchored_branch.1 h
    rcases List.eq_nil_or_concat cs with rfl | ⟨init, c, rfl⟩
    · exact h
    · rw [List.concat_eq_append] at ih hk hcs ⊢
      rw [updateLast_group, Node.anchored_branch]
      constructor
      · -- the last token lies in the mark, not in the operand
        intro hop operand mark hchildren
        obtain rfl : init = [operand] := by
          have hinit := congrArg List.dropLast hchildren
          rwa [List.dropLast_concat] at hinit
        exact hk hop operand c rfl
      · rw [List.forall_mem_append] at hcs ⊢
        exact ⟨hcs.1, by simpa using ih c (by simp) (hcs.2 c (by simp))⟩

/-- A node keeps its own leading trivia. -/
theorem updateFirst_self (n : Green) {leading : Option (List Trivia)}
    (h : leading = (n.firstLeaf?.bind Node.token?).map Token.leading) :
    updateFirst (fun t => { t with leading := leading.getD [] }) n = n := by
  subst h
  fun_induction Node.firstLeaf? n with
  | case1 a t => rfl
  | case2 a k => rfl
  | case3 a k c cs ih =>
    rw [updateFirst, ih]

/-- The fragment for a null operator is its operand, whose last token has taken over the trivia
behind the mark. -/
theorem exists_operand {n : Placed} {op : Operation} (file : String) (hwf : n.WellFormed)
    (hop : operation? n = some op) :
    ∃ mark : Token, n.tokens = op.operand.tokens ++ [mark] ∧
      (withoutOperator file n).root =
        some (updateLast (fun t => { t with trailing := mark.trailing }) op.operand.erase) := by
  obtain ⟨a, k, b, mark, rfl, -⟩ := Node.eq_branch_of_operation hwf hop
  refine ⟨mark, by simp, ?_⟩
  rw [withoutOperator_eq file hop]
  have hfirst : ((Node.branch a k [op.operand, .token b mark]).firstLeaf?.bind Node.token?).map
      Token.leading = (op.operand.erase.firstLeaf?.bind Node.token?).map Token.leading := by
    rw [Node.erase, Node.firstLeaf?_map]
    rfl
  have hself := updateFirst_self op.operand.erase hfirst
  simp only [withTriviaOf, Option.bind_some, Option.map_some, hself]
  rfl

/-- Removing a null operator behind an anchor drops its mark. -/
theorem exists_dropped {n : Placed} {op : Operation} (file : String) (hwf : n.WellFormed)
    (hn : n.Anchored) (hop : operation? n = some op) :
    ∃ g, (withoutOperator file n).root = some g ∧ ReflTransGen Drop n.tokens g.tokens ∧
      g.Anchored ∧ g.EndsAnchored := by
  obtain ⟨hkind, hchildren, -⟩ := Checker.operation?_eq_some hop
  obtain ⟨t, ht, hanchor⟩ := hn n (Node.self_mem_preorder n) hkind _ _ hchildren
  obtain ⟨mark, htokens, hroot⟩ := exists_operand file hwf hop
  have hlast : op.operand.erase.lastToken? = some t := (Node.lastToken?_map _ _).trans ht
  have hoperand : op.operand.Anchored :=
    hn.of_mem (Node.mem_preorder_of_mem_children (by simp [hchildren]))
  obtain ⟨before, hbefore, hupdated⟩ :=
    tokens_updateLast (fun t => { t with trailing := mark.trailing }) hlast
  refine ⟨_, hroot, ?_, anchored_updateLast ((Node.anchored_map _ _).2 hoperand), ?_⟩
  · have herased : op.operand.erase.tokens = op.operand.tokens := Node.tokens_map _ _
    rw [htokens, ← herased, hbefore, hupdated, List.append_assoc]
    exact .single (.mk before mark [] hanchor)
  · refine ⟨{ t with trailing := mark.trailing }, ?_, hanchor⟩
    rw [lastToken?_updateLast, hlast]
    rfl

end Tree

/-! ## Substitution -/

namespace Node

variable {σ : Nat → Option Green} {n : Placed}

/-- If the fragments drop tokens of what they replace, so does the whole. -/
theorem drops_substitute (h : ∀ m ∈ n.preorder, ∀ g, σ m.id = some g →
    ReflTransGen Drop m.tokens g.tokens) : ReflTransGen Drop n.tokens (n.substitute σ).tokens := by
  induction n using replacing_induction σ with
  | replaced n g hg =>
    rw [substitute_of_eq_some hg]
    exact h n (self_mem_preorder n) g hg
  | token a t hnone =>
    rw [substitute_token hnone]
    exact .refl
  | branch a k cs hnone ih =>
    rw [substitute_branch hnone, tokens_branch, tokens_branch]
    refine Drop.flatMap_closure fun c hc => ih c hc fun m hm => h m ?_
    exact mem_preorder_branch.2 (.inr ⟨c, hc, hm⟩)

theorem endsAnchored_substitute (hσ : ∀ id g, σ id = some g → g.EndsAnchored)
    (h : n.EndsAnchored) : (n.substitute σ).EndsAnchored := by
  induction n using replacing_induction σ with
  | replaced n g hg =>
    rw [substitute_of_eq_some hg]
    exact hσ _ g hg
  | token a t hnone =>
    rw [substitute_token hnone]
    simpa [EndsAnchored] using h
  | branch a k cs hnone ih =>
    obtain ⟨t, ht, hanchor⟩ := h
    rw [lastToken?_branch] at ht
    obtain ⟨c, hc, ht⟩ := Option.bind_eq_some_iff.1 ht
    rw [substitute_branch hnone, EndsAnchored, lastToken?_branch, List.getLast?_map, hc]
    exact ih c (List.mem_of_getLast? hc) ⟨t, ht, hanchor⟩

/-- Marks still stand behind anchors once operators are replaced by their operands. -/
theorem anchored_substitute (hσ : ∀ id g, σ id = some g → g.Anchored ∧ g.EndsAnchored)
    (h : n.Anchored) : (n.substitute σ).Anchored := by
  induction n using replacing_induction σ with
  | replaced n g hg =>
    rw [substitute_of_eq_some hg]
    exact (hσ _ g hg).1
  | token a t hnone =>
    rw [substitute_token hnone]
    exact anchored_token _ t
  | branch a k cs hnone ih =>
    obtain ⟨hk, hcs⟩ := anchored_branch.1 h
    rw [substitute_branch hnone, anchored_branch]
    constructor
    · intro hop operand mark hchildren
      obtain ⟨o, p, rfl, rfl, -⟩ : ∃ o p, cs = [o, p] ∧ o.substitute σ = operand ∧
          p.substitute σ = mark := by
        simpa [List.map_eq_cons_iff] using hchildren
      exact endsAnchored_substitute (fun id g hg => (hσ id g hg).2) (hk hop o p rfl)
    · intro d hd
      obtain ⟨c, hc, rfl⟩ := List.mem_map.1 hd
      exact ih c hc (hcs c hc)

end Node

end NullLint
