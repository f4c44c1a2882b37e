import NullLint.Check.Checker
import NullLint.Proofs.Parser.Accepting
import NullLint.Proofs.Parser.Lookahead
import NullLint.Proofs.Syntax.Numbering

/-!
# Trees that have lost null operators

A tree loses null operators if some of its `a?` and `a!` give way to `a` (`Node.Loses`). Its tokens
keep their kinds and what stands before them; behind them other trivia may come to stand, though
not behind a `?`, which belongs to an access only if nothing separates the two.

A statement that is an expression may then spell a declaration. A tree without such statements is
plain (`Node.Plain`).
-/

namespace NullLint

open Checker (isOperatorKind)
open Lookahead

/-- Branches of the kind are no null operators, and no statements that could spell something
else. -/
def Kind.isSteady (k : Kind) : Bool := !isOperatorKind k && k != .expressionStatement

/-! ## Plain trees -/

/-- Whether lookahead takes the tokens for the beginning of a declaration. -/
def declares (ts : List Token) : Bool := declarationAhead { rest := ts.map fun t => ⟨t, 0⟩ }

/-- A declaration has more than one token. -/
theorem declares_singleton (t : Token) : declares [t] = false := by
  by_cases hvar : t.kind = .varKeyword
  · simp [declares, declarationAhead, typeEnd?, simpleTypeEnd?, Lexeme.kind, hvar, suffixEnd,
      dottedEnd?_stop]
  by_cases hname : t.kind = .identifier
  · simp [declares, declarationAhead, typeEnd?, simpleTypeEnd?, Lexeme.kind, hname, suffixEnd,
      dottedEnd?_stop]
  · simp [declares, declarationAhead, typeEnd?, simpleTypeEnd?, Lexeme.kind, hvar, hname]

namespace Node

variable {α β : Type}

/-- No statement of the tree that is an expression spells a declaration. -/
def Plain (n : Node α) : Prop :=
  ∀ m ∈ n.preorder, m.kind = .expressionStatement → declares m.tokens = false

theorem plain_token (a : α) (t : Token) : (token a t).Plain := by
  intro m hm _
  obtain rfl : m = .token a t := by simpa using hm
  exact declares_singleton t

theorem plain_branch {a : α} {k : Kind} {cs : List (Node α)} :
    (branch a k cs).Plain ↔
      (k = .expressionStatement → declares (cs.flatMap tokens) = false) ∧ ∀ c ∈ cs, c.Plain := by
  constructor
  · intro h
    refine ⟨fun hk => ?_, fun c hc m hm => h m (mem_preorder_branch.2 (.inr ⟨c, hc, hm⟩))⟩
    simpa using h _ (self_mem_preorder _) hk
  · rintro ⟨hk, hcs⟩ m hm
    rcases mem_preorder_branch.1 hm with rfl | ⟨c, hc, hm⟩
    · simpa using hk
    · exact hcs c hc m hm

end Node

/-! ## Losing null operators -/

/-- The token `u` may come to stand for `t`. -/
structure Token.Replaces (u t : Token) : Prop where
  kind : u.kind = t.kind
  leading : u.leading = t.leading
  trailing : t.kind = .question → u.trailing = t.trailing

namespace Node

/-- Some null operators of the first tree give way to their operands in the second. -/
inductive Loses : Green → Green → Prop where
  | token {t u : Token} (h : u.Replaces t) : Loses (.leaf t) (.leaf u)
  | branch (k : Kind) {cs ds : List Green} (h : List.Forall₂ Loses cs ds) :
      Loses (.group k cs) (.group k ds)
  | operator {k : Kind} {e e' : Green} (mark : Green) (hk : isOperatorKind k = true)
      (h : Loses e e') : Loses (.group k [e, mark]) e'

namespace Loses

theorem refl (n : Green) : n.Loses n := by
  induction n using Node.induction with
  | token a t => exact .token ⟨rfl, rfl, fun _ => rfl⟩
  | branch a k cs ih => exact .branch k (List.forall₂_same.2 ih)

theorem forall₂_trans {cs ds es : List Green}
    (htrans : ∀ c ∈ cs, ∀ {m n : Green}, c.Loses m → m.Loses n → c.Loses n)
    (h : List.Forall₂ Loses cs ds) (h' : List.Forall₂ Loses ds es) : List.Forall₂ Loses cs es := by
  induction h generalizing es with
  | nil => exact h'
  | cons hc _ ih =>
    cases h' with
    | cons hd h' =>
      exact .cons (htrans _ (by simp) hc hd) (ih (fun c hc => htrans c (by simp [hc])) h')

theorem trans {l m n : Green} (h : l.Loses m) (h' : m.Loses n) : l.Loses n := by
  induction l using Node.induction generalizing m n with
  | token a t =>
    cases h with
    | token h =>
      cases h' with
      | token h' =>
        refine .token ⟨h'.kind.trans h.kind, h'.leading.trans h.leading, fun hk => ?_⟩
        exact (h'.trailing (h.kind.trans hk)).trans (h.trailing hk)
  | branch a k cs ih =>
    cases h with
    | branch _ h =>
      cases h' with
      | branch _ h' => exact .branch k (forall₂_trans ih h h')
      | operator mark hk h' =>
        -- The operand that stays in the end has lost operators before.
        cases h with
        | cons he h =>
          cases h with
          | cons _ h =>
            cases h
            exact .operator _ hk (ih _ (by simp) he h')
    | operator mark hk h => exact .operator mark hk (ih _ (by simp) h h')

theorem exists_token {t : Token} {n : Green} (h : (Green.leaf t).Loses n) :
    ∃ u, n = .leaf u ∧ u.Replaces t := by
  cases h with
  | token h => exact ⟨_, rfl, h⟩

theorem exists_branch {k : Kind} {cs : List Green} {n : Green} (h : (Green.group k cs).Loses n)
    (hk : isOperatorKind k = false) : ∃ ds, n = .group k ds ∧ List.Forall₂ Loses cs ds := by
  cases h with
  | branch _ h => exact ⟨_, rfl, h⟩
  | operator _ hk' _ => cases hk.symm.trans hk'

/-- What two lists in a row become are two lists in a row. -/
theorem exists_append {cs ds es : List Green} (h : List.Forall₂ Loses (cs ++ ds) es) :
    ∃ cs' ds', es = cs' ++ ds' ∧ List.Forall₂ Loses cs cs' ∧ List.Forall₂ Loses ds ds' := by
  have hflip : List.Forall₂ (flip Loses) es (cs ++ ds) := h.flip
  exact ⟨es.take cs.length, es.drop cs.length, (List.take_append_drop _ _).symm,
    (List.forall₂_take_append _ _ _ hflip).flip, (List.forall₂_drop_append _ _ _ hflip).flip⟩

end Loses

/-! ## Nested branches -/

/-- Branches of the kind `k`, each of `w` nodes and, behind them, a branch of the same kind or the
last one of the nodes. -/
inductive Nests (k : Kind) (w : Nat) : List Green → Green → Prop where
  | last (e : Green) : Nests k w [e] e
  | behind (before : List Green) {ns : List Green} {e : Green} (hw : before.length = w)
      (h : Nests k w ns e) : Nests k w (before ++ ns) (.group k (before ++ [e]))

namespace Nests

variable {k : Kind} {w : Nat} {ns : List Green} {m n : Green}

theorem ne_nil (h : Nests k w ns n) : ns ≠ [] := by
  induction h with
  | last e => simp
  | behind _ _ _ ih => simp [ih]

theorem tokens_eq (h : Nests k w ns n) : n.tokens = ns.flatMap tokens := by
  induction h with
  | last e => simp
  | behind _ _ _ ih => simp [ih]

theorem plain_iff (h : Nests k w ns n) (hk : k.isSteady = true) :
    n.Plain ↔ ∀ n ∈ ns, n.Plain := by
  have hne : k ≠ .expressionStatement := by
    rintro rfl
    cases hk
  induction h with
  | last e => simp
  | behind _ _ _ ih => simp [Green.group, plain_branch, hne, ih, or_imp, forall_and]

/-- What becomes of the branches nests what becomes of their parts. -/
theorem loses (h : Nests k w ns n) (hk : k.isSteady = true) (hn : n.Loses m) :
    ∃ ms, List.Forall₂ Loses ns ms ∧ Nests k w ms m := by
  simp only [Kind.isSteady, Bool.and_eq_true, Bool.not_eq_true'] at hk
  induction h generalizing m with
  | last e => exact ⟨[m], .cons hn .nil, .last m⟩
  | @behind before ns e hw h ih =>
    obtain ⟨ds, rfl, hds⟩ := hn.exists_branch hk.1
    obtain ⟨before', _, rfl, hbefore, hlast⟩ := Loses.exists_append hds
    obtain ⟨e', _, he, hnil, rfl⟩ := List.forall₂_cons_left_iff.1 hlast
    obtain rfl := List.forall₂_nil_left_iff.1 hnil
    obtain ⟨ms, hms, hnests⟩ := ih he
    exact ⟨before' ++ ms, List.rel_append hbefore hms,
      .behind before' (hbefore.length_eq ▸ hw) hnests⟩

theorem unique (hw : 0 < w) (h : Nests k w ns n) (h' : Nests k w ns m) : n = m := by
  induction h generalizing m with
  | last e =>
    generalize hns : [e] = ns at h'
    cases h' with
    | last e' => exact (List.cons.inj hns).1
    | behind before' hbefore h' =>
      have hlength := congrArg List.length hns
      have hpos := List.length_pos_iff.2 h'.ne_nil
      simp only [List.length_append, List.length_cons, List.length_nil] at hlength
      omega
  | @behind before ns e hbefore h ih =>
    generalize hks : before ++ ns = ks at h'
    cases h' with
    | last e' =>
      have hlength := congrArg List.length hks
      have hpos := List.length_pos_iff.2 h.ne_nil
      simp only [List.length_append, List.length_cons, List.length_nil] at hlength
      omega
    | behind before' hbefore' h' =>
      obtain ⟨rfl, rfl⟩ := List.append_inj hks (hbefore.trans hbefore'.symm)
      rw [ih h']

end Nests

end Node

end NullLint
