import NullLint.Proofs.Syntax.Conformity

/-!
# Last tokens

Every production but those of files, nullable types and conditional accesses ends with a kind that
is no slash, no `?` and not the end of the file, so a conforming node of another kind ends with a
token of such a kind.
-/

open Computability

namespace NullLint

namespace Grammar

/-- The words are not empty, and their last kinds satisfy `p`. -/
def Ends (p : Kind → Bool) (L : Language Kind) : Prop :=
  ∀ w ∈ L, ∃ k, w.getLast? = some k ∧ p k = true

variable {p q : Kind → Bool} {L M : Language Kind} {k : Kind}

theorem ends_zero : Ends p 0 := fun _ hw => hw.elim

theorem ends_oneOf (h : ∀ k, q k = true → p k = true) : Ends p (oneOf q) := by
  rintro w ⟨k, hk, rfl⟩
  exact ⟨k, rfl, h k hk⟩

theorem ends_just (h : p k = true) : Ends p (just k) :=
  ends_oneOf fun j hj => by
    obtain rfl : j = k := by simpa using hj
    exact h

theorem Ends.add (hL : Ends p L) (hM : Ends p M) : Ends p (L + M) := by
  intro w hw
  exact hw.elim (hL w) (hM w)

theorem Ends.mul (hM : Ends p M) : Ends p (L * M) := by
  intro w hw
  obtain ⟨u, -, v, hv, rfl⟩ := Language.mem_mul.1 hw
  obtain ⟨k, hk, hp⟩ := hM v hv
  exact ⟨k, by rw [List.getLast?_append, hk]; rfl, hp⟩

/-- Something that may be left out stands last. -/
theorem Ends.mul_maybe (hL : Ends p L) (hM : Ends p M) : Ends p (L * maybe M) := by
  rw [maybe, mul_add, mul_one]
  exact hL.add hM.mul

/-- Something that may come again stands last. -/
theorem Ends.mul_kstar (hL : Ends p L) (hM : Ends p M) : Ends p (L * M∗) := by
  intro w hw
  obtain ⟨u, hu, v, hv, rfl⟩ := Language.mem_mul.1 hw
  obtain ⟨vs, rfl, hvs⟩ := Language.mem_kstar.1 hv
  rcases List.eq_nil_or_concat vs with rfl | ⟨before, last, rfl⟩
  · simpa using hL u hu
  · obtain ⟨k, hk, hp⟩ := hM last (hvs last (by simp))
    exact ⟨k, by simp [List.getLast?_append, hk], hp⟩

/-- Kinds with which an operand can end, and those of the nodes that end with them. -/
def isEnding (k : Kind) : Bool :=
  k != .slash && k != .question && k != .endOfFile && k != .compilationUnit &&
    k != .nullableType && k != .conditionalAccessExpression

theorem ends_production (h : isEnding k = true) : Ends isEnding (production k) := by
  unfold production
  simp only [typeDeclaration, guarded, jump, arguments, body, initializer, separated,
    operand, type, statement]
  split
  all_goals try cases h
  all_goals
    with_reducible repeat' first
      | exact ends_zero
      | exact ends_just rfl
      | refine Ends.add ?_ ?_
      | refine Ends.mul_maybe ?_ ?_
      | refine Ends.mul_kstar ?_ ?_
      | refine Ends.mul ?_
  all_goals exact ends_oneOf (by intro k; cases k <;> decide)

end Grammar

namespace Node

open Grammar

variable {α β : Type} {n : Node α}

/-- The token reached by always taking the last child. -/
def lastToken? (n : Node α) : Option Token := n.lastLeaf?.bind token?

@[simp] theorem lastToken?_token (a : α) (t : Token) : (token a t).lastToken? = some t := by
  simp [lastToken?, lastLeaf?, token?]

theorem firstLeaf?_map (f : α → β) (n : Node α) :
    (n.map f).firstLeaf?.bind token? = n.firstLeaf?.bind token? := by
  fun_induction firstLeaf? n with
  | case1 a t => rfl
  | case2 a k => rfl
  | case3 a k c cs ih => exact ih

theorem lastLeafIn?_eq (cs : List (Node α)) : lastLeafIn? cs = cs.getLast?.bind lastLeaf? := by
  match cs with
  | [] => rfl
  | [c] => rfl
  | c :: d :: cs =>
    rw [lastLeafIn?, lastLeafIn?_eq (d :: cs), List.getLast?_cons_cons]

theorem lastToken?_branch (a : α) (k : Kind) (cs : List (Node α)) :
    (branch a k cs).lastToken? = cs.getLast?.bind lastToken? := by
  rw [lastToken?, lastLeaf?, lastLeafIn?_eq]
  cases cs.getLast? <;> rfl

@[simp] theorem lastToken?_map (f : α → β) (n : Node α) : (n.map f).lastToken? = n.lastToken? := by
  induction n with
  | token a t => simp [map]
  | branch a k cs ih =>
    rw [map_branch, lastToken?_branch, lastToken?_branch, List.getLast?_map]
    cases hlast : cs.getLast? with
    | none => rfl
    | some c => exact ih c (List.mem_of_getLast? hlast)

theorem mem_tokens_of_lastToken? {t : Token} (h : n.lastToken? = some t) : t ∈ n.tokens := by
  induction n with
  | token a u => simp_all
  | branch a k cs ih =>
    rw [lastToken?_branch] at h
    obtain ⟨c, hc, h⟩ := Option.bind_eq_some_iff.1 h
    have hmem := List.mem_of_getLast? hc
    rw [tokens_branch]
    exact List.mem_flatMap.2 ⟨c, hmem, ih c hmem h⟩

/-- A conforming node that is not a file ends with a token that is no slash. -/
theorem Conforms.exists_lastToken (h : n.Conforms) (hk : isEnding n.kind = true) :
    ∃ t, n.lastToken? = some t ∧ isEnding t.kind = true := by
  induction n with
  | token a t => exact ⟨t, lastToken?_token a t, hk⟩
  | branch a k cs ih =>
    obtain ⟨hword, hcs⟩ := conforms_branch.1 h
    obtain ⟨last, hlast, hending⟩ := ends_production hk _ hword
    rw [List.getLast?_map] at hlast
    obtain ⟨c, hc, rfl⟩ := Option.map_eq_some_iff.1 hlast
    have hmem := List.mem_of_getLast? hc
    rw [lastToken?_branch, hc]
    exact ih c hmem (hcs c hmem) hending

end Node

end NullLint
