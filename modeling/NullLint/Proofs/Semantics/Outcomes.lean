import NullLint.Semantics.Flow
import NullLint.Proofs.Syntax.Views
import NullLint.Syntax.Parse

/-!
# How conditions come out

A condition is a truth value made of smaller ones by `!`, `&&`, `||` and parentheses. Of these only
comparisons for equality are looked into: a comparison with null is known from its operands. Every
other condition comes out either way. `Evaluates` says how, and follows whether a variable is null
from one operand to the next, as an assignment in between can change that.

A condition that is said to show that a variable is null, or that it is not, does show it: what is
on the list of `anyImplies` follows from what the list started with.
-/

namespace NullLint

variable {m : Model} {n c : Placed} {x : Nat} {b before after : Bool}

theorem Model.assigns_of_mem (hc : c ∈ n.preorder) (h : m.assigns c x = true) :
    m.assigns n x = true := by
  unfold assigns at h ⊢
  rw [List.any_eq_true] at h ⊢
  obtain ⟨e, he, hassign⟩ := h
  exact ⟨e, Node.mem_preorder_trans he hc, hassign⟩

/-- Where the variable is not assigned, nothing below assigns it. -/
theorem Model.assigns_below (h : m.assigns n x = false) (hc : c ∈ n.preorder) :
    m.assigns c x = false := by
  by_contra hassigns
  rw [Bool.not_eq_false] at hassigns
  simp [assigns_of_mem hc hassigns] at h

theorem Model.assigns_child (h : m.assigns n x = false) (hc : c ∈ n.children) :
    m.assigns c x = false :=
  assigns_below h (Node.mem_preorder_of_mem_children hc)

theorem Model.assigns_inner? {e : Placed} (h : m.assigns n x = false) (he : n.inner? = some e) :
    m.assigns e x = false := by
  obtain ⟨-, -, opening, rest, hc⟩ := Node.inner?_eq_some he
  exact assigns_child h (by simp [hc])

theorem Model.assigns_unary? {u : Node.Unary Place} (h : m.assigns n x = false)
    (hu : n.unary? = some u) : m.assigns u.operand x = false :=
  assigns_child h (Node.operand_mem_children hu)

theorem Model.assigns_binary? {v : Node.Binary Place} (h : m.assigns n x = false)
    (hv : n.binary? = some v) : m.assigns v.left x = false ∧ m.assigns v.right x = false := by
  obtain ⟨-, rest, hc⟩ := Node.binary?_eq_some hv
  exact ⟨assigns_child h (by simp [hc]), assigns_child h (by simp [hc])⟩

/-- The operand of a comparison is null just if `null`. The variable is null before it runs just if
`before`, and behind it just if `after`: nothing but an assignment changes that. -/
structure Operand (m : Model) (x : Nat) (n : Placed) (before null after : Bool) : Prop where
  reference : m.refersTo x n = true → null = before
  literal : Model.isNullLiteral n = true → null = true
  keeps : m.assigns n x = false → after = before

/-- Neither in parentheses, nor a negation, nor of two operands that are looked into. -/
def Node.isAtom (n : Placed) : Bool :=
  n.inner?.isNone &&
    !(n.kind == .prefixUnaryExpression && n.unary?.any fun u => u.operator.kind == .exclamation) &&
    !(n.kind == .binaryExpression && n.binary?.any fun v =>
      [.ampersandAmpersand, .barBar, .equalsEquals, .exclamationEquals].contains v.operator.kind)

/-- The condition can come out as `b`. The variable is null before just if `before`, and behind it
just if `after`. The right operand of `&&` or `||` runs unless the left one decides. -/
inductive Evaluates (m : Model) (x : Nat) : Placed → Bool → Bool → Bool → Prop where
  | parenthesized {n e : Placed} {before b after : Bool} (h : n.inner? = some e)
      (inner : Evaluates m x e before b after) : Evaluates m x n before b after
  | negation {n : Placed} {u : Node.Unary Place} {before b after : Bool}
      (h : n.kind = .prefixUnaryExpression) (hu : n.unary? = some u)
      (hop : u.operator.kind = .exclamation) (operand : Evaluates m x u.operand before b after) :
      Evaluates m x n before (!b) after
  | cutShort {n : Placed} {v : Node.Binary Place} {before after : Bool} (stop : Bool)
      (h : n.kind = .binaryExpression) (hv : n.binary? = some v)
      (hop : v.operator.kind = bif stop then .barBar else .ampersandAmpersand)
      (left : Evaluates m x v.left before stop after) : Evaluates m x n before stop after
  | goesOn {n : Placed} {v : Node.Binary Place} {before mid b after : Bool} (stop : Bool)
      (h : n.kind = .binaryExpression) (hv : n.binary? = some v)
      (hop : v.operator.kind = bif stop then .barBar else .ampersandAmpersand)
      (left : Evaluates m x v.left before (!stop) mid) (right : Evaluates m x v.right mid b after) :
      Evaluates m x n before b after
  | equality {n : Placed} {v : Node.Binary Place} {before mid after leftNull rightNull equal : Bool}
      (h : n.kind = .binaryExpression) (hv : n.binary? = some v)
      (hop : v.operator.kind = .equalsEquals ∨ v.operator.kind = .exclamationEquals)
      (left : Operand m x v.left before leftNull mid)
      (right : Operand m x v.right mid rightNull after)
      (known : leftNull = true ∨ rightNull = true → equal = (leftNull && rightNull)) :
      Evaluates m x n before (equal == (v.operator.kind == .equalsEquals)) after
  | atom {n : Placed} {before after : Bool} (b : Bool) (h : n.isAtom = true)
      (keeps : m.assigns n x = false → after = before) : Evaluates m x n before b after

/-! ## The list of conditions -/

/-- What is known of conditions and their outcomes is passed on to the operands, and a comparison of
the variable with null comes out as unequal just if the variable is not null. -/
structure Model.Informs (m : Model) (x : Nat) (isNull : Prop) (T : Placed → Bool → Prop) :
    Prop where
  unparenthesized {n : Placed} {b : Bool} : T n b → T n.unparenthesized b
  negation {n : Placed} {b : Bool} {u : Node.Unary Place} : T n b →
    n.kind = .prefixUnaryExpression → n.unary? = some u → u.operator.kind = .exclamation →
      T u.operand (!b)
  logical {n : Placed} {v : Node.Binary Place} (stop : Bool) : T n (!stop) →
    n.kind = .binaryExpression → n.binary? = some v →
      v.operator.kind = (bif stop then .barBar else .ampersandAmpersand) →
        T v.left (!stop) ∧ T v.right (!stop)
  comparison {n : Placed} {b : Bool} {v : Node.Binary Place} : T n b →
    n.kind = .binaryExpression → n.binary? = some v →
      (v.operator.kind = .exclamationEquals ∨ v.operator.kind = .equalsEquals) →
        m.comparesWithNull x v.left v.right = true →
          (((v.operator.kind == .exclamationEquals) == b) = true ↔ ¬isNull)

/-- If all conditions on the list came out as they are said to, what they show holds. -/
theorem Model.Informs.anyImplies {isNull : Prop} {T : Placed → Bool → Prop}
    (hT : m.Informs x isNull T) {notNull : Bool} {steps : Nat} {conditions : List (Placed × Bool)}
    (h : m.anyImplies x notNull steps conditions = true)
    (hall : ∀ p ∈ conditions, T p.1 p.2) : notNull = true ↔ ¬isNull := by
  induction steps generalizing conditions with
  | zero => cases conditions <;> simp [Model.anyImplies] at h
  | succ steps ih =>
    cases conditions with
    | nil => simp [Model.anyImplies] at h
    | cons p rest =>
      obtain ⟨condition, outcome⟩ := p
      obtain ⟨hself, hrest⟩ := List.forall_mem_cons.1 hall
      replace hself := hT.unparenthesized hself
      simp only [Model.anyImplies] at h
      split at h
      · rename_i hn
        split at h
        · rename_i u hu
          split at h
          · rename_i hop
            exact ih h (List.forall_mem_cons.2 ⟨hT.negation hself hn hu hop, hrest⟩)
          · exact ih h hrest
        · exact ih h hrest
      · rename_i hn
        split at h
        · rename_i v hv
          split at h
          · rename_i hop
            have hboth : T v.left outcome ∧ T v.right outcome := by
              rcases hop with ⟨hop, rfl⟩ | ⟨hop, rfl⟩
              · exact hT.logical false hself hn hv hop
              · exact hT.logical true hself hn hv hop
            exact ih h (List.forall_mem_cons.2
              ⟨hboth.2, List.forall_mem_cons.2 ⟨hboth.1, hrest⟩⟩)
          · split at h
            · rename_i hop
              rw [← hT.comparison hself hn hv hop.1 hop.2.1, hop.2.2]
            · exact ih h hrest
        · exact ih h hrest
      · exact ih h hrest

/-! ## Evaluations -/

namespace Evaluates

/-- A condition that does not assign the variable leaves it null, or not null, as it was. -/
theorem keeps (h : Evaluates m x n before b after) (hx : m.assigns n x = false) :
    after = before := by
  induction h with
  | parenthesized h inner ih => exact ih (Model.assigns_inner? hx h)
  | negation h hu hop operand ih => exact ih (Model.assigns_unary? hx hu)
  | cutShort stop h hv hop left ih => exact ih (Model.assigns_binary? hx hv).1
  | goesOn stop h hv hop left right ih ih' =>
    obtain ⟨hl, hr⟩ := Model.assigns_binary? hx hv
    exact (ih' hr).trans (ih hl)
  | equality h hv hop left right known =>
    obtain ⟨hl, hr⟩ := Model.assigns_binary? hx hv
    exact (right.keeps hr).trans (left.keeps hl)
  | atom b h keeps => exact keeps hx

/-! What comes out of a condition, read backwards. -/

theorem of_inner? {e : Placed} (h : Evaluates m x n before b after) (he : n.inner? = some e) :
    Evaluates m x e before b after := by
  have hkind := (Node.inner?_eq_some he).1
  cases h with
  | parenthesized h inner =>
    obtain rfl := Option.some.inj (he.symm.trans h)
    exact inner
  | negation h | cutShort _ h | goesOn _ h | equality h => simp [hkind] at h
  | atom b h keeps => simp [Node.isAtom, he] at h

theorem unparenthesized (h : Evaluates m x n before b after) :
    Evaluates m x n.unparenthesized before b after := by
  induction n using Node.inner_induction with
  | stop n hi => rwa [Node.unparenthesized_of_inner?_eq_none hi]
  | inner n e hi ih =>
    rw [Node.unparenthesized_of_inner? hi]
    exact ih (h.of_inner? hi)

theorem of_negation {u : Node.Unary Place} (h : Evaluates m x n before b after)
    (hn : n.kind = .prefixUnaryExpression) (hu : n.unary? = some u)
    (hop : u.operator.kind = .exclamation) : Evaluates m x u.operand before (!b) after := by
  cases h with
  | parenthesized h inner => simp [Node.inner?, hn] at h
  | negation h hu' hop' operand =>
    obtain rfl := Option.some.inj (hu.symm.trans hu')
    rwa [Bool.not_not]
  | cutShort _ h | goesOn _ h | equality h => simp [hn] at h
  | atom b h keeps => simp [Node.isAtom, hn, hu, hop] at h

/-- If `&&` came out true, or `||` false, both operands came out that way. -/
theorem of_logical {v : Node.Binary Place} {stop : Bool}
    (h : Evaluates m x n before (!stop) after) (hn : n.kind = .binaryExpression)
    (hv : n.binary? = some v)
    (hop : v.operator.kind = bif stop then .barBar else .ampersandAmpersand) :
    ∃ mid, Evaluates m x v.left before (!stop) mid ∧ Evaluates m x v.right mid (!stop) after := by
  have hstop {stop' : Bool} {v' : Node.Binary Place} (hv' : n.binary? = some v')
      (hop' : v'.operator.kind = bif stop' then .barBar else .ampersandAmpersand) :
      v' = v ∧ stop' = stop := by
    obtain rfl := Option.some.inj (hv.symm.trans hv')
    refine ⟨rfl, ?_⟩
    rw [hop] at hop'
    cases stop <;> cases stop' <;> simp_all
  generalize hb : (!stop) = b at h
  cases h with
  | parenthesized h inner => simp [Node.inner?, hn] at h
  | negation h => simp [hn] at h
  | cutShort stop' h hv' hop' left =>
    obtain ⟨rfl, rfl⟩ := hstop hv' hop'
    simp at hb
  | goesOn stop' h hv' hop' left right =>
    obtain ⟨rfl, rfl⟩ := hstop hv' hop'
    exact ⟨_, hb ▸ left, hb ▸ right⟩
  | equality h hv' hop' =>
    obtain rfl := Option.some.inj (hv.symm.trans hv')
    cases stop <;> simp [hop] at hop'
  | atom b h keeps => cases stop <;> simp_all [Node.isAtom]

/-- The operands of a comparison for equality. -/
theorem of_equality {v : Node.Binary Place} (h : Evaluates m x n before b after)
    (hn : n.kind = .binaryExpression) (hv : n.binary? = some v)
    (hop : v.operator.kind = .equalsEquals ∨ v.operator.kind = .exclamationEquals) :
    ∃ leftNull mid rightNull equal, Operand m x v.left before leftNull mid ∧
      Operand m x v.right mid rightNull after ∧
      (leftNull = true ∨ rightNull = true → equal = (leftNull && rightNull)) ∧
      b = (equal == (v.operator.kind == .equalsEquals)) := by
  cases h with
  | parenthesized h inner => simp [Node.inner?, hn] at h
  | negation h => simp [hn] at h
  | cutShort _ h hv' hop' =>
    obtain rfl := Option.some.inj (hv.symm.trans hv')
    cases b <;> simp [hop'] at hop
  | goesOn stop h hv' hop' =>
    obtain rfl := Option.some.inj (hv.symm.trans hv')
    cases stop <;> simp [hop'] at hop
  | equality h hv' hop' left right known =>
    obtain rfl := Option.some.inj (hv.symm.trans hv')
    exact ⟨_, _, _, _, left, right, known, rfl⟩
  | atom b h keeps => rcases hop with hop | hop <;> simp [Node.isAtom, hn, hv, hop] at h

/-- A comparison of the variable with null comes out as equal just if the variable is null. -/
theorem of_comparison {v : Node.Binary Place} (h : Evaluates m x n before b after)
    (hx : m.assigns n x = false) (hn : n.kind = .binaryExpression) (hv : n.binary? = some v)
    (hop : v.operator.kind = .exclamationEquals ∨ v.operator.kind = .equalsEquals)
    (hcompares : m.comparesWithNull x v.left v.right = true) :
    ((v.operator.kind == .exclamationEquals) == b) = !before := by
  obtain ⟨leftNull, mid, rightNull, equal, left, right, known, rfl⟩ := h.of_equality hn hv hop.symm
  obtain rfl := left.keeps (Model.assigns_binary? hx hv).1
  have hequal : equal = mid := by
    simp only [Model.comparesWithNull, Bool.or_eq_true, Bool.and_eq_true] at hcompares
    rcases hcompares with ⟨hvariable, hnull⟩ | ⟨hnull, hvariable⟩
    · simp [known (.inr (right.literal hnull)), left.reference hvariable, right.literal hnull]
    · simp [known (.inl (left.literal hnull)), right.reference hvariable, left.literal hnull]
  rw [hequal]
  rcases hop with hop | hop <;> cases mid <;> simp [hop]

/-- Evaluations inform about a variable that is not assigned. -/
theorem informs (m : Model) (x : Nat) (isNull : Bool) :
    m.Informs x (isNull = true) fun c b =>
      m.assigns c x = false ∧ ∃ after, Evaluates m x c isNull b after where
  unparenthesized := by
    rintro n b ⟨hx, after, h⟩
    exact ⟨Model.assigns_below hx n.unparenthesized_mem_preorder, after, h.unparenthesized⟩
  negation := by
    rintro n b u ⟨hx, after, h⟩ hn hu hop
    exact ⟨Model.assigns_unary? hx hu, after, h.of_negation hn hu hop⟩
  logical := by
    rintro n v stop ⟨hx, after, h⟩ hn hv hop
    obtain ⟨hl, hr⟩ := Model.assigns_binary? hx hv
    obtain ⟨mid, left, right⟩ := h.of_logical hn hv hop
    obtain rfl := left.keeps hl
    exact ⟨⟨hl, _, left⟩, hr, _, right⟩
  comparison := by
    rintro n b v ⟨hx, after, h⟩ hn hv hop hcompares
    rw [h.of_comparison hx hn hv hop hcompares]
    simp

end Evaluates

/-- A condition that is no atom is of one of the other forms. -/
theorem Node.isAtom_eq_false (hi : n.inner? = none) (h : n.isAtom = false) :
    (n.kind = .prefixUnaryExpression ∧ ∃ u, n.unary? = some u ∧ u.operator.kind = .exclamation) ∨
      n.kind = .binaryExpression ∧ ∃ v, n.binary? = some v ∧
        ((∃ stop, v.operator.kind = bif stop then .barBar else .ampersandAmpersand) ∨
          v.operator.kind = .equalsEquals ∨ v.operator.kind = .exclamationEquals) := by
  simp only [isAtom, hi, Option.isNone_none, Bool.true_and, Bool.and_eq_false_iff,
    Bool.not_eq_false', Bool.and_eq_true, beq_iff_eq, Option.any_eq_true] at h
  rcases h with h | ⟨hn, v, hv, hop⟩
  · exact .inl h
  · refine .inr ⟨hn, v, hv, ?_⟩
    have hop : v.operator.kind = .ampersandAmpersand ∨ v.operator.kind = .barBar ∨
        v.operator.kind = .equalsEquals ∨ v.operator.kind = .exclamationEquals := by
      simpa using hop
    rcases hop with hop | hop | hop
    · exact .inl ⟨false, hop⟩
    · exact .inl ⟨true, hop⟩
    · exact .inr hop

theorem Model.isNullLiteral_of_refersTo (h : m.refersTo x n = true) : isNullLiteral n = false := by
  simp only [refersTo, Bool.and_eq_true, beq_iff_eq] at h
  simp [isNullLiteral, Node.literal?, h.1]

theorem exists_operand (m : Model) (x : Nat) (n : Placed) (before : Bool) :
    ∃ null, Operand m x n before null before := by
  by_cases h : Model.isNullLiteral n = true
  · refine ⟨true, fun hx => ?_, fun _ => rfl, fun _ => rfl⟩
    rw [Model.isNullLiteral_of_refersTo hx] at h
    cases h
  · exact ⟨before, fun _ => rfl, fun hn => absurd hn h, fun _ => rfl⟩

/-- Every condition comes out one way or the other. -/
theorem exists_evaluates (m : Model) (x : Nat) (n : Placed) (before : Bool) :
    ∃ b after, Evaluates m x n before b after := by
  induction hsize : n.size using Nat.strongRecOn generalizing n before with
  | ind size ih =>
    subst hsize
    cases hi : n.inner? with
    | some e =>
      obtain ⟨b, after, h⟩ := ih e.size (Node.size_lt_of_inner? hi) e before rfl
      exact ⟨b, after, .parenthesized hi h⟩
    | none =>
      cases hatom : n.isAtom with
      | true => exact ⟨true, before, .atom true hatom fun _ => rfl⟩
      | false =>
        rcases Node.isAtom_eq_false hi hatom with ⟨hn, u, hu, hop⟩ | ⟨hn, v, hv, ⟨stop, hop⟩ | hop⟩
        · obtain ⟨b, after, h⟩ := ih u.operand.size
            (Node.size_lt_of_mem_children (Node.operand_mem_children hu)) u.operand before rfl
          exact ⟨!b, after, .negation hn hu hop h⟩
        · have hsize := Node.size_lt_of_binary? hv
          obtain ⟨b, mid, left⟩ := ih v.left.size hsize.1 v.left before rfl
          by_cases hb : b = stop
          · exact ⟨stop, mid, .cutShort stop hn hv hop (hb ▸ left)⟩
          · obtain ⟨b', after, right⟩ := ih v.right.size hsize.2 v.right mid rfl
            rw [Bool.eq_not_of_ne hb] at left
            exact ⟨b', after, .goesOn stop hn hv hop left right⟩
        · obtain ⟨leftNull, left⟩ := exists_operand m x v.left before
          obtain ⟨rightNull, right⟩ := exists_operand m x v.right before
          exact ⟨_, before, .equality hn hv hop left right fun _ => rfl⟩

/-- A condition that does not assign a variable always comes out, and leaves the variable null, or
not null, as it was. If its coming out as `b` is said to show that the variable is not null, or that
it is null, this holds whenever it comes out so. -/
theorem conditionImplies_sound {m : Model} {x : Nat} {condition : Placed}
    (hx : m.assigns condition x = false) (isNull : Bool) :
    (∃ b after, Evaluates m x condition isNull b after) ∧
      ∀ b after, Evaluates m x condition isNull b after → after = isNull ∧
        (m.conditionImplies condition x b true = true → isNull = false) ∧
        (m.conditionImplies condition x b false = true → isNull = true) := by
  refine ⟨exists_evaluates m x condition isNull, fun b after h => ⟨h.keeps hx, ?_⟩⟩
  have shown {notNull : Bool} (himplies : m.conditionImplies condition x b notNull = true) :
      notNull = true ↔ ¬isNull = true :=
    (Evaluates.informs m x isNull).anyImplies himplies
      (List.forall_mem_singleton.2 ⟨hx, after, h⟩)
  exact ⟨fun himplies => by simpa using shown himplies,
    fun himplies => by simpa using shown himplies⟩

/-- Whenever `!(x == null || g()) && h()` comes out true, `x` is not null. -/
theorem conditionImplies_sound_negation :
    let tree := (parse "" "string x = f(); if (!(x == null || g()) && h()) x.ToString();").tree
    let m := Model.build tree.placed true
    let condition := (tree.node? 18).getD default
    m.assigns condition 0 = false ∧ (∃ b after, Evaluates m 0 condition false b after) ∧
      ∀ isNull after, Evaluates m 0 condition isNull true after → isNull = false := by
  intro tree m condition
  have hx : m.assigns condition 0 = false := by decide +kernel
  have himplies : m.conditionImplies condition 0 true true = true := by decide +kernel
  refine ⟨hx, (conditionImplies_sound hx false).1, fun isNull after h => ?_⟩
  exact ((conditionImplies_sound hx isNull).2 true after h).2.1 himplies

end NullLint
