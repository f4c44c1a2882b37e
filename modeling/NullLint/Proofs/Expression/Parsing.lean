import NullLint.Proofs.Parser.Accepting
import NullLint.Proofs.Expression.Canonical

/-!
# Parsing canonical expressions

The parser of a layer reads the expressions of this layer as they are written, wherever the token
behind them binds less tightly than the operators of the layer (`Parses`). A layer is put on its
operands by one rule for operators that group to the left and one for those that group to the right.

Loops are described by what they make of the tokens behind a tree (`gives_postfixed`,
`gives_leftGrouped`), since the tree of a loop grows at its left end, where the reading starts.
-/

namespace NullLint

open Canonical Lookahead

namespace Parser

/-- Before `rest` the parser reads the tree as it is written. -/
def Accepts (p : Parser Green) (t : Green) (rest : List Token) : Prop :=
  p.Gives t.spaced.tokens t.spaced rest

/-- How tightly a token takes hold of the expression before it. -/
def binding : Kind → Nat
  | .equals => 1
  | .questionQuestion => 2
  | .dot | .question | .openParen | .openBracket | .exclamation | .plusPlus | .minusMinus => 9
  | k => if k.precedence = 0 then 0 else k.precedence + 2

theorem binding_of_precedence {k : Kind} (h : 0 < k.precedence) : binding k = k.precedence + 2 := by
  revert h
  cases k <;> decide

/-- The parser reads the trees wherever what comes behind binds less tightly than `bound`. -/
structure Parses {O : Type} (p : Parser Green) (tree : O → Green) (bound : Nat) : Prop where
  opens : ∀ e, startsExpression (kindOf (tree e).spaced.tokens) = true
  accepts : ∀ e rest, binding (kindOf rest) < bound → p.Accepts (tree e) rest

theorem kindOf_append {ts : List Token} (h : startsExpression (kindOf ts) = true)
    (us : List Token) : kindOf (ts ++ us) = kindOf ts := by
  cases ts with
  | nil => cases h
  | cons t ts => rfl

section Operands

variable {O : Type} {part : O → Green} {k : Kind} {bound : Nat}

/-- Behind an operand stands the mark of the next one or what follows the last one. -/
theorem binding_moreOperands (hk : binding k < bound) (part : O → Green) (es : List O)
    {rest : List Token} (hrest : binding (kindOf rest) < bound) :
    binding (kindOf ((es.flatMap fun e => spacedMark k :: (part e).spaced.tokens) ++ rest)) <
      bound := by
  cases es with
  | nil => exact hrest
  | cons e es => exact hk

/-- Operands behind the first one, each behind the mark `k`. -/
theorem gives_moreOperands {item : Parser (List Green)} (hk : binding k < bound)
    (hitem : ∀ e rest, binding (kindOf rest) < bound →
      item.Gives (spacedMark k :: (part e).spaced.tokens)
        [.leaf (spacedMark k), (part e).spaced] rest)
    (es : List O) {rest : List Token} (hstop : kindOf rest ≠ k)
    (hrest : binding (kindOf rest) < bound) :
    Gives (collectWhile (fun s => s.kind == k) item)
      (es.flatMap fun e => spacedMark k :: (part e).spaced.tokens)
      (es.flatMap fun e => [.leaf (spacedMark k), (part e).spaced]) rest := by
  induction es with
  | nil =>
    apply gives_collectWhile_stop (q := fun kind => kind == k)
    simpa using hstop
  | cons e es ih =>
    have hnext := hitem e _ (binding_moreOperands hk part es hrest)
    exact gives_collectWhile_step (q := fun kind => kind == k) hnext (List.cons_ne_nil _ _)
      (beq_self_eq_true k) ih

end Operands

/-! ## Arguments -/

section Arguments

variable {E : Type} {inner : E → Green} {nested : Parser Green} (h : Parses nested inner 1)
include h

theorem gives_commaSeparated (e : E) (es : List E) (rest : List Token)
    (hcomma : kindOf rest ≠ .comma) (hrest : binding (kindOf rest) < 1) :
    Gives (commaSeparated do return [← nested])
      ((((e :: es).map inner).intersperse (mark .comma)).flatMap fun n => n.spaced.tokens)
      ((((e :: es).map inner).intersperse (mark .comma)).map Node.spaced) rest := by
  simp only [List.map_cons, intersperse_cons, List.flatMap_cons, List.flatMap_map,
    List.flatMap_assoc, List.map_flatMap, List.flatMap_nil, List.append_nil, List.map_nil,
    spaced_mark, Node.tokens_token, List.singleton_append]
  unfold commaSeparated
  apply Gives.bind
  · apply Gives.map
    exact h.accepts e _ (binding_moreOperands Nat.one_pos inner es hrest)
  · apply Gives.map
    apply gives_moreOperands Nat.one_pos _ es hcomma hrest
    intro e rest hrest
    apply gives_advance_bind
    exact (h.accepts e rest hrest).map.map (f := fun ns => _ :: ns)

/-- The parser of an argument list reads the lists of arguments. -/
theorem accepts_argumentList {opening closing : Kind} (kind : Kind)
    (hclosing : closing = .closeParen ∨ closing = .closeBracket) (es : List E)
    (rest : List Token) :
    (argumentList nested opening closing kind).Accepts
      (argumentsTree inner opening closing kind es) rest := by
  unfold Accepts argumentList argumentsTree
  simp only [Node.spaced_branch, Node.tokens_branch, List.map_cons, List.map_append, List.map_nil,
    List.flatMap_cons, List.flatMap_append, List.flatMap_nil, List.flatMap_map, spaced_mark,
    Node.tokens_token, List.singleton_append, List.append_nil]
  apply gives_expect_bind rfl
  apply gives_sees
  cases es with
  | nil =>
    rw [if_pos (by simp)]
    exact Gives.bind (gives_pure [] _) (gives_expect (kind_spacedMark closing) rest).map
  | cons e es =>
    -- An expression does not begin with the closing mark, so the arguments are read.
    have hfirst : kindOf ((((e :: es).map inner).intersperse (mark .comma)).flatMap
        (fun n => n.spaced.tokens) ++ [spacedMark closing] ++ rest) ≠ closing := by
      rw [List.map_cons, intersperse_cons, List.flatMap_cons, List.append_assoc, List.append_assoc,
        kindOf_append (h.opens e)]
      intro heq
      have hopens := heq ▸ h.opens e
      rcases hclosing with rfl | rfl <;> cases hopens
    have hcomma : closing ≠ .comma := by rcases hclosing with rfl | rfl <;> decide
    have hbinding : binding closing < 1 := by rcases hclosing with rfl | rfl <;> decide
    rw [if_neg (by simpa using hfirst)]
    exact Gives.bind (gives_commaSeparated h e es (spacedMark closing :: rest) hcomma hbinding)
      (gives_expect (kind_spacedMark closing) rest).map

end Arguments

/-! ## Primary expressions -/

theorem accepts_identifierName (x : Name) (rest : List Token) :
    identifierName.Accepts x.tree rest :=
  (gives_expect rfl rest).map

/-- Tokens that begin neither type arguments nor a part or suffix of a type. -/
def endsType (k : Kind) : Bool :=
  k != .lessThan && k != .dot && k != .question && k != .openBracket

/-- A name before a token that does not go on with the type is a whole type. -/
theorem gives_type (x : Name) {rest : List Token} (hrest : endsType (kindOf rest) = true) :
    type.Gives x.leaf.spaced.tokens (.group .predefinedOrNamedType [x.leaf.spaced]) rest := by
  simp only [endsType, Bool.and_eq_true, bne_iff_ne] at hrest
  obtain ⟨⟨⟨hless, hdot⟩, hquestion⟩, hbracket⟩ := hrest
  have hsimple : (simpleType (some (typeNested maxParseDepth))).Gives x.leaf.spaced.tokens
      (.group .predefinedOrNamedType [x.leaf.spaced]) rest :=
    gives_simpleType_name _ rfl hless
  have hqualify : ∀ n : Green,
      Gives (refine (qualify (some (typeNested maxParseDepth))) n) [] n rest := by
    intro n
    apply gives_refine_stop
    apply gives_get
    intro s _ hk
    simpa [hk, hdot] using gives_pure none rest
  have hdecorate : ∀ n : Green, Gives (refine decorate n) [] n rest := by
    intro n
    apply gives_refine_stop
    apply gives_get
    intro s _ hk
    simpa [hk, hquestion, hbracket] using gives_pure none rest
  exact hsimple.bind_nil ((hqualify _).bind_nil (hdecorate _))

section Primary

variable {E : Type} {inner : E → Green} {nested : Parser Green}

theorem startsExpression_primary (e : Primary E) :
    startsExpression (kindOf (e.tree inner).spaced.tokens) = true ∧
      isSignOperator (kindOf (e.tree inner).spaced.tokens) = false := by
  cases e with
  | literal value => cases value <;> exact ⟨rfl, rfl⟩
  | name x => exact ⟨rfl, rfl⟩
  | this => exact ⟨rfl, rfl⟩
  | parenthesized e => exact ⟨rfl, rfl⟩
  | creation type arguments => exact ⟨rfl, rfl⟩

variable (h : Parses nested inner 1)
include h

theorem accepts_parenthesized (e : E) (rest : List Token) :
    (parenthesized nested).Accepts ((Primary.parenthesized e).tree inner) rest := by
  simp only [Accepts, Primary.tree, Node.spaced_branch, Node.tokens_branch, List.map_cons,
    List.map_nil, List.flatMap_cons, List.flatMap_nil, spaced_mark, Node.tokens_token,
    List.singleton_append, List.append_nil]
  apply gives_advance_bind
  apply Gives.bind
  · apply h.accepts
    exact Nat.one_pos
  · exact (gives_expect rfl rest).map

theorem accepts_objectCreation (x : Name) (es : List E) (rest : List Token) :
    (objectCreation nested).Accepts ((Primary.creation x es).tree inner) rest := by
  simp only [Accepts, Primary.tree, Node.spaced_branch, Node.tokens_branch, List.map_cons,
    List.map_nil, List.flatMap_cons, List.flatMap_nil, spaced_mark, Node.tokens_token,
    List.singleton_append, List.append_nil]
  apply gives_advance_bind
  apply Gives.bind
  · apply gives_type
    rfl
  · apply gives_sees
    exact (accepts_argumentList h .argumentList (.inl rfl) es rest).map

/-- A primary expression is read whatever comes behind it. -/
theorem accepts_primary (e : Primary E) (rest : List Token) :
    (primary nested).Accepts (e.tree inner) rest := by
  unfold primary
  apply gives_get
  intro s _ hk
  rw [hk]
  cases e with
  | name x => exact accepts_identifierName x rest
  | literal value => cases value <;> exact (gives_advance _ rest).map
  | this => exact (gives_advance _ rest).map
  | parenthesized e => exact accepts_parenthesized h e rest
  | creation x es => exact accepts_objectCreation h x es rest

end Primary

/-! ## Postfix operators -/

section Postfixed

variable {E : Type} {inner : E → Green} {nested : Parser Green}

theorem gives_extend_none (n : Green) {rest : List Token} (hrest : binding (kindOf rest) < 9) :
    (extend nested n).Gives [] none rest := by
  unfold extend
  apply gives_get
  intro s _ hk
  have hpure := gives_pure (none : Option Green) rest
  have hbinding : binding s.kind < 9 := hk ▸ hrest
  cases hkind : s.kind <;> rw [hkind] at hbinding <;>
    first | exact hpure | exact absurd hbinding (by decide)

variable (h : Parses nested inner 1)
include h

/-- A postfix expression is read up to the operators behind it, which are then put on its tree. -/
theorem gives_postfixed (e : Postfixed E) {ts rest : List Token} {n : Green}
    (hn : Gives (refine (extend nested) (e.tree inner).spaced) ts n rest) :
    (postfixed nested).Gives ((e.tree inner).spaced.tokens ++ ts) n rest := by
  induction e generalizing ts with
  | primary e => exact (accepts_primary h e _).bind hn
  | member e x ih =>
    have hstep := ih (gives_refine_step (gives_extend_member _ (t := spacedMark .dot) rfl
      (accepts_identifierName x _)) (by simp) hn)
    simpa [Postfixed.tree] using hstep
  | conditionalMember e x ih =>
    have haccess := gives_refine_step (gives_extend_member _ (t := spacedMark .dot) rfl
      (accepts_identifierName x _)) (by simp) hn
    have hstep := ih (gives_refine_step (gives_extend_conditional _ (t := spacedMark .question) rfl
      rfl (.inl rfl) rfl) (by simp) haccess)
    simpa [Postfixed.tree] using hstep
  | element e es ih =>
    have hlist : (bracketedArguments nested).Accepts (bracketedTree inner es) (ts ++ rest) :=
      accepts_argumentList h .bracketedArgumentList (.inr rfl) es _
    have hstep := ih (gives_refine_step (gives_extend_element _ rfl hlist)
      (List.cons_ne_nil _ _) hn)
    simpa [Postfixed.tree] using hstep
  | conditionalElement e es ih =>
    have hlist : (bracketedArguments nested).Accepts (bracketedTree inner es) (ts ++ rest) :=
      accepts_argumentList h .bracketedArgumentList (.inr rfl) es _
    have haccess := gives_refine_step (gives_extend_element _ rfl hlist) (List.cons_ne_nil _ _) hn
    have hstep := ih (gives_refine_step (gives_extend_conditional _ (t := spacedMark .question) rfl
      rfl (.inr rfl) rfl) (by simp) haccess)
    simpa [Postfixed.tree] using hstep
  | call e es ih =>
    have hlist : (parenthesizedArguments nested).Accepts (parenthesizedTree inner es)
        (ts ++ rest) := accepts_argumentList h .argumentList (.inl rfl) es _
    have hstep := ih (gives_refine_step (gives_extend_call _ rfl hlist) (List.cons_ne_nil _ _) hn)
    simpa [Postfixed.tree] using hstep
  | assertion e ih =>
    have hstep := ih (gives_refine_step (gives_extend_assertion _ (t := spacedMark .exclamation) rfl
      _) (by simp) hn)
    simpa [Postfixed.tree] using hstep
  | step e operator ih =>
    have hkind : (spacedMark operator).kind = .plusPlus ∨
        (spacedMark operator).kind = .minusMinus := by
      simpa [isStep] using operator.2
    have hstep := ih (gives_refine_step (gives_extend_step _ hkind _) (by simp) hn)
    simpa [Postfixed.tree] using hstep

omit h in
theorem startsExpression_postfixed (inner : E → Green) (e : Postfixed E) :
    startsExpression (kindOf (e.tree inner).spaced.tokens) = true ∧
      isSignOperator (kindOf (e.tree inner).spaced.tokens) = false := by
  induction e with
  | primary e => exact startsExpression_primary e
  | member e _ ih => simpa [Postfixed.tree, kindOf_append ih.1] using ih
  | conditionalMember e _ ih => simpa [Postfixed.tree, kindOf_append ih.1] using ih
  | element e _ ih => simpa [Postfixed.tree, kindOf_append ih.1] using ih
  | conditionalElement e _ ih => simpa [Postfixed.tree, kindOf_append ih.1] using ih
  | call e _ ih => simpa [Postfixed.tree, kindOf_append ih.1] using ih
  | assertion e ih => simpa [Postfixed.tree, kindOf_append ih.1] using ih
  | step e _ ih => simpa [Postfixed.tree, kindOf_append ih.1] using ih

theorem parses_postfixed : Parses (postfixed nested) (Postfixed.tree inner) 9 := by
  constructor
  · intro e
    exact (startsExpression_postfixed inner e).1
  · intro e rest hrest
    have hgives := gives_postfixed h e (gives_refine_stop (gives_extend_none _ hrest))
    rwa [List.append_nil] at hgives

end Postfixed

/-! ## Signs -/

section Signed

variable {E : Type} {inner : E → Green} {nested : Parser Green}

/-- A signed expression is an operand behind its signs. -/
theorem exists_signs (inner : E → Green) (e : Signed E) : ∃ (signs : List Kind) (f : Postfixed E),
    (∀ k ∈ signs, isSignOperator k = true) ∧
    (e.tree inner).spaced.tokens = signs.map spacedMark ++ (f.tree inner).spaced.tokens ∧
    (e.tree inner).spaced = (signs.map fun k => Green.leaf (spacedMark k)).foldr
      (fun op n => Green.group .prefixUnaryExpression [op, n]) (f.tree inner).spaced := by
  induction e with
  | operand f => exact ⟨[], f, by simp, rfl, rfl⟩
  | sign operator e ih =>
    obtain ⟨signs, f, hsigns, htokens, hspaced⟩ := ih
    refine ⟨operator :: signs, f, ?_, ?_, ?_⟩
    · exact List.forall_mem_cons.2 ⟨operator.2, hsigns⟩
    · simp [Signed.tree, htokens]
    · simp [Signed.tree, hspaced]

theorem gives_signs {signs : List Kind} (hsigns : ∀ k ∈ signs, isSignOperator k = true)
    {rest : List Token} (hrest : isSignOperator (kindOf rest) = false) :
    Gives (collectWhile (fun s => isSignOperator s.kind) do return [← advance])
      (signs.map spacedMark) (signs.map fun k => Green.leaf (spacedMark k)) rest := by
  induction signs with
  | nil => exact gives_collectWhile_stop hrest
  | cons k signs ih =>
    obtain ⟨hk, hsigns⟩ := List.forall_mem_cons.1 hsigns
    exact gives_collectWhile_step (gives_advance _ _).map (List.cons_ne_nil _ _) hk (ih hsigns)

theorem startsExpression_of_isSignOperator {k : Kind} (h : isSignOperator k = true) :
    startsExpression k = true := by
  revert h
  cases k <;> decide

theorem parses_unary (h : Parses nested inner 1) : Parses (unary nested) (Signed.tree inner) 9 := by
  constructor
  · intro e
    obtain ⟨signs, f, hsigns, htokens, -⟩ := exists_signs inner e
    rw [htokens]
    cases signs with
    | nil => exact (startsExpression_postfixed inner f).1
    | cons k signs => exact startsExpression_of_isSignOperator (hsigns k List.mem_cons_self)
  · intro e rest hrest
    obtain ⟨signs, f, hsigns, htokens, hspaced⟩ := exists_signs inner e
    obtain ⟨hopens, hsign⟩ := startsExpression_postfixed inner f
    unfold Accepts
    rw [htokens, hspaced]
    apply Gives.bind
    · -- The operand begins with no sign, so the loop ends before it.
      apply gives_signs hsigns
      rwa [kindOf_append hopens]
    · exact ((parses_postfixed h).accepts f rest hrest).map

end Signed

/-! ## Binary operators -/

section Joining

variable {O : Type} {part : O → Green} {operand : Parser Green} {bound : Nat}

/-- Joins an operand to what stands on its left. -/
def joinRight (joins : Kind → Bool) (operand : Parser Green) (left : Green) :
    Parser (Option Green) := do
  if joins (← get).kind then
    let operator ← advance
    return some (.group .binaryExpression [left, operator, ← operand])
  else
    return none

theorem leftGrouped_eq (joins : Kind → Bool) (operand : Parser Green) :
    leftGrouped joins operand = (do
      let first ← operand
      refine (joinRight joins operand) first) := rfl

variable {joins : Kind → Bool} {m : Nat}

/-- Operands joined to the left are read up to the operators behind them. -/
theorem gives_leftGrouped (h : Parses operand part bound)
    (hjoins : ∀ k, joins k = true → binding k < bound) (e : LeftGrouped joins O)
    {ts rest : List Token} {n : Green}
    (hn : Gives (refine (joinRight joins operand) (e.tree part).spaced) ts n rest)
    (hrest : binding (kindOf (ts ++ rest)) < bound) :
    (leftGrouped joins operand).Gives ((e.tree part).spaced.tokens ++ ts) n rest := by
  induction e generalizing ts with
  | operand e =>
    rw [leftGrouped_eq]
    exact (h.accepts e _ hrest).bind hn
  | join left operator right ih =>
    -- The last operator is the first thing that the loop reads behind the tree on its left.
    have hjoin : (joinRight joins operand (left.tree part).spaced).Gives
        (spacedMark operator :: (part right).spaced.tokens)
        (some ((LeftGrouped.join left operator right).tree part).spaced) (ts ++ rest) := by
      apply gives_get
      intro s _ hk
      rw [show s.kind = operator from hk, if_pos operator.2]
      apply gives_advance_bind
      simpa [LeftGrouped.tree] using (h.accepts right _ hrest).map
    have hrefine := gives_refine_step hjoin (List.cons_ne_nil _ _) hn
    have hstep := ih hrefine (hjoins _ operator.2)
    simpa [LeftGrouped.tree] using hstep

/-- Operators of one tightness that join to the left put a layer on top of their operands. -/
theorem parses_leftGrouped (h : Parses operand part bound)
    (hjoins : ∀ k, joins k = true → binding k = m) (hm : m < bound) :
    Parses (leftGrouped joins operand) (fun e : LeftGrouped joins O => e.tree part) m := by
  constructor
  · intro e
    induction e with
    | operand e => exact h.opens e
    | join left operator right ih => simpa [LeftGrouped.tree, kindOf_append ih] using ih
  · intro e rest hrest
    have hstop : Gives (joinRight joins operand (e.tree part).spaced) [] none rest := by
      apply gives_get
      intro s _ hk
      rw [show s.kind = kindOf rest from hk,
        if_neg fun hjoin => Nat.ne_of_lt hrest (hjoins _ hjoin)]
      exact gives_pure none rest
    have hgives := gives_leftGrouped h (fun k hk => hjoins k hk ▸ hm) e (gives_refine_stop hstop)
      (Nat.lt_trans hrest hm)
    rwa [List.append_nil] at hgives

/-- Operands joined to the right are a first one and others behind an operator each. -/
theorem exists_operands (kind operator : Kind) (part : O → Green) (e : RightGrouped O) :
    ∃ (first : O) (others : List O),
      (e.tree kind operator part).spaced.tokens = (part first).spaced.tokens ++
        others.flatMap (fun e => spacedMark operator :: (part e).spaced.tokens) ∧
      (e.tree kind operator part).spaced = groupRight kind (part first).spaced
        (others.flatMap fun e => [Green.leaf (spacedMark operator), (part e).spaced]) := by
  induction e with
  | operand e => exact ⟨e, [], by simp [RightGrouped.tree], rfl⟩
  | join left right ih =>
    obtain ⟨first, others, htokens, hspaced⟩ := ih
    refine ⟨left, first :: others, ?_, ?_⟩
    · simp [RightGrouped.tree, htokens]
    · simp [RightGrouped.tree, hspaced, groupRight]

/-- An operator that joins to the right puts a layer on top of its operands. -/
theorem parses_rightGrouped (h : Parses operand part bound) (kind : Kind) {operator : Kind}
    (hm : binding operator < bound) :
    Parses (rightGrouped kind operator operand) (RightGrouped.tree kind operator part)
      (binding operator) := by
  constructor
  · intro e
    obtain ⟨first, others, htokens, -⟩ := exists_operands kind operator part e
    rw [htokens, kindOf_append (h.opens first)]
    exact h.opens first
  · intro e rest hrest
    obtain ⟨first, others, htokens, hspaced⟩ := exists_operands kind operator part e
    have hstop : kindOf rest ≠ operator := by
      rintro rfl
      exact Nat.lt_irrefl _ hrest
    unfold Accepts
    rw [htokens, hspaced]
    apply Gives.bind
    · exact h.accepts first _ (binding_moreOperands hm part others (Nat.lt_trans hrest hm))
    · apply Gives.map
      apply gives_moreOperands hm _ others hstop (Nat.lt_trans hrest hm)
      intro e rest hrest
      apply gives_advance_bind
      exact (h.accepts e rest hrest).map

end Joining

/-! ## Expressions -/

/-- How tightly the next token may bind behind operands joined on these levels. -/
def levelBound : List Nat → Nat
  | [] => 9
  | level :: _ => level + 2

/-- Each level is positive and binds less tightly than those behind it. -/
def Layered : List Nat → Prop
  | [] => True
  | level :: levels => 0 < level ∧ level + 2 < levelBound levels ∧ Layered levels

section Layers

variable {E : Type} {inner : E → Green} {nested : Parser Green} (h : Parses nested inner 1)
include h

theorem parses_binaryAbove {levels : List Nat} (hlevels : Layered levels) :
    Parses (binaryAbove levels nested) (fun e : BinaryAbove E levels => e.tree inner)
      (levelBound levels) := by
  induction levels with
  | nil => exact parses_unary h
  | cons level levels ih =>
    obtain ⟨hpos, hlt, hlevels⟩ := hlevels
    have hjoins : ∀ k : Kind, (k.precedence == level) = true → binding k = level + 2 := by
      intro k hk
      obtain rfl := beq_iff_eq.1 hk
      exact binding_of_precedence hpos
    exact parses_leftGrouped (ih hlevels) hjoins hlt

theorem parses_coalesce : Parses (coalesce nested) (fun e : Coalesced E => e.tree inner) 2 := by
  have hlevels : Layered precedenceLevels := by simp [precedenceLevels, Layered, levelBound]
  exact parses_rightGrouped (parses_binaryAbove h hlevels) .binaryExpression (by decide)

theorem parses_assignment : Parses (assignment nested) (fun e : Assigned E => e.tree inner) 1 :=
  parses_rightGrouped (parses_coalesce h) .assignmentExpression (by decide)

end Layers

/-- An expression is read wherever nothing behind it takes hold of it. -/
theorem parses_expression {depth limit : Nat} (h : depth ≤ limit) :
    Parses (expression limit) (fun e : Expression depth => e.tree) 1 := by
  induction depth generalizing limit with
  | zero => exact ⟨fun e => (nomatch e), fun e => (nomatch e)⟩
  | succ depth ih =>
    obtain ⟨limit, rfl⟩ := Nat.exists_eq_add_of_le' h
    exact parses_assignment (ih (Nat.le_add_left _ _))

end Parser

end NullLint
