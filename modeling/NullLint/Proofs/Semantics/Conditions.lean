import NullLint.Proofs.Semantics.Frame
import NullLint.Proofs.Semantics.Outcomes

/-!
# What a condition shows

How expressions run, read backwards: which operands ran, and with which values. From this it
follows that a condition which is said to show that a variable is not null does show it.
-/

namespace NullLint

variable {m : Model} {n c e root : Placed} {outs : List Outcome} {o o' : Outcome}
  {σ σ' : Store} {v w : Value} {x : Nat}

theorem Outcome.has_value : (Outcome.value v).Has w ↔ w = v := by
  constructor
  · rintro ⟨⟩
    rfl
  · rintro rfl
    exact .value _

/-! ## Parts of a run -/

theorem Partly.eq_of_nil (h : Partly m n σ [] σ') : σ' = σ := by
  cases h
  rfl

theorem Partly.last (h : Partly m n σ (o :: outs) σ') :
    ∃ c σ₁, Partly m n σ outs σ₁ ∧ Next m n outs c ∧ Runs m c σ₁ o σ' := by
  cases h with
  | part before next run gives => exact ⟨_, _, before, next, _, _, run, gives⟩

/-- A run of one part. -/
theorem Partly.one (h : Partly m n σ [o] σ') : ∃ c, Next m n [] c ∧ Runs m c σ o σ' := by
  obtain ⟨c, σ₁, before, next, run⟩ := h.last
  obtain rfl := before.eq_of_nil
  exact ⟨c, next, run⟩

/-- A run of two parts. -/
theorem Partly.two (h : Partly m n σ [o', o] σ') :
    ∃ c c' σ₁, Next m n [] c ∧ Runs m c σ o σ₁ ∧ Next m n [o] c' ∧ Runs m c' σ₁ o' σ' := by
  obtain ⟨c', σ₁, before, next', run'⟩ := h.last
  obtain ⟨c, next, run⟩ := before.one
  exact ⟨c, c', σ₁, next, run, next', run'⟩

/-! ## Parts by kind -/

theorem Next.of_parenthesized (h : Next m n outs c) (hn : n.kind = .parenthesizedExpression) :
    n.inner? = some c := by
  cases h with
  | inner h he => exact he
  | _ => simp_all [Kind.continuesChain, Kind.isArguments, Kind.isUnary, Kind.holdsValue,
      Kind.isList]

theorem Next.of_unary (h : Next m n outs c) (hn : n.kind.isUnary = true) :
    ∃ u, n.unary? = some u ∧ c = u.operand := by
  have hkind : n.kind = .prefixUnaryExpression ∨ n.kind = .postfixUnaryExpression := by
    simpa [Kind.isUnary] using hn
  cases h with
  | operand h hu he => exact ⟨_, hu, rfl⟩
  | _ => rcases hkind with hkind | hkind <;> simp_all [Kind.continuesChain, Kind.isArguments,
      Kind.holdsValue, Kind.isList]

theorem Next.of_binary {b : Node.Binary Place} (h : Next m n outs c)
    (hn : n.kind = .binaryExpression) (hb : n.binary? = some b) :
    outs = [] ∧ c = b.left ∨
      ∃ o v, outs = [o] ∧ c = b.right ∧ o.Has v ∧ GoesOn b.operator.kind v := by
  cases h with
  | left h hb' he =>
    obtain rfl := Option.some.inj (hb.symm.trans hb')
    exact .inl ⟨rfl, rfl⟩
  | right h hb' he ho goesOn =>
    obtain rfl := Option.some.inj (hb.symm.trans hb')
    exact .inr ⟨_, _, rfl, rfl, ho, goesOn⟩
  | _ => simp_all [Kind.continuesChain, Kind.isArguments, Kind.isUnary, Kind.holdsValue,
      Kind.isList]

/-- The operands that ran, if both did. -/
theorem Partly.operands {b : Node.Binary Place} (h : Partly m n σ [o', o] σ')
    (hn : n.kind = .binaryExpression) (hb : n.binary? = some b) :
    Next m n [] b.left ∧ Next m n [o] b.right ∧ ∃ σ₁ v, Runs m b.left σ o σ₁ ∧ o.Has v ∧
      GoesOn b.operator.kind v ∧ Runs m b.right σ₁ o' σ' := by
  obtain ⟨c, c', σ₁, next, run, next', run'⟩ := h.two
  rcases next.of_binary hn hb with ⟨_, rfl⟩ | ⟨_, _, hne, _⟩
  · rcases next'.of_binary hn hb with ⟨hne, _⟩ | ⟨o₁, v, heq, rfl, ho, goesOn⟩
    · simp at hne
    · obtain rfl : o = o₁ := by simpa using heq
      exact ⟨next, next', σ₁, v, run, ho, goesOn, run'⟩
  · simp at hne

theorem Next.of_assignment {b : Node.Binary Place} (h : Next m n outs c)
    (hn : n.kind = .assignmentExpression) (hb : n.binary? = some b)
    (hx : m.refersTo x b.left = true) : outs = [] ∧ c = b.right := by
  cases h with
  | assigned h hb' hx' he =>
    obtain rfl := Option.some.inj (hb.symm.trans hb')
    exact ⟨rfl, rfl⟩
  | target h hb' hx' he | assignedTarget h hb' hx' he =>
    obtain rfl := Option.some.inj (hb.symm.trans hb')
    simp [hx' x] at hx
  | _ => simp_all [Kind.continuesChain, Kind.isArguments, Kind.isUnary, Kind.holdsValue,
      Kind.isList]

/-! ## Results by kind -/

theorem Gives.of_parenthesized (h : Gives m n outs σ o σ')
    (hn : n.kind = .parenthesizedExpression) :
    σ' = σ ∧ ∃ o₁ v, outs = [o₁] ∧ o₁.Has v ∧ o = .value v := by
  cases h with
  | parenthesized h ho => exact ⟨rfl, _, _, rfl, ho, rfl⟩
  | _ => simp_all [Kind.continuesChain, Kind.isArguments, Kind.isUnary, Kind.isList]

theorem Gives.of_name (h : Gives m n outs σ o σ') (hn : n.kind = .identifierName)
    (hx : m.symbolAt n.id = some x) : outs = [] ∧ o = .value (σ x) := by
  cases h with
  | variableRead h hx' =>
    obtain rfl := Option.some.inj (hx.symm.trans hx')
    exact ⟨rfl, rfl⟩
  | _ => simp_all [Kind.continuesChain, Kind.isArguments, Kind.isUnary, Kind.isList]

theorem Gives.of_literal (h : Gives m n outs σ o σ') (hn : n.kind = .literalExpression) :
    ∃ v, o = .value v ∧ (v = .null ↔ Model.isNullLiteral n = true) := by
  cases h with
  | literal h hv => exact ⟨_, rfl, hv⟩
  | _ => simp_all [Kind.continuesChain, Kind.isArguments, Kind.isUnary, Kind.isList]

theorem Gives.of_negation {u : Node.Unary Place} (h : Gives m n outs σ o σ')
    (hn : n.kind = .prefixUnaryExpression) (hu : n.unary? = some u)
    (hop : u.operator.kind = .exclamation) :
    σ' = σ ∧ ∃ o₁ v b, outs = [o₁] ∧ o₁.Has v ∧ v.ComesOut b ∧ o = .value (.truth !b) := by
  cases h with
  | negation h hu' hop' ho hb => exact ⟨rfl, _, _, _, rfl, ho, hb, rfl⟩
  | _ => simp_all [Kind.continuesChain, Kind.isArguments, Kind.isList, Kind.isStep]

/-- `&&` stops at false and `||` at true. -/
theorem Gives.of_logical {b : Node.Binary Place} {stop : Bool} (h : Gives m n outs σ o σ')
    (hn : n.kind = .binaryExpression) (hb : n.binary? = some b)
    (hop : b.operator.kind = bif stop then .barBar else .ampersandAmpersand) :
    o = .value (.truth stop) ∨
      ∃ o₁ o₂ v outcome, outs = [o₂, o₁] ∧ o₂.Has v ∧ v.ComesOut outcome ∧
        o = .value (.truth outcome) := by
  cases h with
  | cutShort outcome h hb' hop' ho hv =>
    obtain rfl := Option.some.inj (hb.symm.trans hb')
    rw [hop] at hop'
    cases stop <;> cases outcome <;> simp_all
  | logical outcome h hb' hop' ho hv => exact .inr ⟨_, _, _, _, rfl, ho, hv, rfl⟩
  | _ => cases stop <;> simp_all [Kind.continuesChain, Kind.isArguments, Kind.isUnary, Kind.isList,
      Kind.precedence]

theorem Gives.of_equality {b : Node.Binary Place} (h : Gives m n outs σ o σ')
    (hn : n.kind = .binaryExpression) (hb : n.binary? = some b)
    (hop : b.operator.kind = .equalsEquals ∨ b.operator.kind = .exclamationEquals) :
    ∃ o₁ o₂ v w equal, outs = [o₂, o₁] ∧ o₁.Has v ∧ o₂.Has w ∧ v.ComparesAs w equal ∧
      o = .value (.truth (equal == (b.operator.kind == .equalsEquals))) := by
  cases h with
  | equality h hb' hop' ho ho' he =>
    obtain rfl := Option.some.inj (hb.symm.trans hb')
    exact ⟨_, _, _, _, _, rfl, ho, ho', he, rfl⟩
  | cutShort outcome h hb' hop' ho hv =>
    obtain rfl := Option.some.inj (hb.symm.trans hb')
    rcases hop with hop | hop <;> cases outcome <;> simp [hop] at hop'
  | _ => rcases hop with hop | hop <;> simp_all [Kind.continuesChain, Kind.isArguments,
      Kind.isUnary, Kind.isList, Kind.precedence]

/-! ## Values of names and literals -/

/-- Parentheses change nothing. -/
theorem Runs.unparenthesized (h : Runs m n σ o σ') (ho : o.Has v) :
    ∃ o', Runs m n.unparenthesized σ o' σ' ∧ o'.Has v := by
  induction n using Node.inner_induction generalizing o with
  | stop n hi =>
    rw [Node.unparenthesized_of_inner?_eq_none hi]
    exact ⟨o, h, ho⟩
  | inner n e hi ih =>
    rw [Node.unparenthesized_of_inner? hi]
    have hn := (Node.inner?_eq_some hi).1
    obtain ⟨outs, σ₁, hpartly, hgives⟩ := h
    obtain ⟨rfl, o₁, w, rfl, ho₁, rfl⟩ := hgives.of_parenthesized hn
    obtain rfl := Outcome.has_value.1 ho
    obtain ⟨c, next, run⟩ := hpartly.one
    obtain rfl := Option.some.inj (hi.symm.trans (next.of_parenthesized hn))
    exact ih run ho₁

theorem Runs.value_of_refersTo (h : Runs m n σ o σ') (ho : o.Has v)
    (hx : m.refersTo x n = true) : v = σ x := by
  obtain ⟨o', ⟨outs, σ₁, hpartly, hgives⟩, ho'⟩ := h.unparenthesized ho
  simp only [Model.refersTo, Bool.and_eq_true, beq_iff_eq] at hx
  obtain ⟨rfl, rfl⟩ := hgives.of_name hx.1 hx.2
  obtain rfl := hpartly.eq_of_nil
  exact Outcome.has_value.1 ho'

theorem Runs.value_of_isNullLiteral (h : Runs m n σ o σ') (ho : o.Has v)
    (hn : Model.isNullLiteral n = true) : v = .null := by
  obtain ⟨o', ⟨outs, σ₁, hpartly, hgives⟩, ho'⟩ := h.unparenthesized ho
  have hk : n.unparenthesized.kind = .literalExpression := by
    by_contra hk
    simp [Model.isNullLiteral, Node.literal?, hk] at hn
  obtain ⟨w, rfl, hw⟩ := hgives.of_literal hk
  rw [Outcome.has_value.1 ho', hw]
  unfold Model.isNullLiteral at hn ⊢
  rwa [Node.unparenthesized_of_kind_ne (by simp [hk])]

/-! ## Conditions -/

/-- The condition came out as `b` in a state in which the variable is null just if `isNull`. -/
structure Tested (m : Model) (root : Placed) (x : Nat) (isNull : Prop) (condition : Placed)
    (b : Bool) : Prop where
  quiet : Quiet root condition
  run : ∃ σ o v σ', (σ x = .null ↔ isNull) ∧ Runs m condition σ o σ' ∧ o.Has v ∧ v.ComesOut b

namespace Tested

variable {isNull : Prop} {b : Bool}

theorem unparenthesized (hroot : StatementAssignments m root) (h : Tested m root x isNull n b) :
    Tested m root x isNull n.unparenthesized b where
  quiet := by
    have hquiet := h.quiet
    clear h
    induction n using Node.inner_induction with
    | stop n hi => rwa [Node.unparenthesized_of_inner?_eq_none hi]
    | inner n e hi ih =>
      rw [Node.unparenthesized_of_inner? hi]
      have hk := (Node.inner?_eq_some hi).1
      exact ih (hquiet.next hroot (m := m) (.inner hk hi))
  run := by
    obtain ⟨σ, o, v, σ', hnull, run, ho, hv⟩ := h.run
    obtain ⟨o', run', ho'⟩ := run.unparenthesized ho
    exact ⟨σ, o', v, σ', hnull, run', ho', hv⟩

/-- The operand of `!` came out the other way. -/
theorem of_negation {u : Node.Unary Place} (hroot : StatementAssignments m root)
    (h : Tested m root x isNull n b) (hn : n.kind = .prefixUnaryExpression)
    (hu : n.unary? = some u) (hop : u.operator.kind = .exclamation) :
    Tested m root x isNull u.operand (!b) := by
  obtain ⟨σ, o, v, σ', hnull, ⟨outs, σ₁, hpartly, hgives⟩, ho, hv⟩ := h.run
  obtain ⟨rfl, o₁, w, b', rfl, ho₁, hw, rfl⟩ := hgives.of_negation hn hu hop
  obtain rfl := Outcome.has_value.1 ho
  obtain rfl : (!b') = b := hv _ rfl
  obtain ⟨c, next, run⟩ := hpartly.one
  obtain ⟨u', hu', rfl⟩ := next.of_unary (by simp [Kind.isUnary, hn])
  obtain rfl := Option.some.inj (hu.symm.trans hu')
  exact ⟨h.quiet.next hroot next, σ, o₁, w, _, hnull, run, ho₁, by simpa using hw⟩

/-- If `&&` came out true, or `||` false, both operands came out that way. -/
theorem of_logical {v : Node.Binary Place} (stop : Bool) (hroot : StatementAssignments m root)
    (h : Tested m root x isNull n (!stop)) (hn : n.kind = .binaryExpression)
    (hb : n.binary? = some v)
    (hop : v.operator.kind = bif stop then .barBar else .ampersandAmpersand) :
    Tested m root x isNull v.left (!stop) ∧ Tested m root x isNull v.right (!stop) := by
  obtain ⟨σ, o, w, σ', hnull, ⟨outs, σ₁, hpartly, hgives⟩, ho, hw⟩ := h.run
  rcases hgives.of_logical hn hb hop with rfl | ⟨o₁, o₂, w', outcome, rfl, ho₂, hw', rfl⟩
  · obtain rfl := Outcome.has_value.1 ho
    have := hw stop rfl
    cases stop <;> simp at this
  · obtain rfl := Outcome.has_value.1 ho
    obtain rfl : outcome = !stop := hw _ rfl
    obtain ⟨next, next', σ₂, w₁, run, ho₁, goesOn, run'⟩ := hpartly.operands hn hb
    have hquiet := h.quiet.next hroot next
    have hw₁ : w₁.ComesOut (!stop) := by
      rw [hop] at goesOn
      cases stop <;> exact goesOn
    refine ⟨⟨hquiet, σ, o₁, w₁, σ₂, hnull, run, ho₁, hw₁⟩, h.quiet.next hroot next', ?_⟩
    exact ⟨σ₂, o₂, w', _, (run.sameNull_of_quiet hroot hquiet x).symm.trans hnull, run', ho₂, hw'⟩

/-- A comparison of the variable with null comes out as unequal just if it is not null. -/
theorem of_comparison {v : Node.Binary Place} (hroot : StatementAssignments m root)
    (h : Tested m root x isNull n b) (hn : n.kind = .binaryExpression) (hb : n.binary? = some v)
    (hop : v.operator.kind = .exclamationEquals ∨ v.operator.kind = .equalsEquals)
    (hx : m.comparesWithNull x v.left v.right = true) :
    ((v.operator.kind == .exclamationEquals) == b) = true ↔ ¬isNull := by
  obtain ⟨σ, o, w, σ', hnull, ⟨outs, σ₁, hpartly, hgives⟩, ho, hw⟩ := h.run
  obtain ⟨o₁, o₂, v₁, v₂, equal, rfl, ho₁, ho₂, hequal, rfl⟩ := hgives.of_equality hn hb hop.symm
  obtain rfl := Outcome.has_value.1 ho
  have hb' : (equal == (v.operator.kind == .equalsEquals)) = b := hw _ rfl
  obtain ⟨next, next', σ₂, w₁, run, _, _, run'⟩ := hpartly.operands hn hb
  have hsame : σ x = .null ↔ σ₂ x = .null :=
    run.sameNull_of_quiet hroot (h.quiet.next hroot next) x
  -- one side is the variable, the other one null
  have hboth : equal = true ↔ isNull := by
    simp only [Model.comparesWithNull, Bool.or_eq_true, Bool.and_eq_true] at hx
    rcases hx with ⟨hx, hnil⟩ | ⟨hnil, hx⟩
    · have h₁ := run.value_of_refersTo ho₁ hx
      have h₂ := run'.value_of_isNullLiteral ho₂ hnil
      rw [hequal (.inr h₂), h₁, hnull]
      exact and_iff_left h₂
    · have h₁ := run.value_of_isNullLiteral ho₁ hnil
      have h₂ := run'.value_of_refersTo ho₂ hx
      rw [hequal (.inl h₁), h₂, ← hsame, hnull]
      exact and_iff_right h₁
  rw [← hboth, ← hb']
  rcases hop with hop | hop <;> cases equal <;> simp [hop]

theorem informs (hroot : StatementAssignments m root) :
    m.Informs x isNull (Tested m root x isNull) where
  unparenthesized h := h.unparenthesized hroot
  negation h := h.of_negation hroot
  logical stop h := h.of_logical stop hroot
  comparison h := h.of_comparison hroot

end Tested

/-- The conditions that show a variable not to be null do so. -/
theorem Model.anyImplies_sound {isNull : Prop} (hroot : StatementAssignments m root) {steps : Nat}
    {conditions : List (Placed × Bool)}
    (h : m.anyImplies x true steps conditions = true)
    (hall : ∀ p ∈ conditions, Tested m root x isNull p.1 p.2) : ¬isNull :=
  ((Tested.informs hroot).anyImplies h hall).1 rfl

end NullLint
