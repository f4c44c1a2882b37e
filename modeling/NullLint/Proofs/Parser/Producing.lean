import NullLint.Proofs.Parser.Building

/-!
# Parsers follow the grammar

One lemma for each parser: what it builds, and that as long as nothing is reported the nodes have
the kinds that the grammar asks for where the parser is called.
-/

open Computability

namespace NullLint.Parser

open Grammar

/-! ## Types -/

section Types

open Lookahead

theorem makes_typeArguments {argument : Parser Green} {s : ParseState} (hs : s.kind = .lessThan)
    (h : ∀ s, argument.Ensures s fun n s' => Makes Grammar.type s [n] s') :
    (typeArguments argument).Ensures s fun n s' => Makes (just .typeArgumentList) s [n] s' := by
  simp only [typeArguments, ensures_bind, ensures_pure]
  refine (makes_token hs (by simp)).mono fun opening s₁ h₁ => ?_
  refine (makes_commaSeparated (makes_single h) s₁).mono fun types s₂ h₂ => ?_
  refine (makes_expect .greaterThan s₂ rfl (by simp)).mono fun closing s₃ h₃ => ?_
  exact (h₁.cons (h₂.append h₃)).group .typeArgumentList rfl rfl

theorem kind_of_typeArgumentsAhead {s : ParseState} (h : typeArgumentsAhead s = true) :
    s.kind = .lessThan := by
  simp only [typeArgumentsAhead, Bool.and_eq_true, beq_iff_eq] at h
  exact h.1

theorem makes_simpleType {argument : Option (Parser Green)}
    (h : ∀ p ∈ argument, ∀ s, p.Ensures s fun n s' => Makes Grammar.type s [n] s')
    (s : ParseState) :
    (simpleType argument).Ensures s fun n s' => Makes (oneOf Kind.isSimpleType) s [n] s' := by
  simp only [simpleType, ensures_bind, ensures_sees, ensures_ite, ensures_pure]
  constructor
  · intro hs
    refine (makes_token (by simpa using hs) (by simp)).mono fun n s₁ h₁ => ?_
    exact (h₁.just_le (by simp)).group .predefinedOrNamedType rfl rfl
  · intro _
    refine (makes_expect .identifier s rfl (by simp)).mono fun name s₁ h₁ => ?_
    cases argument with
    | none => exact (h₁.just_le (by simp)).group .predefinedOrNamedType rfl rfl
    | some p =>
      simp only [ensures_bind, ensures_get, ensures_ite, ensures_pure]
      constructor
      · intro hs
        refine (makes_typeArguments (kind_of_typeArgumentsAhead hs) (h p rfl)).mono
          fun list s₂ h₂ => ?_
        exact (h₁.cons h₂).group .genericName rfl rfl
      · intro _
        exact (h₁.just_le (by simp)).group .predefinedOrNamedType rfl rfl

/-- Refining a node of a kind in `p` step by step. -/
theorem makes_refine {p : Kind → Bool} {step : Green → Parser (Option Green)}
    (h : ∀ s₀ n s, Makes (oneOf p) s₀ [n] s →
      (step n).Ensures s fun r s' => Makes (oneOf p) s₀ [r.getD n] s')
    {s₀ s : ParseState} {n : Green} (hn : Makes (oneOf p) s₀ [n] s) :
    Ensures (refine step n) s fun m s' => Makes (oneOf p) s₀ [m] s' := by
  refine ensures_refine (fun m s' => Makes (oneOf p) s₀ [m] s') _ (fun m s₁ h₁ => ?_) hn
  refine (h s₀ m s₁ h₁).mono fun r s₂ h₂ => ?_
  cases r with
  | none => exact h₂
  | some b =>
    dsimp only
    split <;> exact h₂

theorem makes_qualify {argument : Option (Parser Green)}
    (h : ∀ p ∈ argument, ∀ s, p.Ensures s fun n s' => Makes Grammar.type s [n] s')
    (s₀ : ParseState) (n : Green) (s : ParseState) (hn : Makes (oneOf Kind.isDottedType) s₀ [n] s) :
    (qualify argument n).Ensures s
      fun r s' => Makes (oneOf Kind.isDottedType) s₀ [r.getD n] s' := by
  simp only [qualify, ensures_bind, ensures_get, ensures_ite, ensures_pure]
  constructor
  · rintro ⟨hs, -⟩
    refine (makes_token hs (by simp)).mono fun dot s₁ h₁ => ?_
    refine (makes_simpleType h s₁).mono fun name s₂ h₂ => ?_
    exact (hn.cons (h₁.cons h₂)).group .qualifiedName rfl rfl
  · intro _
    exact hn

theorem makes_decorate (s₀ : ParseState) (n : Green) (s : ParseState)
    (hn : Makes Grammar.type s₀ [n] s) :
    (decorate n).Ensures s fun r s' => Makes Grammar.type s₀ [r.getD n] s' := by
  simp only [decorate, ensures_bind, ensures_get, ensures_ite, ensures_pure]
  refine ⟨fun hs => ?_, fun _ => ⟨fun hs => ?_, fun _ => hn⟩⟩
  · refine (makes_token hs.1 (by simp)).mono fun question s₁ h₁ => ?_
    exact (hn.cons h₁).group .nullableType rfl rfl
  · apply (makes_token_next hs.1 (by simp)).mono
    rintro opening s₁ ⟨h₁, hnext, -⟩
    refine (makes_token (hnext.trans hs.2) (by simp)).mono fun closing s₂ h₂ => ?_
    exact (hn.cons (h₁.cons h₂)).group .arrayType rfl rfl

theorem makes_typeWith {argument : Option (Parser Green)}
    (h : ∀ p ∈ argument, ∀ s, p.Ensures s fun n s' => Makes Grammar.type s [n] s')
    (s : ParseState) :
    (typeWith argument).Ensures s fun n s' => Makes Grammar.type s [n] s' := by
  simp only [typeWith, ensures_bind]
  refine (makes_simpleType h s).mono fun name s₁ h₁ => ?_
  have hname : Makes (oneOf Kind.isDottedType) s [name] s₁ :=
    h₁.oneOf_mono fun k hk => by simp [Kind.isDottedType, hk]
  refine (makes_refine (makes_qualify h) hname).mono fun qualified s₂ h₂ => ?_
  refine makes_refine makes_decorate (h₂.oneOf_mono fun k => ?_)
  cases k <;> decide

theorem makes_typeNested (depth : Nat) (s : ParseState) :
    (typeNested depth).Ensures s fun n s' => Makes Grammar.type s [n] s' := by
  induction depth generalizing s with
  | zero => exact makes_typeWith (by simp) s
  | succ depth ih => exact makes_typeWith (by simpa using ih) s

theorem makes_type (s : ParseState) : type.Ensures s fun n s' => Makes Grammar.type s [n] s' :=
  makes_typeNested _ s

end Types

/-! ## Expressions -/

section Expressions

open Lookahead

theorem makes_identifierName (s : ParseState) :
    identifierName.Ensures s fun n s' => Makes (just .identifierName) s [n] s' :=
  (makes_expect .identifier s rfl (by simp)).mono fun _ _ h₁ => h₁.group .identifierName rfl rfl

/-- The place of an expression that the source lacks: its lack is reported. -/
theorem makes_absentExpression (s : ParseState) :
    absentExpression.Ensures s fun n s' => Makes operand s [n] s' := by
  have habsent : Makes (just .identifier) s [.leaf (.absent .identifier)]
      (complain .invalidExpressionTerm s).2 :=
    ⟨.absent s .identifier rfl (.current (by simp)), fun _ => singleton_mem_just _⟩
  exact habsent.group .identifierName rfl rfl

/-- Behind the `?` of a conditional access stands the access that it guards. -/
theorem nextKind_of_conditionalAccessAhead {s : ParseState} (h : conditionalAccessAhead s = true) :
    s.nextKind = .dot ∨ s.nextKind = .openBracket := by
  unfold conditionalAccessAhead at h
  split at h
  · rename_i question next rest hs
    simp only [Bool.and_eq_true, Bool.or_eq_true, beq_iff_eq] at h
    simpa [ParseState.nextKind, kindAhead, hs] using h.1.1.2
  · cases h

/-- An expression that may be extended: an operand, or a conditional access right before the access
that it guards. -/
def Extensible (s₀ : ParseState) (e : Green) (s : ParseState) : Prop :=
  Makes operand s₀ [e] s ∨
    Makes (just .conditionalAccessExpression) s₀ [e] s ∧
      (s.kind = .dot ∨ s.kind = .openBracket)

namespace Extensible

variable {s₀ s s' : ParseState} {e : Green}

theorem expression (h : Extensible s₀ e s) : Makes (oneOf Kind.isExpression) s₀ [e] s := by
  rcases h with h | ⟨h, -⟩
  · exact h.oneOf_mono fun k hk => (Bool.and_eq_true_iff.1 hk).1
  · exact h.just_le rfl

theorem operand (h : Extensible s₀ e s) (hdot : s.kind ≠ .dot)
    (hbracket : s.kind ≠ .openBracket) : Makes operand s₀ [e] s := by
  rcases h with h | ⟨-, hs⟩
  · exact h
  · exact absurd hs (not_or.2 ⟨hdot, hbracket⟩)

end Extensible

/-- What a round that extends `e` in the state `s` gives: nothing more, or an expression that may be
extended again if something was read. -/
def Extension (s₀ : ParseState) (e : Green) (s : ParseState) (r : Option Green) (s' : ParseState) :
    Prop :=
  match r with
  | none => Makes operand s₀ [e] s'
  | some b =>
    if s'.rest.length < s.rest.length then Extensible s₀ b s' else Makes operand s₀ [b] s'

theorem Extension.of_operand {s₀ s s' : ParseState} {e b : Green} (h : Makes operand s₀ [b] s') :
    Extension s₀ e s (some b) s' := by
  unfold Extension
  dsimp only
  split
  · exact .inl h
  · exact h

/-- Operators before an operand are applied from the inside out. -/
theorem makes_foldr_sign {operators : List Green} {e : Green} {s s₁ s₂ : ParseState}
    (hoperators : Builds s operators s₁) (he : Makes operand s₁ [e] s₂)
    (hsigns : s₂.Quiet → ∀ op ∈ operators, isSignOperator op.kind = true) :
    Makes operand s
      [operators.foldr (fun op e => .group .prefixUnaryExpression [op, e]) e] s₂ := by
  induction operators generalizing s with
  | nil => exact ⟨hoperators.append he.1, he.2⟩
  | cons op operators ih =>
    obtain ⟨s', hop, hrest⟩ := hoperators.of_cons
    have hinner := ih hrest fun hq op hop => hsigns hq op (by simp [hop])
    have hkinds (hq : s₂.Quiet) := Language.append_mem_mul
      (singleton_mem_oneOf.2 (hsigns hq op (by simp))) (hinner.2 hq)
    exact Makes.group .prefixUnaryExpression ⟨hop.append hinner.1, hkinds⟩ rfl rfl

/-- Joining operands to the left. -/
theorem makes_leftGrouped (joins : Kind → Bool) {part : Parser Green}
    (hjoins : ∀ k, joins k = true → k.isBinaryOperator = true)
    (h : ∀ s, part.Ensures s fun n s' => Makes operand s [n] s') (s : ParseState) :
    (leftGrouped joins part).Ensures s fun n s' => Makes operand s [n] s' := by
  simp only [leftGrouped, ensures_bind]
  refine (h s).mono fun first s₁ h₁ => ?_
  refine makes_refine (fun s₀ left s hleft => ?_) h₁
  simp only [ensures_bind, ensures_get, ensures_ite, ensures_pure]
  refine ⟨fun hs => ?_, fun _ => hleft⟩
  refine (makes_advance (hjoins _ hs) rfl).mono fun operator s₁ h₁ => ?_
  refine (h s₁).mono fun right s₂ h₂ => ?_
  exact (hleft.cons (h₁.cons h₂)).group .binaryExpression rfl rfl

/-- Grouping operands and operators in turn to the right. -/
theorem makes_groupRight {kind operator : Kind}
    (hkind : operand * (just operator * operand) ≤ production kind)
    (hoperand : kind.standsAlone = true) {first : Green} {more : List Green}
    (even : more.length % 2 = 0) {s s₁ s₂ : ParseState} (hfirst : Builds s [first] s₁)
    (hmore : Builds s₁ more s₂)
    (hkinds : s₂.Quiet → first.kind.standsAlone = true ∧
      more.map Node.kind ∈ (just operator * operand)∗) :
    Makes operand s [groupRight kind first more] s₂ := by
  fun_induction groupRight kind first more generalizing s s₁ with
  | case1 first mark next more ih =>
    obtain ⟨s₃, hmark, hmore⟩ := hmore.of_cons
    obtain ⟨s₄, hnext, hmore⟩ := hmore.of_cons
    have hparts (hq : s₂.Quiet) : mark.kind = operator ∧ next.kind.standsAlone = true ∧
        more.map Node.kind ∈ (just operator * operand)∗ := by
      obtain ⟨hmark, hnext⟩ := cons_cons_mem_kstar.1 (hkinds hq).2
      exact ⟨by simpa using hmark, hnext⟩
    simp only [List.length_cons] at even
    have hright := ih (by omega) hnext hmore fun hq => (hparts hq).2
    have hchildren : Makes (production kind) s [first, mark, groupRight kind next more] s₂ := by
      refine ⟨hfirst.append (hmark.append hright.1), fun hq => hkind ?_⟩
      have hleft := singleton_mem_oneOf.2 (hkinds hq).1
      have hoperator : [mark.kind] ∈ just operator := singleton_mem_oneOf.2 (by simp [hparts hq])
      exact Language.append_mem_mul hleft (Language.append_mem_mul hoperator (hright.2 hq))
    refine hchildren.group kind hoperand ?_
    exact Kind.isNode_of_isExpression (Bool.and_eq_true_iff.1 hoperand).1
  | case2 more first hshort =>
    obtain rfl : more = [] := by
      match more with
      | [] => rfl
      | [a] => simp at even
      | a :: b :: more => exact absurd rfl (hshort a b more)
    exact ⟨hfirst.append hmore, fun hq => singleton_mem_oneOf.2 (hkinds hq).1⟩

theorem makes_rightGrouped {kind operator : Kind} {part : Parser Green}
    (hkind : operand * (just operator * operand) ≤ production kind)
    (hoperand : kind.standsAlone = true) (hend : operator ≠ .endOfFile)
    (h : ∀ s, part.Ensures s fun n s' => Makes operand s [n] s') (s : ParseState) :
    (rightGrouped kind operator part).Ensures s fun n s' => Makes operand s [n] s' := by
  simp only [rightGrouped, ensures_bind, ensures_pure]
  refine (h s).mono fun first s₁ h₁ => ?_
  let inv (ns : List Green) (s₂ : ParseState) : Prop :=
    Makes (just operator * operand)∗ s₁ ns s₂ ∧ ns.length % 2 = 0
  have round (ns : List Green) (s₂ : ParseState) (hs : (s₂.kind == operator) = true)
      (h₂ : inv ns s₂) :
      Ensures (do let mark ← advance; return [mark, ← part]) s₂ fun r s' => inv (ns ++ r) s' := by
    simp only [ensures_bind, ensures_pure]
    refine (makes_token (by simpa using hs) hend).mono fun mark s₃ h₃ => ?_
    refine (h s₃).mono fun e s₄ h₄ => ⟨?_, ?_⟩
    · exact (h₂.1.append (h₃.cons h₄)).mono kstar_mul_le_kstar
    · have := h₂.2
      simp only [List.length_append, List.length_cons, List.length_nil]
      omega
  refine (ensures_collectWhile inv round ⟨(Makes.refl s₁).mono one_le_kstar, rfl⟩).mono
    fun more s₂ h₂ => ?_
  refine makes_groupRight hkind hoperand h₂.2 h₁.1 h₂.1.1 fun hq => ⟨?_, h₂.1.2 hq⟩
  exact singleton_mem_oneOf.1 (h₁.2 (h₂.1.1.quiet hq))

variable {nested : Parser Green} (h : ∀ s, nested.Ensures s fun n s' => Makes operand s [n] s')
include h

theorem makes_argumentList {opening closing kind : Kind} (s : ParseState)
    (hopening : opening.isSupplied = true ∧ opening ≠ .endOfFile)
    (hclosing : closing.isSupplied = true ∧ closing ≠ .endOfFile)
    (hproduction : production kind = arguments opening closing) (hkind : kind.isNode = true) :
    (argumentList nested opening closing kind).Ensures s
      fun n s' => Makes (just kind) s [n] s' := by
  have enclosed {s s' : ParseState} {ns : List Green}
      (h : Makes (arguments opening closing) s ns s') :
      Makes (just kind) s [.group kind ns] s' :=
    Makes.group kind (hproduction ▸ h) (by simp) hkind
  simp only [argumentList, ensures_bind, ensures_sees, ensures_ite, ensures_pure]
  refine (makes_expect opening s hopening.1 hopening.2).mono
    fun first s₁ h₁ => ⟨fun _ => ?_, fun _ => ?_⟩
  · refine (makes_expect closing s₁ hclosing.1 hclosing.2).mono fun last s₂ h₂ => ?_
    exact enclosed (h₁.cons ((Makes.none s₁).append h₂))
  · refine (makes_commaSeparated (makes_single h) s₁).mono fun arguments s₂ h₂ => ?_
    refine (makes_expect closing s₂ hclosing.1 hclosing.2).mono fun last s₃ h₃ => ?_
    exact enclosed (h₁.cons (h₂.some.append h₃))

theorem makes_parenthesizedArguments (s : ParseState) :
    (parenthesizedArguments nested).Ensures s fun n s' => Makes (just .argumentList) s [n] s' :=
  makes_argumentList h s (by decide) (by decide) rfl rfl

theorem makes_bracketedArguments (s : ParseState) :
    (bracketedArguments nested).Ensures s
      fun n s' => Makes (just .bracketedArgumentList) s [n] s' :=
  makes_argumentList h s (by decide) (by decide) rfl rfl

theorem makes_objectCreation {s : ParseState} (hs : s.kind = .newKeyword) :
    (objectCreation nested).Ensures s fun n s' => Makes operand s [n] s' := by
  simp only [objectCreation, ensures_bind, ensures_sees, ensures_ite, ensures_pure]
  refine (makes_token hs (by simp)).mono fun keyword s₁ h₁ => ?_
  refine (makes_type s₁).mono fun created s₂ h₂ => ?_
  have created {s₃ : ParseState} {arguments : Green}
      (h₃ : Makes (just .argumentList) s₂ [arguments] s₃) :
      Makes operand s [.group .objectCreationExpression [keyword, created, arguments]] s₃ :=
    (h₁.cons (h₂.cons h₃)).group .objectCreationExpression rfl rfl
  constructor
  · intro _
    exact (makes_parenthesizedArguments h s₂).mono fun _ _ h₃ => created h₃
  · intro hopening
    exact (makes_expect_of_ne (by simpa using hopening) rfl).mono fun _ _ h₃ => created h₃

theorem makes_parenthesized {s : ParseState} (hs : s.kind = .openParen) :
    (parenthesized nested).Ensures s fun n s' => Makes operand s [n] s' := by
  simp only [parenthesized, ensures_bind, ensures_pure]
  refine (makes_token hs (by simp)).mono fun opening s₁ h₁ => ?_
  refine (h s₁).mono fun e s₂ h₂ => ?_
  refine (makes_expect .closeParen s₂ rfl (by simp)).mono fun closing s₃ h₃ => ?_
  exact (h₁.cons (h₂.cons h₃)).group .parenthesizedExpression rfl rfl

theorem makes_primary (s : ParseState) :
    (primary nested).Ensures s fun n s' => Makes operand s [n] s' := by
  simp only [primary, ensures_bind, ensures_get]
  split
  · exact (makes_identifierName s).mono fun _ _ h₁ => h₁.just_le rfl
  · rename_i hs
    exact (makes_token hs (by simp)).mono fun _ _ h₁ => h₁.group .thisExpression rfl rfl
  · rename_i hs
    exact makes_parenthesized h hs
  · rename_i hs
    exact makes_objectCreation h hs
  · rename_i hs
    exact makes_skip (by simp) (by simp [hs])
  · simp only [ensures_ite, ensures_bind, ensures_pure]
    constructor
    · intro hk
      exact (makes_advance hk rfl).mono fun _ _ h₁ => h₁.group .literalExpression rfl rfl
    · intro _
      exact makes_absentExpression s

theorem makes_extend (s₀ : ParseState) (e : Green) (s : ParseState) (he : Extensible s₀ e s) :
    (extend nested e).Ensures s (Extension s₀ e s) := by
  have marked {k mark : Kind} (hs : s.kind = mark) (hmark : mark ≠ .endOfFile)
      (hne : mark ≠ .dot ∧ mark ≠ .openBracket) (hk : k.standsAlone = true)
      (hproduction : operand * just mark ≤ production k) :
      Ensures (do return some (.group k [e, ← advance])) s (Extension s₀ e s) := by
    have he := he.operand (hs ▸ hne.1) (hs ▸ hne.2)
    simp only [ensures_bind, ensures_pure]
    refine (makes_token hs hmark).mono fun n s₁ h₁ => .of_operand ?_
    refine ((he.cons h₁).mono hproduction).group k hk ?_
    exact Kind.isNode_of_isExpression (Bool.and_eq_true_iff.1 hk).1
  simp only [extend, ensures_bind, ensures_get]
  split
  · rename_i hs
    simp only [ensures_bind, ensures_pure]
    refine (makes_token hs (by simp)).mono fun dot s₁ h₁ => ?_
    refine (makes_identifierName s₁).mono fun name s₂ h₂ => .of_operand ?_
    exact (he.expression.cons (h₁.cons h₂)).group .memberAccessExpression rfl rfl
  · rename_i hs
    have he := he.operand (by simp [hs]) (by simp [hs])
    rw [ensures_ite]
    refine ⟨fun hahead => ?_, fun _ => he⟩
    simp only [ensures_bind, ensures_pure]
    apply (makes_token_next hs (by simp)).mono
    rintro mark s₁ ⟨h₁, hnext, hlength⟩
    have hguarded := nextKind_of_conditionalAccessAhead hahead
    simp only [Extension, if_pos hlength]
    exact .inr ⟨(he.cons h₁).group .conditionalAccessExpression rfl rfl, hnext ▸ hguarded⟩
  · rename_i hs
    have he := he.operand (by simp [hs]) (by simp [hs])
    simp only [ensures_bind, ensures_pure]
    refine (makes_parenthesizedArguments h s).mono fun list s₁ h₁ => .of_operand ?_
    exact (he.cons h₁).group .invocationExpression rfl rfl
  · simp only [ensures_bind, ensures_pure]
    refine (makes_bracketedArguments h s).mono fun list s₁ h₁ => .of_operand ?_
    exact (he.expression.cons h₁).group .elementAccessExpression rfl rfl
  · rename_i hs
    exact marked hs (by simp) (by simp) rfl le_rfl
  · rename_i hs
    exact marked hs (by simp) (by simp) rfl (mul_le_mul_right (just_le rfl) operand)
  · rename_i hs
    exact marked hs (by simp) (by simp) rfl (mul_le_mul_right (just_le rfl) operand)
  · rename_i hdot _ _ hbracket _ _ _
    exact he.operand hdot hbracket

theorem makes_postfixed (s : ParseState) :
    (postfixed nested).Ensures s fun n s' => Makes operand s [n] s' := by
  simp only [postfixed, ensures_bind]
  refine (makes_primary h s).mono fun e s₁ h₁ => ?_
  refine ensures_refine (Extensible s) _ (fun e s₂ h₂ => ?_) (.inl h₁)
  refine (makes_extend h s e s₂ h₂).mono fun r s₃ h₃ => ?_
  cases r <;> exact h₃

theorem makes_unary (s : ParseState) :
    (unary nested).Ensures s fun n s' => Makes operand s [n] s' := by
  simp only [unary, ensures_bind, ensures_pure]
  have sign (s : ParseState) (hs : isSignOperator s.kind = true) :
      Ensures (do return [← advance]) s fun ns s' => Makes (oneOf isSignOperator) s ns s' :=
    makes_advance hs rfl
  refine (makes_collectWhile sign s).mono fun operators s₁ h₁ => ?_
  refine (makes_postfixed h s₁).mono fun e s₂ h₂ => ?_
  refine makes_foldr_sign h₁.1 h₂ fun hq op hop => ?_
  exact forall_of_mem_kstar_oneOf (h₁.2 (h₂.1.quiet hq)) _ (List.mem_map_of_mem hop)

theorem makes_binary (s : ParseState) :
    (binary nested).Ensures s fun n s' => Makes operand s [n] s' := by
  have hlevels : ∀ level ∈ precedenceLevels, level ≠ 0 := by decide
  unfold binary binaryAbove
  generalize precedenceLevels = levels at hlevels
  induction levels generalizing s with
  | nil => exact makes_unary h s
  | cons level levels ih =>
    have hnested (s : ParseState) := ih s fun l hl => hlevels l (by simp [hl])
    refine makes_leftGrouped (fun k => k.precedence == level) (fun k hk => ?_) hnested s
    have hlevel : k.precedence = level := by simpa using hk
    simp [Kind.isBinaryOperator, hlevel, hlevels level (by simp)]

theorem makes_coalesce (s : ParseState) :
    (coalesce nested).Ensures s fun n s' => Makes operand s [n] s' := by
  refine makes_rightGrouped ?_ rfl (by simp) (makes_binary h) s
  exact mul_le_mul_right (mul_le_mul_left (just_le rfl) operand) operand

theorem makes_assignment (s : ParseState) :
    (assignment nested).Ensures s fun n s' => Makes operand s [n] s' :=
  makes_rightGrouped le_rfl rfl (by simp) (makes_coalesce h) s

omit h in
theorem makes_expression (depth : Nat) (s : ParseState) :
    (expression depth).Ensures s fun n s' => Makes operand s [n] s' := by
  induction depth generalizing s with
  | zero => exact makes_giveUp false s
  | succ depth ih => exact makes_assignment ih s

end Expressions

/-! ## Statements -/

section Statements

open Lookahead

theorem makes_equalsValue (depth : Nat) {s : ParseState} (hs : s.kind = .equals) :
    (equalsValue depth).Ensures s fun n s' => Makes (just .equalsValueClause) s [n] s' := by
  simp only [equalsValue, ensures_bind, ensures_pure]
  refine (makes_token hs (by simp)).mono fun equals s₁ h₁ => ?_
  refine (makes_expression depth s₁).mono fun e s₂ h₂ => ?_
  exact (h₁.cons h₂).group .equalsValueClause rfl rfl

theorem makes_declarator (depth : Nat) {s₀ : ParseState} {name : Green} {s : ParseState}
    (hname : Makes (just .identifier) s₀ [name] s) :
    (declarator depth name).Ensures s
      fun n s' => Makes (just .variableDeclarator) s₀ [n] s' := by
  simp only [declarator, ensures_bind, ensures_sees, ensures_ite, ensures_pure]
  constructor
  · intro hs
    refine (makes_equalsValue depth (by simpa using hs)).mono fun value s₁ h₁ => ?_
    exact (hname.cons h₁.some).group .variableDeclarator rfl rfl
  · intro _
    exact (hname.cons (.none s)).group .variableDeclarator rfl rfl

theorem makes_moreDeclarators (depth : Nat) (s : ParseState) :
    (moreDeclarators depth).Ensures s
      fun ns s' => Makes (just .comma * just .variableDeclarator)∗ s ns s' := by
  refine makes_collectWhile (fun s hs => ?_) s
  simp only [ensures_bind, ensures_pure]
  refine (makes_token (k := .comma) (by simpa using hs) (by simp)).mono fun comma s₁ h₁ => ?_
  refine (makes_expect .identifier s₁ rfl (by simp)).mono fun name s₂ h₂ => ?_
  exact (makes_declarator depth h₂).mono fun d s₃ h₃ => h₁.cons h₃

theorem makes_localDeclaration (depth : Nat) (s : ParseState) :
    (localDeclaration depth).Ensures s fun n s' => Makes Grammar.statement s [n] s' := by
  simp only [localDeclaration, ensures_bind, ensures_pure]
  refine (makes_type s).mono fun declared s₁ h₁ => ?_
  refine (makes_expect .identifier s₁ rfl (by simp)).mono fun name s₂ h₂ => ?_
  refine (makes_declarator depth h₂).mono fun first s₃ h₃ => ?_
  refine (makes_moreDeclarators depth s₃).mono fun others s₄ h₄ => ?_
  refine (makes_expect .semicolon s₄ rfl (by simp)).mono fun semicolon s₅ h₅ => ?_
  exact (h₁.cons ((h₃.cons h₄).append h₅)).group .localDeclarationStatement rfl rfl

theorem makes_expressionStatement (depth : Nat) (s : ParseState) :
    (expressionStatement depth).Ensures s fun n s' => Makes Grammar.statement s [n] s' := by
  simp only [expressionStatement, ensures_bind, ensures_pure]
  refine (makes_expression depth s).mono fun e s₁ h₁ => ?_
  refine (makes_expect .semicolon s₁ rfl (by simp)).mono fun semicolon s₂ h₂ => ?_
  exact (h₁.cons h₂).group .expressionStatement rfl rfl

theorem makes_jump (depth : Nat) {kind keyword : Kind} {s : ParseState} (hs : s.kind = keyword)
    (hkeyword : keyword ≠ .endOfFile) (hproduction : production kind = Grammar.jump keyword)
    (hkind : kind.isStatement = true) :
    (jump depth kind).Ensures s fun n s' => Makes Grammar.statement s [n] s' := by
  have grouped {s' : ParseState} {ns : List Green} (h : Makes (Grammar.jump keyword) s ns s') :
      Makes Grammar.statement s [.group kind ns] s' :=
    Makes.group kind (hproduction ▸ h) hkind (Kind.isNode_of_isStatement hkind)
  simp only [jump, ensures_bind, ensures_get, ensures_ite, ensures_pure]
  refine (makes_token hs hkeyword).mono fun keyword s₁ h₁ => ⟨fun _ => ?_, fun _ => ?_⟩
  · refine (makes_expression depth s₁).mono fun e s₂ h₂ => ?_
    refine (makes_expect .semicolon s₂ rfl (by simp)).mono fun semicolon s₃ h₃ => ?_
    exact grouped (h₁.cons (h₂.some.append h₃))
  · refine (makes_expect .semicolon s₁ rfl (by simp)).mono fun semicolon s₂ h₂ => ?_
    exact grouped (h₁.cons ((Makes.none s₁).append h₂))

variable {nested : Parser Green}
  (h : ∀ s, nested.Ensures s fun n s' => Makes Grammar.statement s [n] s')
include h

theorem makes_embedded (depth : Nat) (s : ParseState) :
    (embedded depth nested).Ensures s fun n s' => Makes Grammar.statement s [n] s' := by
  simp only [embedded, ensures_bind, ensures_get, ensures_ite]
  exact ⟨fun _ => h s, fun _ => makes_expressionStatement depth s⟩

theorem makes_guarded (depth : Nat) {s : ParseState} {keyword : Kind} (hs : s.kind = keyword)
    (hkeyword : keyword ≠ .endOfFile) :
    (guarded depth nested).Ensures s fun ns s' => Makes (Grammar.guarded keyword) s ns s' := by
  simp only [guarded, ensures_bind, ensures_pure]
  refine (makes_token hs hkeyword).mono fun keyword s₁ h₁ => ?_
  refine (makes_expect .openParen s₁ rfl (by simp)).mono fun opening s₂ h₂ => ?_
  refine (makes_expression depth s₂).mono fun condition s₃ h₃ => ?_
  refine (makes_expect .closeParen s₃ rfl (by simp)).mono fun closing s₄ h₄ => ?_
  refine (makes_embedded h depth s₄).mono fun body s₅ h₅ => ?_
  exact h₁.cons (h₂.cons (h₃.cons (h₄.cons h₅)))

theorem makes_ifStatement (depth : Nat) {s : ParseState} (hs : s.kind = .ifKeyword) :
    (ifStatement depth nested).Ensures s fun n s' => Makes Grammar.statement s [n] s' := by
  simp only [ifStatement, ensures_bind, ensures_sees, ensures_ite, ensures_pure]
  refine (makes_guarded h depth hs (by simp)).mono fun parts s₁ h₁ => ⟨fun helse => ?_, fun _ => ?_⟩
  · refine (makes_token (k := .elseKeyword) (by simpa using helse) (by simp)).mono
      fun keyword s₂ h₂ => ?_
    refine (makes_embedded h depth s₂).mono fun other s₃ h₃ => ?_
    have hclause : Makes (just .elseClause) s₁ [.group .elseClause [keyword, other]] s₃ :=
      (h₂.cons h₃).group .elseClause rfl rfl
    exact (h₁.append hclause.some).group .ifStatement rfl rfl
  · exact h₁.append_none.group .ifStatement rfl rfl

theorem makes_whileStatement (depth : Nat) {s : ParseState} (hs : s.kind = .whileKeyword) :
    (whileStatement depth nested).Ensures s fun n s' => Makes Grammar.statement s [n] s' :=
  (makes_guarded h depth hs (by simp)).mono fun _ _ h₁ => h₁.group .whileStatement rfl rfl

omit h in
theorem kind_ne_of_not_endsList {s : ParseState} (hs : (!endsList s) = true) :
    s.kind ≠ .endOfFile := by
  intro hend
  simp [endsList, hend] at hs

theorem makes_block (s : ParseState) :
    (block nested).Ensures s fun n s' => Makes (just .block) s [n] s' := by
  have item (s : ParseState) (hs : (!endsList s) = true) : (element .invalidExpressionTerm do
      if startsStatement (← get).kind then nested else skip .invalidExpressionTerm).Ensures s
      fun ns s' => Makes Grammar.statement s ns s' := by
    refine makes_element (by simp) ?_
    simp only [ensures_bind, ensures_get, ensures_ite]
    exact ⟨fun _ => h s, fun _ => makes_skip (by simp) (kind_ne_of_not_endsList hs)⟩
  simp only [block, ensures_bind, ensures_pure]
  refine (makes_expect .openBrace s rfl (by simp)).mono fun opening s₁ h₁ => ?_
  refine (makes_collectWhile item s₁).mono fun body s₂ h₂ => ?_
  refine (makes_expect .closeBrace s₂ rfl (by simp)).mono fun closing s₃ h₃ => ?_
  exact (h₁.cons (h₂.append h₃)).group .block rfl rfl

theorem makes_statementWith (depth : Nat) (s : ParseState) :
    (statementWith depth nested).Ensures s fun n s' => Makes Grammar.statement s [n] s' := by
  simp only [statementWith, ensures_bind, ensures_get]
  split
  · exact (makes_block h s).mono fun _ _ h₁ => h₁.just_le rfl
  · rename_i hs
    exact (makes_token hs (by simp)).mono fun _ _ h₁ => h₁.group .emptyStatement rfl rfl
  · rename_i hs
    exact makes_ifStatement h depth hs
  · rename_i hs
    exact makes_whileStatement h depth hs
  · rename_i hs
    exact makes_jump depth hs (by simp) rfl rfl
  · rename_i hs
    exact makes_jump depth hs (by simp) rfl rfl
  · rw [ensures_ite]
    exact ⟨fun _ => makes_localDeclaration depth s, fun _ => makes_expressionStatement depth s⟩

omit h in
theorem makes_statement (depth : Nat) (s : ParseState) :
    (statement depth).Ensures s fun n s' => Makes Grammar.statement s [n] s' := by
  induction depth generalizing s with
  | zero => exact makes_giveUp true s
  | succ depth ih => exact makes_statementWith ih depth s

end Statements

/-! ## Declarations -/

section Declarations

open Lookahead

theorem makes_arrowClause {s : ParseState} (hs : s.kind = .equalsGreaterThan) :
    arrowClause.Ensures s fun n s' => Makes (just .arrowExpressionClause) s [n] s' := by
  simp only [arrowClause, ensures_bind, ensures_pure]
  refine (makes_token hs (by simp)).mono fun arrow s₁ h₁ => ?_
  refine (makes_expression _ s₁).mono fun e s₂ h₂ => ?_
  exact (h₁.cons h₂).group .arrowExpressionClause rfl rfl

theorem makes_body (s : ParseState) :
    body.Ensures s fun ns s' => Makes Grammar.body s ns s' := by
  simp only [body, ensures_bind, ensures_get]
  split
  · exact (makes_block (makes_statement _) s).mono fun _ _ h₁ => h₁.left
  · rename_i hs
    simp only [ensures_bind, ensures_pure]
    refine (makes_arrowClause hs).mono fun clause s₁ h₁ => ?_
    refine (makes_expect .semicolon s₁ rfl (by simp)).mono fun semicolon s₂ h₂ => ?_
    exact (h₁.cons h₂).left.right
  · exact (makes_expect .semicolon s rfl (by simp)).mono fun _ _ h₁ => h₁.right.right

theorem makes_parameter (s : ParseState) :
    parameter.Ensures s fun n s' => Makes (just .parameter) s [n] s' := by
  simp only [parameter, ensures_bind, ensures_sees, ensures_ite, ensures_pure]
  refine (makes_type s).mono fun declared s₁ h₁ => ?_
  refine (makes_expect .identifier s₁ rfl (by simp)).mono
    fun name s₂ h₂ => ⟨fun hs => ?_, fun _ => ?_⟩
  · refine (makes_equalsValue _ (by simpa using hs)).mono fun value s₃ h₃ => ?_
    exact (h₁.cons (h₂.cons h₃.some)).group .parameter rfl rfl
  · exact (h₁.cons (h₂.cons (.none s₂))).group .parameter rfl rfl

/-- Parameters are read as long as a comma follows; the last comma may be followed by none. -/
theorem makes_parameters (s : ParseState) :
    Ensures (collect do
      if startsType (← get) then
        let p ← parameter
        let comma ← accept .comma
        return (p :: comma, !comma.isEmpty)
      else
        return ([], false)) s fun ns s' =>
      Makes ((just .parameter * just .comma)∗ * maybe (just .parameter)) s ns s' := by
  refine ensures_collect (Makes (just .parameter * just .comma)∗ s) _ (fun ns s₁ h₁ => ?_)
    ((Makes.refl s).mono one_le_kstar)
  simp only [ensures_bind, ensures_get, ensures_ite, ensures_pure]
  constructor
  · intro _
    refine (makes_parameter s₁).mono fun p s₂ h₂ => ?_
    refine (accept_cases .comma s₂ (by simp)).mono fun comma s₃ h₃ => ?_
    rcases h₃ with ⟨rfl, rfl⟩ | ⟨mark, rfl, h₃, hlength⟩
    · exact h₁.append h₂.some
    · have hgo : s₃.rest.length < s₁.rest.length := Nat.lt_of_lt_of_le hlength h₂.1.length_le
      simpa [hgo] using (h₁.append (h₂.cons h₃)).mono kstar_mul_le_kstar
  · intro _
    exact h₁.append (.none s₁)

theorem makes_parameterList (s : ParseState) :
    parameterList.Ensures s fun n s' => Makes (just .parameterList) s [n] s' := by
  simp only [parameterList, ensures_bind, ensures_pure]
  refine (makes_expect .openParen s rfl (by simp)).mono fun opening s₁ h₁ => ?_
  refine (makes_parameters s₁).mono fun parameters s₂ h₂ => ?_
  refine (makes_expect .closeParen s₂ rfl (by simp)).mono fun closing s₃ h₃ => ?_
  have hchildren := h₁.cons (h₂.append h₃)
  rw [mul_assoc] at hchildren
  exact hchildren.group .parameterList rfl rfl

theorem makes_accessorList {s : ParseState} (hs : s.kind = .openBrace) :
    accessorList.Ensures s fun n s' => Makes (just .accessorList) s [n] s' := by
  simp only [accessorList, ensures_bind, ensures_pure]
  refine (makes_token hs (by simp)).mono fun opening s₁ h₁ => ?_
  refine (makes_collectWhile (L := just .accessorDeclaration) (fun s _ => ?_) s₁).mono
    fun accessors s₂ h₂ => ?_
  · simp only [ensures_bind, ensures_pure]
    refine (makes_modifiers s).mono fun words s₁ h₁ => ?_
    refine (makes_expect .identifier s₁ rfl (by simp)).mono fun name s₂ h₂ => ?_
    refine (makes_body s₂).mono fun rest s₃ h₃ => ?_
    exact (h₁.append (h₂.cons h₃)).group .accessorDeclaration rfl rfl
  · refine (makes_expect .closeBrace s₂ rfl (by simp)).mono fun closing s₃ h₃ => ?_
    exact (h₁.cons (h₂.append h₃)).group .accessorList rfl rfl

/-- What follows the modifiers and the type of a member, and its name. -/
theorem makes_memberTail {s₀ s₁ s : ParseState} {before : List Green} {name : Green}
    (hbefore : Makes (Grammar.modifiers * Grammar.type) s₀ before s₁)
    (hname : Makes (just .identifier) s₁ [name] s) :
    (memberTail before name).Ensures s fun n s' => Makes (oneOf Kind.isTypeMember) s₀ [n] s' := by
  have grouped {k : Kind} {L : Language Kind} {s' : ParseState} {ns : List Green}
      (hproduction : production k = Grammar.modifiers * (Grammar.type * L))
      (h : Makes L s₁ ns s') (hmember : k.isTypeMember = true) (hk : k.isNode = true) :
      Makes (oneOf Kind.isTypeMember) s₀ [.group k (before ++ ns)] s' := by
    have hall := hbefore.append h
    rw [mul_assoc, ← hproduction] at hall
    exact hall.group k hmember hk
  simp only [memberTail, ensures_bind, ensures_get]
  split
  · simp only [ensures_bind, ensures_pure]
    refine (makes_parameterList s).mono fun parameters s₂ h₂ => ?_
    refine (makes_body s₂).mono fun rest s₃ h₃ => ?_
    exact grouped rfl (hname.cons (h₂.cons h₃)) rfl rfl
  · rename_i hs
    simp only [ensures_bind, ensures_sees, ensures_ite, ensures_pure]
    refine (makes_accessorList hs).mono fun accessors s₂ h₂ => ⟨fun hs => ?_, fun _ => ?_⟩
    · refine (makes_equalsValue _ (by simpa using hs)).mono fun value s₃ h₃ => ?_
      refine (makes_expect .semicolon s₃ rfl (by simp)).mono fun semicolon s₄ h₄ => ?_
      exact grouped rfl (hname.cons (h₂.cons (h₃.cons h₄).some).left) rfl rfl
    · exact grouped rfl (hname.cons h₂.append_none.left) rfl rfl
  · rename_i hs
    simp only [ensures_bind, ensures_pure]
    refine (makes_arrowClause hs).mono fun clause s₂ h₂ => ?_
    refine (makes_expect .semicolon s₂ rfl (by simp)).mono fun semicolon s₃ h₃ => ?_
    exact grouped rfl (hname.cons (h₂.cons h₃).right) rfl rfl
  · simp only [ensures_bind, ensures_pure]
    refine (makes_declarator _ hname).mono fun first s₂ h₂ => ?_
    refine (makes_moreDeclarators _ s₂).mono fun others s₃ h₃ => ?_
    refine (makes_expect .semicolon s₃ rfl (by simp)).mono fun semicolon s₄ h₄ => ?_
    have hfield := grouped (k := .fieldDeclaration) rfl ((h₂.cons h₃).append h₄) rfl rfl
    simpa using hfield

/-- Whether a class or struct declaration stands behind the modifiers read so far. -/
def AtTypeKeyword (s : ParseState) : Prop := s.kind = .classKeyword ∨ s.kind = .structKeyword

/-- What a parser of type declarations does with the modifiers read before it. -/
def MakesTypeBehind (p : List Green → Parser Green) : Prop :=
  ∀ s₀ words s, AtTypeKeyword s → Makes Grammar.modifiers s₀ words s →
    (p words).Ensures s fun n s' =>
      Makes (oneOf Kind.isTypeDeclaration) s₀ [n] s'

theorem makes_member {nested : List Green → Parser Green} (h : MakesTypeBehind nested)
    (s : ParseState) :
    (member nested).Ensures s fun n s' => Makes (oneOf Kind.isTypeMember) s [n] s' := by
  simp only [member, ensures_bind, ensures_get, ensures_ite, ensures_pure]
  refine (makes_modifiers s).mono fun words s₁ h₁ => ?_
  refine ⟨fun hs => ?_, fun _ => ⟨fun hs => ?_, fun _ => ⟨fun _ => ?_, fun hs => ?_⟩⟩⟩
  · refine (h s words s₁ hs h₁).mono fun n s₂ h₂ => h₂.oneOf_mono fun k hk => ?_
    simp [Kind.isTypeMember, hk]
  · refine (makes_token hs.1 (by simp)).mono fun name s₂ h₂ => ?_
    refine (makes_parameterList s₂).mono fun parameters s₃ h₃ => ?_
    refine (makes_body s₃).mono fun rest s₄ h₄ => ?_
    exact (h₁.append (h₂.cons (h₃.cons h₄))).group .constructorDeclaration rfl rfl
  · refine (makes_type s₁).mono fun declared s₂ h₂ => ?_
    refine (makes_expect .identifier s₂ rfl (by simp)).mono fun name s₃ h₃ => ?_
    exact makes_memberTail (h₁.append h₂) h₃
  · have hne : s₁.kind ≠ .identifier := by
      intro hk
      simp [startsType, hk] at hs
    refine (makes_expect_of_ne (L := 0) hne rfl).mono fun name s₂ h₂ => ?_
    have hnot : ¬s₂.Quiet := fun hq => h₂.2 hq
    exact .of_not_quiet ((h₁.1.append h₂.1).group .errorNode rfl fun hq => absurd hq hnot) hnot

theorem makes_baseList (s : ParseState) :
    baseList.Ensures s
      fun ns s' => Makes (maybe (just .colon * separated Grammar.type)) s ns s' := by
  simp only [baseList, ensures_bind, ensures_sees, ensures_ite, ensures_pure]
  refine ⟨fun hs => ?_, fun _ => .none s⟩
  refine (makes_token (k := .colon) (by simpa using hs) (by simp)).mono fun colon s₁ h₁ => ?_
  refine (makes_commaSeparated (makes_single makes_type) s₁).mono fun types s₂ h₂ => ?_
  exact (h₁.cons h₂).some

theorem makes_typeDeclarationWith {nested : List Green → Parser Green}
    (h : MakesTypeBehind nested) : MakesTypeBehind (typeDeclarationWith nested) := by
  intro s₀ words s hs hw
  have item (s : ParseState) (hs : (!endsList s) = true) : (element .invalidMemberToken do
      if startsMember (← get).kind then member nested else skip .invalidMemberToken).Ensures s
      fun n s' => Makes (oneOf Kind.isTypeMember) s n s' := by
    refine makes_element (by simp) ?_
    simp only [ensures_bind, ensures_get, ensures_ite]
    exact ⟨fun _ => makes_member h s, fun _ => makes_skip (by simp) (kind_ne_of_not_endsList hs)⟩
  obtain ⟨k, hk, hproduction, hdeclared, hnode⟩ :
      ∃ k : Kind, (if s.kind = .structKeyword then .structDeclaration else .classDeclaration) = k ∧
        production k = Grammar.typeDeclaration s.kind ∧ k.isTypeDeclaration = true ∧
        k.isNode = true := by
    rcases hs with hs | hs
    · exact ⟨.classDeclaration, if_neg (by simp [hs]), hs ▸ rfl, rfl, rfl⟩
    · exact ⟨.structDeclaration, if_pos hs, hs ▸ rfl, rfl, rfl⟩
  have hend : s.kind ≠ .endOfFile := by
    rcases hs with hs | hs <;> simp [hs]
  simp only [typeDeclarationWith, ensures_bind, ensures_get, ensures_pure, hk]
  refine (makes_token rfl hend).mono fun keyword s₁ h₁ => ?_
  refine (makes_expect .identifier s₁ rfl (by simp)).mono fun name s₂ h₂ => ?_
  refine (makes_baseList s₂).mono fun bases s₃ h₃ => ?_
  refine (makes_expect .openBrace s₃ rfl (by simp)).mono fun opening s₄ h₄ => ?_
  refine (makes_collectWhile item s₄).mono fun members s₅ h₅ => ?_
  refine (makes_expect .closeBrace s₅ rfl (by simp)).mono fun closing s₆ h₆ => ?_
  have hall : Makes (Grammar.typeDeclaration s.kind) s₀ _ s₆ :=
    hw.append (h₁.cons (h₂.cons (h₃.append (h₄.cons (h₅.append h₆)))))
  have hgroup := Makes.group k (hproduction ▸ hall) hdeclared hnode
  simpa only [List.append_assoc, List.cons_append] using hgroup

theorem makes_typeDeclarationNested (depth : Nat) :
    MakesTypeBehind (typeDeclarationNested depth) := by
  induction depth with
  | zero =>
    intro s₀ words s hs hw
    have hspoils : Spoils s (complain .invalidMemberToken s).2 := .report (.current (by simp))
    have hkind : (complain .invalidMemberToken s).2.kind ≠ .endOfFile := by
      rcases hs with hs | hs <;> simp [complain, hs]
    have hread := builds_advance hkind
    exact .of_not_quiet (.spoiled hw.1 hspoils hread) fun hq => hspoils.not_quiet (hread.quiet hq)
  | succ depth ih => exact makes_typeDeclarationWith ih

/-- Reading modifiers ends behind the last of them. -/
theorem rest_modifiers (s : ParseState) :
    modifiers.Ensures s fun _ s' => s'.rest = s.rest.dropWhile fun l => l.kind.isModifier := by
  let behind (ls : List Lexeme) : List Lexeme := ls.dropWhile fun l => l.kind.isModifier
  refine ensures_collectWhile_until (fun _ s' => behind s'.rest = behind s.rest) _
    (fun ns s₁ hm h₁ => ?_) (fun ns s₁ hm h₁ => ?_) rfl
  · change if (advance s₁).2.rest.length < s₁.rest.length then
      behind (advance s₁).2.rest = behind s.rest else (advance s₁).2.rest = behind s.rest
    rw [rest_advance]
    cases hs : s₁.rest with
    | nil => simp [ParseState.kind, kindAhead, Kind.isModifier, hs] at hm
    | cons l rest => simp_all [ParseState.kind, kindAhead, behind]
  · cases hs : s₁.rest with
    | nil => simp_all [behind]
    | cons l rest => simp_all [ParseState.kind, kindAhead, behind]

theorem atTypeKeyword_of_ahead {s s' : ParseState} (h : typeDeclarationAhead s = true)
    (hrest : s'.rest = s.rest.dropWhile fun l => l.kind.isModifier) : AtTypeKeyword s' := by
  simpa [typeDeclarationAhead, AtTypeKeyword, ParseState.kind, hrest] using h

theorem makes_typeDeclaration {s : ParseState} (hs : typeDeclarationAhead s = true) :
    typeDeclaration.Ensures s fun n s' => Makes (oneOf Kind.isNamespaceItem) s [n] s' := by
  simp only [typeDeclaration, ensures_bind, ensures_get]
  apply ((makes_modifiers s).and (rest_modifiers s)).mono
  rintro words s₁ ⟨h₁, hrest⟩
  have hkeyword := atTypeKeyword_of_ahead hs hrest
  refine (makes_typeDeclarationNested _ s words s₁ hkeyword h₁).mono fun n s₂ h₂ => ?_
  exact h₂.oneOf_mono fun k hk => by simp [Kind.isNamespaceItem, hk]

theorem makes_usingDirective {s : ParseState} (hs : s.kind = .usingKeyword) :
    usingDirective.Ensures s fun n s' => Makes (oneOf Kind.isNamespaceItem) s [n] s' := by
  simp only [usingDirective, ensures_bind, ensures_get, ensures_ite, ensures_pure]
  refine (makes_token hs (by simp)).mono fun keyword s₁ h₁ => ?_
  refine (makes_accept .staticKeyword s₁ (by simp)).mono
    fun static s₂ h₂ => ⟨fun hs => ?_, fun _ => ?_⟩
  · apply (makes_token_next hs.1 (by simp)).mono
    rintro name s₃ ⟨h₃, hnext, -⟩
    refine (makes_token (hnext.trans hs.2) (by simp)).mono fun equals s₄ h₄ => ?_
    refine (makes_type s₄).mono fun target s₅ h₅ => ?_
    refine (makes_expect .semicolon s₅ rfl (by simp)).mono fun semicolon s₆ h₆ => ?_
    have hall := h₁.cons (h₂.append ((h₃.cons h₄).some.append (h₅.cons h₆)))
    have hgroup := hall.group .usingDirective (p := Kind.isNamespaceItem) rfl rfl
    simpa using hgroup
  · refine (makes_type s₂).mono fun target s₃ h₃ => ?_
    refine (makes_expect .semicolon s₃ rfl (by simp)).mono fun semicolon s₄ h₄ => ?_
    have hall : Makes (production .usingDirective) s _ s₄ :=
      h₁.cons (h₂.append ((Makes.none s₂).append (h₃.cons h₄)))
    have hgroup := hall.group .usingDirective (p := Kind.isNamespaceItem) rfl rfl
    simpa using hgroup

theorem makes_namespaceMember {nested : Parser Green}
    (h : ∀ s, s.kind = .namespaceKeyword →
      nested.Ensures s fun n s' => Makes (oneOf Kind.isNamespaceItem) s [n] s')
    {s : ParseState} (hs : s.kind ≠ .endOfFile) :
    (namespaceMember nested).Ensures s
      fun n s' => Makes (oneOf Kind.isNamespaceItem) s [n] s' := by
  simp only [namespaceMember, ensures_bind, ensures_get]
  split
  · rename_i hk
    exact makes_usingDirective hk
  · rename_i hk
    exact h s hk
  · rw [ensures_ite]
    exact ⟨fun hk => makes_typeDeclaration hk, fun _ => makes_skip (by simp) hs⟩

theorem makes_namespaceWith {nested : Parser Green}
    (h : ∀ s, s.kind = .namespaceKeyword →
      nested.Ensures s fun n s' => Makes (oneOf Kind.isNamespaceItem) s [n] s')
    {s : ParseState} (hs : s.kind = .namespaceKeyword) :
    (namespaceWith nested).Ensures s
      fun n s' => Makes (oneOf Kind.isNamespaceItem) s [n] s' := by
  have items {more : ParseState → Bool} (hmore : ∀ s, more s = true → s.kind ≠ .endOfFile)
      (s : ParseState) :
      (collectWhile more (element .namespaceMemberExpected (namespaceMember nested))).Ensures s
        fun ns s' => Makes (oneOf Kind.isNamespaceItem)∗ s ns s' := by
    refine makes_collectWhile (fun s hm => ?_) s
    exact makes_element (by simp) (makes_namespaceMember h (hmore s hm))
  simp only [namespaceWith, ensures_bind, ensures_sees, ensures_ite, ensures_pure]
  refine (makes_token hs (by simp)).mono fun keyword s₁ h₁ => ?_
  refine (makes_type s₁).mono fun name s₂ h₂ => ⟨fun hs => ?_, fun _ => ?_⟩
  · refine (makes_token (k := .semicolon) (by simpa using hs) (by simp)).mono
      fun semicolon s₃ h₃ => ?_
    refine (items (fun s hm => by simpa using hm) s₃).mono fun members s₄ h₄ => ?_
    exact (h₁.cons (h₂.cons (h₃.cons h₄).left)).group .namespaceDeclaration rfl rfl
  · refine (makes_expect .openBrace s₂ rfl (by simp)).mono fun opening s₃ h₃ => ?_
    refine (items (fun s hm => kind_ne_of_not_endsList hm) s₃).mono fun members s₄ h₄ => ?_
    refine (makes_expect .closeBrace s₄ rfl (by simp)).mono fun closing s₅ h₅ => ?_
    exact (h₁.cons (h₂.cons (h₃.cons (h₄.append h₅)).right)).group .namespaceDeclaration rfl rfl

theorem makes_namespaceNested (depth : Nat) {s : ParseState} (hs : s.kind = .namespaceKeyword) :
    (namespaceNested depth).Ensures s
      fun n s' => Makes (oneOf Kind.isNamespaceItem) s [n] s' := by
  induction depth generalizing s with
  | zero => exact makes_skip (by simp) (by simp [hs])
  | succ depth ih => exact makes_namespaceWith (fun s => ih) hs

theorem makes_topLevelItem {s : ParseState} (hs : s.kind ≠ .endOfFile) :
    topLevelItem.Ensures s
      fun n s' => Makes (oneOf Kind.isFileItem) s [n] s' := by
  have item {n : Green} {s' : ParseState} (h : Makes (oneOf Kind.isNamespaceItem) s [n] s') :
      Makes (oneOf Kind.isFileItem) s [n] s' :=
    h.oneOf_mono fun k hk => by simp [Kind.isFileItem, hk]
  simp only [topLevelItem, ensures_bind, ensures_get]
  split
  · rename_i hk
    exact (makes_usingDirective hk).mono fun _ _ => item
  · rename_i hk
    exact (makes_namespaceNested _ hk).mono fun _ _ => item
  · simp only [ensures_ite]
    refine ⟨fun hk => (makes_typeDeclaration hk).mono fun _ _ => item, fun _ =>
      ⟨fun _ => ?_, fun _ => makes_skip (by simp) hs⟩⟩
    exact (makes_statement _ s).mono fun n s' h =>
      h.oneOf_mono fun k hk => by simp [Kind.isFileItem, hk]

/-- An element of a list reads something, or stands at the end of the file. -/
theorem element_progress (code : ErrorCode) {item : Parser Green} {s : ParseState}
    (h : item.Ensures s fun n s' => Builds s [n] s') :
    (element code item).Ensures s fun _ s' =>
      s'.rest.length < s.rest.length ∨ s'.kind = .endOfFile := by
  simp only [element, ensures_bind, ensures_get]
  refine h.mono fun node s₁ h₁ => ?_
  simp only [ensures_ite, ensures_bind, ensures_pure]
  constructor
  · rintro ⟨hlen, hkind⟩
    exact .inl (hlen ▸ length_skip code hkind)
  · intro hstop
    by_cases hk : s₁.kind = .endOfFile
    · exact .inr hk
    · have hne : s₁.rest.length ≠ s.rest.length := fun hlen => hstop ⟨hlen, hk⟩
      exact .inl (Nat.lt_of_le_of_ne h₁.length_le hne)

/-- The items of a file are read up to its end. -/
theorem makes_fileItems (s : ParseState) :
    (collectWhile (fun s => s.kind != .endOfFile)
      (element .namespaceMemberExpected topLevelItem)).Ensures s fun ns s' =>
      Makes (oneOf Kind.isFileItem)∗ s ns s' ∧ s'.kind = .endOfFile := by
  refine ensures_collectWhile_until (Makes (oneOf Kind.isFileItem)∗ s) _ (fun ns s₁ hm h₁ => ?_)
    (fun ns s₁ hm h₁ => ⟨h₁, by simpa using hm⟩) ((Makes.refl s).mono one_le_kstar)
  have hitem := makes_topLevelItem (s := s₁) (by simpa using hm)
  have hprogress := element_progress .namespaceMemberExpected (hitem.mono fun _ _ h => h.1)
  refine ((makes_element (by simp) hitem).and hprogress).mono fun r s₂ ⟨h₂, hread⟩ => ?_
  have hall := (h₁.append h₂).mono kstar_mul_le_kstar
  split
  · exact hall
  · rename_i hno
    exact ⟨hall, hread.resolve_left hno⟩

/-- A file is made of its items and the end of the file, at which nothing is reported. -/
theorem compilationUnit_parts {s : ParseState} (hs : ∃ l ∈ s.rest, l.kind = .endOfFile) :
    compilationUnit.Ensures s fun n s' => ∃ items l s₁,
      n = .group .compilationUnit (items ++ [.leaf l.token]) ∧
      Makes (oneOf Kind.isFileItem)∗ s items s₁ ∧ l ∈ s.rest ∧ l.kind = .endOfFile ∧
      s'.errors = s₁.errors := by
  simp only [compilationUnit, ensures_bind, ensures_pure]
  apply (makes_fileItems s).mono
  rintro items s₁ ⟨h₁, hk⟩
  obtain ⟨m, hm, -⟩ := h₁.1.exists_endOfFile hs
  unfold Ensures advance
  cases hrest : s₁.rest with
  | nil => simp [hrest] at hm
  | cons l rest =>
    have hl : l ∈ s.rest := h₁.1.rest_suffix.subset (by simp [hrest])
    have hlk : l.kind = .endOfFile := by simpa [ParseState.kind, kindAhead, hrest] using hk
    exact ⟨items, l, s₁, rfl, h₁, hl, hlk, rfl⟩

end Declarations

end NullLint.Parser
