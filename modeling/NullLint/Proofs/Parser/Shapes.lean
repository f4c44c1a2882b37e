import NullLint.Proofs.LosslessParsing
import NullLint.Proofs.Syntax.Endings
import NullLint.Check.Checker

/-!
# The shape of what is parsed

Whatever the source, errors or not, the nodes that a parser builds have three things in common.
Phrases that enclose statements, expressions or types nest only as deep as the parser was allowed
to go; declarations are not counted, since nothing limits them. A token that the lexer does not
know stands only in an error node, among other tokens. And both parts of a null operator end with
a token, even where the source lacks it.
-/

namespace NullLint

/-- Phrases whose parts are parsed one level further down. -/
def Kind.isNesting : Kind → Bool
  | .block | .ifStatement | .whileStatement | .parenthesizedExpression | .argumentList
  | .bracketedArgumentList | .typeArgumentList => true
  | _ => false

theorem Kind.isNesting_errorNode : Kind.errorNode.isNesting = false := rfl

theorem Kind.isOperatorKind_of_isNesting {k : Kind} (h : k.isNesting = true) :
    Checker.isOperatorKind k = false := by
  revert h
  cases k <;> decide

namespace Node

variable {α β : Type}

/-- A token of a kind that the lexer knows. -/
def IsKnown (n : Node α) : Prop := ∃ t, n.token? = some t ∧ t.kind ≠ .unknown

/-- The node ends with a token. -/
def EndsInToken (n : Node α) : Prop := n.lastToken?.isSome = true

/-- A node as a parser builds it in which nesting phrases nest at most `d` deep. -/
inductive Shaped : Nat → Node α → Prop where
  | token {d : Nat} (a : α) {t : Token} (ht : t.kind ≠ .unknown) : Shaped d (.token a t)
  | error {d : Nat} (a : α) {cs : List (Node α)} (hcs : ∀ c ∈ cs, c.token?.isSome = true) :
      Shaped d (.branch a .errorNode cs)
  | flat {d : Nat} (a : α) {k : Kind} {cs : List (Node α)} (hk : k.isNesting = false)
      (hmarked : Checker.isOperatorKind k = true → ∀ c ∈ cs, c.EndsInToken)
      (hcs : ∀ c ∈ cs, Shaped d c) : Shaped d (.branch a k cs)
  | nest {d : Nat} (a : α) {k : Kind} {cs : List (Node α)} (hk : k.isNesting = true)
      (hcs : ∀ c ∈ cs, Shaped d c) : Shaped (d + 1) (.branch a k cs)

theorem IsKnown.shaped {n : Node α} (h : n.IsKnown) (d : Nat) : n.Shaped d := by
  obtain ⟨t, hn, ht⟩ := h
  cases n with
  | token a u =>
    obtain rfl : u = t := Option.some.inj hn
    exact .token a ht
  | branch => cases hn

theorem IsKnown.isSome_token? {n : Node α} (h : n.IsKnown) : n.token?.isSome = true := by
  obtain ⟨t, hn, -⟩ := h
  simp [hn]

theorem endsInToken_of_token? {n : Node α} (h : n.token?.isSome = true) : n.EndsInToken := by
  cases n with
  | token a u => simp [EndsInToken]
  | branch => cases h

theorem IsKnown.endsInToken {n : Node α} (h : n.IsKnown) : n.EndsInToken :=
  endsInToken_of_token? h.isSome_token?

/-- A branch ends with a token if its last child does. -/
theorem endsInToken_concat {a : α} {k : Kind} (cs : List (Node α)) {c : Node α}
    (h : c.EndsInToken) : (branch a k (cs ++ [c])).EndsInToken := by
  simpa [EndsInToken, lastToken?_branch] using h

theorem Shaped.mono {d e : Nat} {n : Node α} (h : n.Shaped d) (hde : d ≤ e) : n.Shaped e := by
  induction h generalizing e with
  | token a ht => exact .token a ht
  | error a hcs => exact .error a hcs
  | flat a hk hmarked _ ih => exact .flat a hk hmarked fun c hc => ih c hc hde
  | @nest d a k cs hk _ ih =>
    obtain ⟨e, rfl⟩ : ∃ e', e = e' + 1 := ⟨e - 1, by omega⟩
    exact .nest a hk fun c hc => ih c hc (by omega)

end Node

/-- All of the nodes have the shape. -/
def AllShaped (d : Nat) (ns : List Green) : Prop := ∀ n ∈ ns, n.Shaped d

section AllShaped

variable {d : Nat} {n : Green} {ns ms : List Green}

@[simp] theorem allShaped_nil : AllShaped d [] := by simp [AllShaped]

@[simp] theorem allShaped_cons : AllShaped d (n :: ns) ↔ n.Shaped d ∧ AllShaped d ns := by
  simp [AllShaped]

@[simp] theorem allShaped_append :
    AllShaped d (ns ++ ms) ↔ AllShaped d ns ∧ AllShaped d ms := by
  simp [AllShaped, or_imp, forall_and]

/-- A branch that is not nesting keeps the shape of its children. -/
theorem Node.Shaped.group {k : Kind} (hns : AllShaped d ns)
    (hk : (!k.isNesting && !Checker.isOperatorKind k) = true) : (Green.group k ns).Shaped d := by
  simp only [Bool.and_eq_true, Bool.not_eq_true'] at hk
  exact .flat () hk.1 (by simp [hk.2]) hns

/-- A nesting phrase takes one level. -/
theorem Node.Shaped.enclose {k : Kind} (hns : AllShaped d ns) (hk : k.isNesting = true) :
    (Green.group k ns).Shaped (d + 1) :=
  .nest () hk hns

theorem AllShaped.of_known (h : ∀ n ∈ ns, n.IsKnown) : AllShaped d ns :=
  fun n hn => (h n hn).shaped d

end AllShaped

namespace Parser

variable {d : Nat} {s : ParseState}

/-! ## Tokens and loops -/

theorem leaf_advance (s : ParseState) :
    advance.Ensures s fun n _ => n.token?.isSome = true := by
  unfold Ensures advance
  cases s.rest <;> rfl

theorem known_advance (hs : s.kind ≠ .unknown) : advance.Ensures s fun n _ => n.IsKnown := by
  unfold Ensures advance
  cases hrest : s.rest with
  | nil => exact ⟨_, rfl, by simp [Token.absent]⟩
  | cons l rest =>
    refine ⟨l.token, rfl, ?_⟩
    simpa [ParseState.kind, kindAhead, hrest, Lexeme.kind] using hs

/-- The current token is known to have the kind `k`. -/
theorem known_token {k : Kind} (hs : s.kind = k) (hk : k ≠ .unknown) :
    advance.Ensures s fun n _ => n.IsKnown :=
  known_advance (hs ▸ hk)

/-- The current token is of a class of kinds that the lexer knows. -/
theorem known_among {p : Kind → Bool} (hs : p s.kind = true) (hp : p .unknown = false) :
    advance.Ensures s fun n _ => n.IsKnown :=
  known_advance fun hk => by simp [hk, hp] at hs

/-- The current token is known to have the kind `k`, and behind it the next one is current. -/
theorem known_token_next {k : Kind} (hs : s.kind = k) (hk : k ≠ .unknown) :
    advance.Ensures s fun n s' => n.IsKnown ∧ s'.kind = s.nextKind :=
  ⟨known_token hs hk, kind_advance s⟩

theorem known_expect {k : Kind} (s : ParseState) (hk : k ≠ .unknown) :
    (expect k).Ensures s fun n _ => n.IsKnown := by
  unfold Ensures expect
  split
  · rename_i hs
    exact known_token hs hk
  · exact ⟨_, rfl, hk⟩

theorem known_accept {k : Kind} (s : ParseState) (hk : k ≠ .unknown) :
    (accept k).Ensures s fun ns _ => ∀ n ∈ ns, n.IsKnown := by
  unfold Ensures accept
  split
  · rename_i hs
    exact List.forall_mem_singleton.2 (known_token hs hk)
  · simp

theorem shaped_skip (code : ErrorCode) (s : ParseState) :
    (skip code).Ensures s fun n _ => n.Shaped d := by
  have hleaf := leaf_advance (complain code s).2
  exact Node.Shaped.error () (List.forall_mem_singleton.2 hleaf)

/-- What holds of everything that one round of a loop collects holds of all that it collects. -/
theorem all_collectWhile {P : Green → Prop} {more : ParseState → Bool}
    {item : Parser (List Green)}
    (h : ∀ s, more s = true → item.Ensures s fun ns _ => ∀ n ∈ ns, P n) (s : ParseState) :
    (collectWhile more item).Ensures s fun ns _ => ∀ n ∈ ns, P n := by
  refine ensures_collectWhile (fun ns _ => ∀ n ∈ ns, P n) (fun ns s hm hns => ?_) (by simp)
  exact (h s hm).mono fun _ _ hr => List.forall_mem_append.2 ⟨hns, hr⟩

theorem shaped_collectWhile {more : ParseState → Bool} {item : Parser (List Green)}
    (h : ∀ s, more s = true → item.Ensures s fun ns _ => AllShaped d ns) (s : ParseState) :
    (collectWhile more item).Ensures s fun ns _ => AllShaped d ns :=
  all_collectWhile h s

theorem shaped_commaSeparated {item : Parser Green}
    (h : ∀ s, item.Ensures s fun n _ => n.Shaped d) (s : ParseState) :
    (commaSeparated do return [← item]).Ensures s fun ns _ => AllShaped d ns := by
  simp only [commaSeparated, ensures_bind, ensures_pure]
  refine (h s).mono fun first s₁ h₁ => ?_
  refine (shaped_collectWhile (d := d) (fun s hs => ?_) s₁).mono fun others s₂ h₂ => ?_
  · simp only [ensures_bind, ensures_pure]
    refine (known_token (k := .comma) (by simpa using hs) (by simp)).mono fun comma s₁ h₁ => ?_
    refine (h s₁).mono fun n s₂ h₂ => ?_
    simpa using ⟨h₁.shaped d, h₂⟩
  · simp [h₁, h₂]

theorem shaped_element (code : ErrorCode) {item : Parser Green}
    (h : item.Ensures s fun n _ => n.Shaped d) :
    (element code item).Ensures s fun ns _ => AllShaped d ns := by
  simp only [element, ensures_bind, ensures_get, ensures_ite, ensures_pure]
  refine h.mono fun node s₁ h₁ => ⟨fun _ => ?_, fun _ => by simpa using h₁⟩
  exact (shaped_skip code s₁).mono fun n s₂ h₂ => by simpa using ⟨h₁, h₂⟩

theorem known_modifiers (s : ParseState) :
    modifiers.Ensures s fun ns _ => ∀ n ∈ ns, n.IsKnown := by
  refine all_collectWhile (fun s hs => ?_) s
  simp only [ensures_bind, ensures_pure]
  exact (known_among (p := Kind.isModifier) hs rfl).mono fun n _ hn => by simpa using hn

theorem shaped_giveUp (withSemicolon : Bool) (s : ParseState) :
    (giveUp withSemicolon).Ensures s fun n _ => n.Shaped d := by
  simp only [giveUp, ensures_bind, ensures_modify, ensures_ite, ensures_pure]
  refine (all_collectWhile (P := fun n => n.token?.isSome = true) (fun s _ => ?_) _).mono
    fun skipped s₁ h₁ => ⟨fun _ => ?_, fun _ => .error () (by simpa using h₁)⟩
  · simp only [ensures_bind, ensures_pure]
    exact (leaf_advance s).mono fun n _ hn => by simpa using hn
  · refine (known_accept s₁ (by simp)).mono fun semicolon s₂ h₂ => .error () ?_
    exact List.forall_mem_append.2 ⟨h₁, fun n hn => (h₂ n hn).isSome_token?⟩

/-! ## Types -/

section Types

open Lookahead

theorem shaped_typeArguments {argument : Parser Green} (hs : s.kind = .lessThan)
    (h : ∀ s, argument.Ensures s fun n _ => n.Shaped d) :
    (typeArguments argument).Ensures s fun n _ => n.Shaped (d + 1) := by
  simp only [typeArguments, ensures_bind, ensures_pure]
  refine (known_token hs (by simp)).mono fun opening s₁ h₁ => ?_
  refine (shaped_commaSeparated h s₁).mono fun types s₂ h₂ => ?_
  refine (known_expect s₂ (by simp)).mono fun closing s₃ h₃ => ?_
  exact .enclose (by simp [h₁.shaped, h₂, h₃.shaped]) rfl

/-- A type whose argument lists, if there are any, hold types that nest one level less deep. -/
theorem shaped_simpleType {argument : Option (Parser Green)}
    (h : ∀ p ∈ argument, 0 < d ∧ ∀ s, p.Ensures s fun n _ => n.Shaped (d - 1))
    (s : ParseState) :
    (simpleType argument).Ensures s fun n _ => n.Shaped d := by
  simp only [simpleType, ensures_bind, ensures_sees, ensures_ite, ensures_pure]
  constructor
  · intro hs
    refine (known_token (k := .varKeyword) (by simpa using hs) (by simp)).mono fun n s₁ h₁ => ?_
    exact .group (by simpa using h₁.shaped d) rfl
  · intro _
    refine (known_expect s (by simp)).mono fun name s₁ h₁ => ?_
    have plain : (Green.group .predefinedOrNamedType [name]).Shaped d :=
      .group (by simpa using h₁.shaped d) rfl
    cases argument with
    | none => exact plain
    | some p =>
      simp only [ensures_bind, ensures_get, ensures_ite, ensures_pure]
      refine ⟨fun hs => ?_, fun _ => plain⟩
      obtain ⟨hd, hp⟩ := h p rfl
      refine (shaped_typeArguments (kind_of_typeArgumentsAhead hs) hp).mono fun list s₂ h₂ => ?_
      rw [Nat.sub_add_cancel hd] at h₂
      exact .group (by simpa using ⟨h₁.shaped d, h₂⟩) rfl

/-- Refining a node step by step. -/
theorem all_refine {P : Green → Prop} {step : Green → Parser (Option Green)}
    (h : ∀ n s, P n → (step n).Ensures s fun r _ => ∀ m ∈ r, P m) {n : Green} (hn : P n)
    (s : ParseState) : Ensures (refine step n) s fun m _ => P m := by
  refine ensures_refine (fun m _ => P m) _ (fun m s₁ h₁ => ?_) hn
  refine (h m s₁ h₁).mono fun r s₂ h₂ => ?_
  cases r with
  | none => exact h₁
  | some b => simpa using h₂

theorem shaped_qualify {argument : Option (Parser Green)}
    (h : ∀ p ∈ argument, 0 < d ∧ ∀ s, p.Ensures s fun n _ => n.Shaped (d - 1))
    (n : Green) (s : ParseState) (hn : n.Shaped d) :
    (qualify argument n).Ensures s fun r _ => ∀ m ∈ r, m.Shaped d := by
  simp only [qualify, ensures_bind, ensures_get, ensures_ite, ensures_pure]
  refine ⟨fun hs => ?_, fun _ => by simp⟩
  refine (known_token hs.1 (by simp)).mono fun dot s₁ h₁ => ?_
  refine (shaped_simpleType h s₁).mono fun name s₂ h₂ => ?_
  have hchildren : AllShaped d [n, dot, name] := by simp [hn, h₁.shaped, h₂]
  simpa using Node.Shaped.group (k := .qualifiedName) hchildren rfl

theorem shaped_decorate (n : Green) (s : ParseState) (hn : n.Shaped d) :
    (decorate n).Ensures s fun r _ => ∀ m ∈ r, m.Shaped d := by
  simp only [decorate, ensures_bind, ensures_get, ensures_ite, ensures_pure]
  refine ⟨fun hs => ?_, fun _ => ⟨fun hs => ?_, fun _ => by simp⟩⟩
  · refine (known_token hs.1 (by simp)).mono fun question s₁ h₁ => ?_
    have hchildren : AllShaped d [n, question] := by simp [hn, h₁.shaped]
    simpa using Node.Shaped.group (k := .nullableType) hchildren rfl
  · apply (known_token_next hs.1 (by simp)).mono
    rintro opening s₁ ⟨h₁, hnext⟩
    refine (known_token (hnext.trans hs.2) (by simp)).mono fun closing s₂ h₂ => ?_
    have hchildren : AllShaped d [n, opening, closing] := by simp [hn, h₁.shaped, h₂.shaped]
    simpa using Node.Shaped.group (k := .arrayType) hchildren rfl

theorem shaped_typeWith {argument : Option (Parser Green)}
    (h : ∀ p ∈ argument, 0 < d ∧ ∀ s, p.Ensures s fun n _ => n.Shaped (d - 1))
    (s : ParseState) :
    (typeWith argument).Ensures s fun n _ => n.Shaped d := by
  simp only [typeWith, ensures_bind]
  refine (shaped_simpleType h s).mono fun name s₁ h₁ => ?_
  refine (all_refine (shaped_qualify h) h₁ s₁).mono fun qualified s₂ h₂ => ?_
  exact all_refine shaped_decorate h₂ s₂

theorem shaped_typeNested (depth : Nat) (s : ParseState) :
    (typeNested depth).Ensures s fun n _ => n.Shaped depth := by
  induction depth generalizing s with
  | zero => exact shaped_typeWith (by simp) s
  | succ depth ih => exact shaped_typeWith (by simpa using ih) s

/-- A type may stand wherever at least as many levels are left as types have. -/
theorem shaped_type (hd : maxParseDepth + 1 ≤ d) (s : ParseState) :
    type.Ensures s fun n _ => n.Shaped d :=
  (shaped_typeNested _ s).mono fun _ _ h => h.mono hd

end Types

/-! ## Expressions -/

section Expressions

open Lookahead

/-- The node has the shape and ends with a token, so an operator may stand behind it. -/
def Operand (d : Nat) (n : Green) : Prop := n.Shaped d ∧ n.EndsInToken

theorem Operand.group {k : Kind} {ns : List Green} {n : Green} (hns : AllShaped d ns)
    (hn : Operand d n) (hk : (!k.isNesting && !Checker.isOperatorKind k) = true) :
    Operand d (.group k (ns ++ [n])) :=
  ⟨.group (allShaped_append.2 ⟨hns, by simpa using hn.1⟩) hk, Node.endsInToken_concat ns hn.2⟩

theorem Operand.of_known {n : Green} (h : n.IsKnown) : Operand d n :=
  ⟨h.shaped d, h.endsInToken⟩

theorem Operand.single {k : Kind} {n : Green} (h : n.IsKnown)
    (hk : (!k.isNesting && !Checker.isOperatorKind k) = true) : Operand d (.group k [n]) :=
  Operand.group allShaped_nil (.of_known h) hk

theorem operand_identifierName (s : ParseState) :
    identifierName.Ensures s fun n _ => Operand d n :=
  (known_expect (k := .identifier) s (by simp)).mono fun _ _ h₁ => Operand.single h₁ rfl

theorem operand_absentExpression (s : ParseState) :
    absentExpression.Ensures s fun n _ => Operand d n :=
  Operand.single ⟨_, rfl, by simp [Token.absent]⟩ rfl

theorem operand_skip (code : ErrorCode) (s : ParseState) :
    (skip code).Ensures s fun n _ => Operand d n := by
  have hleaf := leaf_advance (complain code s).2
  exact ⟨shaped_skip code s, Node.endsInToken_concat [] (Node.endsInToken_of_token? hleaf)⟩

/-- Operators before an operand are applied from the inside out. -/
theorem shaped_foldr_sign {operators : List Green} {e : Green} (hop : AllShaped d operators)
    (he : e.Shaped d) :
    (operators.foldr (fun op e => .group .prefixUnaryExpression [op, e]) e).Shaped d := by
  induction operators with
  | nil => exact he
  | cons op operators ih =>
    rw [allShaped_cons] at hop
    exact .group (by simpa using ⟨hop.1, ih hop.2⟩) rfl

theorem shaped_groupRight {kind : Kind} {first : Green} {more : List Green}
    (hk : (!kind.isNesting && !Checker.isOperatorKind kind) = true) (hfirst : first.Shaped d)
    (hmore : AllShaped d more) : (groupRight kind first more).Shaped d := by
  fun_induction groupRight kind first more with
  | case1 first operator next more ih =>
    simp only [allShaped_cons] at hmore
    exact .group (by simpa using ⟨hfirst, hmore.1, ih hmore.2.1 hmore.2.2⟩) hk
  | case2 => exact hfirst

theorem shaped_leftGrouped (joins : Kind → Bool) {part : Parser Green}
    (hjoins : joins .unknown = false) (h : ∀ s, part.Ensures s fun n _ => n.Shaped d)
    (s : ParseState) : (leftGrouped joins part).Ensures s fun n _ => n.Shaped d := by
  simp only [leftGrouped, ensures_bind]
  refine (h s).mono fun first s₁ h₁ => all_refine (fun left s hleft => ?_) h₁ s₁
  simp only [ensures_bind, ensures_get, ensures_ite, ensures_pure]
  refine ⟨fun hs => ?_, fun _ => by simp⟩
  refine (known_among hs hjoins).mono fun operator s₁ h₁ => ?_
  refine (h s₁).mono fun right s₂ h₂ => ?_
  have hchildren : AllShaped d [left, operator, right] := by simp [hleft, h₁.shaped, h₂]
  simpa using Node.Shaped.group (k := .binaryExpression) hchildren rfl

theorem shaped_rightGrouped {kind operator : Kind} {part : Parser Green}
    (hk : (!kind.isNesting && !Checker.isOperatorKind kind) = true) (hop : operator ≠ .unknown)
    (h : ∀ s, part.Ensures s fun n _ => n.Shaped d) (s : ParseState) :
    (rightGrouped kind operator part).Ensures s fun n _ => n.Shaped d := by
  simp only [rightGrouped, ensures_bind, ensures_pure]
  refine (h s).mono fun first s₁ h₁ => ?_
  refine (shaped_collectWhile (d := d) (fun s hs => ?_) s₁).mono fun more s₂ h₂ =>
    shaped_groupRight hk h₁ h₂
  simp only [ensures_bind, ensures_pure]
  refine (known_token (by simpa using hs) hop).mono fun mark s₃ h₃ => ?_
  exact (h s₃).mono fun e s₄ h₄ => by simpa using ⟨h₃.shaped d, h₄⟩

variable (hd : maxParseDepth + 1 ≤ d) {nested : Parser Green}
  (h : ∀ s, nested.Ensures s fun n _ => n.Shaped d)

section
include h

theorem operand_argumentList {opening closing kind : Kind} (s : ParseState)
    (hopening : opening ≠ .unknown) (hclosing : closing ≠ .unknown)
    (hkind : kind.isNesting = true) :
    (argumentList nested opening closing kind).Ensures s fun n _ => Operand (d + 1) n := by
  simp only [argumentList, ensures_bind, ensures_sees, ensures_ite, ensures_pure]
  have enclosed {first last : Green} {ns : List Green} (hfirst : first.IsKnown)
      (hns : AllShaped d ns) (hlast : last.IsKnown) :
      Operand (d + 1) (.group kind (first :: ns ++ [last])) := by
    refine ⟨.enclose ?_ hkind, Node.endsInToken_concat (first :: ns) hlast.endsInToken⟩
    simp [hfirst.shaped, hns, hlast.shaped]
  refine (known_expect s hopening).mono fun first s₁ h₁ => ⟨fun _ => ?_, fun _ => ?_⟩
  · exact (known_expect s₁ hclosing).mono fun last s₂ h₂ => enclosed h₁ allShaped_nil h₂
  · refine (shaped_commaSeparated h s₁).mono fun arguments s₂ h₂ => ?_
    exact (known_expect s₂ hclosing).mono fun last s₃ h₃ => enclosed h₁ h₂ h₃

theorem operand_parenthesizedArguments (s : ParseState) :
    (parenthesizedArguments nested).Ensures s fun n _ => Operand (d + 1) n :=
  operand_argumentList h s (by simp) (by simp) rfl

theorem operand_bracketedArguments (s : ParseState) :
    (bracketedArguments nested).Ensures s fun n _ => Operand (d + 1) n :=
  operand_argumentList h s (by simp) (by simp) rfl

theorem operand_parenthesized (hs : s.kind = .openParen) :
    (parenthesized nested).Ensures s fun n _ => Operand (d + 1) n := by
  simp only [parenthesized, ensures_bind, ensures_pure]
  refine (known_token hs (by simp)).mono fun opening s₁ h₁ => ?_
  refine (h s₁).mono fun e s₂ h₂ => ?_
  refine (known_expect s₂ (by simp)).mono fun closing s₃ h₃ => ⟨.enclose ?_ rfl, ?_⟩
  · simpa using ⟨h₁.shaped d, h₂, h₃.shaped d⟩
  · exact Node.endsInToken_concat [opening, e] h₃.endsInToken

end

include hd h

theorem operand_objectCreation (hs : s.kind = .newKeyword) :
    (objectCreation nested).Ensures s fun n _ => Operand (d + 1) n := by
  simp only [objectCreation, ensures_bind, ensures_sees, ensures_ite, ensures_pure]
  refine (known_token hs (by simp)).mono fun keyword s₁ h₁ => ?_
  refine (shaped_type (d := d + 1) (by omega) s₁).mono fun created s₂ h₂ => ?_
  have hbefore : AllShaped (d + 1) [keyword, created] := by simp [h₁.shaped, h₂]
  refine ⟨fun _ => ?_, fun _ => ?_⟩
  · exact (operand_parenthesizedArguments h s₂).mono fun _ _ h₃ => .group hbefore h₃ rfl
  · exact (known_expect s₂ (by simp)).mono fun _ _ h₃ => .group hbefore (.of_known h₃) rfl

theorem operand_primary (s : ParseState) :
    (primary nested).Ensures s fun n _ => Operand (d + 1) n := by
  simp only [primary, ensures_bind, ensures_get]
  split
  · exact operand_identifierName s
  · rename_i hs
    exact (known_token hs (by simp)).mono fun _ _ h₁ => Operand.single h₁ rfl
  · rename_i hs
    exact operand_parenthesized h hs
  · rename_i hs
    exact operand_objectCreation hd h hs
  · exact operand_skip _ s
  · simp only [ensures_ite, ensures_bind, ensures_pure]
    refine ⟨fun hk => ?_, fun _ => operand_absentExpression s⟩
    exact (known_among hk rfl).mono fun _ _ h₁ => Operand.single h₁ rfl

omit hd in
theorem operand_extend (e : Green) (s : ParseState) (he : Operand (d + 1) e) :
    (extend nested e).Ensures s fun r _ => ∀ m ∈ r, Operand (d + 1) m := by
  -- Behind a null operator only the mark is read, so both parts end with a token.
  have marked {k mark : Kind} (hs : s.kind = mark) (hmark : mark ≠ .unknown)
      (hk : k.isNesting = false) :
      Ensures (do return some (.group k [e, ← advance])) s
        fun r _ => ∀ m ∈ r, Operand (d + 1) m := by
    simp only [ensures_bind, ensures_pure]
    refine (known_token hs hmark).mono fun n s₁ h₁ => ?_
    have hends : ∀ c ∈ [e, n], c.EndsInToken := by simpa using ⟨he.2, h₁.endsInToken⟩
    have hshaped : AllShaped (d + 1) [e, n] := by simp [he.1, h₁.shaped]
    have hnode : Operand (d + 1) (.group k [e, n]) :=
      ⟨.flat () hk (fun _ => hends) hshaped, Node.endsInToken_concat [e] h₁.endsInToken⟩
    simpa using hnode
  have hfirst : AllShaped (d + 1) [e] := by simpa using he.1
  simp only [extend, ensures_bind, ensures_get]
  split
  · rename_i hs
    simp only [ensures_bind, ensures_pure]
    refine (known_token hs (by simp)).mono fun dot s₁ h₁ => ?_
    refine (operand_identifierName (d := d + 1) s₁).mono fun name s₂ h₂ => ?_
    have hbefore : AllShaped (d + 1) [e, dot] := by simp [he.1, h₁.shaped]
    simpa using Operand.group (k := .memberAccessExpression) hbefore h₂ rfl
  · rename_i hs
    rw [ensures_ite]
    exact ⟨fun _ => marked hs (by simp) rfl, fun _ => by simp⟩
  · simp only [ensures_bind, ensures_pure]
    refine (operand_parenthesizedArguments h s).mono fun list s₁ h₁ => ?_
    simpa using Operand.group (k := .invocationExpression) hfirst h₁ rfl
  · simp only [ensures_bind, ensures_pure]
    refine (operand_bracketedArguments h s).mono fun list s₁ h₁ => ?_
    simpa using Operand.group (k := .elementAccessExpression) hfirst h₁ rfl
  · rename_i hs
    exact marked hs (by simp) rfl
  · rename_i hs
    exact marked hs (by simp) rfl
  · rename_i hs
    exact marked hs (by simp) rfl
  · simp

theorem shaped_unary (s : ParseState) :
    (unary nested).Ensures s fun n _ => n.Shaped (d + 1) := by
  simp only [unary, postfixed, ensures_bind, ensures_pure]
  refine (shaped_collectWhile (d := d + 1) (fun s hs => ?_) s).mono fun operators s₁ h₁ => ?_
  · simp only [ensures_bind, ensures_pure]
    exact (known_among (p := isSignOperator) hs rfl).mono fun n _ hn => by
      simpa using hn.shaped (d + 1)
  · refine (operand_primary hd h s₁).mono fun e s₂ h₂ => ?_
    exact (all_refine (operand_extend h) h₂ s₂).mono fun e s₃ h₃ => shaped_foldr_sign h₁ h₃.1

theorem shaped_binary (s : ParseState) :
    (binary nested).Ensures s fun n _ => n.Shaped (d + 1) := by
  have hlevels : ∀ level ∈ precedenceLevels, level ≠ 0 := by decide
  unfold binary binaryAbove
  generalize precedenceLevels = levels at hlevels
  induction levels generalizing s with
  | nil => exact shaped_unary hd h s
  | cons level levels ih =>
    have hnested (s : ParseState) := ih s fun l hl => hlevels l (by simp [hl])
    have hjoins : (Kind.unknown.precedence == level) = false := by
      simpa [Kind.precedence] using (hlevels level (by simp)).symm
    exact shaped_leftGrouped (fun k => k.precedence == level) hjoins hnested s

theorem shaped_assignment (s : ParseState) :
    (assignment nested).Ensures s fun n _ => n.Shaped (d + 1) :=
  shaped_rightGrouped rfl (by simp) (shaped_rightGrouped rfl (by simp) (shaped_binary hd h)) s

omit hd h in
theorem shaped_expression (depth : Nat) (s : ParseState) :
    (expression depth).Ensures s fun n _ => n.Shaped (maxParseDepth + 1 + depth) := by
  induction depth generalizing s with
  | zero => exact shaped_giveUp false s
  | succ depth ih => exact shaped_assignment (by omega) ih s

end Expressions

/-! ## Statements -/

section Statements

open Lookahead

section

variable {depth : Nat} (hd : maxParseDepth + 1 + depth ≤ d)
include hd

theorem shaped_expression_le (s : ParseState) :
    (expression depth).Ensures s fun n _ => n.Shaped d :=
  (shaped_expression depth s).mono fun _ _ h => h.mono hd

theorem shaped_equalsValue (hs : s.kind = .equals) :
    (equalsValue depth).Ensures s fun n _ => n.Shaped d := by
  simp only [equalsValue, ensures_bind, ensures_pure]
  refine (known_token hs (by simp)).mono fun equals s₁ h₁ => ?_
  refine (shaped_expression_le hd s₁).mono fun e s₂ h₂ => ?_
  exact .group (by simpa using ⟨h₁.shaped d, h₂⟩) rfl

theorem shaped_declarator {name : Green} (hname : name.IsKnown) (s : ParseState) :
    (declarator depth name).Ensures s fun n _ => n.Shaped d := by
  simp only [declarator, ensures_bind, ensures_sees, ensures_ite, ensures_pure]
  refine ⟨fun hs => ?_, fun _ => .group (by simpa using hname.shaped d) rfl⟩
  refine (shaped_equalsValue hd (by simpa using hs)).mono fun value s₁ h₁ => ?_
  exact .group (by simpa using ⟨hname.shaped d, h₁⟩) rfl

theorem shaped_moreDeclarators (s : ParseState) :
    (moreDeclarators depth).Ensures s fun ns _ => AllShaped d ns := by
  refine shaped_collectWhile (fun s hs => ?_) s
  simp only [ensures_bind, ensures_pure]
  refine (known_token (k := .comma) (by simpa using hs) (by simp)).mono fun comma s₁ h₁ => ?_
  refine (known_expect s₁ (by simp)).mono fun name s₂ h₂ => ?_
  exact (shaped_declarator hd h₂ s₂).mono fun n s₃ h₃ => by simpa using ⟨h₁.shaped d, h₃⟩

theorem shaped_localDeclaration (s : ParseState) :
    (localDeclaration depth).Ensures s fun n _ => n.Shaped d := by
  simp only [localDeclaration, ensures_bind, ensures_pure]
  refine (shaped_type (d := d) (by omega) s).mono fun declared s₁ h₁ => ?_
  refine (known_expect s₁ (by simp)).mono fun name s₂ h₂ => ?_
  refine (shaped_declarator hd h₂ s₂).mono fun first s₃ h₃ => ?_
  refine (shaped_moreDeclarators hd s₃).mono fun others s₄ h₄ => ?_
  refine (known_expect s₄ (by simp)).mono fun semicolon s₅ h₅ => ?_
  exact .group (by simp [h₁, h₃, h₄, h₅.shaped]) rfl

theorem shaped_expressionStatement (s : ParseState) :
    (expressionStatement depth).Ensures s fun n _ => n.Shaped d := by
  simp only [expressionStatement, ensures_bind, ensures_pure]
  refine (shaped_expression_le hd s).mono fun e s₁ h₁ => ?_
  refine (known_expect s₁ (by simp)).mono fun semicolon s₂ h₂ => ?_
  exact .group (by simpa using ⟨h₁, h₂.shaped d⟩) rfl

theorem shaped_jump {kind keyword : Kind} (hs : s.kind = keyword) (hkeyword : keyword ≠ .unknown)
    (hkind : (!kind.isNesting && !Checker.isOperatorKind kind) = true) :
    (jump depth kind).Ensures s fun n _ => n.Shaped d := by
  have grouped {keyword semicolon : Green} {value : List Green} (h : keyword.IsKnown)
      (h' : AllShaped d value) (h'' : semicolon.IsKnown) :
      (Green.group kind (keyword :: value ++ [semicolon])).Shaped d := by
    exact .group (by simp [h.shaped, h', h''.shaped]) hkind
  simp only [jump, ensures_bind, ensures_get, ensures_ite, ensures_pure]
  refine (known_token hs hkeyword).mono fun keyword s₁ h₁ => ⟨fun _ => ?_, fun _ => ?_⟩
  · refine (shaped_expression_le hd s₁).mono fun e s₂ h₂ => ?_
    exact (known_expect s₂ (by simp)).mono fun semicolon s₃ h₃ =>
      grouped h₁ (by simpa using h₂) h₃
  · exact (known_expect s₁ (by simp)).mono fun semicolon s₂ h₂ => grouped h₁ allShaped_nil h₂

variable {nested : Parser Green} (h : ∀ s, nested.Ensures s fun n _ => n.Shaped d)
include h

theorem shaped_embedded (s : ParseState) :
    (embedded depth nested).Ensures s fun n _ => n.Shaped d := by
  simp only [embedded, ensures_bind, ensures_get, ensures_ite]
  exact ⟨fun _ => h s, fun _ => shaped_expressionStatement hd s⟩

theorem shaped_guarded {keyword : Kind} (hs : s.kind = keyword) (hkeyword : keyword ≠ .unknown) :
    (guarded depth nested).Ensures s fun ns _ => AllShaped d ns := by
  simp only [guarded, ensures_bind, ensures_pure]
  refine (known_token hs hkeyword).mono fun keyword s₁ h₁ => ?_
  refine (known_expect s₁ (by simp)).mono fun opening s₂ h₂ => ?_
  refine (shaped_expression_le hd s₂).mono fun condition s₃ h₃ => ?_
  refine (known_expect s₃ (by simp)).mono fun closing s₄ h₄ => ?_
  refine (shaped_embedded hd h s₄).mono fun body s₅ h₅ => ?_
  simp [h₁.shaped, h₂.shaped, h₃, h₄.shaped, h₅]

theorem shaped_ifStatement (hs : s.kind = .ifKeyword) :
    (ifStatement depth nested).Ensures s fun n _ => n.Shaped (d + 1) := by
  simp only [ifStatement, ensures_bind, ensures_sees, ensures_ite, ensures_pure]
  refine (shaped_guarded hd h hs (by simp)).mono fun parts s₁ h₁ =>
    ⟨fun helse => ?_, fun _ => .nest () rfl h₁⟩
  refine (known_token (k := .elseKeyword) (by simpa using helse) (by simp)).mono
    fun keyword s₂ h₂ => ?_
  refine (shaped_embedded hd h s₂).mono fun other s₃ h₃ => .nest () rfl ?_
  have hclause : (Green.group .elseClause [keyword, other]).Shaped d :=
    .group (by simpa using ⟨h₂.shaped d, h₃⟩) rfl
  exact allShaped_append.2 ⟨h₁, by simpa using hclause⟩

theorem shaped_whileStatement (hs : s.kind = .whileKeyword) :
    (whileStatement depth nested).Ensures s fun n _ => n.Shaped (d + 1) := by
  simp only [whileStatement, ensures_bind, ensures_pure]
  exact (shaped_guarded hd h hs (by simp)).mono fun _ _ h₁ => .nest () rfl h₁

omit hd in
theorem shaped_block (s : ParseState) :
    (block nested).Ensures s fun n _ => n.Shaped (d + 1) := by
  simp only [block, ensures_bind, ensures_pure]
  refine (known_expect s (by simp)).mono fun opening s₁ h₁ => ?_
  refine (shaped_collectWhile (d := d) (fun s _ => ?_) s₁).mono fun body s₂ h₂ => ?_
  · refine shaped_element _ ?_
    simp only [ensures_bind, ensures_get, ensures_ite]
    exact ⟨fun _ => h s, fun _ => shaped_skip _ s⟩
  · refine (known_expect s₂ (by simp)).mono fun closing s₃ h₃ => ?_
    exact .enclose (by simp [h₁.shaped, h₂, h₃.shaped]) rfl

theorem shaped_statementWith (s : ParseState) :
    (statementWith depth nested).Ensures s fun n _ => n.Shaped (d + 1) := by
  have hd' : maxParseDepth + 1 + depth ≤ d + 1 := by omega
  simp only [statementWith, ensures_bind, ensures_get]
  split
  · exact shaped_block h s
  · rename_i hs
    simp only [ensures_bind, ensures_pure]
    refine (known_token hs (by simp)).mono fun n _ h₁ => ?_
    exact .group (by simpa using h₁.shaped (d + 1)) rfl
  · rename_i hs
    exact shaped_ifStatement hd h hs
  · rename_i hs
    exact shaped_whileStatement hd h hs
  · rename_i hs
    exact shaped_jump hd' hs (by simp) rfl
  · rename_i hs
    exact shaped_jump hd' hs (by simp) rfl
  · rw [ensures_ite]
    exact ⟨fun _ => shaped_localDeclaration hd' s, fun _ => shaped_expressionStatement hd' s⟩

end

theorem shaped_statement (depth : Nat) (s : ParseState) :
    (statement depth).Ensures s fun n _ => n.Shaped (maxParseDepth + 1 + depth) := by
  induction depth generalizing s with
  | zero => exact shaped_giveUp true s
  | succ depth ih => exact shaped_statementWith le_rfl ih s

end Statements

/-! ## Declarations -/

section Declarations

open Lookahead

/-- How deep nesting phrases can nest in a file: a statement or expression of the deepest level may
hold a type, and the body of a member is a block itself. -/
def nestingBound : Nat := maxParseDepth + 1 + maxParseDepth + 1

theorem succ_maxParseDepth_le : maxParseDepth + 1 ≤ nestingBound := by
  unfold nestingBound
  omega

theorem shaped_arrowClause (hs : s.kind = .equalsGreaterThan) :
    arrowClause.Ensures s fun n _ => n.Shaped nestingBound := by
  simp only [arrowClause, ensures_bind, ensures_pure]
  refine (known_token hs (by simp)).mono fun arrow s₁ h₁ => ?_
  refine (shaped_expression_le (Nat.le_succ _) s₁).mono fun e s₂ h₂ => ?_
  exact .group (by simpa using ⟨h₁.shaped _, h₂⟩) rfl

theorem shaped_body (s : ParseState) :
    body.Ensures s fun ns _ => AllShaped nestingBound ns := by
  simp only [body, ensures_bind, ensures_get]
  split
  · simp only [ensures_bind, ensures_pure]
    exact (shaped_block (shaped_statement maxParseDepth) s).mono fun n _ h₁ =>
      List.forall_mem_singleton.2 h₁
  · rename_i hs
    simp only [ensures_bind, ensures_pure]
    refine (shaped_arrowClause hs).mono fun clause s₁ h₁ => ?_
    exact (known_expect s₁ (by simp)).mono fun semicolon s₂ h₂ => by
      simpa using ⟨h₁, h₂.shaped _⟩
  · simp only [ensures_bind, ensures_pure]
    exact (known_expect s (by simp)).mono fun n _ h₁ => by simpa using h₁.shaped _

theorem shaped_parameter (s : ParseState) :
    parameter.Ensures s fun n _ => n.Shaped nestingBound := by
  simp only [parameter, ensures_bind, ensures_sees, ensures_ite, ensures_pure]
  refine (shaped_type succ_maxParseDepth_le s).mono fun declared s₁ h₁ => ?_
  refine (known_expect s₁ (by simp)).mono fun name s₂ h₂ => ⟨fun hs => ?_, fun _ => ?_⟩
  · refine (shaped_equalsValue (Nat.le_succ _) (by simpa using hs)).mono fun value s₃ h₃ => ?_
    exact .group (by simpa using ⟨h₁, h₂.shaped _, h₃⟩) rfl
  · exact .group (by simpa using ⟨h₁, h₂.shaped _⟩) rfl

theorem shaped_parameterList (s : ParseState) :
    parameterList.Ensures s fun n _ => n.Shaped nestingBound := by
  let inv (ns : List Green) (_ : ParseState) : Prop := AllShaped nestingBound ns
  simp only [parameterList, ensures_bind, ensures_pure]
  refine (known_expect s (by simp)).mono fun opening s₁ h₁ => ?_
  refine (ensures_collect inv inv (fun ns s hns => ?_) allShaped_nil).mono
    fun parameters s₂ h₂ => ?_
  · simp only [ensures_bind, ensures_get, ensures_ite, ensures_pure]
    refine ⟨fun _ => ?_, fun _ => by simpa using hns⟩
    refine (shaped_parameter s).mono fun p s₂ h₂ => ?_
    refine (known_accept s₂ (by simp)).mono fun comma s₃ h₃ => ?_
    have hround : AllShaped nestingBound (ns ++ p :: comma) :=
      allShaped_append.2 ⟨hns, by simp [h₂, AllShaped.of_known h₃]⟩
    split <;> exact hround
  · refine (known_expect s₂ (by simp)).mono fun closing s₃ h₃ => ?_
    exact .group (by simpa using ⟨h₁.shaped _, h₂, h₃.shaped _⟩) rfl

theorem shaped_accessorList (hs : s.kind = .openBrace) :
    accessorList.Ensures s fun n _ => n.Shaped nestingBound := by
  simp only [accessorList, ensures_bind, ensures_pure]
  refine (known_token hs (by simp)).mono fun opening s₁ h₁ => ?_
  refine (shaped_collectWhile (d := nestingBound) (fun s _ => ?_) s₁).mono
    fun accessors s₂ h₂ => ?_
  · simp only [ensures_bind, ensures_pure]
    refine (known_modifiers s).mono fun words s₁ h₁ => ?_
    refine (known_expect s₁ (by simp)).mono fun name s₂ h₂ => ?_
    refine (shaped_body s₂).mono fun rest s₃ h₃ => ?_
    have hchildren : AllShaped nestingBound (words ++ name :: rest) := by
      simp [AllShaped.of_known h₁, h₂.shaped, h₃]
    simpa using Node.Shaped.group (k := .accessorDeclaration) hchildren rfl
  · refine (known_expect s₂ (by simp)).mono fun closing s₃ h₃ => ?_
    exact .group (by simp [h₁.shaped, h₂, h₃.shaped]) rfl

theorem shaped_memberTail {before : List Green} {name : Green}
    (hbefore : AllShaped nestingBound before) (hname : name.IsKnown) (s : ParseState) :
    (memberTail before name).Ensures s fun n _ => n.Shaped nestingBound := by
  have grouped {k : Kind} {ns : List Green} (h : AllShaped nestingBound ns)
      (hk : (!k.isNesting && !Checker.isOperatorKind k) = true) :
      (Green.group k (before ++ ns)).Shaped nestingBound :=
    .group (allShaped_append.2 ⟨hbefore, h⟩) hk
  simp only [memberTail, ensures_bind, ensures_get]
  split
  · simp only [ensures_bind, ensures_pure]
    refine (shaped_parameterList s).mono fun parameters s₂ h₂ => ?_
    refine (shaped_body s₂).mono fun rest s₃ h₃ => ?_
    exact grouped (by simp [hname.shaped, h₂, h₃]) rfl
  · rename_i hs
    simp only [ensures_bind, ensures_sees, ensures_ite, ensures_pure]
    refine (shaped_accessorList hs).mono fun accessors s₂ h₂ => ⟨fun hs => ?_, fun _ => ?_⟩
    · refine (shaped_equalsValue (Nat.le_succ _) (by simpa using hs)).mono fun value s₃ h₃ => ?_
      refine (known_expect s₃ (by simp)).mono fun semicolon s₄ h₄ => ?_
      exact grouped (by simpa using ⟨hname.shaped _, h₂, h₃, h₄.shaped _⟩) rfl
    · exact grouped (by simp [hname.shaped, h₂]) rfl
  · rename_i hs
    simp only [ensures_bind, ensures_pure]
    refine (shaped_arrowClause hs).mono fun clause s₂ h₂ => ?_
    refine (known_expect s₂ (by simp)).mono fun semicolon s₃ h₃ => ?_
    exact grouped (by simp [hname.shaped, h₂, h₃.shaped]) rfl
  · simp only [ensures_bind, ensures_pure]
    refine (shaped_declarator (Nat.le_succ _) hname s).mono fun first s₂ h₂ => ?_
    refine (shaped_moreDeclarators (Nat.le_succ _) s₂).mono fun others s₃ h₃ => ?_
    refine (known_expect s₃ (by simp)).mono fun semicolon s₄ h₄ => ?_
    exact .group (by simpa using ⟨hbefore, h₂, h₃, h₄.shaped _⟩) rfl

/-- What a parser of type declarations does with the modifiers read before it. -/
def ShapesTypeBehind (p : List Green → Parser Green) : Prop :=
  ∀ words s, AtTypeKeyword s → (∀ n ∈ words, n.IsKnown) →
    (p words).Ensures s fun n _ => n.Shaped nestingBound

theorem shaped_member {nested : List Green → Parser Green} (h : ShapesTypeBehind nested)
    (s : ParseState) :
    (member nested).Ensures s fun n _ => n.Shaped nestingBound := by
  simp only [member, ensures_bind, ensures_get, ensures_ite, ensures_pure]
  refine (known_modifiers s).mono fun words s₁ h₁ => ?_
  have hwords : AllShaped nestingBound words := .of_known h₁
  refine ⟨fun hs => h words s₁ hs h₁, fun _ => ⟨fun hs => ?_, fun _ => ⟨fun _ => ?_, fun _ => ?_⟩⟩⟩
  · refine (known_token hs.1 (by simp)).mono fun name s₂ h₂ => ?_
    refine (shaped_parameterList s₂).mono fun parameters s₃ h₃ => ?_
    refine (shaped_body s₃).mono fun rest s₄ h₄ => ?_
    exact .group (by simp [hwords, h₂.shaped, h₃, h₄]) rfl
  · refine (shaped_type succ_maxParseDepth_le s₁).mono fun declared s₂ h₂ => ?_
    refine (known_expect s₂ (by simp)).mono fun name s₃ h₃ => ?_
    exact shaped_memberTail (by simp [hwords, h₂]) h₃ s₃
  · refine (known_expect s₁ (by simp)).mono fun name s₂ h₂ => ?_
    exact .group (by simp [hwords, h₂.shaped]) rfl

theorem shaped_baseList (s : ParseState) :
    baseList.Ensures s fun ns _ => AllShaped nestingBound ns := by
  simp only [baseList, ensures_bind, ensures_sees, ensures_ite, ensures_pure]
  refine ⟨fun hs => ?_, fun _ => by simp⟩
  refine (known_token (k := .colon) (by simpa using hs) (by simp)).mono fun colon s₁ h₁ => ?_
  exact (shaped_commaSeparated (shaped_type succ_maxParseDepth_le) s₁).mono fun types s₂ h₂ => by
    simp [h₁.shaped, h₂]

theorem shaped_typeDeclarationWith {nested : List Green → Parser Green}
    (h : ShapesTypeBehind nested) : ShapesTypeBehind (typeDeclarationWith nested) := by
  intro words s hs hw
  have hknown : s.kind ≠ .unknown := by
    rcases hs with hs | hs <;> simp [hs]
  simp only [typeDeclarationWith, ensures_bind, ensures_get, ensures_pure]
  refine (known_advance hknown).mono fun keyword s₁ h₁ => ?_
  refine (known_expect s₁ (by simp)).mono fun name s₂ h₂ => ?_
  refine (shaped_baseList s₂).mono fun bases s₃ h₃ => ?_
  refine (known_expect s₃ (by simp)).mono fun opening s₄ h₄ => ?_
  refine (shaped_collectWhile (d := nestingBound) (fun s _ => ?_) s₄).mono
    fun members s₅ h₅ => ?_
  · refine shaped_element _ ?_
    simp only [ensures_bind, ensures_get, ensures_ite]
    exact ⟨fun _ => shaped_member h s, fun _ => shaped_skip _ s⟩
  · refine (known_expect s₅ (by simp)).mono fun closing s₆ h₆ => .group ?_ (by split <;> rfl)
    simp [AllShaped.of_known hw, h₁.shaped, h₂.shaped, h₃, h₄.shaped,
      h₅, h₆.shaped]

theorem shaped_typeDeclarationNested (depth : Nat) :
    ShapesTypeBehind (typeDeclarationNested depth) := by
  induction depth with
  | zero =>
    intro words s _ hw
    have hleaf := leaf_advance (complain .invalidMemberToken s).2
    refine Node.Shaped.error () (List.forall_mem_append.2 ⟨fun n hn => (hw n hn).isSome_token?, ?_⟩)
    exact List.forall_mem_singleton.2 hleaf
  | succ depth ih => exact shaped_typeDeclarationWith ih

theorem shaped_typeDeclaration (hs : typeDeclarationAhead s = true) :
    typeDeclaration.Ensures s fun n _ => n.Shaped nestingBound := by
  simp only [typeDeclaration, ensures_bind, ensures_get]
  apply ((known_modifiers s).and (rest_modifiers s)).mono
  rintro words s₁ ⟨h₁, hrest⟩
  exact shaped_typeDeclarationNested _ words s₁ (atTypeKeyword_of_ahead hs hrest) h₁

theorem shaped_usingDirective (hs : s.kind = .usingKeyword) :
    usingDirective.Ensures s fun n _ => n.Shaped nestingBound := by
  simp only [usingDirective, ensures_bind, ensures_get, ensures_ite, ensures_pure]
  refine (known_token hs (by simp)).mono fun keyword s₁ h₁ => ?_
  refine (known_accept s₁ (by simp)).mono fun static s₂ h₂ => ?_
  have grouped {shortName : List Green} {target semicolon : Green}
      (h : AllShaped nestingBound shortName) (h' : target.Shaped nestingBound)
      (h'' : semicolon.IsKnown) : (Green.group .usingDirective
        (keyword :: static ++ shortName ++ [target, semicolon])).Shaped nestingBound := by
    exact .group (by simp [h₁.shaped, AllShaped.of_known h₂, h, h', h''.shaped]) rfl
  refine ⟨fun hs => ?_, fun _ => ?_⟩
  · apply (known_token_next hs.1 (by simp)).mono
    rintro name s₃ ⟨h₃, hnext⟩
    refine (known_token (hnext.trans hs.2) (by simp)).mono fun equals s₄ h₄ => ?_
    refine (shaped_type succ_maxParseDepth_le s₄).mono fun target s₅ h₅ => ?_
    exact (known_expect s₅ (by simp)).mono fun semicolon s₆ h₆ =>
      grouped (by simp [h₃.shaped, h₄.shaped]) h₅ h₆
  · refine (shaped_type succ_maxParseDepth_le s₂).mono fun target s₃ h₃ => ?_
    exact (known_expect s₃ (by simp)).mono fun semicolon s₄ h₄ => grouped allShaped_nil h₃ h₄

theorem shaped_namespaceMember {nested : Parser Green}
    (h : ∀ s, s.kind = .namespaceKeyword →
      nested.Ensures s fun n _ => n.Shaped nestingBound) (s : ParseState) :
    (namespaceMember nested).Ensures s fun n _ => n.Shaped nestingBound := by
  simp only [namespaceMember, ensures_bind, ensures_get]
  split
  · rename_i hs
    exact shaped_usingDirective hs
  · rename_i hs
    exact h s hs
  · rw [ensures_ite]
    exact ⟨fun hs => shaped_typeDeclaration hs, fun _ => shaped_skip _ s⟩

theorem shaped_namespaceWith {nested : Parser Green}
    (h : ∀ s, s.kind = .namespaceKeyword →
      nested.Ensures s fun n _ => n.Shaped nestingBound) (hs : s.kind = .namespaceKeyword) :
    (namespaceWith nested).Ensures s fun n _ => n.Shaped nestingBound := by
  have items (more : ParseState → Bool) (s : ParseState) :
      (collectWhile more (element .namespaceMemberExpected (namespaceMember nested))).Ensures s
        fun ns _ => AllShaped nestingBound ns :=
    shaped_collectWhile (fun s _ => shaped_element _ (shaped_namespaceMember h s)) s
  simp only [namespaceWith, ensures_bind, ensures_sees, ensures_ite, ensures_pure]
  refine (known_token hs (by simp)).mono fun keyword s₁ h₁ => ?_
  refine (shaped_type succ_maxParseDepth_le s₁).mono fun name s₂ h₂ => ⟨fun hs => ?_, fun _ => ?_⟩
  · refine (known_token (k := .semicolon) (by simpa using hs) (by simp)).mono
      fun semicolon s₃ h₃ => ?_
    refine (items _ s₃).mono fun members s₄ h₄ => ?_
    exact .group (by simp [h₁.shaped, h₂, h₃.shaped, h₄]) rfl
  · refine (known_expect s₂ (by simp)).mono fun opening s₃ h₃ => ?_
    refine (items _ s₃).mono fun members s₄ h₄ => ?_
    refine (known_expect s₄ (by simp)).mono fun closing s₅ h₅ => ?_
    exact .group (by simp [h₁.shaped, h₂, h₃.shaped, h₄, h₅.shaped]) rfl

theorem shaped_namespaceNested (depth : Nat) (hs : s.kind = .namespaceKeyword) :
    (namespaceNested depth).Ensures s fun n _ => n.Shaped nestingBound := by
  induction depth generalizing s with
  | zero => exact shaped_skip _ s
  | succ depth ih => exact shaped_namespaceWith (fun s => ih) hs

theorem shaped_topLevelItem (s : ParseState) :
    topLevelItem.Ensures s fun n _ => n.Shaped nestingBound := by
  simp only [topLevelItem, ensures_bind, ensures_get]
  split
  · rename_i hs
    exact shaped_usingDirective hs
  · rename_i hs
    exact shaped_namespaceNested _ hs
  · simp only [ensures_ite]
    refine ⟨fun hs => shaped_typeDeclaration hs, fun _ => ⟨fun _ => ?_, fun _ => shaped_skip _ s⟩⟩
    exact (shaped_statement _ s).mono fun n _ h => h.mono (Nat.le_succ _)

/-- A file has the shape. -/
theorem shaped_compilationUnit (s : ParseState) :
    compilationUnit.Ensures s fun n _ => n.Shaped nestingBound := by
  simp only [compilationUnit, ensures_bind, ensures_pure]
  have item (s : ParseState) (_ : (s.kind != .endOfFile) = true) :=
    shaped_element .namespaceMemberExpected (shaped_topLevelItem s)
  refine ((makes_fileItems s).and (shaped_collectWhile item s)).mono fun items s₁ h₁ => ?_
  refine (known_token h₁.1.2 (by simp)).mono fun n s₂ h₂ => ?_
  exact .group (by simp [h₁.2, h₂.shaped]) rfl

end Declarations

end Parser

/-! ## What the shape tells about a tree -/

namespace Node

variable {α β : Type} {d : Nat}

/-- The shape does not depend on the tags. -/
theorem shaped_of_map {f : α → β} {n : Node α} (h : (n.map f).Shaped d) : n.Shaped d := by
  induction n using Node.induction generalizing d with
  | token a t =>
    cases h with
    | token _ ht => exact .token a ht
  | branch a k cs ih =>
    rw [map_branch] at h
    cases h with
    | error _ hcs =>
      refine .error a fun c hc => ?_
      have hleaf := hcs _ (List.mem_map_of_mem hc)
      cases c with
      | token => rfl
      | branch => cases hleaf
    | flat _ hk hmarked hcs =>
      refine .flat a hk (fun hop c hc => ?_) fun c hc => ih c hc (hcs _ (List.mem_map_of_mem hc))
      simpa [EndsInToken, lastToken?_map] using hmarked hop _ (List.mem_map_of_mem hc)
    | nest _ hk hcs => exact .nest a hk fun c hc => ih c hc (hcs _ (List.mem_map_of_mem hc))

/-- A node below has the shape, unless it is a token directly in an error node. -/
theorem Shaped.of_mem {m n : Node α} (h : n.Shaped d) (hm : m ∈ n.preorder) :
    m.Shaped d ∨ ∃ e ∈ n.preorder, e.kind = .errorNode ∧ m ∈ e.children ∧
      ∀ c ∈ e.children, c.token?.isSome = true := by
  induction h with
  | token a ht =>
    obtain rfl : m = .token a _ := by simpa using hm
    exact .inl (.token a ht)
  | @error d a cs hcs =>
    rcases mem_preorder_branch.1 hm with rfl | ⟨c, hc, hm⟩
    · exact .inl (.error a hcs)
    · have hleaf := hcs c hc
      cases c with
      | token b t =>
        obtain rfl : m = .token b t := by simpa using hm
        exact .inr ⟨_, self_mem_preorder _, rfl, hc, hcs⟩
      | branch => cases hleaf
  | flat a hk hmarked hcs ih =>
    rcases mem_preorder_branch.1 hm with rfl | ⟨c, hc, hm⟩
    · exact .inl (.flat a hk hmarked hcs)
    · refine (ih c hc hm).imp_right ?_
      rintro ⟨e, he, hrest⟩
      exact ⟨e, mem_preorder_branch.2 (.inr ⟨c, hc, he⟩), hrest⟩
  | nest a hk hcs ih =>
    rcases mem_preorder_branch.1 hm with rfl | ⟨c, hc, hm⟩
    · exact .inl (.nest a hk hcs)
    · refine (ih c hc hm).imp (·.mono (Nat.le_succ _)) ?_
      rintro ⟨e, he, hrest⟩
      exact ⟨e, mem_preorder_branch.2 (.inr ⟨c, hc, he⟩), hrest⟩

/-- A token that the lexer does not know stands in an error node, among other tokens. -/
theorem Shaped.exists_errorNode {m n : Node α} {t : Token} (h : n.Shaped d) (hm : m ∈ n.preorder)
    (ht : m.token? = some t) (hunknown : t.kind = .unknown) :
    ∃ e ∈ n.preorder, e.kind = .errorNode ∧ m ∈ e.children ∧
      ∀ c ∈ e.children, c.token?.isSome = true := by
  refine (h.of_mem hm).resolve_left fun hshaped => ?_
  cases hshaped with
  | token a hknown => exact hknown (Option.some.inj ht ▸ hunknown)
  | _ => cases ht

/-- Both parts of a null operator end with a token. -/
theorem Shaped.endsInToken {m n : Node α} (h : n.Shaped d) (hm : m ∈ n.preorder)
    (hop : Checker.isOperatorKind m.kind = true) : ∀ c ∈ m.children, c.EndsInToken := by
  rcases h.of_mem hm with hshaped | ⟨e, -, -, hme, hleaves⟩
  · cases hshaped with
    | token a ht => simp
    | error a hcs => cases hop
    | flat a hk hmarked hcs => exact hmarked hop
    | nest a hk hcs => exact absurd hop (by simp [Kind.isOperatorKind_of_isNesting hk])
  · have hleaf := hleaves m hme
    cases m with
    | token => simp
    | branch => cases hleaf

theorem isNesting_of_token {a : α} {t : Token} (h : (token a t).WellFormed) :
    t.kind.isNesting = false := by
  have htoken : t.kind.isToken = true := (wellFormed_token.1 h).isToken
  revert htoken
  cases t.kind <;> decide

/-- On a way down through a node no more nesting phrases are met than the node has levels. -/
theorem Shaped.countP_le {n : Placed} {above path : List Placed} (h : n.Shaped d)
    (hwf : n.WellFormed) (hpath : Descends n above path) :
    path.countP (fun m => m.kind.isNesting) ≤ above.countP (fun m => m.kind.isNesting) + d := by
  induction hpath generalizing d with
  | here n above =>
    cases h with
    | token a ht => simp [isNesting_of_token hwf]
    | error a hcs => simp [Kind.isNesting_errorNode]
    | flat a hk _ _ => simp [hk]
    | nest a hk _ =>
      simp only [List.countP_cons, kind_branch, hk, if_true]
      omega
  | @down n c above path child rest ih =>
    have hc := hwf.of_mem (mem_preorder_of_mem_children child)
    cases h with
    | token a ht => cases child
    | error a hcs =>
      -- The child is a leaf, so the way ends there.
      have hleaf := hcs c child
      cases c with
      | branch => cases hleaf
      | token b t =>
        cases rest with
        | here =>
          simp [isNesting_of_token hc, Kind.isNesting_errorNode]
        | down child => cases child
    | flat a hk _ hcs =>
      have hbelow := ih (hcs c child) hc
      simpa [List.countP_cons, hk] using hbelow
    | nest a hk hcs =>
      have hbelow := ih (hcs c child) hc
      simp only [List.countP_cons, kind_branch, hk, if_true] at hbelow
      omega

end Node

/-- The tree of every source text has the shape. -/
theorem shaped_parse (file text : String) :
    ∃ root, (parse file text).tree.placed = some root ∧ root.Numbered ∧ root.WellFormed ∧
      root.Shaped Parser.nestingBound := by
  refine ⟨(Parser.compilationUnit (.ofText text)).1.placed, rfl, Node.numbered_placed _, ?_, ?_⟩
  · exact (Node.wellFormed_placed _).2 (Tree.wellFormed_compilationUnit text)
  · apply Node.shaped_of_map (f := fun _ => ())
    have herased : (Parser.compilationUnit (.ofText text)).1.placed.map (fun _ => ()) =
      (Parser.compilationUnit (.ofText text)).1 := Node.erase_placed _
    rw [herased]
    exact Parser.shaped_compilationUnit (.ofText text)

end NullLint
