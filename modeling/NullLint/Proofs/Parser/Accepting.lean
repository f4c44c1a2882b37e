import NullLint.Proofs.Parser.Ensures

/-!
# Tokens that a parser accepts

A parser gives a value for some tokens if it reads just these, whatever the state before them, and
reports nothing (`Gives`). What is behind them counts as far as the parser looks ahead. The rules
put together what a sequence of parsers and a loop give from what their parts do, and say what each
postfix operator makes of the operand before it.
-/

namespace NullLint

/-- Kind of the first token; past the last one, the end of the file. -/
def kindOf : List Token → Kind
  | t :: _ => t.kind
  | [] => .endOfFile

@[simp] theorem kindOf_cons (t : Token) (ts : List Token) : kindOf (t :: ts) = t.kind := rfl

/-- The trivia in front of the first token. -/
def leadingOf : List Token → List Trivia
  | t :: _ => t.leading
  | [] => []

@[simp] theorem leadingOf_cons (t : Token) (ts : List Token) :
    leadingOf (t :: ts) = t.leading := rfl

theorem kindOf_append_of_ne_nil {ts us : List Token} (h : ts ≠ []) :
    kindOf (ts ++ us) = kindOf ts := by
  cases ts with
  | nil => exact absurd rfl h
  | cons t ts => rfl

namespace ParseState

/-- The tokens still to be read. -/
def tokens (s : ParseState) : List Token := s.rest.map Lexeme.token

theorem length_tokens (s : ParseState) : s.tokens.length = s.rest.length := by
  simp [tokens]

theorem kind_eq (s : ParseState) : s.kind = kindOf s.tokens := by
  unfold kind tokens
  cases s.rest <;> rfl

end ParseState

namespace Parser

open Lookahead

variable {α β : Type}

/-- Before `rest` the parser reads the tokens `ts`, reports nothing and gives `a`. -/
def Gives (p : Parser α) (ts : List Token) (a : α) (rest : List Token) : Prop :=
  ∀ s : ParseState, s.tokens = ts ++ rest →
    p.Ensures s fun b s' => b = a ∧ s'.tokens = rest ∧ s'.errors = s.errors

variable {p : Parser α} {ts us rest : List Token} {a : α}

theorem gives_pure (a : α) (rest : List Token) : Gives (pure a) [] a rest := by
  intro s hs
  exact ⟨rfl, hs, rfl⟩

theorem Gives.bind {f : α → Parser β} {b : β} (h : Gives p ts a (us ++ rest))
    (h' : Gives (f a) us b rest) : Gives (p >>= f) (ts ++ us) b rest := by
  intro s hs
  rw [ensures_bind]
  apply (h s (by rw [hs, List.append_assoc])).mono
  rintro _ s₁ ⟨rfl, ht, he⟩
  apply (h' s₁ ht).mono
  rintro _ s₂ ⟨rfl, ht', he'⟩
  exact ⟨rfl, ht', he'.trans he⟩

theorem Gives.bind_nil {f : α → Parser β} {b : β} (h : Gives p ts a rest)
    (h' : Gives (f a) [] b rest) : Gives (p >>= f) ts b rest := by
  have hbind : Gives (p >>= f) (ts ++ []) b rest := Gives.bind h h'
  rwa [List.append_nil] at hbind

theorem Gives.map {f : α → β} (h : Gives p ts a rest) :
    Gives (p >>= fun a => pure (f a)) ts (f a) rest :=
  h.bind_nil (gives_pure (f a) rest)

/-- Looking at the state reads nothing; what is seen there are the tokens. -/
theorem gives_get {f : ParseState → Parser α}
    (h : ∀ s, s.tokens = ts ++ rest → s.kind = kindOf (ts ++ rest) → Gives (f s) ts a rest) :
    Gives (get >>= f) ts a rest := by
  intro s hs
  exact h s hs (by rw [s.kind_eq, hs]) s hs

theorem gives_sees {k : Kind} {f : Bool → Parser α}
    (h : Gives (f (kindOf (ts ++ rest) == k)) ts a rest) : Gives (sees k >>= f) ts a rest := by
  intro s hs
  have := h s hs
  rwa [← hs, ← s.kind_eq] at this

theorem gives_advance (t : Token) (rest : List Token) : Gives advance [t] (.leaf t) rest := by
  intro s hs
  cases hrest : s.rest with
  | nil => simp [ParseState.tokens, hrest] at hs
  | cons l ls =>
    simp only [ParseState.tokens, hrest, List.map_cons, List.singleton_append,
      List.cons.injEq] at hs
    simp [Ensures, advance, hrest, ParseState.tokens, hs]

theorem gives_expect {k : Kind} {t : Token} (h : t.kind = k) (rest : List Token) :
    Gives (expect k) [t] (.leaf t) rest := by
  intro s hs
  have hk : s.kind = k := by rw [s.kind_eq, hs, ← h]; rfl
  have hadvance := gives_advance t rest s hs
  simpa only [Ensures, expect, hk, if_true] using hadvance

theorem gives_advance_bind {f : Green → Parser α} {t : Token} (h : Gives (f (.leaf t)) ts a rest) :
    Gives (advance >>= f) (t :: ts) a rest :=
  (gives_advance t _).bind h

theorem gives_expect_bind {k : Kind} {f : Green → Parser α} {t : Token} (hk : t.kind = k)
    (h : Gives (f (.leaf t)) ts a rest) : Gives (expect k >>= f) (t :: ts) a rest :=
  (gives_expect hk _).bind h

/-! ## Loops -/

/-- Reading tokens makes the input shorter. -/
theorem length_lt_of_tokens {s s' : ParseState} (hts : ts ≠ []) (hs : s.tokens = ts ++ us)
    (hs' : s'.tokens = us) : s'.rest.length < s.rest.length := by
  have hpos : 0 < ts.length := List.length_pos_iff.2 hts
  rw [← s.length_tokens, ← s'.length_tokens, hs, hs', List.length_append]
  omega

section Refine

variable {step : α → Parser (Option α)}

theorem gives_refine_stop (h : Gives (step a) [] none rest) :
    Gives (refine step a) [] a rest := by
  intro s hs
  obtain ⟨hr, ht, he⟩ := h s hs
  unfold Ensures
  rw [refine.eq_def]
  cases hstep : step a s with
  | mk r s' =>
    rw [hstep] at hr ht he
    subst hr
    exact ⟨rfl, ht, he⟩

theorem gives_refine_step {b c : α} (h : Gives (step a) ts (some b) (us ++ rest)) (hts : ts ≠ [])
    (h' : Gives (refine step b) us c rest) : Gives (refine step a) (ts ++ us) c rest := by
  intro s hs
  rw [List.append_assoc] at hs
  obtain ⟨hr, ht, he⟩ := h s hs
  unfold Ensures
  rw [refine.eq_def]
  cases hstep : step a s with
  | mk r s' =>
    rw [hstep] at hr ht he
    subst hr
    obtain ⟨hr', ht', he'⟩ := h' s' ht
    simp only [dif_pos (length_lt_of_tokens hts hs ht)]
    exact ⟨hr', ht', he'.trans he⟩

end Refine

section Collect

variable {item : Parser (List Green × Bool)} {ns ms : List Green}

theorem gives_collect_stop (h : item.Gives ts (ns, false) rest) :
    Gives (collect item) ts ns rest := by
  intro s hs
  obtain ⟨hr, hrest, herrors⟩ := h s hs
  unfold Ensures
  rw [collect.eq_def]
  cases hitem : item s with
  | mk r s' =>
    rw [hitem] at hr hrest herrors
    subst hr
    simpa using ⟨hrest, herrors⟩

theorem gives_collect_step (h : item.Gives ts (ns, true) (us ++ rest)) (hts : ts ≠ [])
    (h' : Gives (collect item) us ms rest) :
    Gives (collect item) (ts ++ us) (ns ++ ms) rest := by
  intro s hs
  rw [List.append_assoc] at hs
  obtain ⟨hr, hrest, herrors⟩ := h s hs
  unfold Ensures
  rw [collect.eq_def]
  cases hitem : item s with
  | mk r s' =>
    rw [hitem] at hr hrest herrors
    subst hr
    obtain ⟨hr', hrest', herrors'⟩ := h' s' hrest
    simp only [true_and, dif_pos (length_lt_of_tokens hts hs hrest)]
    exact ⟨congrArg (ns ++ ·) hr', hrest', herrors'.trans herrors⟩

end Collect

section CollectWhile

variable {q : Kind → Bool} {item : Parser (List Green)} {ns ms : List Green}

theorem gives_collectWhile_stop (h : q (kindOf rest) = false) :
    Gives (collectWhile (fun s => q s.kind) item) [] [] rest := by
  refine gives_collect_stop fun s hs => ?_
  have hq : q s.kind = false := by rw [s.kind_eq, hs]; exact h
  simpa [Ensures, hq] using hs

theorem gives_collectWhile_step (h : Gives item ts ns (us ++ rest)) (hts : ts ≠ [])
    (hq : q (kindOf ts) = true)
    (h' : Gives (collectWhile (fun s => q s.kind) item) us ms rest) :
    Gives (collectWhile (fun s => q s.kind) item) (ts ++ us) (ns ++ ms) rest := by
  refine gives_collect_step (fun s hs => ?_) hts h'
  have hk : q s.kind = true := by rwa [s.kind_eq, hs, kindOf_append_of_ne_nil hts]
  obtain ⟨hr, ht, he⟩ := h s hs
  simp only [Ensures, hk, if_true]
  exact ⟨congrArg (·, true) hr, ht, he⟩

end CollectWhile

/-- An item that reads tokens is an element of its own. -/
theorem gives_element {item : Parser Green} {ts rest : List Token} {n : Green} (code : ErrorCode)
    (h : item.Gives ts n rest) (hts : ts ≠ []) : (element code item).Gives ts [n] rest := by
  intro s hs
  simp only [element, ensures_bind, ensures_get]
  apply (h s hs).mono
  rintro _ s' ⟨rfl, ht, he⟩
  have hlt := length_lt_of_tokens hts hs ht
  rw [if_neg fun hsame => Nat.ne_of_lt hlt hsame.1]
  exact ⟨rfl, ht, he⟩

/-! ## Simple types -/

/-- A name is a simple type where no `<` is behind it. -/
theorem gives_simpleType_name (argument : Option (Parser Green)) {t : Token}
    (ht : t.kind = .identifier) {rest : List Token} (hrest : kindOf rest ≠ .lessThan) :
    (simpleType argument).Gives [t] (.group .predefinedOrNamedType [.leaf t]) rest := by
  unfold simpleType
  apply gives_sees
  simp only [List.cons_append, kindOf_cons, ht, reduceCtorEq, beq_iff_eq, if_false]
  apply gives_expect_bind ht
  cases argument with
  | none => exact gives_pure _ rest
  | some p =>
    apply gives_get
    intro u _ hk
    have hahead : typeArgumentsAhead u = false := by simp [typeArgumentsAhead, hk, hrest]
    simpa [hahead] using gives_pure _ rest

/-! ## Postfix operators -/

section Extend

variable {nested : Parser Green}

theorem conditionalAccessAhead_of_tokens {s : ParseState} {t u : Token} {ts : List Token}
    (h : s.tokens = t :: u :: ts) :
    conditionalAccessAhead s = (t.kind == .question && (u.kind == .dot || u.kind == .openBracket) &&
      t.trailing.isEmpty && u.leading.isEmpty) := by
  simp only [ParseState.tokens, List.map_eq_cons_iff] at h
  obtain ⟨l, _, hrest, rfl, m, _, rfl, rfl, -⟩ := h
  rw [conditionalAccessAhead, hrest]
  rfl

theorem gives_extend_member (m : Green) {t : Token} (ht : t.kind = .dot) {ts rest : List Token}
    {name : Green} (hname : identifierName.Gives ts name rest) : (extend nested m).Gives (t :: ts)
      (some (.group .memberAccessExpression [m, .leaf t, name])) rest := by
  unfold extend
  apply gives_get
  intro u _ hk
  rw [hk, List.cons_append, kindOf_cons, ht]
  exact gives_advance_bind hname.map

theorem gives_extend_call (m : Green) {ts rest : List Token} {list : Green}
    (hk : kindOf (ts ++ rest) = .openParen)
    (hlist : (parenthesizedArguments nested).Gives ts list rest) :
    (extend nested m).Gives ts (some (.group .invocationExpression [m, list])) rest := by
  unfold extend
  apply gives_get
  intro u _ hu
  rw [hu, hk]
  exact hlist.map

theorem gives_extend_element (m : Green) {ts rest : List Token} {list : Green}
    (hk : kindOf (ts ++ rest) = .openBracket)
    (hlist : (bracketedArguments nested).Gives ts list rest) :
    (extend nested m).Gives ts (some (.group .elementAccessExpression [m, list])) rest := by
  unfold extend
  apply gives_get
  intro u _ hu
  rw [hu, hk]
  exact hlist.map

theorem gives_extend_step (m : Green) {t : Token} (ht : t.kind = .plusPlus ∨ t.kind = .minusMinus)
    (rest : List Token) :
    (extend nested m).Gives [t] (some (.group .postfixUnaryExpression [m, .leaf t])) rest := by
  unfold extend
  apply gives_get
  intro u _ hu
  rw [hu, List.cons_append, kindOf_cons]
  rcases ht with ht | ht <;> rw [ht] <;> exact (gives_advance t rest).map

theorem gives_extend_assertion (m : Green) {t : Token} (ht : t.kind = .exclamation)
    (rest : List Token) : (extend nested m).Gives [t]
      (some (.group .suppressNullableWarningExpression [m, .leaf t])) rest := by
  unfold extend
  apply gives_get
  intro u _ hu
  rw [hu, List.cons_append, kindOf_cons, ht]
  exact (gives_advance t rest).map

/-- A `?` guards the access right behind it. -/
theorem gives_extend_conditional (m : Green) {t : Token} (ht : t.kind = .question)
    (htrailing : t.trailing = []) {rest : List Token}
    (hk : kindOf rest = .dot ∨ kindOf rest = .openBracket)
    (hleading : leadingOf rest = []) : (extend nested m).Gives [t]
      (some (.group .conditionalAccessExpression [m, .leaf t])) rest := by
  cases rest with
  | nil => simp [kindOf] at hk
  | cons v rest =>
    unfold extend
    apply gives_get
    intro u hu huk
    have hahead : conditionalAccessAhead u = true := by
      rw [conditionalAccessAhead_of_tokens hu]
      simp_all
    rw [huk, List.cons_append, kindOf_cons, ht, hahead]
    exact (gives_advance t _).map

end Extend

end Parser

end NullLint
