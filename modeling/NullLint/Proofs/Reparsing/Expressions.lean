import NullLint.Proofs.Reparsing.Types

/-!
# Expressions are read again

A null operator that is left is read again, and one that is lost leaves its operand, behind which
the next operators are read as they were. What is read for a `?` depends on what is behind it: the
access it guards has to follow at once, and does so as long as the `?` is there (`rereads_guard`).
-/

namespace NullLint.Parser

open Lookahead

variable {s : ParseState} {nested : Parser Green}

theorem rereads_identifierName (s : ParseState) : RereadsAlone identifierName s := by
  simp only [RereadsAlone, identifierName, ensures_bind, ensures_pure]
  refine (rereads_expect .identifier s (by simp)).mono fun name s₁ h₁ fit => ?_
  refine (h₁ fit).given rfl fun ns rest _ _ hns => ?_
  obtain ⟨t, rfl, ht⟩ := hns
  exact ⟨by simp, fun _ => (gives_expect ht rest).map⟩

/-- A branch over one token is read again as such. -/
theorem rereads_marked {k : Kind} {p : Parser Green} (hs : s.kind ≠ .endOfFile)
    (hk : k.isSteady = true)
    (hp : ∀ (t : Token) (rest : List Token), t.kind = s.kind →
      p.Gives [t] (.group k [.leaf t]) rest) :
    Ensures (do return .group k [← advance]) s fun n s' =>
      ∀ fit, Rereads fit s [n] s' (IsGiven (fun _ => True) p) := by
  simp only [ensures_bind, ensures_pure]
  refine (rereads_advance hs).mono fun n s₁ h₁ fit => ?_
  refine (h₁ fit).given hk fun ns rest _ _ hns => ?_
  obtain ⟨t, rfl, ht⟩ := hns
  exact ⟨by simp, fun _ => by simpa using hp t rest ht⟩

section Primary

variable (h : ∀ s, RereadsBefore (· ≠ .question) nested s)
include h

theorem rereads_argumentList {opening closing kind : Kind} (s : ParseState)
    (hopening : opening ≠ .endOfFile) (hclosing : closing ≠ .endOfFile ∧ closing ≠ .question)
    (hkind : kind.isSteady = true) : RereadsAlone (argumentList nested opening closing kind) s := by
  refine .of_eq (argumentList.eq_1 nested opening closing kind) ?_
  simp only [ensures_bind, ensures_sees, ensures_ite, ensures_pure]
  refine (rereads_expect opening s hopening).mono fun first s₁ h₁ => ⟨fun hs => ?_, fun hs => ?_⟩
  · refine (rereads_expect closing s₁ hclosing.1).mono fun last s₂ h₂ fit => ?_
    refine ((h₁ _).append (h₂ fit)).given hkind fun ns rest _ _ hns => ?_
    obtain ⟨_, _, rfl, ⟨t, rfl, ht⟩, -, u, rfl, hu⟩ := hns
    have hgives : (argumentList nested opening closing kind).Gives [t, u]
        (.group kind [.leaf t, .leaf u]) rest := by
      unfold argumentList
      apply gives_expect_bind ht
      apply gives_sees
      rw [if_pos (by simp [hu])]
      exact Gives.bind (gives_pure [] _) (gives_expect hu rest).map
    exact ⟨by simp, fun _ => by simpa using hgives⟩
  · have harguments := rereads_commaSeparated (fun s => rereads_single (h s)) (by simp) s₁
    refine Ensures.mono harguments fun arguments s₂ h₂ => ?_
    refine (rereads_expect closing s₂ hclosing.1).mono fun last s₃ h₃ fit => ?_
    refine ((h₁ _).append (h₂.append (h₃ fit))).given hkind fun ns rest _ _ hns => ?_
    obtain ⟨_, _, rfl, ⟨t, rfl, ht⟩, hmeets, ms, _, rfl, ⟨-, hms⟩, -, u, rfl, hu⟩ := hns
    have hgives : (argumentList nested opening closing kind).Gives
        (t :: (ms.flatMap Node.tokens ++ [u]))
        (.group kind (Green.leaf t :: ms ++ [Green.leaf u])) rest := by
      unfold argumentList
      apply gives_expect_bind ht
      apply gives_sees
      have hk : kindOf (ms.flatMap Node.tokens ++ [u] ++ rest) = s₁.kind := by
        simpa using hmeets.kind
      rw [hk, if_neg hs]
      exact Gives.bind (hms (by simp [hu, hclosing.2])) (gives_expect hu rest).map
    exact ⟨by simp, fun _ => by simpa using hgives⟩

theorem rereads_parenthesizedArguments (s : ParseState) :
    RereadsAlone (parenthesizedArguments nested) s :=
  rereads_argumentList h s (by simp) (by simp) rfl

theorem rereads_bracketedArguments (s : ParseState) :
    RereadsAlone (bracketedArguments nested) s :=
  rereads_argumentList h s (by simp) (by simp) rfl

theorem rereads_parenthesized (hs : s.kind = .openParen) :
    RereadsAlone (parenthesized nested) s := by
  refine .of_eq (parenthesized.eq_1 nested) ?_
  simp only [ensures_bind, ensures_pure]
  refine (rereads_token hs (by simp)).mono fun opening s₁ h₁ => ?_
  refine Ensures.mono (h s₁) fun e s₂ h₂ => ?_
  refine (rereads_expect .closeParen s₂ (by simp)).mono fun closing s₃ h₃ fit => ?_
  refine ((h₁ _).append (h₂.append (h₃ fit))).given rfl fun ns rest _ _ hns => ?_
  obtain ⟨_, _, rfl, ⟨t, rfl, ht⟩, -, _, _, rfl, ⟨e, rfl, -, he⟩, -, u, rfl, hu⟩ := hns
  have hgives : (parenthesized nested).Gives (t :: (e.tokens ++ [u]))
      (.group .parenthesizedExpression [.leaf t, e, .leaf u]) rest :=
    gives_advance_bind (Gives.bind (he (by simp [hu])) (gives_expect hu rest).map)
  exact ⟨by simp, fun _ => by simpa using hgives⟩

theorem rereads_objectCreation (hs : s.kind = .newKeyword) :
    RereadsAlone (objectCreation nested) s := by
  refine .of_eq (objectCreation.eq_1 nested) ?_
  simp only [ensures_bind, ensures_sees, ensures_ite, ensures_pure]
  refine (rereads_token hs (by simp)).mono fun keyword s₁ h₁ => ?_
  refine (rereads_type s₁).mono fun created s₂ h₂ => ⟨fun hopen => ?_, fun hopen => ?_⟩
  · refine Ensures.mono (rereads_parenthesizedArguments h s₂) fun list s₃ h₃ fit => ?_
    refine ((h₁ _).append (h₂.append (h₃ fit))).given rfl fun ns rest _ _ hns => ?_
    obtain ⟨_, _, rfl, ⟨t, rfl, ht⟩, -, _, _, rfl, ⟨c, rfl, -, -, hc⟩, hmeets, a, rfl, -, ha⟩ := hns
    have hk : kindOf (a.tokens ++ rest) = .openParen := by
      rw [← beq_iff_eq.1 hopen]
      simpa using hmeets.kind
    have hgives : (objectCreation nested).Gives (t :: (c.tokens ++ a.tokens))
        (.group .objectCreationExpression [.leaf t, c, a]) rest := by
      unfold objectCreation
      apply gives_advance_bind
      refine Gives.bind (by simpa using hc (by simp [hk, endsType])) ?_
      apply gives_sees
      rw [hk]
      exact (ha trivial).map
    exact ⟨by simp, fun _ => by simpa using hgives⟩
  · have hnot := (makes_expect_of_ne (L := 0) (by simpa using hopen) rfl :
      (expect .openParen).Ensures s₂ _)
    exact hnot.mono fun _ _ h₃ _ => .of_not_quiet fun hq => h₃.2 hq

omit h in
/-- The kind of the first token tells which primary expression is read. -/
theorem gives_primary {k : Kind} {ts rest : List Token} {n : Green} (hk : kindOf (ts ++ rest) = k)
    (hn : Gives (match k with
      | .identifier => identifierName
      | .thisKeyword => do return .group .thisExpression [← advance]
      | .openParen => parenthesized nested
      | .newKeyword => objectCreation nested
      | .varKeyword => skip .invalidExpressionTerm
      | k =>
        if k.isLiteral then do return .group .literalExpression [← advance]
        else absentExpression) ts n rest) : (primary nested).Gives ts n rest := by
  unfold primary
  apply gives_get
  intro u _ hu
  rw [hu, hk]
  exact hn

theorem rereads_primary (s : ParseState) : RereadsAlone (primary nested) s := by
  refine .of_eq (primary.eq_1 nested) ?_
  simp only [ensures_bind, ensures_get]
  split
  · rename_i hs
    exact Ensures.mono (rereads_identifierName s) fun _ _ hn fit =>
      (hn fit).given_of fun _ _ hk => gives_primary (hk.trans hs)
  · rename_i hs
    exact rereads_marked (by simp [hs]) rfl fun t rest ht =>
      gives_primary (ht.trans hs) (gives_advance t rest).map
  · rename_i hs
    exact Ensures.mono (rereads_parenthesized h hs) fun _ _ hn fit =>
      (hn fit).given_of fun _ _ hk => gives_primary (hk.trans hs)
  · rename_i hs
    exact Ensures.mono (rereads_objectCreation h hs) fun _ _ hn fit =>
      (hn fit).given_of fun _ _ hk => gives_primary (hk.trans hs)
  · rename_i hs
    exact (not_quiet_skip (by simp) (by simp [hs])).mono fun _ _ hnot _ => .of_not_quiet hnot
  · rw [ensures_ite]
    constructor
    · intro hliteral
      have hend : s.kind ≠ .endOfFile := by
        intro hk
        simp [hk, Kind.isLiteral] at hliteral
      refine rereads_marked hend rfl fun t rest ht => gives_primary ht ?_
      split
      all_goals first | contradiction | skip
      rw [if_pos hliteral]
      exact (gives_advance t rest).map
    · intro _ _
      exact .of_not_quiet (s.not_quiet_report _)

end Primary

/-! ## Postfix operators -/

/-- What is behind a conditional access begins as what was behind it. -/
def Guarded (e : Green) (s : ParseState) (rest : List Token) : Prop :=
  e.kind = .conditionalAccessExpression → s.Meets rest

/-- What the postfix operators behind the node make of it is read with it. -/
def ReadsOn (nested : Parser Green) (ns : List Green) (rest : List Token) : Prop :=
  ∃ n : Green, ns = [n] ∧ n.tokens ≠ [] ∧ ∀ ts m rest', rest = ts ++ rest' →
    Gives (refine (extend nested) n) ts m rest' → (postfixed nested).Gives (n.tokens ++ ts) m rest'

/-- Before `s₁` stands an expression read from `s` on that may be extended. -/
def RereadsOn (nested : Parser Green) (s : ParseState) (e : Green) (s₁ : ParseState) : Prop :=
  Rereads (Guarded e s₁) s [e] s₁ (ReadsOn nested)

section Postfixed

variable {e : Green} {s₁ : ParseState}

/-- An expression that stands alone may be followed by anything. -/
theorem RereadsOn.alone (h : RereadsOn nested s e s₁) (he : Makes Grammar.operand s [e] s₁)
    (fit : List Token → Prop) : Rereads fit s [e] s₁ (ReadsOn nested) := by
  refine .of_quiet fun hq => h.restrict fun rest _ hk => ?_
  have halone := Grammar.singleton_mem_oneOf.1 (he.2 hq)
  rw [hk] at halone
  cases halone

/-- What extends an expression is read before the operators that extend the result. -/
theorem ReadsOn.extended {k : Kind} {ns ms : List Green} {rest : List Token}
    (h : ReadsOn nested ns (ms.flatMap Node.tokens ++ rest)) (hne : ms.flatMap Node.tokens ≠ [])
    (hextend : ∀ m : Green, (extend nested m).Gives (ms.flatMap Node.tokens)
      (some (.group k (m :: ms))) rest) : ReadsOn nested [.group k (ns ++ ms)] rest := by
  obtain ⟨m, rfl, -, hm⟩ := h
  refine ⟨_, rfl, by simp [hne], fun ts n rest' hrest hgives => ?_⟩
  subst hrest
  have hall := hm _ n rest' (List.append_assoc _ _ _).symm
    (gives_refine_step (hextend m) hne hgives)
  simpa using hall

/-- What a round does behind `e`: nothing where no operator stands, or it extends `e`. -/
def RereadsRound (nested : Parser Green) (s s₁ : ParseState) (r : Option Green) (s₂ : ParseState) :
    Prop :=
  match r with
  | none => s₂ = s₁ ∧ ∀ m rest, kindOf rest = s₁.kind → kindOf rest ≠ .question →
      (extend nested m).Gives [] none rest
  | some b => RereadsOn nested s b s₂ ∧ (s₂.Quiet → s₂.rest.length < s₁.rest.length)

/-- An expression is extended to a branch by what was read behind it. -/
theorem RereadsOn.step (h : RereadsOn nested s e s₁) {k : Kind} (hk : k.isSteady = true)
    {parts : List Green} {s₂ : ParseState} {post : List Green → List Token → Prop}
    (hparts : ∀ fit, Rereads fit s₁ parts s₂ post)
    (hextend : ∀ m ms rest, s₁.Meets (ms.flatMap Node.tokens ++ rest) → post ms rest →
      ms.flatMap Node.tokens ≠ [] ∧ (extend nested m).Gives (ms.flatMap Node.tokens)
        (some (.group k (m :: ms))) rest) :
    RereadsRound nested s s₁ (some (.group k (e :: parts))) s₂ := by
  have hne (ms : List Green) (rest : List Token)
      (hmeets : s₁.Meets (ms.flatMap Node.tokens ++ rest)) (hms : post ms rest) :=
    (hextend e ms rest hmeets hms).1
  refine ⟨?_, (hparts _).length_lt hne⟩
  have hall := (h.restrict fun _ hmeets _ => hmeets).append
    (hparts (Guarded (.group k (e :: parts)) s₂))
  refine (hall.branch k hk).mono fun _ rest _ _ hns => ?_
  obtain ⟨_, rfl, ns, ms, rfl, hns, hmeets, hms⟩ := hns
  exact hns.extended (hne ms rest hmeets hms) fun m => (hextend m ms rest hmeets hms).2

/-- The mark of a null operator is read again, or the operator has given way to its operand, behind
which anything may stand. -/
theorem RereadsOn.mark (h : RereadsOn nested s e s₁) (he : Makes Grammar.operand s [e] s₁)
    {k j : Kind} (hk : Checker.isOperatorKind k = true) {mark : Green} {s₂ : ParseState}
    {p : Token → Prop}
    (hmark : ∀ fit, Rereads fit s₁ [mark] s₂ fun ms _ => ∃ t, ms = [.leaf t] ∧ t.kind = j ∧ p t)
    (hextend : ∀ m t rest, t.kind = j → p t → Guarded (.group k [e, mark]) s₂ rest →
      (extend nested m).Gives [t] (some (.group k [m, .leaf t])) rest) :
    RereadsRound nested s s₁ (some (.group k [e, mark])) s₂ := by
  refine ⟨?_, (hmark _).length_lt fun ms _ _ hms => ?_⟩
  · refine (Rereads.operator hk (h.alone he) (hmark _)).mono fun _ rest hrest _ hns => ?_
    rcases hns with ⟨_, rfl, ns, ms, rfl, hns, -, t, rfl, ht, hpost⟩ | hns
    · exact hns.extended (by simp) fun m => hextend m t rest ht hpost hrest
    · exact hns
  · obtain ⟨t, rfl, -⟩ := hms
    simp

/-! ### Rounds -/

/-- The `?` of a conditional access is kept right before the access that it guards. -/
theorem rereads_guard (hahead : conditionalAccessAhead s = true) :
    advance.Ensures s fun n s' => (s'.kind = .dot ∨ s'.kind = .openBracket) ∧
      leadingOf s'.tokens = [] ∧ ∀ fit, Rereads fit s [n] s' fun ms _ =>
        ∃ t : Token, ms = [.leaf t] ∧ t.kind = .question ∧ t.trailing = [] := by
  obtain ⟨t, u, ts, hs⟩ : ∃ t u ts, s.tokens = t :: u :: ts := by
    unfold conditionalAccessAhead at hahead
    split at hahead
    · rename_i l m ls hrest
      exact ⟨l.token, m.token, ls.map Lexeme.token, by simp [ParseState.tokens, hrest]⟩
    · cases hahead
  simp only [conditionalAccessAhead_of_tokens hs, Bool.and_eq_true, Bool.or_eq_true, beq_iff_eq,
    List.isEmpty_iff] at hahead
  obtain ⟨⟨⟨ht, hu⟩, htrailing⟩, hleading⟩ := hahead
  have hk : s.kind = .question := by rw [s.kind_eq, hs, kindOf_cons, ht]
  apply ((rereads_token hk (by simp)).and (gives_advance t _ s hs)).mono
  rintro _ s₁ ⟨h₁, rfl, hs₁, -⟩
  refine ⟨by simpa [s₁.kind_eq, hs₁] using hu, by simpa [hs₁] using hleading, fun fit => ?_⟩
  refine (h₁ fit).loses.mono fun ms _ _ _ hms => ?_
  obtain ⟨n, _, hn, hnil, rfl⟩ := List.forall₂_cons_left_iff.1 hms.1
  obtain rfl := List.forall₂_nil_left_iff.1 hnil
  obtain ⟨v, rfl, hv⟩ := hn.exists_token
  exact ⟨v, rfl, hv.kind.trans ht, (hv.trailing ht).trans htrailing⟩

/-- A step behind an operand is read again. -/
theorem RereadsOn.increment (h : RereadsOn nested s e s₁)
    (hs : s₁.kind = .plusPlus ∨ s₁.kind = .minusMinus) :
    Ensures (do return some (.group .postfixUnaryExpression [e, ← advance])) s₁
      (RereadsRound nested s s₁) := by
  have hend : s₁.kind ≠ .endOfFile := by rcases hs with hs | hs <;> simp [hs]
  simp only [ensures_bind, ensures_pure]
  refine (rereads_advance hend).mono fun mark s₂ h₂ => ?_
  refine h.step rfl h₂ fun m _ rest _ hms => ?_
  obtain ⟨t, rfl, ht⟩ := hms
  exact ⟨by simp, by simpa using gives_extend_step m (ht ▸ hs) rest⟩

variable (h : ∀ s, RereadsBefore (· ≠ .question) nested s)
include h

theorem rereads_extend (he : RereadsOn nested s e s₁) (hext : Extensible s e s₁) :
    (extend nested e).Ensures s₁ (RereadsRound nested s s₁) := by
  refine .of_eq (extend.eq_1 nested e) ?_
  simp only [ensures_bind, ensures_get]
  split
  · rename_i hs
    simp only [ensures_bind, ensures_pure]
    refine (rereads_token hs (by simp)).mono fun dot s₂ h₂ => ?_
    refine Ensures.mono (rereads_identifierName s₂) fun name s₃ h₃ => ?_
    refine he.step rfl (fun fit => (h₂ _).append (h₃ fit)) fun m _ rest _ hms => ?_
    obtain ⟨_, _, rfl, ⟨t, rfl, ht⟩, -, name, rfl, -, hname⟩ := hms
    exact ⟨by simp, by simpa using gives_extend_member m ht (hname trivial)⟩
  · rename_i hs
    have halone := hext.operand (by simp [hs]) (by simp [hs])
    rw [ensures_ite]
    constructor
    · intro hahead
      simp only [ensures_bind, ensures_pure]
      refine (rereads_guard hahead).mono fun mark s₂ hguard => ?_
      obtain ⟨hguarded, hleading, h₂⟩ := hguard
      refine he.mark halone rfl h₂ fun m t rest ht htrailing hrest => ?_
      have hmeets : s₂.Meets rest := hrest rfl
      exact gives_extend_conditional m ht htrailing (by rwa [hmeets.kind])
        (hmeets.leading.trans hleading)
    · intro hnot
      exact ⟨rfl, fun m rest hk hquestion => absurd (hk.trans hs) hquestion⟩
  · rename_i hs
    simp only [ensures_bind, ensures_pure]
    refine Ensures.mono (rereads_parenthesizedArguments h s₁) fun list s₂ h₂ => ?_
    refine he.step rfl h₂ fun m ms rest hmeets hms => ?_
    obtain ⟨list, rfl, hne, hlist⟩ := hms
    have hk := hmeets.kind.trans hs
    simp only [List.flatMap_cons, List.flatMap_nil, List.append_nil] at hk ⊢
    exact ⟨hne, gives_extend_call m hk (hlist trivial)⟩
  · rename_i hs
    simp only [ensures_bind, ensures_pure]
    refine Ensures.mono (rereads_bracketedArguments h s₁) fun list s₂ h₂ => ?_
    refine he.step rfl h₂ fun m ms rest hmeets hms => ?_
    obtain ⟨list, rfl, hne, hlist⟩ := hms
    have hk := hmeets.kind.trans hs
    simp only [List.flatMap_cons, List.flatMap_nil, List.append_nil] at hk ⊢
    exact ⟨hne, gives_extend_element m hk (hlist trivial)⟩
  · rename_i hs
    have halone := hext.operand (by simp [hs]) (by simp [hs])
    simp only [ensures_bind, ensures_pure]
    refine (rereads_token hs (by simp)).mono fun mark s₂ h₂ => ?_
    refine he.mark (p := fun _ => True) halone rfl (fun fit => (h₂ fit).mono ?_)
      fun m t rest ht _ _ => gives_extend_assertion m ht rest
    rintro ms _ - - ⟨t, rfl, ht⟩
    exact ⟨t, rfl, ht, trivial⟩
  · rename_i hs
    exact he.increment (.inl hs)
  · rename_i hs
    exact he.increment (.inr hs)
  · rename_i hdot hquestion hparen hbracket hmark hplus hminus
    refine ⟨rfl, fun m rest hk _ => ?_⟩
    unfold extend
    apply gives_get
    intro u _ hu
    rw [hu, List.nil_append, hk]
    split
    all_goals first | contradiction | exact gives_pure none rest

variable (hmakes : ∀ s, nested.Ensures s fun n s' => Makes Grammar.operand s [n] s')
include hmakes

theorem rereads_postfixed (s : ParseState) :
    RereadsBefore (· ≠ .question) (postfixed nested) s := by
  refine .of_eq (postfixed.eq_1 nested) ?_
  simp only [ensures_bind]
  refine ((makes_primary hmakes s).and (rereads_primary h s)).mono fun e s₁ ⟨hext, he⟩ => ?_
  refine ensures_refine (fun e s' => Extensible s e s' ∧ RereadsOn nested s e s') _
    (fun e s₂ ⟨hext, he⟩ => ?_) ⟨.inl hext, (he _).mono fun ns rest _ _ hns => ?_⟩
  · refine ((makes_extend hmakes s e s₂ hext).and (rereads_extend h he hext)).mono
      fun r s₃ ⟨hmade, hround⟩ => ?_
    cases r with
    | none =>
      obtain ⟨rfl, hstop⟩ := hround
      have hall : Rereads s₃.Meets s [e] s₃ (ReadsOn nested) :=
        he.restrict fun _ hmeets _ => hmeets
      refine hall.mono fun ns rest hrest _ hns => ?_
      obtain ⟨n, rfl, hne, hn⟩ := hns
      refine ⟨n, rfl, hne, fun hk => ?_⟩
      simpa using hn [] n rest rfl (gives_refine_stop (hstop n rest hrest.kind hk))
    | some b =>
      obtain ⟨hb, hlength⟩ := hround
      dsimp only
      split
      · rename_i hlt
        exact ⟨by simpa [Extension, hlt] using hmade, hb⟩
      · rename_i hno
        exact fun hquiet => absurd (hlength hquiet) hno
  · obtain ⟨n, rfl, hne, hn⟩ := hns
    refine ⟨n, rfl, hne, fun ts m rest' hrest hgives => ?_⟩
    subst hrest
    exact (hn trivial).bind hgives

end Postfixed

/-! ## Operators that group to the right -/

theorem nests_signs {k : Kind} (operators : List Green) (e : Green) :
    Node.Nests k 1 (operators ++ [e])
      (operators.foldr (fun op e => .group k [op, e]) e) := by
  induction operators with
  | nil => exact .last e
  | cons op operators ih => exact .behind [op] rfl ih

theorem nests_groupRight {k : Kind} (first : Green) {more : List Green}
    (even : more.length % 2 = 0) : Node.Nests k 2 (first :: more) (groupRight k first more) := by
  fun_induction groupRight k first more with
  | case1 first mark next more ih =>
    simp only [List.length_cons] at even
    exact .behind [first, mark] rfl (ih (by omega))
  | case2 more first hshort =>
    rcases more with _ | ⟨a, _ | ⟨b, more⟩⟩
    · exact .last first
    · simp at even
    · exact absurd rfl (hshort a b more)

theorem rereads_rightGrouped {kind operator : Kind} {part : Parser Green}
    (hkind : kind.isSteady = true) (hend : operator ≠ .endOfFile) (hne : operator ≠ .question)
    (h : ∀ s, RereadsBefore (· ≠ .question) part s) (s : ParseState) :
    RereadsBefore (· ≠ .question) (rightGrouped kind operator part) s := by
  have round (s : ParseState) (hs : (s.kind == operator) = true) :
      RereadsList (· ≠ .question) (do let mark ← advance; return [mark, ← part]) s := by
    simp only [RereadsList, ensures_bind, ensures_pure]
    refine (rereads_token (beq_iff_eq.1 hs) hend).mono fun mark s₁ h₁ => ?_
    refine Ensures.mono (h s₁) fun e s₂ h₂ => ((h₁ _).append h₂).mono fun _ rest _ _ hms => ?_
    obtain ⟨_, _, rfl, ⟨t, rfl, ht⟩, -, e, rfl, -, he⟩ := hms
    refine ⟨by simp, fun hk => ?_⟩
    simpa [-bind_pure_comp] using gives_advance_bind (he hk).map
  have even (s : ParseState) : (collectWhile (fun s => s.kind == operator) do
      let mark ← advance
      return [mark, ← part]).Ensures s fun ns _ => ns.length % 2 = 0 := by
    refine ensures_collectWhile (fun ns _ => ns.length % 2 = 0) (fun ns s _ hns => ?_) rfl
    simp only [ensures_bind, ensures_pure]
    change (ns ++ [_, _]).length % 2 = 0
    simp only [List.length_append, List.length_cons, List.length_nil]
    omega
  refine .of_eq (rightGrouped.eq_1 kind operator part) ?_
  simp only [ensures_bind, ensures_pure]
  refine Ensures.mono (h s) fun first s₁ h₁ => ?_
  have hmore := rereads_items (· ≠ .question) (q := fun k => k == operator)
    (fun k hk => by simpa using (beq_iff_eq.1 hk) ▸ hne) round s₁
  refine (hmore.and (even s₁)).mono fun more s₂ ⟨h₂, heven⟩ => ?_
  refine ((h₁.append h₂).nests hkind (nests_groupRight first heven)).mono fun _ rest _ _ hms => ?_
  obtain ⟨m, _, rfl, hlength, hnests, _, more', rfl, ⟨first', rfl, hne, hfirst⟩, -, hmore⟩ := hms
  have hright : Node.Nests kind 2 (first' :: more') (groupRight kind first' more') :=
    nests_groupRight first' (by simp at hlength; omega)
  obtain rfl := hnests.unique Nat.two_pos hright
  refine ⟨_, rfl, by simp [hright.tokens_eq, hne], fun hk => ?_⟩
  obtain ⟨hfollow, hmore⟩ := hmore hk
  have hgives : (rightGrouped kind operator part).Gives
      (first'.tokens ++ more'.flatMap Node.tokens) (groupRight kind first' more') rest :=
    (hfirst hfollow).bind hmore.map
  simpa [hright.tokens_eq] using hgives

/-! ## Operators that group to the left -/

theorem rereads_leftGrouped (joins : Kind → Bool) {part : Parser Green}
    (hjoins : ∀ k, joins k = true → k ≠ .question ∧ k ≠ .endOfFile)
    (h : ∀ s, RereadsBefore (· ≠ .question) part s) (s : ParseState) :
    RereadsBefore (· ≠ .question) (leftGrouped joins part) s := by
  rw [leftGrouped_eq]
  refine rereads_refine (h s) (fun _ => id) fun left s₁ => ?_
  refine .of_eq (joinRight.eq_1 joins part left) ?_
  simp only [ensures_bind, ensures_get, ensures_ite, ensures_pure]
  refine ⟨fun hs => ?_, fun hs => ⟨rfl, fun m rest hmeets _ => ?_⟩⟩
  · refine (rereads_advance (hjoins _ hs).2).mono fun operator s₂ h₂ => ?_
    refine Ensures.mono (h s₂) fun right s₃ h₃ => ⟨(hjoins _ hs).1, .binaryExpression,
      [operator, right], rfl, rfl, ((h₂ _).append h₃).mono fun _ rest _ _ hms => ?_⟩
    obtain ⟨_, _, rfl, ⟨t, rfl, ht⟩, -, right, rfl, -, hright⟩ := hms
    refine ⟨by simp, fun m hk => ?_⟩
    unfold joinRight
    apply gives_get
    intro u _ hu
    have hjoin : joins u.kind = true := by
      rw [hu]
      simpa [ht] using hs
    rw [if_pos hjoin]
    simpa [-bind_pure_comp] using gives_advance_bind (hright hk).map
  · unfold joinRight
    apply gives_get
    intro u _ hu
    rw [if_neg (by simpa [hu, hmeets.kind] using hs)]
    exact gives_pure none rest

section Layers

variable (h : ∀ s, RereadsBefore (· ≠ .question) nested s)
  (hmakes : ∀ s, nested.Ensures s fun n s' => Makes Grammar.operand s [n] s')
include h hmakes

theorem rereads_unary (s : ParseState) : RereadsBefore (· ≠ .question) (unary nested) s := by
  have sign (s : ParseState) (hs : isSignOperator s.kind = true) :
      RereadsList (fun _ => True) (do return [← advance]) s := by
    simp only [RereadsList, ensures_bind, ensures_pure]
    have hend : s.kind ≠ .endOfFile := by
      intro hk
      simp [hk, isSignOperator] at hs
    refine (rereads_advance hend).mono fun n s₁ h₁ => (h₁ _).mono fun ms rest _ _ hms => ?_
    obtain ⟨t, rfl, -⟩ := hms
    exact ⟨by simp, fun _ => (gives_advance t rest).map⟩
  refine .of_eq (unary.eq_1 nested) ?_
  simp only [ensures_bind, ensures_pure]
  refine (rereads_items _ (fun _ _ => trivial) sign s).mono fun operators s₁ h₁ => ?_
  refine Ensures.mono (rereads_postfixed h hmakes s₁) fun e s₂ h₂ => ?_
  refine ((h₁.append h₂).nests (k := .prefixUnaryExpression) rfl (nests_signs operators e)).mono
    fun _ rest _ _ hms => ?_
  obtain ⟨m, _, rfl, -, hnests, operators', _, rfl, hsigns, -, e', rfl, hne, he⟩ := hms
  obtain rfl := hnests.unique Nat.one_pos (nests_signs operators' e')
  refine ⟨_, rfl, by simp [hnests.tokens_eq, hne], fun hk => ?_⟩
  have hgives : (unary nested).Gives (operators'.flatMap Node.tokens ++ e'.tokens)
      (operators'.foldr (fun op e => .group .prefixUnaryExpression [op, e]) e') rest :=
    Gives.bind (by simpa using (hsigns trivial).2) (he hk).map
  simpa [hnests.tokens_eq] using hgives

theorem rereads_binary (s : ParseState) : RereadsBefore (· ≠ .question) (binary nested) s := by
  have hlevels : ∀ level ∈ precedenceLevels, level ≠ 0 := by decide
  unfold binary binaryAbove
  generalize precedenceLevels = levels at hlevels
  induction levels generalizing s with
  | nil => exact rereads_unary h hmakes s
  | cons level levels ih =>
    refine rereads_leftGrouped (fun k => k.precedence == level) (fun k hk => ?_)
      (fun s => ih s fun l hl => hlevels l (by simp [hl])) s
    have hlevel : k.precedence ≠ 0 := by
      rw [beq_iff_eq.1 hk]
      exact hlevels level (by simp)
    constructor
    all_goals rintro rfl; exact hlevel rfl

theorem rereads_coalesce (s : ParseState) : RereadsBefore (· ≠ .question) (coalesce nested) s :=
  rereads_rightGrouped rfl (by simp) (by simp) (rereads_binary h hmakes) s

theorem rereads_assignment (s : ParseState) :
    RereadsBefore (· ≠ .question) (assignment nested) s :=
  rereads_rightGrouped rfl (by simp) (by simp) (rereads_coalesce h hmakes) s

end Layers

theorem rereads_expression (depth : Nat) (s : ParseState) :
    RereadsBefore (· ≠ .question) (expression depth) s := by
  induction depth generalizing s with
  | zero =>
    exact Ensures.mono (makes_giveUp (L := 0) false s) fun _ _ hn => .of_not_quiet fun hq => hn.2 hq
  | succ depth ih => exact rereads_assignment ih (makes_expression depth) s

end NullLint.Parser
