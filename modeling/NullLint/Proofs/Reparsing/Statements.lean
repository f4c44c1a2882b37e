import NullLint.Proofs.Reparsing.Expressions

/-!
# Statements are read again

Lookahead tells declarations from expressions. It finds a declaration again once that has lost null
operators, since none stands up to the name of the first variable (`rereads_localDeclaration`). But
`a! < b > c;` declares a variable when its operator is lost, so a statement that is an expression is
read again only if it spells no declaration (`rereads_expressionStatement`).
-/

namespace NullLint

theorem ParseState.kinds_eq (s : ParseState) :
    s.rest.map Lexeme.kind = s.tokens.map Token.kind := by
  rw [tokens, List.map_map]
  rfl

/-- A statement with these tokens and a `;` is looked at as any statement that begins with them. -/
theorem declarationAhead_eq_declares {s : ParseState} {ts rest : List Token} {t : Token}
    (hs : s.tokens = ts ++ t :: rest) (ht : t.kind = .semicolon) :
    Lookahead.declarationAhead s = declares (ts ++ [t]) := by
  have hkinds : s.rest.map Lexeme.kind =
      ts.map Token.kind ++ .semicolon :: rest.map Token.kind := by
    rw [s.kinds_eq, hs, List.map_append, List.map_cons, ht]
  have hdeclares : ((ts ++ [t]).map fun t => (⟨t, 0⟩ : Lexeme)).map Lexeme.kind =
      ts.map Token.kind ++ .semicolon :: [] := by
    simp [Lexeme.kind, Function.comp_def, ht]
  rw [Bool.eq_iff_iff]
  constructor
  · exact Lookahead.declarationAhead_of_kinds hkinds hdeclares
  · exact Lookahead.declarationAhead_of_kinds hdeclares hkinds

namespace Parser

open Lookahead

variable {s : ParseState} {depth : Nat}

/-! ## Declarators -/

theorem rereads_equalsValue (depth : Nat) (hs : s.kind = .equals) :
    RereadsBefore (· ≠ .question) (equalsValue depth) s := by
  refine .of_eq (equalsValue.eq_1 depth) ?_
  simp only [ensures_bind, ensures_pure]
  refine (rereads_token hs (by simp)).mono fun equals s₁ h₁ => ?_
  refine Ensures.mono (rereads_expression depth s₁) fun e s₂ h₂ => ?_
  refine ((h₁ _).append h₂).given rfl fun ns rest _ _ hns => ?_
  obtain ⟨_, _, rfl, ⟨t, rfl, ht⟩, -, e, rfl, -, he⟩ := hns
  have hgives (hk : kindOf rest ≠ .question) : (equalsValue depth).Gives (t :: e.tokens)
      (.group .equalsValueClause [.leaf t, e]) rest := gives_advance_bind (he hk).map
  exact ⟨by simp, fun hk => by simpa using hgives hk⟩

/-- A node that begins with a name, of which `p` reads what is behind the name. The state `s` is the
one behind the name. -/
def IsNamed (s : ParseState) (p : Green → Parser Green) (ns : List Green) (rest : List Token) :
    Prop :=
  ∃ (t : Token) (ts : List Token) (n : Green), ns = [n] ∧ n.tokens = t :: ts ∧
    t.kind = .identifier ∧ s.Meets (ts ++ rest) ∧
    (kindOf rest ≠ .question → (p (.leaf t)).Gives ts n rest)

theorem rereads_declarator (depth : Nat) {s₀ : ParseState} {name : Green}
    (hname : Rereads s.Meets s₀ [name] s (IsToken .identifier)) :
    (declarator depth name).Ensures s fun n s' =>
      Rereads s'.Meets s₀ [n] s' (IsNamed s (declarator depth)) := by
  simp only [declarator, ensures_bind, ensures_sees, ensures_ite, ensures_pure]
  constructor
  · intro hs
    have hs := beq_iff_eq.1 hs
    refine Ensures.mono (rereads_equalsValue depth hs) fun value s₁ h₁ => ?_
    refine ((hname.append h₁).branch .variableDeclarator rfl).mono fun ns rest _ _ hns => ?_
    obtain ⟨_, rfl, _, _, rfl, ⟨t, rfl, ht⟩, hmeets, value, rfl, -, hvalue⟩ := hns
    refine ⟨t, value.tokens, _, rfl, by simp, ht, by simpa using hmeets, fun hk => ?_⟩
    unfold declarator
    apply gives_sees
    rw [if_pos (by simpa [hs] using hmeets.kind)]
    exact (hvalue hk).map
  · intro hs
    refine (hname.branch .variableDeclarator rfl).mono fun ns rest hrest _ hns => ?_
    obtain ⟨_, rfl, t, rfl, ht⟩ := hns
    refine ⟨t, [], _, rfl, by simp, ht, hrest, fun _ => ?_⟩
    unfold declarator
    apply gives_sees
    rw [if_neg (by simpa [hrest.kind] using hs)]
    exact gives_pure _ rest

theorem rereads_moreDeclarators (depth : Nat) (s : ParseState) :
    (moreDeclarators depth).Ensures s fun ns s' =>
      Rereads s'.Meets s ns s' (AreCollected (· ≠ .question) (moreDeclarators depth)) := by
  refine rereads_items (· ≠ .question) (q := fun k => k == .comma) (fun k hk => ?_)
    (fun s hs => ?_) s
  · simp [beq_iff_eq.1 hk]
  · simp only [RereadsList, ensures_bind, ensures_pure]
    refine (rereads_token (beq_iff_eq.1 hs) (by simp)).mono fun comma s₁ h₁ => ?_
    refine (rereads_expect .identifier s₁ (by simp)).mono fun name s₂ h₂ => ?_
    refine (rereads_declarator depth (h₂ _)).mono fun d s₃ h₃ => ?_
    refine ((h₁ _).append h₃).mono fun _ rest _ _ hms => ?_
    obtain ⟨_, _, rfl, ⟨t, rfl, ht⟩, -, name, ts, d, rfl, hd, hname, -, hgives⟩ := hms
    refine ⟨by simp, fun hk => ?_⟩
    simpa [hd, -bind_pure_comp] using
      gives_advance_bind (gives_expect_bind hname (hgives hk).map)

/-! ## Local declarations -/

/-- Behind the type in a declaration stands a name; the declaration is seen again where tokens of
the same kinds stand for the type. -/
theorem declarationAhead_again (h : declarationAhead s = true) :
    type.Ensures s fun n s' => s'.kind = .identifier ∧
      ∀ (u : ParseState) (ts us : List Token) (t : Token), u.tokens = ts ++ t :: us →
        ts.map Token.kind = n.tokens.map Token.kind → t.kind = .identifier →
        kindOf us = s'.nextKind → declarationAhead u = true := by
  obtain ⟨read, name, after, hsplit, -, hname, -, htype, hagain⟩ := exists_declaration h
  have hends : Ends (name :: after) := ⟨by simp [hname], by simp [hname]⟩
  apply (agrees_typeNested (Nat.le_refl _) s _ htype hends).mono
  rintro n s' ⟨hrest, hconsumes⟩
  obtain ⟨read', hsplit', htokens⟩ := hconsumes.rest
  rw [hsplit, hrest] at hsplit'
  obtain rfl := List.append_cancel_right hsplit'
  refine ⟨by simp [ParseState.kind, hrest, hname], fun u ts us t hu hkinds ht hus => ?_⟩
  obtain ⟨read', _, hread, rfl, htail⟩ := List.map_eq_append_iff.1 hu
  obtain ⟨name', after', rfl, rfl, rfl⟩ := List.map_eq_cons_iff.1 htail
  refine hagain u read' name' after' hread ?_ ht ?_
  · rw [← htokens, List.map_map, List.map_map] at hkinds
    exact hkinds
  · have hnext : s'.nextKind = kindAhead after := by simp [ParseState.nextKind, hrest]
    rw [← hnext, ← hus]
    cases after' <;> rfl

/-- Where lookahead finds a declaration it is read again, and found again. -/
theorem rereads_localDeclaration (depth : Nat) (h : declarationAhead s = true) :
    (localDeclaration depth).Ensures s fun n s' =>
      Rereads s'.Meets s [n] s' fun ms rest => ∃ m : Green, ms = [m] ∧ m.tokens ≠ [] ∧
        (localDeclaration depth).Gives m.tokens m rest ∧
        ∀ u : ParseState, u.tokens = m.tokens ++ rest → declarationAhead u = true := by
  refine .of_eq (localDeclaration.eq_1 depth) ?_
  simp only [ensures_bind, ensures_pure]
  apply ((rereads_type s).and (declarationAhead_again h)).mono
  rintro declared s₁ ⟨h₁, hs₁, hagain⟩
  apply ((rereads_expect .identifier s₁ (by simp)).and (ensures_kind_expect hs₁)).mono
  rintro name s₂ ⟨h₂, hs₂⟩
  refine (rereads_declarator depth (h₂ _)).mono fun first s₃ h₃ => ?_
  refine (rereads_moreDeclarators depth s₃).mono fun others s₄ h₄ => ?_
  refine (rereads_expect .semicolon s₄ (by simp)).mono fun semicolon s₅ h₅ => ?_
  have hall := (h₁.append (h₃.append (h₄.append (h₅ s₅.Meets)))).branch
    .localDeclarationStatement rfl
  refine hall.mono fun ns rest _ _ hns => ?_
  obtain ⟨_, rfl, _, _, rfl, ⟨d, rfl, hne, hkinds, hd⟩, -, _, _, rfl,
    ⟨t, ts, first', rfl, hfirst, ht, hmeets, hgives⟩, -, others', _, rfl, hothers, -, v, rfl, hv⟩ :=
    hns
  refine ⟨_, rfl, by simp [hne], ?_, fun u hu => ?_⟩
  · obtain ⟨hbefore, hothers⟩ := hothers (by simp [hv])
    have hall : (localDeclaration depth).Gives
        (d.tokens ++ (t :: (ts ++ (others'.flatMap Node.tokens ++ [v]))))
        (.group .localDeclarationStatement (d :: first' :: others' ++ [Green.leaf v])) rest := by
      unfold localDeclaration
      refine Gives.bind (a := d) ?_ (gives_expect_bind ht ?_)
      · simpa [hfirst] using hd (by simp [hfirst, ht, endsType])
      refine Gives.bind (a := first') ?_ (Gives.bind (a := others') ?_ (gives_expect hv rest).map)
      · simpa using hgives (by simpa using hbefore)
      · exact hothers
    simpa [hfirst] using hall
  · refine hagain u d.tokens (ts ++ (others'.flatMap Node.tokens ++ v :: rest)) t ?_ hkinds ht ?_
    · simpa [hfirst] using hu
    · rw [← hs₂]
      simpa using hmeets.kind

/-! ## Statements -/

/-- A statement that is an expression is read again where no declaration is ahead. -/
theorem rereads_expressionStatement (depth : Nat) (h : declarationAhead s = false) :
    (expressionStatement depth).Ensures s fun n s' =>
      Rereads s'.Meets s [n] s' fun ms rest => ∃ m : Green, ms = [m] ∧ m.tokens ≠ [] ∧
        (expressionStatement depth).Gives m.tokens m rest ∧
        ∀ u : ParseState, u.tokens = m.tokens ++ rest → declarationAhead u = false := by
  refine .of_eq (expressionStatement.eq_1 depth) ?_
  simp only [ensures_bind, ensures_pure]
  refine Ensures.mono (rereads_expression depth s) fun e s₁ h₁ => ?_
  refine (rereads_expect .semicolon s₁ (by simp)).mono fun semicolon s₂ h₂ => .of_quiet fun hq => ?_
  have hparts := h₁.append (h₂ s₂.Meets)
  have hplain : declares ([e, semicolon].flatMap Node.tokens) = false := by
    obtain ⟨t, hleaf, ht⟩ := (h₂ s₂.Meets hq).self
    obtain ⟨rfl, -⟩ := List.cons.inj hleaf
    have htokens := (hparts hq).tokens
    simp only [List.singleton_append, List.flatMap_cons, List.flatMap_nil, List.append_nil,
      Node.tokens_token, List.append_assoc] at htokens ⊢
    rw [← declarationAhead_eq_declares htokens ht, h]
  refine (hparts.group rfl fun _ => hplain).mono fun ns rest _ _ hns => ?_
  obtain ⟨_, rfl, hdeclares, _, _, rfl, ⟨e, rfl, -, he⟩, -, t, rfl, ht⟩ := hns
  have hgives : (expressionStatement depth).Gives (e.tokens ++ [t])
      (.group .expressionStatement [e, .leaf t]) rest :=
    Gives.bind (he (by simp [ht])) (gives_expect ht rest).map
  refine ⟨_, rfl, by simp, by simpa using hgives, fun u hu => ?_⟩
  have hu : u.tokens = e.tokens ++ t :: rest := by simpa using hu
  rw [declarationAhead_eq_declares hu ht]
  simpa using hdeclares rfl

theorem rereads_jump (depth : Nat) {kind : Kind} (hs : s.kind ≠ .endOfFile)
    (hkind : kind.isSteady = true) : RereadsBefore (fun _ => True) (jump depth kind) s := by
  refine .of_eq (jump.eq_1 depth kind) ?_
  simp only [ensures_bind, ensures_get, ensures_ite, ensures_pure]
  refine (rereads_advance hs).mono fun keyword s₁ h₁ => ⟨fun hstarts => ?_, fun hstarts => ?_⟩
  · refine Ensures.mono (rereads_expression depth s₁) fun e s₂ h₂ => ?_
    refine (rereads_expect .semicolon s₂ (by simp)).mono fun semicolon s₃ h₃ => ?_
    refine ((h₁ _).append (h₂.append (h₃ _))).given hkind fun ns rest _ _ hns => ?_
    obtain ⟨_, _, rfl, ⟨t, rfl, ht⟩, hmeets, _, _, rfl, ⟨e, rfl, -, he⟩, -, u, rfl, hu⟩ := hns
    have hgives : (jump depth kind).Gives (t :: (e.tokens ++ [u]))
        (.group kind (Green.leaf t :: [e] ++ [Green.leaf u])) rest := by
      unfold jump
      apply gives_advance_bind
      apply gives_get
      intro v _ hv
      have hk : kindOf (e.tokens ++ [u] ++ rest) = s₁.kind := by simpa using hmeets.kind
      rw [hv, hk, if_pos hstarts]
      refine Gives.bind (he (by simp [hu])) ?_
      exact Gives.bind (gives_pure [e] _) (gives_expect hu rest).map
    exact ⟨by simp, fun _ => by simpa using hgives⟩
  · refine (rereads_expect .semicolon s₁ (by simp)).mono fun semicolon s₂ h₂ => ?_
    refine ((h₁ _).append (h₂ _)).given hkind fun ns rest _ _ hns => ?_
    obtain ⟨_, _, rfl, ⟨t, rfl, ht⟩, hmeets, u, rfl, hu⟩ := hns
    have hgives : (jump depth kind).Gives [t, u]
        (.group kind (Green.leaf t :: [] ++ [Green.leaf u])) rest := by
      unfold jump
      apply gives_advance_bind
      apply gives_get
      intro v _ hv
      have hk : kindOf ([u] ++ rest) = s₁.kind := by simpa using hmeets.kind
      rw [hv, hk, if_neg hstarts]
      exact Gives.bind (gives_pure [] _) (gives_expect hu rest).map
    exact ⟨by simp, fun _ => by simpa using hgives⟩

section Nested

variable {nested : Parser Green} (h : ∀ s, RereadsBefore (fun _ => True) nested s)
include h

theorem rereads_embedded (depth : Nat) (s : ParseState) :
    RereadsBefore (fun _ => True) (embedded depth nested) s := by
  refine .of_eq (embedded.eq_1 depth nested) ?_
  simp only [ensures_bind, ensures_get, ensures_ite]
  have chosen (m : Green) (rest : List Token) (hk : kindOf (m.tokens ++ rest) = s.kind)
      (hm : Gives (if startsStatement s.kind then nested else expressionStatement depth)
        m.tokens m rest) : (embedded depth nested).Gives m.tokens m rest := by
    unfold embedded
    apply gives_get
    intro u _ hu
    rwa [hu, hk]
  refine ⟨fun hs => ?_, fun hs => ?_⟩
  · refine Ensures.mono (h s) fun n s₁ h₁ => h₁.given_of fun m rest hk hm => ?_
    exact chosen m rest hk (by rwa [if_pos hs])
  · have hahead : declarationAhead s = false := by
      refine Bool.eq_false_iff.2 fun hahead => hs ?_
      rcases kind_of_declarationAhead hahead with hk | hk <;> rw [hk] <;> rfl
    refine (rereads_expressionStatement depth hahead).mono fun n s₁ h₁ =>
      h₁.mono fun ns rest _ hmeets hns => ?_
    obtain ⟨m, rfl, hne, hm, -⟩ := hns
    exact ⟨m, rfl, hne, fun _ => chosen m rest (by simpa using hmeets.kind) (by rwa [if_neg hs])⟩

theorem rereads_guarded (depth : Nat) (hs : s.kind ≠ .endOfFile) :
    RereadsList (fun _ => True) (guarded depth nested) s := by
  refine .of_eq (guarded.eq_1 depth nested) ?_
  simp only [ensures_bind, ensures_pure]
  refine (rereads_advance hs).mono fun keyword s₁ h₁ => ?_
  refine (rereads_expect .openParen s₁ (by simp)).mono fun opening s₂ h₂ => ?_
  refine Ensures.mono (rereads_expression depth s₂) fun condition s₃ h₃ => ?_
  refine (rereads_expect .closeParen s₃ (by simp)).mono fun closing s₄ h₄ => ?_
  refine Ensures.mono (rereads_embedded h depth s₄) fun body s₅ h₅ => ?_
  refine ((h₁ _).append ((h₂ _).append (h₃.append ((h₄ _).append h₅)))).mono
    fun ns rest _ _ hns => ?_
  obtain ⟨_, _, rfl, ⟨t, rfl, -⟩, -, _, _, rfl, ⟨u, rfl, hu⟩, -, _, _, rfl, ⟨e, rfl, -, he⟩, -,
    _, _, rfl, ⟨v, rfl, hv⟩, -, m, rfl, -, hm⟩ := hns
  have hgives : (guarded depth nested).Gives (t :: u :: (e.tokens ++ (v :: m.tokens)))
      [.leaf t, .leaf u, e, .leaf v, m] rest :=
    gives_advance_bind (gives_expect_bind hu
      (Gives.bind (by simpa using he (by simp [hv])) (gives_expect_bind hv (hm trivial).map)))
  exact ⟨by simp, fun _ => by simpa using hgives⟩

theorem rereads_ifStatement (depth : Nat) (hs : s.kind ≠ .endOfFile) :
    RereadsBefore (fun _ => True) (ifStatement depth nested) s := by
  refine .of_eq (ifStatement.eq_1 depth nested) ?_
  simp only [ensures_bind, ensures_sees, ensures_ite, ensures_pure]
  refine Ensures.mono (rereads_guarded h depth hs) fun parts s₁ h₁ =>
    ⟨fun helse => ?_, fun helse => ?_⟩
  · refine (rereads_token (beq_iff_eq.1 helse) (by simp)).mono fun keyword s₂ h₂ => ?_
    refine Ensures.mono (rereads_embedded h depth s₂) fun other s₃ h₃ => ?_
    have hclause := ((h₂ _).append h₃).branch .elseClause rfl
    refine (h₁.append hclause).given rfl fun ns rest _ _ hns => ?_
    obtain ⟨parts, _, rfl, ⟨hne, hparts⟩, -, _, rfl, _, _, rfl, ⟨t, rfl, ht⟩, -, m, rfl, -, hm⟩ :=
      hns
    have hgives : (ifStatement depth nested).Gives (parts.flatMap Node.tokens ++ (t :: m.tokens))
        (.group .ifStatement (parts ++ [Green.group .elseClause [Green.leaf t, m]])) rest := by
      refine Gives.bind (a := parts) (by simpa using hparts trivial) ?_
      apply gives_sees
      rw [if_pos (by simpa using ht)]
      exact gives_advance_bind (hm trivial).map
    exact ⟨by simp [hne], fun _ => by simpa using hgives⟩
  · refine h₁.given rfl fun parts rest hrest _ hns => ?_
    obtain ⟨hne, hparts⟩ := hns
    refine ⟨hne, fun _ => (hparts trivial).bind_nil ?_⟩
    apply gives_sees
    rw [if_neg (by simpa [hrest.kind] using helse)]
    exact gives_pure _ rest

theorem rereads_whileStatement (depth : Nat) (hs : s.kind ≠ .endOfFile) :
    RereadsBefore (fun _ => True) (whileStatement depth nested) s := by
  refine .of_eq (whileStatement.eq_1 depth nested) ?_
  simp only [ensures_bind, ensures_pure]
  refine Ensures.mono (rereads_guarded h depth hs) fun parts s₁ h₁ => ?_
  refine h₁.given rfl fun parts rest _ _ hns => ?_
  exact ⟨hns.1, fun _ => (hns.2 trivial).map⟩

theorem rereads_block (s : ParseState) : RereadsBefore (fun _ => True) (block nested) s := by
  have item (s : ParseState) (hs : (!endsList s) = true) :
      RereadsList (fun _ => True) (element .invalidExpressionTerm do
        if startsStatement (← get).kind then nested else skip .invalidExpressionTerm) s := by
    refine rereads_item (by simp) ?_
    simp only [RereadsBefore, ensures_bind, ensures_get, ensures_ite]
    refine ⟨fun hstarts => Ensures.mono (h s) fun n s₁ h₁ => ?_, fun _ => ?_⟩
    · refine h₁.given_of fun m rest hk hm => ?_
      apply gives_get
      intro u _ hu
      rwa [hu, hk, if_pos hstarts]
    · exact (not_quiet_skip (by simp) (kind_ne_of_not_endsList hs)).mono
        fun _ _ hnot => .of_not_quiet hnot
  refine .of_eq (block.eq_1 nested) ?_
  simp only [ensures_bind, ensures_pure]
  refine (rereads_expect .openBrace s (by simp)).mono fun opening s₁ h₁ => ?_
  refine (rereads_items _ (q := fun k => !(k == .closeBrace || k == .endOfFile))
    (fun _ _ => trivial) item s₁).mono fun body s₂ h₂ => ?_
  refine (rereads_expect .closeBrace s₂ (by simp)).mono fun closing s₃ h₃ => ?_
  refine ((h₁ _).append (h₂.append (h₃ _))).given rfl fun ns rest _ _ hns => ?_
  obtain ⟨_, _, rfl, ⟨t, rfl, ht⟩, -, body, _, rfl, hbody, -, u, rfl, hu⟩ := hns
  have hgives : (block nested).Gives (t :: (body.flatMap Node.tokens ++ [u]))
      (.group .block (Green.leaf t :: body ++ [Green.leaf u])) rest :=
    gives_expect_bind ht (Gives.bind (hbody trivial).2 (gives_expect hu rest).map)
  exact ⟨by simp, fun _ => by simpa using hgives⟩

omit h in
/-- The kind of the first token, and lookahead, tell which statement is read. -/
theorem gives_statementWith {k : Kind} {ts rest : List Token} {n : Green}
    (hk : kindOf (ts ++ rest) = k)
    (hn : ∀ u : ParseState, u.tokens = ts ++ rest → Gives (match k with
      | .openBrace => block nested
      | .semicolon => do return .group .emptyStatement [← advance]
      | .ifKeyword => ifStatement depth nested
      | .whileKeyword => whileStatement depth nested
      | .returnKeyword => jump depth .returnStatement
      | .throwKeyword => jump depth .throwStatement
      | _ => if declarationAhead u then localDeclaration depth else expressionStatement depth)
      ts n rest) : (statementWith depth nested).Gives ts n rest := by
  unfold statementWith
  apply gives_get
  intro u hu huk
  rw [huk, hk]
  exact hn u hu

theorem rereads_statementWith (depth : Nat) (s : ParseState) :
    RereadsBefore (fun _ => True) (statementWith depth nested) s := by
  refine .of_eq (statementWith.eq_1 depth nested) ?_
  simp only [ensures_bind, ensures_get]
  split
  · rename_i hs
    exact Ensures.mono (rereads_block h s) fun _ _ hn =>
      hn.given_of fun _ _ hk hm => gives_statementWith (hk.trans hs) fun _ _ => hm
  · rename_i hs
    exact (rereads_marked (by simp [hs]) rfl fun t rest ht =>
      gives_statementWith (ht.trans hs) fun _ _ => (gives_advance t rest).map).mono
        fun _ _ hn => hn _
  · rename_i hs
    exact Ensures.mono (rereads_ifStatement h depth (by simp [hs])) fun _ _ hn =>
      hn.given_of fun _ _ hk hm => gives_statementWith (hk.trans hs) fun _ _ => hm
  · rename_i hs
    exact Ensures.mono (rereads_whileStatement h depth (by simp [hs])) fun _ _ hn =>
      hn.given_of fun _ _ hk hm => gives_statementWith (hk.trans hs) fun _ _ => hm
  · rename_i hs
    exact Ensures.mono (rereads_jump depth (by simp [hs]) rfl) fun _ _ hn =>
      hn.given_of fun _ _ hk hm => gives_statementWith (hk.trans hs) fun _ _ => hm
  · rename_i hs
    exact Ensures.mono (rereads_jump depth (by simp [hs]) rfl) fun _ _ hn =>
      hn.given_of fun _ _ hk hm => gives_statementWith (hk.trans hs) fun _ _ => hm
  · have other {m : Green} {rest : List Token} (hk : kindOf (m.tokens ++ rest) = s.kind)
        (hm : ∀ u : ParseState, u.tokens = m.tokens ++ rest → Gives
          (if declarationAhead u then localDeclaration depth else expressionStatement depth)
          m.tokens m rest) : (statementWith depth nested).Gives m.tokens m rest := by
      refine gives_statementWith hk fun u hu => ?_
      split
      all_goals first | contradiction | exact hm u hu
    rw [ensures_ite]
    refine ⟨fun hahead => ?_, fun hahead => ?_⟩
    · refine (rereads_localDeclaration depth hahead).mono fun n s₁ h₁ =>
        h₁.mono fun ns rest _ hmeets hns => ?_
      obtain ⟨m, rfl, hne, hm, hagain⟩ := hns
      refine ⟨m, rfl, hne, fun _ => other (by simpa using hmeets.kind) fun u hu => ?_⟩
      rwa [if_pos (hagain u hu)]
    · refine (rereads_expressionStatement depth (by simpa using hahead)).mono fun n s₁ h₁ =>
        h₁.mono fun ns rest _ hmeets hns => ?_
      obtain ⟨m, rfl, hne, hm, hagain⟩ := hns
      refine ⟨m, rfl, hne, fun _ => other (by simpa using hmeets.kind) fun u hu => ?_⟩
      rwa [if_neg (by simp [hagain u hu])]

omit h in
theorem rereads_statement (depth : Nat) (s : ParseState) :
    RereadsBefore (fun _ => True) (statement depth) s := by
  induction depth generalizing s with
  | zero =>
    exact Ensures.mono (makes_giveUp (L := 0) true s) fun _ _ hn => .of_not_quiet fun hq => hn.2 hq
  | succ depth ih => exact rereads_statementWith ih depth s

end Nested

end Parser

end NullLint
