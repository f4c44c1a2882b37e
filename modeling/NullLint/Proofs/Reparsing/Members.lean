import NullLint.Proofs.Reparsing.Statements

/-!
# The parts of members are read again

Bodies, parameters, lists of accessors and what follows the name of a member are read again, and
two tokens ahead of a type are seen as they were (`kinds_ahead_of_type`).
-/

namespace NullLint.Parser

open Lookahead

variable {s : ParseState}

/-! ## Bodies -/

theorem rereads_arrowClause (hs : s.kind = .equalsGreaterThan) :
    RereadsBefore (· ≠ .question) arrowClause s := by
  refine .of_eq arrowClause.eq_1 ?_
  simp only [ensures_bind, ensures_pure]
  refine (rereads_token hs (by simp)).mono fun arrow s₁ h₁ => ?_
  refine Ensures.mono (rereads_expression _ s₁) fun e s₂ h₂ => ?_
  refine ((h₁ _).append h₂).given rfl fun ns rest _ _ hns => ?_
  obtain ⟨_, _, rfl, ⟨t, rfl, ht⟩, -, e, rfl, -, he⟩ := hns
  have hgives (hk : kindOf rest ≠ .question) : arrowClause.Gives (t :: e.tokens)
      (.group .arrowExpressionClause [.leaf t, e]) rest := gives_advance_bind (he hk).map
  exact ⟨by simp, fun hk => by simpa using hgives hk⟩

/-- The kind of the first token tells which body is read. -/
theorem gives_body {k : Kind} {ts rest : List Token} {ns : List Green}
    (hk : kindOf (ts ++ rest) = k) (hns : Gives (match k with
      | .openBrace => do return [← block (statement maxParseDepth)]
      | .equalsGreaterThan => do
        let clause ← arrowClause
        return [clause, ← expect .semicolon]
      | _ => do return [← expect .semicolon]) ts ns rest) : body.Gives ts ns rest := by
  unfold body
  apply gives_get
  intro u _ hu
  rw [hu, hk]
  exact hns

theorem rereads_body (s : ParseState) : RereadsList (fun _ => True) body s := by
  refine .of_eq body.eq_1 ?_
  simp only [ensures_bind, ensures_get]
  split
  · rename_i hs
    simp only [ensures_bind, ensures_pure]
    refine Ensures.mono (rereads_block (rereads_statement _) s) fun b s₁ h₁ => ?_
    refine h₁.mono fun ns rest _ hmeets hns => ?_
    obtain ⟨m, rfl, hne, hm⟩ := hns
    refine ⟨by simpa using hne, fun _ => gives_body (hmeets.kind.trans hs) ?_⟩
    simpa using (hm trivial).map (f := fun n => [n])
  · rename_i hs
    simp only [ensures_bind, ensures_pure]
    refine Ensures.mono (rereads_arrowClause hs) fun clause s₁ h₁ => ?_
    refine (rereads_expect .semicolon s₁ (by simp)).mono fun semicolon s₂ h₂ => ?_
    refine (h₁.append (h₂ _)).mono fun _ rest _ hmeets hns => ?_
    obtain ⟨_, _, rfl, ⟨m, rfl, hne, hm⟩, -, t, rfl, ht⟩ := hns
    refine ⟨by simp, fun _ => gives_body (hmeets.kind.trans hs) ?_⟩
    simpa [-bind_pure_comp] using Gives.bind (hm (by simp [ht])) (gives_expect ht rest).map
  · rename_i hbrace harrow
    simp only [ensures_bind, ensures_pure]
    refine (rereads_expect .semicolon s (by simp)).mono fun semicolon s₁ h₁ => ?_
    refine (h₁ _).mono fun _ rest _ hmeets hns => ?_
    obtain ⟨t, rfl, ht⟩ := hns
    refine ⟨by simp, fun _ => gives_body (k := .semicolon) ht ?_⟩
    exact (gives_expect ht rest).map

/-! ## Parameters -/

theorem rereads_parameter (s : ParseState) : RereadsBefore (· ≠ .question) parameter s := by
  refine .of_eq parameter.eq_1 ?_
  simp only [ensures_bind, ensures_sees, ensures_ite, ensures_pure]
  refine (rereads_type s).mono fun declared s₁ h₁ => ?_
  refine (rereads_expect .identifier s₁ (by simp)).mono fun name s₂ h₂ =>
    ⟨fun hs => ?_, fun hs => ?_⟩
  · have hs := beq_iff_eq.1 hs
    refine Ensures.mono (rereads_equalsValue _ hs) fun value s₃ h₃ => ?_
    refine (h₁.append ((h₂ _).append h₃)).given rfl fun ns rest _ _ hns => ?_
    obtain ⟨_, _, rfl, ⟨d, rfl, hne, -, hd⟩, -, _, _, rfl, ⟨t, rfl, ht⟩, hmeets, v, rfl, -, hv⟩ :=
      hns
    have hgives (hk : kindOf rest ≠ .question) : parameter.Gives (d.tokens ++ (t :: v.tokens))
        (.group .parameter (d :: .leaf t :: [v])) rest := by
      unfold parameter
      refine Gives.bind (a := d) (by simpa using hd (by simp [ht, endsType])) ?_
      apply gives_expect_bind ht
      apply gives_sees
      rw [if_pos (by simpa [hs] using hmeets.kind)]
      exact Gives.bind_nil (hv hk) (gives_pure _ rest)
    exact ⟨by simp, fun hk => by simpa using hgives hk⟩
  · refine (h₁.append (h₂ _)).given rfl fun ns rest hrest _ hns => ?_
    obtain ⟨_, _, rfl, ⟨d, rfl, hne, -, hd⟩, -, t, rfl, ht⟩ := hns
    have hgives : parameter.Gives (d.tokens ++ [t])
        (.group .parameter (d :: .leaf t :: [])) rest := by
      unfold parameter
      refine Gives.bind (a := d) (by simpa using hd (by simp [ht, endsType])) ?_
      apply gives_expect_bind ht
      apply gives_sees
      rw [if_neg (by simpa [hrest.kind] using hs)]
      exact gives_pure _ rest
    exact ⟨by simp, fun _ => by simpa using hgives⟩

/-- One round of the loop over parameters. -/
def parameterRound : Parser (List Green × Bool) := do
  if startsType (← get) then
    let p ← parameter
    let comma ← accept .comma
    return (p :: comma, !comma.isEmpty)
  else
    return ([], false)

theorem gives_parameterRound {p : Green} {ts us rest : List Token} {comma : List Green}
    (hstarts : kindOf (ts ++ us ++ rest) = .identifier ∨ kindOf (ts ++ us ++ rest) = .varKeyword)
    (hp : parameter.Gives ts p (us ++ rest)) (hcomma : (accept .comma).Gives us comma rest) :
    parameterRound.Gives (ts ++ us) (p :: comma, !comma.isEmpty) rest := by
  unfold parameterRound
  apply gives_get
  intro u _ hu
  rw [if_pos (by simpa [startsType, hu] using hstarts)]
  exact hp.bind hcomma.map

def parameterItems : Parser (List Green) := collect parameterRound

theorem rereads_parameterItems (s : ParseState) : parameterItems.Ensures s fun ns s' =>
    Rereads s'.Meets s ns s' fun ms rest => kindOf rest ≠ .question →
      parameterItems.Gives (ms.flatMap Node.tokens) ms rest := by
  -- What is read before a round is put before what the loop gives from there on.
  let before (ms : List Green) (rest : List Token) : Prop := ∀ us ks rest', rest = us ++ rest' →
    parameterItems.Gives us ks rest' →
    parameterItems.Gives (ms.flatMap Node.tokens ++ us) (ms ++ ks) rest'
  refine ensures_collect (fun ns s' => Rereads s'.Meets s ns s' before) _ (fun ns s₁ h₁ => ?_)
    ((Rereads.nil s).mono fun ms rest _ _ hms => ?_)
  · refine .of_eq parameterRound.eq_1 ?_
    simp only [ensures_bind, ensures_get, ensures_ite, ensures_pure]
    refine ⟨fun hstarts => ?_, fun hstarts => ?_⟩
    · have starts {rest : List Token} (hk : kindOf rest = s₁.kind) :
          kindOf rest = .identifier ∨ kindOf rest = .varKeyword := by
        simpa [startsType, hk] using hstarts
      refine Ensures.mono (rereads_parameter s₁) fun p s₂ h₂ => ?_
      refine (rereads_accept .comma s₂ (by simp)).mono fun comma s₃ h₃ => ?_
      rcases h₃ with ⟨rfl, rfl, hcomma⟩ | ⟨mark, rfl, h₃⟩
      · rw [if_neg (by simp)]
        refine (h₁.append h₂).mono fun _ rest hrest _ hms hk => ?_
        obtain ⟨ms, _, rfl, hms, hmeets, p, rfl, hne, hp⟩ := hms
        have hround : parameterRound.Gives (p.tokens ++ [])
            (p :: [], !([] : List Green).isEmpty) rest :=
          gives_parameterRound (starts (by simpa using hmeets.kind)) (hp hk)
            (gives_accept_nothing (hrest.kind ▸ hcomma))
        have hstop : parameterItems.Gives (p.tokens ++ []) [p] rest := gives_collect_stop hround
        have hall := hms p.tokens [p] rest (by simp) (by simpa using hstop)
        simpa using hall
      · have hparts := h₂.append (h₃ s₃.Meets)
        split
        · refine (h₁.append hparts).mono fun _ rest hrest _ hms us ks rest' hus hgives => ?_
          subst hus
          obtain ⟨ms, _, rfl, hms, hmeets, _, _, rfl, ⟨p, rfl, hne, hp⟩, -, t, rfl, ht⟩ := hms
          have hround : parameterRound.Gives (p.tokens ++ [t]) (p :: [.leaf t], true)
              (us ++ rest') :=
            gives_parameterRound (starts (by simpa using hmeets.kind))
              (by simpa using hp (by simp [ht])) (gives_accept ht _)
          have hall := hms (p.tokens ++ [t] ++ us) (p :: [Green.leaf t] ++ ks) rest' (by simp)
            (gives_collect_step hround (by simp) hgives)
          simpa using hall
        · rename_i hno
          refine fun hquiet => absurd ⟨rfl, hparts.length_lt (fun ms rest _ hms => ?_) hquiet⟩ hno
          obtain ⟨_, _, rfl, ⟨p, rfl, hne, -⟩, -⟩ := hms
          simp [hne]
    · rw [if_neg (by simp), List.append_nil]
      refine h₁.mono fun ms rest hrest _ hms _ => ?_
      have hround : parameterRound.Gives [] ([], false) rest := by
        unfold parameterRound
        apply gives_get
        intro u _ hu
        rw [if_neg (by simpa [startsType, hu, hrest.kind] using hstarts)]
        exact gives_pure _ rest
      simpa using hms [] [] rest rfl (gives_collect_stop hround)
  · subst hms
    exact fun _ _ _ _ hgives => hgives

theorem parameterList_eq : parameterList = (do
    let opening ← expect .openParen
    let parameters ← parameterItems
    return .group .parameterList (opening :: parameters ++ [← expect .closeParen])) := rfl

theorem rereads_parameterList (s : ParseState) : RereadsBefore (fun _ => True) parameterList s := by
  refine .of_eq parameterList_eq ?_
  simp only [ensures_bind, ensures_pure]
  refine (rereads_expect .openParen s (by simp)).mono fun opening s₁ h₁ => ?_
  refine (rereads_parameterItems s₁).mono fun parameters s₂ h₂ => ?_
  refine (rereads_expect .closeParen s₂ (by simp)).mono fun closing s₃ h₃ => ?_
  refine ((h₁ _).append (h₂.append (h₃ _))).given rfl fun ns rest _ _ hns => ?_
  obtain ⟨_, _, rfl, ⟨t, rfl, ht⟩, -, ps, _, rfl, hps, -, u, rfl, hu⟩ := hns
  have hgives : parameterList.Gives (t :: (ps.flatMap Node.tokens ++ [u]))
      (.group .parameterList (Green.leaf t :: ps ++ [Green.leaf u])) rest := by
    rw [parameterList_eq]
    exact gives_expect_bind ht (Gives.bind (hps (by simp [hu])) (gives_expect hu rest).map)
  exact ⟨by simp, fun _ => by simpa using hgives⟩

/-! ## Members -/

theorem rereads_accessorList (hs : s.kind = .openBrace) :
    RereadsBefore (fun _ => True) accessorList s := by
  have round (s : ParseState) : RereadsList (fun _ => True) (do
      let words ← modifiers
      let name ← expect .identifier
      return [.group .accessorDeclaration (words ++ name :: (← body))]) s := by
    simp only [RereadsList, ensures_bind, ensures_pure]
    refine (rereads_modifiers s).mono fun words s₁ h₁ => ?_
    refine (rereads_expect .identifier s₁ (by simp)).mono fun name s₂ h₂ => ?_
    refine Ensures.mono (rereads_body s₂) fun rest s₃ h₃ => ?_
    have hall := (h₁.append ((h₂ _).append h₃)).branch .accessorDeclaration rfl
    refine hall.mono fun _ rest _ _ hms => ?_
    obtain ⟨_, rfl, words, _, rfl, ⟨-, hwords⟩, -, _, b, rfl, ⟨t, rfl, ht⟩, -, -, hb⟩ := hms
    refine ⟨by simp, fun _ => ?_⟩
    have hgives := Gives.bind (f := fun words => do
        let name ← expect .identifier
        return [Green.group .accessorDeclaration (words ++ name :: (← body))])
      (by simpa using hwords) (gives_expect_bind ht (hb trivial).map)
    simpa [-bind_pure_comp] using hgives
  refine .of_eq accessorList.eq_1 ?_
  simp only [ensures_bind, ensures_pure]
  refine (rereads_token hs (by simp)).mono fun opening s₁ h₁ => ?_
  refine (rereads_items _ (q := fun k => k == .identifier || k.isModifier) (fun _ _ => trivial)
    (fun s _ => round s) s₁).mono fun accessors s₂ h₂ => ?_
  refine (rereads_expect .closeBrace s₂ (by simp)).mono fun closing s₃ h₃ => ?_
  refine ((h₁ _).append (h₂.append (h₃ _))).given rfl fun ns rest _ _ hns => ?_
  obtain ⟨_, _, rfl, ⟨t, rfl, ht⟩, -, ps, _, rfl, hps, -, u, rfl, hu⟩ := hns
  have hgives : accessorList.Gives (t :: (ps.flatMap Node.tokens ++ [u]))
      (.group .accessorList (Green.leaf t :: ps ++ [Green.leaf u])) rest :=
    gives_advance_bind (Gives.bind (hps trivial).2 (gives_expect hu rest).map)
  exact ⟨by simp, fun _ => by simpa using hgives⟩

/-- The kind of the first token tells what follows the name of a member. -/
theorem gives_memberTail {k : Kind} {before : List Green} {name : Green} {ts rest : List Token}
    {n : Green} (hk : kindOf (ts ++ rest) = k)
    (hn : Gives (match k with
      | .openParen => do
        let parameters ← parameterList
        return .group .methodDeclaration (before ++ name :: parameters :: (← body))
      | .openBrace => do
        let accessors ← accessorList
        if ← sees .equals then
          let value ← equalsValue maxParseDepth
          return .group .propertyDeclaration
            (before ++ [name, accessors, value, ← expect .semicolon])
        else
          return .group .propertyDeclaration (before ++ [name, accessors])
      | .equalsGreaterThan => do
        let clause ← arrowClause
        return .group .propertyDeclaration (before ++ [name, clause, ← expect .semicolon])
      | _ => do
        let first ← declarator maxParseDepth name
        let others ← moreDeclarators maxParseDepth
        return .group .fieldDeclaration (before ++ first :: others ++ [← expect .semicolon]))
      ts n rest) : (memberTail before name).Gives ts n rest := by
  unfold memberTail
  apply gives_get
  intro u _ hu
  rw [hu, hk]
  exact hn

/-- A member that begins with nodes of which `post` holds and a name. -/
def IsTailed (post : List Green → List Token → Prop) (ns : List Green) (rest : List Token) : Prop :=
  ∃ (before : List Green) (t : Token) (ts : List Token) (n : Green), ns = [n] ∧
    n.tokens = before.flatMap Node.tokens ++ t :: ts ∧ t.kind = .identifier ∧
    post before (t :: ts ++ rest) ∧ (memberTail before (.leaf t)).Gives ts n rest

theorem rereads_memberTail {s₀ s₁ : ParseState} {before : List Green} {name : Green}
    {post : List Green → List Token → Prop} (hbefore : Rereads s₁.Meets s₀ before s₁ post)
    (hname : ∀ fit, Rereads fit s₁ [name] s (IsToken .identifier)) :
    (memberTail before name).Ensures s fun n s' =>
      Rereads s'.Meets s₀ [n] s' (IsTailed post) := by
  have grouped {k : Kind} (hk : k.isSteady = true) {parts : List Green} {s' : ParseState}
      {post' : List Green → List Token → Prop} (hparts : Rereads s'.Meets s parts s' post')
      (hgives : ∀ before t ms rest, s.Meets (ms.flatMap Node.tokens ++ rest) → s'.Meets rest →
        post' ms rest → (memberTail before (.leaf t)).Gives (ms.flatMap Node.tokens)
          (.group k (before ++ Green.leaf t :: ms)) rest) :
      Rereads s'.Meets s₀ [.group k (before ++ name :: parts)] s' (IsTailed post) := by
    refine ((hbefore.append ((hname _).append hparts)).branch k hk).mono
      fun _ rest hrest _ hns => ?_
    obtain ⟨_, rfl, before', _, rfl, hpost, -, _, ms, rfl, ⟨t, rfl, ht⟩, hmeets, hms⟩ := hns
    exact ⟨before', t, ms.flatMap Node.tokens, _, rfl, by simp, ht, by simpa using hpost,
      by simpa using hgives before' t ms rest hmeets hrest hms⟩
  simp only [memberTail, ensures_bind, ensures_get]
  split
  · rename_i hs
    simp only [ensures_bind, ensures_pure]
    refine Ensures.mono (rereads_parameterList s) fun parameters s₂ h₂ => ?_
    refine Ensures.mono (rereads_body s₂) fun b s₃ h₃ => ?_
    refine grouped rfl (h₂.append h₃) fun before t ms rest hmeets _ hms => ?_
    obtain ⟨_, b, rfl, ⟨p, rfl, -, hp⟩, -, -, hb⟩ := hms
    refine gives_memberTail (hmeets.kind.trans hs) ?_
    simpa [-bind_pure_comp] using Gives.bind (hp trivial) (hb trivial).map
  · rename_i hs
    simp only [ensures_bind, ensures_sees, ensures_ite, ensures_pure]
    refine Ensures.mono (rereads_accessorList hs) fun accessors s₂ h₂ =>
      ⟨fun hvalue => ?_, fun hvalue => ?_⟩
    · have hvalue := beq_iff_eq.1 hvalue
      refine Ensures.mono (rereads_equalsValue _ hvalue) fun value s₃ h₃ => ?_
      refine (rereads_expect .semicolon s₃ (by simp)).mono fun semicolon s₄ h₄ => ?_
      refine grouped rfl (h₂.append (h₃.append (h₄ _))) fun before t ms rest hmeets _ hms => ?_
      obtain ⟨_, _, rfl, ⟨p, rfl, -, hp⟩, hequals, _, _, rfl, ⟨v, rfl, -, hv⟩, -, u, rfl, hu⟩ := hms
      refine gives_memberTail (hmeets.kind.trans hs) ?_
      have htokens : ([p] ++ ([v] ++ [Green.leaf u])).flatMap Node.tokens =
          p.tokens ++ (v.tokens ++ [u]) := by simp
      rw [htokens]
      refine Gives.bind (a := p) (by simpa using hp trivial) ?_
      apply gives_sees
      rw [if_pos (by simpa [hvalue] using hequals.kind)]
      exact Gives.bind (hv (by simp [hu])) (gives_expect hu rest).map
    · refine grouped rfl h₂ fun before t ms rest hmeets hrest hms => ?_
      obtain ⟨p, rfl, -, hp⟩ := hms
      refine gives_memberTail (hmeets.kind.trans hs) ?_
      rw [show [p].flatMap Node.tokens = p.tokens by simp]
      refine Gives.bind_nil (hp trivial) ?_
      apply gives_sees
      rw [if_neg (by simpa [hrest.kind] using hvalue)]
      exact gives_pure _ rest
  · rename_i hs
    simp only [ensures_bind, ensures_pure]
    refine Ensures.mono (rereads_arrowClause hs) fun clause s₂ h₂ => ?_
    refine (rereads_expect .semicolon s₂ (by simp)).mono fun semicolon s₃ h₃ => ?_
    refine grouped rfl (h₂.append (h₃ _)) fun before t ms rest hmeets _ hms => ?_
    obtain ⟨_, _, rfl, ⟨p, rfl, -, hp⟩, -, u, rfl, hu⟩ := hms
    refine gives_memberTail (hmeets.kind.trans hs) ?_
    simpa [-bind_pure_comp] using Gives.bind (hp (by simp [hu])) (gives_expect hu rest).map
  · simp only [ensures_bind, ensures_pure]
    refine (rereads_declarator _ (hname _)).mono fun first s₂ h₂ => ?_
    refine (rereads_moreDeclarators _ s₂).mono fun others s₃ h₃ => ?_
    refine (rereads_expect .semicolon s₃ (by simp)).mono fun semicolon s₄ h₄ => ?_
    have hall := (hbefore.append (h₂.append (h₃.append (h₄ s₄.Meets)))).branch .fieldDeclaration rfl
    rw [show before ++ first :: others ++ [semicolon] =
      before ++ ([first] ++ (others ++ [semicolon])) by simp]
    refine hall.mono fun _ rest hrest _ hns => ?_
    obtain ⟨_, rfl, before', _, rfl, hpost, -, _, _, rfl,
      ⟨t, ts, d, rfl, hd, ht, hmeets, hfirst⟩, -, ds, _, rfl, hds, -, u, rfl, hu⟩ := hns
    refine ⟨before', t, ts ++ (ds.flatMap Node.tokens ++ [u]), _, rfl, by simp [hd], ht,
      by simpa [hd] using hpost, ?_⟩
    obtain ⟨hfollow, hothers⟩ := hds (by simp [hu])
    refine gives_memberTail (k := s.kind) (by simpa using hmeets.kind) ?_
    have hgives : Gives (do
        let first ← declarator maxParseDepth (.leaf t)
        let others ← moreDeclarators maxParseDepth
        return Green.group .fieldDeclaration (before' ++ first :: others ++ [← expect .semicolon]))
        (ts ++ (ds.flatMap Node.tokens ++ [u]))
        (Green.group .fieldDeclaration (before' ++ d :: ds ++ [Green.leaf u])) rest := by
      refine Gives.bind (a := d) ?_ (Gives.bind hothers (gives_expect hu rest).map)
      simpa using hfirst (by simpa using hfollow)
    split
    all_goals first | contradiction | simpa using hgives

/-- Two tokens are seen ahead of a type as they were, if they are not seen where it ends. -/
theorem kinds_ahead_of_type {s u : ParseState} {ts ts' us us' : List Token} {k : Kind}
    (hs : s.tokens = ts ++ us) (hu : u.tokens = ts' ++ us')
    (hkinds : ts'.map Token.kind = ts.map Token.kind) (hne : ts' ≠ []) (hk : kindOf us' ≠ k)
    (h : ¬(s.kind = .identifier ∧ s.nextKind = k)) :
    ¬(u.kind = .identifier ∧ u.nextKind = k) := by
  rintro ⟨hname, hnext⟩
  cases ts' with
  | nil => exact hne rfl
  | cons a ts' =>
    obtain ⟨a₀, ts₀, rfl, ha, hts⟩ := List.map_eq_cons_iff.1 hkinds.symm
    rw [u.nextKind_eq hu] at hnext
    cases ts' with
    | nil => exact hk hnext
    | cons b ts' =>
      obtain ⟨b₀, ts₀, rfl, hb, -⟩ := List.map_eq_cons_iff.1 hts
      refine h ⟨?_, ?_⟩
      · rw [← hname, s.kind_eq, hs, u.kind_eq, hu]
        exact ha
      · rw [s.nextKind_eq hs, ← hnext]
        exact hb

end NullLint.Parser
