import NullLint.Proofs.Reparsing.Members

/-!
# Declarations are read again

Types and namespaces are read with a depth that the number of tokens left gives, which is less once
null operators are lost. Any depth from the number of tokens of a declaration on will do
(`IsGivenFrom`). From its items, a file without errors is read again (`rereads_compilationUnit`).
-/

namespace NullLint.Parser

open Lookahead

variable {s : ParseState}

/-! ## Members -/

/-- A type declaration that begins with nodes of which `post` holds, and behind them, in `s`, is
read at each depth from the number of tokens there on. -/
def IsTypeBehind (s : ParseState) (post : List Green → List Token → Prop) (ns : List Green)
    (rest : List Token) : Prop :=
  ∃ (words : List Green) (ts : List Token) (n : Green), ns = [n] ∧
    n.tokens = words.flatMap Node.tokens ++ ts ∧ ts ≠ [] ∧ post words (ts ++ rest) ∧
    s.Meets (ts ++ rest) ∧ ∀ d, ts.length ≤ d → (typeDeclarationNested d words).Gives ts n rest

/-- What a parser of type declarations reads is read again, with the modifiers before it. -/
def RereadsTypeBehind (p : List Green → Parser Green) : Prop :=
  ∀ s₀ words s post, AtTypeKeyword s → Rereads s.Meets s₀ words s post →
    (p words).Ensures s fun n s' => Rereads s'.Meets s₀ [n] s' (IsTypeBehind s post)

theorem rereads_member {nested : List Green → Parser Green} (h : RereadsTypeBehind nested)
    (s : ParseState) : (member nested).Ensures s fun n s' =>
      Rereads s'.Meets s [n] s' (IsGivenFrom fun d => member (typeDeclarationNested d)) := by
  refine .of_eq (member.eq_1 nested) ?_
  simp only [ensures_bind, ensures_get, ensures_ite, ensures_pure]
  refine (rereads_modifiers s).mono fun words s₁ h₁ => ?_
  refine ⟨fun hs => ?_, fun htype => ⟨fun hs => ?_, fun hname => ⟨fun hs => ?_, fun hs => ?_⟩⟩⟩
  · refine Ensures.mono (h s words s₁ _ hs h₁) fun n s₂ h₂ => h₂.mono fun _ rest _ _ hns => ?_
    obtain ⟨words, ts, m, rfl, hm, hts, ⟨-, hwords⟩, hmeets, hgives⟩ := hns
    refine ⟨m, rfl, by simp [hm, hts], fun d hd => ?_⟩
    rw [hm, List.length_append] at hd
    have hall : (member (typeDeclarationNested d)).Gives (words.flatMap Node.tokens ++ ts) m
        rest := by
      unfold member
      refine hwords.bind (gives_get fun u _ hu => ?_)
      have hk : u.kind = s₁.kind := hu.trans hmeets.kind
      rw [hk, if_pos hs]
      exact hgives d (by omega)
    simpa [hm] using hall
  · apply ((rereads_token hs.1 (by simp)).and (ensures_kind_advance s₁)).mono
    rintro name s₂ ⟨h₂, hs₂⟩
    refine Ensures.mono (rereads_parameterList s₂) fun parameters s₃ h₃ => ?_
    refine Ensures.mono (rereads_body s₃) fun b s₄ h₄ => ?_
    refine ((h₁.append ((h₂ _).append (h₃.append h₄))).branch .constructorDeclaration rfl).mono
      fun _ rest _ _ hns => ?_
    obtain ⟨_, rfl, words, _, rfl, ⟨-, hwords⟩, -, _, _, rfl, ⟨t, rfl, ht⟩, hmeets, _, b, rfl,
      ⟨p, rfl, -, hp⟩, -, -, hb⟩ := hns
    refine ⟨_, rfl, by simp, fun d _ => ?_⟩
    have hgives : (member (typeDeclarationNested d)).Gives
        (words.flatMap Node.tokens ++ (t :: (p.tokens ++ b.flatMap Node.tokens)))
        (.group .constructorDeclaration (words ++ Green.leaf t :: p :: b)) rest := by
      unfold member
      refine Gives.bind (by simpa using hwords) (gives_get fun u hu hk => ?_)
      have hk : u.kind = .identifier := hk.trans ht
      have hnext : u.nextKind = .openParen := by
        rw [u.nextKind_eq hu, ← hs.2, ← hs₂]
        simpa using hmeets.kind
      rw [if_neg (by simp [hk]), if_pos ⟨hk, hnext⟩]
      exact gives_advance_bind (Gives.bind (hp trivial) (hb trivial).map)
    simpa using hgives
  · refine (rereads_type s₁).mono fun declared s₂ h₂ => ?_
    refine (rereads_expect .identifier s₂ (by simp)).mono fun name s₃ h₃ => ?_
    refine (rereads_memberTail (h₁.append h₂.tokens_eq) h₃).mono fun n s₄ h₄ =>
      h₄.mono fun _ rest _ _ hns => ?_
    obtain ⟨_, t, ts, m, rfl, hm, ht, ⟨words, _, rfl, ⟨-, hwords⟩, hmeets, htokens, declared', rfl,
      hne, hkinds, hd⟩, hgives⟩ := hns
    refine ⟨m, rfl, by simp [hm], fun d _ => ?_⟩
    have hall : (member (typeDeclarationNested d)).Gives
        (words.flatMap Node.tokens ++ (declared'.tokens ++ (t :: ts))) m rest := by
      unfold member
      refine Gives.bind (by simpa using hwords) (gives_get fun u hu hk => ?_)
      have hk : u.kind = s₁.kind := by
        rw [hk, ← hmeets.kind]
        simp
      have hconstructor : ¬(u.kind = .identifier ∧ u.nextKind = .openParen) :=
        kinds_ahead_of_type (by simpa using htokens) (by rw [hu, List.append_assoc]) hkinds hne
          (by simp [ht]) hname
      have hstarts : startsType u = true := by
        rw [startsType, hk]
        exact hs
      rw [if_neg (hk ▸ htype), if_neg hconstructor, if_pos hstarts]
      refine Gives.bind (by simpa using hd (by simp [ht, endsType])) ?_
      exact gives_expect_bind ht hgives
    simpa [hm] using hall
  · have hne : s₁.kind ≠ .identifier := by
      intro hk
      simp [startsType, hk] at hs
    refine (makes_expect_of_ne (L := 0) hne rfl).mono fun name s₂ h₂ => ?_
    exact .of_not_quiet fun hq => h₂.2 hq

theorem rereads_baseList (s : ParseState) : baseList.Ensures s fun ns s' =>
    Rereads s'.Meets s ns s' fun ms rest => endsType (kindOf rest) = true →
      baseList.Gives (ms.flatMap Node.tokens) ms rest := by
  refine .of_eq baseList.eq_1 ?_
  simp only [ensures_bind, ensures_sees, ensures_ite, ensures_pure]
  refine ⟨fun hs => ?_, fun hs => ?_⟩
  · refine (rereads_token (beq_iff_eq.1 hs) (by simp)).mono fun colon s₁ h₁ => ?_
    have htype (s : ParseState) : RereadsBefore (fun k => endsType k = true) type s :=
      rereads_typeNested (Nat.le_refl _) s
    have htypes := rereads_commaSeparated (fun s => rereads_single (htype s)) rfl s₁
    refine Ensures.mono htypes fun types s₂ h₂ => ((h₁ _).append h₂).mono fun _ rest _ _ hns => ?_
    obtain ⟨_, ms, rfl, ⟨t, rfl, ht⟩, -, -, hms⟩ := hns
    intro hk
    unfold baseList
    apply gives_sees
    rw [if_pos (by simpa using ht)]
    exact gives_advance_bind (hms hk).map
  · refine (Rereads.nil s).mono fun ms rest hrest _ hms _ => ?_
    subst hms
    unfold baseList
    apply gives_sees
    rw [if_neg (by simpa [hrest.kind] using hs)]
    exact gives_pure _ rest

/-! ## Type declarations -/

theorem rereads_typeDeclarationWith {nested : List Green → Parser Green}
    (h : RereadsTypeBehind nested) : RereadsTypeBehind (typeDeclarationWith nested) := by
  intro s₀ words s post hs hwords
  have hend : s.kind ≠ .endOfFile := by
    rcases hs with hs | hs <;> simp [hs]
  have round (s : ParseState) (hs : (!endsList s) = true) :
      (element .invalidMemberToken do
        if startsMember (← get).kind then member nested else skip .invalidMemberToken).Ensures s
      fun ns s' => Rereads s'.Meets s ns s' fun ms rest => ms.flatMap Node.tokens ≠ [] ∧
        ∀ d, (ms.flatMap Node.tokens).length ≤ d → True → (element .invalidMemberToken do
          if startsMember (← get).kind then member (typeDeclarationNested d)
          else skip .invalidMemberToken).Gives (ms.flatMap Node.tokens) ms rest := by
    refine rereads_elements _ (p := fun d => do
      if startsMember (← get).kind then member (typeDeclarationNested d)
      else skip .invalidMemberToken) (by simp) ?_
    simp only [ensures_bind, ensures_get, ensures_ite]
    refine ⟨fun hstarts => ?_, fun _ => ?_⟩
    · refine Ensures.mono (rereads_member h s) fun n s₁ h₁ => h₁.mono fun ns rest _ hmeets hns => ?_
      obtain ⟨m, rfl, hne, hm⟩ := hns
      refine ⟨m, rfl, hne, fun d hd => gives_get fun u _ hu => ?_⟩
      have hk : u.kind = s.kind := by
        rw [hu, ← hmeets.kind]
        simp
      rw [hk, if_pos hstarts]
      exact hm d hd
    · exact (not_quiet_skip (by simp) (kind_ne_of_not_endsList hs)).mono
        fun _ _ hnot => .of_not_quiet hnot
  obtain ⟨k, hk, hsteady⟩ : ∃ k : Kind,
      (if s.kind = .structKeyword then .structDeclaration else .classDeclaration) = k ∧
        k.isSteady = true := by
    rcases hs with hs | hs <;> rw [hs] <;> exact ⟨_, rfl, rfl⟩
  simp only [typeDeclarationWith, ensures_bind, ensures_get, ensures_pure, hk]
  refine (rereads_advance hend).mono fun keyword s₁ h₁ => ?_
  refine (rereads_expect .identifier s₁ (by simp)).mono fun name s₂ h₂ => ?_
  refine (rereads_baseList s₂).mono fun bases s₃ h₃ => ?_
  refine (rereads_expect .openBrace s₃ (by simp)).mono fun opening s₄ h₄ => ?_
  have hmembers := rereads_collectWhile (fun _ => True)
    (q := fun k => !(k == .closeBrace || k == .endOfFile)) (fun _ _ => trivial) round s₄
  refine hmembers.mono fun members s₅ h₅ => ?_
  refine (rereads_expect .closeBrace s₅ (by simp)).mono fun closing s₆ h₆ => ?_
  have hall := (hwords.append ((h₁ _).append ((h₂ _).append (h₃.append ((h₄ _).append
    (h₅.append (h₆ s₆.Meets))))))).branch k hsteady
  rw [show words ++ keyword :: name :: bases ++ opening :: members ++ [closing] = words ++
    ([keyword] ++ ([name] ++ (bases ++ ([opening] ++ (members ++ [closing]))))) by simp]
  refine hall.mono fun _ rest _ _ hns => ?_
  obtain ⟨_, rfl, words', _, rfl, hpost, hmeets, _, _, rfl, ⟨t, rfl, ht⟩, -, _, _, rfl,
    ⟨u, rfl, hu⟩, -, bases', _, rfl, hbases, -, _, _, rfl, ⟨v, rfl, hv⟩, -, members', _, rfl,
    hmembers, -, w, rfl, hw⟩ := hns
  refine ⟨words',
    t :: u :: (bases'.flatMap Node.tokens ++ (v :: (members'.flatMap Node.tokens ++ [w]))), _, rfl,
    by simp, by simp, by simpa using hpost, by simpa using hmeets, fun d hd => ?_⟩
  cases d with
  | zero => simp at hd
  | succ d =>
    simp only [List.length_cons, List.length_append] at hd
    have hgives : (typeDeclarationNested (d + 1) words').Gives
        (t :: u :: (bases'.flatMap Node.tokens ++ (v :: (members'.flatMap Node.tokens ++ [w]))))
        (.group k (words' ++ Green.leaf t :: Green.leaf u :: bases' ++ Green.leaf v :: members' ++
          [Green.leaf w])) rest := by
      unfold typeDeclarationNested typeDeclarationWith
      refine gives_get fun z _ hz => ?_
      have hz : z.kind = s.kind := hz.trans ht
      simp only [hz, hk]
      refine gives_advance_bind (gives_expect_bind hu (Gives.bind (a := bases') ?_
        (gives_expect_bind hv (Gives.bind ?_ (gives_expect hw rest).map))))
      · simpa using hbases (by simp [hv, endsType])
      · exact (hmembers d (by omega) trivial).2
    simpa using hgives

theorem rereads_typeDeclarationNested (depth : Nat) :
    RereadsTypeBehind (typeDeclarationNested depth) := by
  induction depth with
  | zero =>
    intro s₀ words s post hs _
    have hkind : (complain .invalidMemberToken s).2.kind ≠ .endOfFile := by
      rcases hs with hs | hs <;> simp [complain, hs]
    exact .of_not_quiet fun hq => s.not_quiet_report _ ((builds_advance hkind).quiet hq)
  | succ depth ih => exact rereads_typeDeclarationWith ih

/-- Behind modifiers the keyword of a type is seen ahead. -/
theorem typeDeclarationAhead_of_tokens {s u : ParseState} {words ts : List Token}
    (hu : u.tokens = words ++ ts) (hwords : ∀ t ∈ words, t.kind.isModifier = true)
    (hs : AtTypeKeyword s) (hk : kindOf ts = s.kind) : typeDeclarationAhead u = true := by
  obtain ⟨ls, rest, hrest, rfl, rfl⟩ := List.map_eq_append_iff.1 hu
  have hls : ∀ l ∈ ls, l.kind.isModifier = true := fun l hl => hwords _ (List.mem_map_of_mem hl)
  rw [typeDeclarationAhead, hrest, List.dropWhile_append_of_pos hls]
  cases rest with
  | nil => rcases hs with hs | hs <;> simp [hs, kindOf] at hk
  | cons l rest =>
    have hl : l.kind = s.kind := hk
    rcases hs with hs | hs <;> simp [hl, hs, Kind.isModifier]

theorem rereads_typeDeclaration (hs : typeDeclarationAhead s = true) :
    typeDeclaration.Ensures s fun n s' => Rereads s'.Meets s [n] s' fun ms rest =>
      ∃ m : Green, ms = [m] ∧ m.tokens ≠ [] ∧ typeDeclaration.Gives m.tokens m rest ∧
        ∀ u : ParseState, u.tokens = m.tokens ++ rest → typeDeclarationAhead u = true := by
  refine .of_eq typeDeclaration.eq_1 ?_
  simp only [ensures_bind, ensures_get]
  apply ((rereads_modifiers s).and (rest_modifiers s)).mono
  rintro words s₁ ⟨h₁, hrest⟩
  have hkeyword := atTypeKeyword_of_ahead hs hrest
  refine Ensures.mono (rereads_typeDeclarationNested _ s words s₁ _ hkeyword h₁) fun n s₂ h₂ =>
    h₂.mono fun _ rest _ _ hns => ?_
  obtain ⟨words, ts, m, rfl, hm, hts, ⟨hmodifiers, hwords⟩, hmeets, hgives⟩ := hns
  refine ⟨m, rfl, by simp [hm, hts], ?_, fun u hu => ?_⟩
  · have hall : typeDeclaration.Gives (words.flatMap Node.tokens ++ ts) m rest := by
      unfold typeDeclaration
      refine hwords.bind (gives_get fun u hu _ => hgives _ ?_)
      rw [← u.length_tokens, hu, List.length_append]
      omega
    simpa [hm] using hall
  · rw [hm, List.append_assoc] at hu
    exact typeDeclarationAhead_of_tokens hu hmodifiers hkeyword hmeets.kind

/-! ## Files -/

theorem rereads_usingDirective (hs : s.kind = .usingKeyword) :
    RereadsBefore (fun _ => True) usingDirective s := by
  refine .of_eq usingDirective.eq_1 ?_
  simp only [ensures_bind, ensures_get, ensures_ite, ensures_pure]
  refine (rereads_token hs (by simp)).mono fun keyword s₁ h₁ => ?_
  refine (rereads_accepted .staticKeyword s₁ (by simp)).mono
    fun static s₂ h₂ => ⟨fun hs => ?_, fun hplain => ?_⟩
  · apply ((rereads_token hs.1 (by simp)).and (ensures_kind_advance s₂)).mono
    rintro name s₃ ⟨h₃, hs₃⟩
    refine (rereads_token (hs₃.trans hs.2) (by simp)).mono fun equals s₄ h₄ => ?_
    refine (rereads_type s₄).mono fun target s₅ h₅ => ?_
    refine (rereads_expect .semicolon s₅ (by simp)).mono fun semicolon s₆ h₆ => ?_
    have hall := (h₁ _).append (h₂.append ((h₃ _).append ((h₄ _).append (h₅.append (h₆ s₆.Meets)))))
    rw [show keyword :: static ++ [name, equals] ++ [target, semicolon] = [keyword] ++ (static ++
      ([name] ++ ([equals] ++ ([target] ++ [semicolon])))) by simp]
    refine hall.given rfl fun ns rest _ _ hns => ?_
    obtain ⟨_, _, rfl, ⟨t, rfl, ht⟩, -, static', _, rfl, hstatic, hmeets, _, _, rfl, ⟨u, rfl, hu⟩,
      hmeets', _, _, rfl, ⟨v, rfl, hv⟩, -, _, _, rfl, ⟨d, rfl, hne, -, hd⟩, -, w, rfl, hw⟩ := hns
    have hgives : usingDirective.Gives
        (t :: (static'.flatMap Node.tokens ++ (u :: v :: (d.tokens ++ [w]))))
        (.group .usingDirective (Green.leaf t :: static' ++ [Green.leaf u, Green.leaf v] ++
          [d, Green.leaf w])) rest := by
      unfold usingDirective
      refine gives_advance_bind (Gives.bind (a := static') (by simpa using hstatic)
        (gives_get fun z hz hk => ?_))
      have hk : z.kind = .identifier := hk.trans hu
      have hnext : z.nextKind = .equals := (z.nextKind_eq hz).trans hv
      rw [if_pos ⟨hk, hnext⟩]
      refine gives_advance_bind (gives_advance_bind (gives_pure_bind ?_))
      exact Gives.bind (by simpa using hd (by simp [hw, endsType])) (gives_expect hw rest).map
    exact ⟨by simp, fun _ => by simpa using hgives⟩
  · refine (rereads_type s₂).mono fun target s₃ h₃ => ?_
    refine (rereads_expect .semicolon s₃ (by simp)).mono fun semicolon s₄ h₄ => ?_
    have hall := (h₁ _).append (h₂.append (h₃.tokens_eq.append (h₄ s₄.Meets)))
    rw [show keyword :: static ++ [] ++ [target, semicolon] =
      [keyword] ++ (static ++ ([target] ++ [semicolon])) by simp]
    refine hall.given rfl fun ns rest _ _ hns => ?_
    obtain ⟨_, _, rfl, ⟨t, rfl, ht⟩, -, static', _, rfl, hstatic, hmeets, _, _, rfl,
      ⟨htokens, d, rfl, hne, hkinds, hd⟩, -, w, rfl, hw⟩ := hns
    have hgives : usingDirective.Gives (t :: (static'.flatMap Node.tokens ++ (d.tokens ++ [w])))
        (.group .usingDirective (Green.leaf t :: static' ++ [] ++ [d, Green.leaf w])) rest := by
      unfold usingDirective
      refine gives_advance_bind (Gives.bind (a := static') (by simpa using hstatic)
        (gives_get fun z hz _ => ?_))
      have hno : ¬(z.kind = .identifier ∧ z.nextKind = .equals) :=
        kinds_ahead_of_type (by simpa using htokens) (by rw [hz, List.append_assoc]) hkinds hne
          (by simp [hw]) hplain
      rw [if_neg hno]
      refine gives_pure_bind ?_
      exact Gives.bind (by simpa using hd (by simp [hw, endsType])) (gives_expect hw rest).map
    exact ⟨by simp, fun _ => by simpa using hgives⟩

/-- The kind of the first token, and lookahead, tell which member of a namespace is read. -/
theorem gives_namespaceMember {nested : Parser Green} {k : Kind} {ts rest : List Token} {n : Green}
    (hk : kindOf (ts ++ rest) = k)
    (hn : ∀ u : ParseState, u.tokens = ts ++ rest → Gives (match k with
      | .usingKeyword => usingDirective
      | .namespaceKeyword => nested
      | _ => if typeDeclarationAhead u then typeDeclaration else skip .namespaceMemberExpected)
      ts n rest) : (namespaceMember nested).Gives ts n rest := by
  unfold namespaceMember
  apply gives_get
  intro u hu huk
  rw [huk, hk]
  exact hn u hu

/-- What a parser of namespaces reads is read again at each depth from the number of its tokens
on. -/
def RereadsNamespace (nested : Parser Green) : Prop :=
  ∀ s, s.kind = .namespaceKeyword → nested.Ensures s fun n s' =>
    Rereads s'.Meets s [n] s' (IsGivenFrom namespaceNested)

theorem rereads_namespaceMember {nested : Parser Green} (h : RereadsNamespace nested)
    (hs : s.kind ≠ .endOfFile) : (namespaceMember nested).Ensures s fun n s' =>
      Rereads s'.Meets s [n] s' (IsGivenFrom fun d => namespaceMember (namespaceNested d)) := by
  refine .of_eq (namespaceMember.eq_1 nested) ?_
  simp only [ensures_bind, ensures_get]
  split
  · rename_i hk
    refine Ensures.mono (rereads_usingDirective hk) fun n s₁ h₁ =>
      h₁.mono fun ns rest _ hmeets hns => ?_
    obtain ⟨m, rfl, hne, hm⟩ := hns
    have hk : kindOf (m.tokens ++ rest) = .usingKeyword := by simpa [hk] using hmeets.kind
    exact ⟨m, rfl, hne, fun d _ => gives_namespaceMember hk fun _ _ => hm trivial⟩
  · rename_i hk
    refine Ensures.mono (h s hk) fun n s₁ h₁ => h₁.mono fun ns rest _ hmeets hns => ?_
    obtain ⟨m, rfl, hne, hm⟩ := hns
    have hk : kindOf (m.tokens ++ rest) = .namespaceKeyword := by simpa [hk] using hmeets.kind
    exact ⟨m, rfl, hne, fun d hd => gives_namespaceMember hk fun _ _ => hm d hd⟩
  · rw [ensures_ite]
    refine ⟨fun hahead => ?_, fun _ => ?_⟩
    · refine (rereads_typeDeclaration hahead).mono fun n s₁ h₁ =>
        h₁.mono fun ns rest _ hmeets hns => ?_
      obtain ⟨m, rfl, hne, hm, hagain⟩ := hns
      have hk : kindOf (m.tokens ++ rest) = s.kind := by simpa using hmeets.kind
      refine ⟨m, rfl, hne, fun d _ => gives_namespaceMember hk fun u hu => ?_⟩
      split
      all_goals first | contradiction | skip
      rwa [if_pos (hagain u hu)]
    · exact (not_quiet_skip (by simp) hs).mono fun _ _ hnot => .of_not_quiet hnot

theorem rereads_namespaceWith {nested : Parser Green} (h : RereadsNamespace nested)
    (hs : s.kind = .namespaceKeyword) : (namespaceWith nested).Ensures s fun n s' =>
      Rereads s'.Meets s [n] s' (IsGivenFrom namespaceNested) := by
  have items {q : Kind → Bool} (hq : ∀ k, q k = true → k ≠ .endOfFile) (s : ParseState) :=
    rereads_collectWhile (fun _ => True) (q := q) (fun _ _ => trivial)
      (fun s hs => rereads_elements .namespaceMemberExpected (by simp)
        (rereads_namespaceMember h (hq s.kind hs))) s
  refine .of_eq (namespaceWith.eq_1 nested) ?_
  simp only [ensures_bind, ensures_sees, ensures_ite, ensures_pure]
  refine (rereads_token hs (by simp)).mono fun keyword s₁ h₁ => ?_
  refine (rereads_type s₁).mono fun name s₂ h₂ => ⟨fun hfile => ?_, fun hfile => ?_⟩
  · refine (rereads_token (beq_iff_eq.1 hfile) (by simp)).mono fun semicolon s₃ h₃ => ?_
    refine (items (q := fun k => k != .endOfFile) (by simp) s₃).mono fun members s₄ h₄ => ?_
    refine (((h₁ _).append (h₂.append ((h₃ _).append h₄))).branch .namespaceDeclaration rfl).mono
      fun _ rest _ _ hns => ?_
    obtain ⟨_, rfl, _, _, rfl, ⟨t, rfl, ht⟩, -, _, _, rfl, ⟨d, rfl, hne, -, hd⟩, -, _, members',
      rfl, ⟨u, rfl, hu⟩, -, hmembers⟩ := hns
    refine ⟨_, rfl, by simp, fun depth hdepth => ?_⟩
    cases depth with
    | zero => simp at hdepth
    | succ depth =>
      simp only [Green.group, Node.tokens_branch, List.flatMap_append, List.flatMap_cons,
        List.flatMap_nil, Node.tokens_token, List.length_append, List.length_cons,
        List.length_nil] at hdepth
      have hgives : (namespaceNested (depth + 1)).Gives
          (t :: (d.tokens ++ (u :: members'.flatMap Node.tokens)))
          (.group .namespaceDeclaration (.leaf t :: d :: .leaf u :: members')) rest := by
        unfold namespaceNested namespaceWith
        refine gives_advance_bind (Gives.bind (a := d) ?_ (gives_sees ?_))
        · simpa using hd (by simp [hu, endsType])
        · rw [if_pos (by simpa using hu)]
          exact gives_advance_bind (hmembers depth (by omega) trivial).2.map
      simpa using hgives
  · refine (rereads_expect .openBrace s₂ (by simp)).mono fun opening s₃ h₃ => ?_
    refine (items (q := fun k => !(k == .closeBrace || k == .endOfFile)) (by simp) s₃).mono
      fun members s₄ h₄ => ?_
    refine (rereads_expect .closeBrace s₄ (by simp)).mono fun closing s₅ h₅ => ?_
    rw [show keyword :: name :: opening :: members ++ [closing] =
      [keyword] ++ ([name] ++ ([opening] ++ (members ++ [closing]))) by simp]
    refine (((h₁ _).append (h₂.append ((h₃ _).append (h₄.append (h₅ _))))).branch
      .namespaceDeclaration rfl).mono fun _ rest _ _ hns => ?_
    obtain ⟨_, rfl, _, _, rfl, ⟨t, rfl, ht⟩, -, _, _, rfl, ⟨d, rfl, hne, -, hd⟩, -, _, _, rfl,
      ⟨u, rfl, hu⟩, -, members', _, rfl, hmembers, -, v, rfl, hv⟩ := hns
    refine ⟨_, rfl, by simp, fun depth hdepth => ?_⟩
    cases depth with
    | zero => simp at hdepth
    | succ depth =>
      simp only [Green.group, Node.tokens_branch, List.flatMap_append, List.flatMap_cons,
        List.flatMap_nil, Node.tokens_token, List.length_append, List.length_cons,
        List.length_nil] at hdepth
      have hgives : (namespaceNested (depth + 1)).Gives
          (t :: (d.tokens ++ (u :: (members'.flatMap Node.tokens ++ [v]))))
          (.group .namespaceDeclaration (Green.leaf t :: d :: Green.leaf u :: members' ++
            [Green.leaf v])) rest := by
        unfold namespaceNested namespaceWith
        refine gives_advance_bind (Gives.bind (a := d) ?_ (gives_sees ?_))
        · simpa using hd (by simp [hu, endsType])
        · rw [if_neg (by simp [hu])]
          refine gives_expect_bind hu (Gives.bind ?_ (gives_expect hv rest).map)
          exact (hmembers depth (by omega) trivial).2
      simpa using hgives

theorem rereads_namespaceNested (depth : Nat) : RereadsNamespace (namespaceNested depth) := by
  induction depth with
  | zero =>
    intro s hs
    exact (not_quiet_skip (by simp) (by simp [hs])).mono fun _ _ hnot => .of_not_quiet hnot
  | succ depth ih => exact fun s hs => rereads_namespaceWith ih hs

theorem rereads_namespaceDeclaration (hs : s.kind = .namespaceKeyword) :
    RereadsBefore (fun _ => True) namespaceDeclaration s := by
  refine .of_eq namespaceDeclaration.eq_1 ?_
  simp only [ensures_bind, ensures_get]
  refine Ensures.mono (rereads_namespaceNested _ s hs) fun n s₁ h₁ =>
    h₁.mono fun ns rest _ _ hns => ?_
  obtain ⟨m, rfl, hne, hm⟩ := hns
  refine ⟨m, rfl, hne, fun _ => ?_⟩
  unfold namespaceDeclaration
  refine gives_get fun u hu _ => hm _ ?_
  rw [← u.length_tokens, hu, List.length_append]
  omega

theorem gives_topLevelItem {k : Kind} {ts rest : List Token} {n : Green}
    (hk : kindOf (ts ++ rest) = k)
    (hn : ∀ u : ParseState, u.tokens = ts ++ rest → Gives (match k with
      | .usingKeyword => usingDirective
      | .namespaceKeyword => namespaceDeclaration
      | k =>
        if typeDeclarationAhead u then typeDeclaration
        else if startsStatement k then statement maxParseDepth
        else skip .namespaceMemberExpected) ts n rest) : topLevelItem.Gives ts n rest := by
  unfold topLevelItem
  apply gives_get
  intro u hu huk
  rw [huk, hk]
  exact hn u hu

/-- Where a statement begins no type declaration is ahead. -/
theorem typeDeclarationAhead_of_startsStatement {u : ParseState}
    (h : startsStatement u.kind = true) : typeDeclarationAhead u = false := by
  unfold typeDeclarationAhead
  unfold ParseState.kind at h
  cases hrest : u.rest with
  | nil => rfl
  | cons l rest =>
    rw [hrest, kindAhead_cons] at h
    have hmodifier : l.kind.isModifier = false := by
      revert h
      cases l.kind <;> decide
    rw [List.dropWhile_cons_of_neg (by simp [hmodifier])]
    revert h
    simp only [kindAhead_cons]
    cases l.kind <;> decide

theorem rereads_topLevelItem (hs : s.kind ≠ .endOfFile) :
    RereadsBefore (fun _ => True) topLevelItem s := by
  refine .of_eq topLevelItem.eq_1 ?_
  simp only [ensures_bind, ensures_get]
  split
  · rename_i hk
    exact Ensures.mono (rereads_usingDirective hk) fun _ _ hn =>
      hn.given_of fun _ _ hk' hm => gives_topLevelItem (hk'.trans hk) fun _ _ => hm
  · rename_i hk
    exact Ensures.mono (rereads_namespaceDeclaration hk) fun _ _ hn =>
      hn.given_of fun _ _ hk' hm => gives_topLevelItem (hk'.trans hk) fun _ _ => hm
  · simp only [ensures_ite]
    refine ⟨fun hahead => ?_, fun _ => ⟨fun hstarts => ?_, fun _ => ?_⟩⟩
    · refine (rereads_typeDeclaration hahead).mono fun n s₁ h₁ =>
        h₁.mono fun ns rest _ hmeets hns => ?_
      obtain ⟨m, rfl, hne, hm, hagain⟩ := hns
      have hk : kindOf (m.tokens ++ rest) = s.kind := by simpa using hmeets.kind
      refine ⟨m, rfl, hne, fun _ => gives_topLevelItem hk fun u hu => ?_⟩
      split
      all_goals first | contradiction | skip
      rwa [if_pos (hagain u hu)]
    · refine Ensures.mono (rereads_statement _ s) fun _ _ hn => hn.given_of fun m rest hk hm => ?_
      refine gives_topLevelItem hk fun u hu => ?_
      have hku : u.kind = s.kind := by rw [u.kind_eq, hu, hk]
      have hahead := typeDeclarationAhead_of_startsStatement (hku ▸ hstarts)
      split
      all_goals first | contradiction | skip
      rwa [if_neg (by simp [hahead]), if_pos hstarts]
    · exact (not_quiet_skip (by simp) hs).mono fun _ _ hnot => .of_not_quiet hnot

theorem depthOnRecord_advance (h : s.DepthOnRecord) : (advance s).2.DepthOnRecord := by
  unfold advance
  cases s.rest <;> exact h

/-- A file without errors is read again. -/
theorem rereads_compilationUnit (hs : ∃ l ∈ s.rest, l.kind = .endOfFile)
    (hdepth : s.DepthOnRecord) : compilationUnit.Ensures s fun n s' => s'.errors = [] →
      Reread (fun _ => True) s [n] s' (IsGiven (fun _ => True) compilationUnit) := by
  refine .of_eq compilationUnit.eq_1 ?_
  simp only [ensures_bind, ensures_pure]
  have item (s : ParseState) (hs : (s.kind != .endOfFile) = true) :
      RereadsList (fun _ => True) (element .namespaceMemberExpected topLevelItem) s :=
    rereads_item (by simp) (rereads_topLevelItem (by simpa using hs))
  have hitems := rereads_items _ (q := fun k => k != .endOfFile) (fun _ _ => trivial) item s
  apply ((makes_fileItems s).and hitems).mono
  rintro items s₁ ⟨⟨hmakes, hk⟩, h₁⟩
  obtain ⟨l, hl, -⟩ := hmakes.1.exists_endOfFile hs
  have hdepth₁ : advance.Ensures s₁ fun _ s' => s'.DepthOnRecord :=
    depthOnRecord_advance (hmakes.1.depthOnRecord hdepth)
  have hlast := (rereads_first (List.ne_nil_of_mem hl)).and hdepth₁
  apply hlast.mono
  rintro last s₂ ⟨h₂, hdepth₂⟩ herrors
  refine ((h₁.append (h₂ _)).given rfl fun ns rest _ _ hns => ?_) (hdepth₂.quiet herrors)
  obtain ⟨items, _, rfl, hitems, -, t, rfl, ht⟩ := hns
  have hgives : compilationUnit.Gives (items.flatMap Node.tokens ++ [t])
      (.group .compilationUnit (items ++ [Green.leaf t])) rest :=
    Gives.bind (hitems trivial).2 (gives_advance t rest).map
  exact ⟨by simp, fun _ => by simpa using hgives⟩

end NullLint.Parser
