import NullLint.Proofs.Reparsing.Lookahead
import NullLint.Proofs.Reparsing.Rules
import NullLint.Proofs.Syntax.Nesting

/-!
# Types are read again

There are no null operators in a type, so its tokens keep their kinds when the tree around it loses
some (`Node.Loses.kinds_eq`). Lookahead then sees the same lists of arguments in it, and the type is
read again (`rereads_type`).
-/

namespace NullLint

namespace Node

open Grammar

/-- A type has no null operators to lose. -/
theorem Loses.kinds_eq {n m : Green} (h : n.Loses m) (hconforms : n.Conforms)
    (hn : n.kind.isTypePart = true) : m.tokens.map Token.kind = n.tokens.map Token.kind := by
  induction n using Node.induction generalizing m with
  | token a t =>
    obtain ⟨u, rfl, hu⟩ := h.exists_token
    simpa using hu.kind
  | branch a k cs ih =>
    obtain ⟨hword, hcs⟩ := conforms_branch.1 hconforms
    have hk : Checker.isOperatorKind k = false := by
      revert hn
      simp only [kind_branch]
      cases k <;> decide
    obtain ⟨ds, rfl, hds⟩ := h.exists_branch hk
    have hparts : ∀ c ∈ cs, c.kind.isTypePart = true := fun c hc =>
      Kind.isTypePart_of_mayHold (.inl hn) (within_production k _ hword _ (List.mem_map_of_mem hc))
    have hkinds : ∀ c ∈ cs, ∀ d, c.Loses d → d.tokens.map Token.kind = c.tokens.map Token.kind :=
      fun c hc d hd => ih c hc hd (hcs c hc) (hparts c hc)
    simp only [tokens_branch, List.map_flatMap]
    clear hword hn h hconforms ih hcs hparts
    induction hds with
    | nil => rfl
    | @cons c d cs ds hc _ ih =>
      rw [List.flatMap_cons, List.flatMap_cons, hkinds c (by simp) d hc,
        ih fun c' hc' => hkinds c' (by simp [hc'])]

end Node

namespace Parser

open Lookahead Grammar

variable {s : ParseState}

/-- The lexemes of a state are split as its tokens are. -/
theorem exists_lexemes {ts us : List Token} (h : s.tokens = ts ++ us) :
    ∃ read rest, s.rest = read ++ rest ∧ read.map Lexeme.kind = ts.map Token.kind ∧
      kindAhead rest = kindOf us := by
  obtain ⟨read, rest, hrest, rfl, rfl⟩ := List.map_eq_append_iff.1 h
  refine ⟨read, rest, hrest, by simp [Lexeme.kind], ?_⟩
  cases rest <;> rfl

/-- A list of type arguments that was read is seen ahead again. -/
theorem typeArgumentsAhead_again {depth : Nat} (hdepth : depth ≤ maxParseDepth) {s' : ParseState}
    {list : Green} (hs : s.kind = .lessThan) (htokens : s.tokens = list.tokens ++ s'.tokens)
    (hread : argumentsEnd? (typeEnd? (depth + 1)) (s.rest.drop 1) = some s'.rest) {u : ParseState}
    {ts rest : List Token} (hu : u.tokens = ts ++ rest)
    (hkinds : ts.map Token.kind = list.tokens.map Token.kind) (hrest : kindOf rest = s'.kind) :
    typeArgumentsAhead u = true := by
  have hext := extends_typeEnd? (Nat.succ_le_succ hdepth)
  have hwithin := hext.arguments _ hread
  have htypes : ByKinds (fun k => k = .comma ∨ k = .greaterThan)
      (typeEnd? (maxParseDepth + 1)) := by
    intro ls rest hls hrest
    refine byKinds_typeEnd? _ ls rest hls ?_
    rcases hrest with hk | hk <;> simp [hk, endsType]
  obtain ⟨read, hsplit, -, hagain⟩ := htypes.arguments _ _ hwithin trivial
  obtain ⟨less, ls, hls⟩ := List.exists_cons_of_ne_nil (ne_nil_of_kind_ne (s := s) (by simp [hs]))
  have hless : less.kind = .lessThan := by rw [← hs, ParseState.kind, hls, kindAhead_cons]
  have hlist : list.tokens = less.token :: read.map Lexeme.token := by
    refine List.append_cancel_right (?_ : _ ++ s'.tokens = _ ++ s'.tokens)
    rw [← htokens, ParseState.tokens, hls, show ls = read ++ s'.rest by simpa [hls] using hsplit]
    simp [ParseState.tokens]
  obtain ⟨ls', rest', hrest', hkinds', hk⟩ := exists_lexemes hu
  rw [hkinds, hlist, List.map_cons, List.map_map] at hkinds'
  obtain ⟨less', read', rfl, hless', hread'⟩ := List.map_eq_cons_iff.1 hkinds'
  have hk' : u.kind = .lessThan := by
    rw [ParseState.kind, hrest', List.cons_append, kindAhead_cons, hless']
    exact hless
  have hagain := hagain read' rest' hread' (hk.trans hrest)
  simp [typeArgumentsAhead, hk', hrest', hagain]

/-! ## Simple types -/

/-- What `argument` reads as a type lookahead counts off, and it is read again. -/
structure Argument (argument : Parser Green) : Prop where
  rereads : ∀ s, RereadsBefore (fun k => endsType k = true) argument s
  foretold : ∃ depth, depth ≤ maxParseDepth ∧ Foretold (typeEnd? (depth + 1)) argument

theorem rereads_typeArguments {argument : Parser Green}
    (h : ∀ s, RereadsBefore (fun k => endsType k = true) argument s) (hs : s.kind = .lessThan) :
    RereadsAlone (typeArguments argument) s := by
  simp only [RereadsAlone, typeArguments, ensures_bind, ensures_pure]
  refine (rereads_token hs (by simp)).mono fun opening s₁ h₁ => ?_
  have htypes := rereads_commaSeparated (fun s => rereads_single (h s)) rfl s₁
  refine Ensures.mono htypes fun types s₂ h₂ => ?_
  refine (rereads_expect .greaterThan s₂ (by simp)).mono fun closing s₃ h₃ fit => ?_
  refine ((h₁ _).append (h₂.append (h₃ fit))).given rfl fun ns rest _ _ hns => ?_
  obtain ⟨_, _, rfl, ⟨t, rfl, ht⟩, -, ms, _, rfl, ⟨-, hms⟩, -, u, rfl, hu⟩ := hns
  refine ⟨by simp, fun _ => ?_⟩
  simp only [List.flatMap_append, List.flatMap_cons, List.flatMap_nil, Node.tokens_token,
    List.singleton_append, List.append_nil]
  have hends : endsType (kindOf (u :: rest)) = true := by simp [hu, endsType]
  exact gives_advance_bind (Gives.bind (hms (by simpa using hends)) (gives_expect hu rest).map)

theorem gives_simpleType_generic {argument : Parser Green} {t : Token} (ht : t.kind = .identifier)
    {ts rest : List Token} {list : Green} (hlist : (typeArguments argument).Gives ts list rest)
    (hahead : ∀ u : ParseState, u.tokens = ts ++ rest → typeArgumentsAhead u = true) :
    (simpleType (some argument)).Gives (t :: ts) (.group .genericName [.leaf t, list]) rest := by
  unfold simpleType
  apply gives_sees
  simp only [List.cons_append, kindOf_cons, ht, reduceCtorEq, beq_iff_eq, if_false]
  apply gives_expect_bind ht
  apply gives_get
  intro u hu _
  simpa only [hahead u hu, if_true] using hlist.map

theorem rereads_simpleType {argument : Option (Parser Green)} (h : ∀ p ∈ argument, Argument p)
    (s : ParseState) : RereadsBefore (· ≠ .lessThan) (simpleType argument) s := by
  refine .of_eq (simpleType.eq_1 argument) ?_
  simp only [ensures_bind, ensures_sees, ensures_ite, ensures_pure]
  constructor
  · intro hs
    refine (rereads_token (beq_iff_eq.1 hs) (by simp)).mono fun n s₁ h₁ => ?_
    refine (h₁ _).given rfl fun ns rest _ _ hns => ?_
    obtain ⟨t, rfl, ht⟩ := hns
    refine ⟨by simp, fun _ => ?_⟩
    unfold simpleType
    apply gives_sees
    simpa [ht] using (gives_advance t rest).map
  · intro _
    refine (rereads_expect .identifier s (by simp)).mono fun name s₁ h₁ => ?_
    have alone : Rereads s₁.Meets s [.group .predefinedOrNamedType [name]] s₁
        (IsGiven (· ≠ .lessThan) (simpleType argument)) := by
      refine (h₁ _).given rfl fun ns rest _ _ hns => ?_
      obtain ⟨t, rfl, ht⟩ := hns
      exact ⟨by simp, gives_simpleType_name argument ht⟩
    cases argument with
    | none => exact alone
    | some p =>
      simp only [ensures_bind, ensures_get, ensures_ite, ensures_pure]
      refine ⟨fun hahead => ?_, fun _ => alone⟩
      have hless := kind_of_typeArgumentsAhead hahead
      obtain ⟨hrereads, depth, hdepth, hforetold⟩ := h p rfl
      have hmakes := makes_typeArguments hless fun s => (hforetold s).mono fun _ _ hp => hp.1
      have hlist := Ensures.and (rereads_typeArguments hrereads hless)
        (hmakes.and (foretold_typeArguments hforetold s₁))
      apply hlist.mono
      rintro list s₂ ⟨h₂, hmakes, hread⟩
      refine .of_quiet fun hq => ((h₁ _).append (h₂ _).loses).given rfl
        fun ns rest hrest _ hns => ?_
      obtain ⟨_, _, rfl, ⟨t, rfl, ht⟩, -, hloses, list', rfl, hne, hgives⟩ := hns
      refine ⟨by simp, fun hless' => ?_⟩
      have hkinds : list'.tokens.map Token.kind = list.tokens.map Token.kind := by
        refine (List.forall₂_cons.1 hloses).1.kinds_eq (hmakes.1.conforms hq _ (by simp)) ?_
        have hk : list.kind = .typeArgumentList := by
          simpa using singleton_mem_oneOf (p := fun k => k == .typeArgumentList) |>.1 (hmakes.2 hq)
        rw [hk]
        rfl
      have htokens : s₁.tokens = list.tokens ++ s₂.tokens := by
        simpa using (h₂ s₂.Meets hq).tokens
      simpa using gives_simpleType_generic ht (hgives trivial) fun u hu =>
        typeArgumentsAhead_again hdepth hless htokens (hread hq) hu hkinds hrest.kind

/-! ## Types -/

theorem rereads_qualify {argument : Option (Parser Green)} (h : ∀ p ∈ argument, Argument p)
    (n : Green) (s : ParseState) : (qualify argument n).Ensures s
      (RereadsStep (· ≠ .lessThan) (fun k => k ≠ .lessThan ∧ k ≠ .dot) (qualify argument) n s) := by
  refine .of_eq (qualify.eq_1 argument n) ?_
  simp only [ensures_bind, ensures_get, ensures_ite, ensures_pure]
  constructor
  · rintro ⟨hdot, hname⟩
    apply ((rereads_token hdot (by simp)).and (ensures_kind_advance s)).mono
    rintro dot s₁ ⟨h₁, hk⟩
    refine Ensures.mono (rereads_simpleType h s₁) fun part s₂ h₂ => ?_
    refine ⟨by simp [hdot], .qualifiedName, _, rfl, rfl, ((h₁ _).append h₂).mono
      fun ns rest _ _ hns => ?_⟩
    obtain ⟨_, _, rfl, ⟨t, rfl, ht⟩, hmeets, part', rfl, -, hpart⟩ := hns
    refine ⟨by simp, fun m hless => ?_⟩
    unfold qualify
    apply gives_get
    intro u hu hku
    have hnext : u.nextKind = .identifier := by
      rw [u.nextKind_eq (by simpa using hu), ← hname, ← hk]
      simpa using hmeets.kind
    have hku : u.kind = .dot := by simpa [ht] using hku
    rw [if_pos ⟨hku, hnext⟩]
    simpa [-bind_pure_comp] using gives_advance_bind (hpart hless).map
  · intro hstop
    refine ⟨rfl, fun m rest hrest hk => ?_⟩
    unfold qualify
    apply gives_get
    intro u _ hu
    rw [if_neg (by simp [hu, hk.2])]
    exact gives_pure none rest

/-- A `?` or `[]` behind a type is read again, as no `.` is behind it. -/
theorem rereads_decorate (n : Green) (s : ParseState) : (decorate n).Ensures s
    (RereadsStep (fun k => k ≠ .lessThan ∧ k ≠ .dot) (fun k => endsType k = true) decorate n
      s) := by
  refine .of_eq (decorate.eq_1 n) ?_
  simp only [ensures_bind, ensures_get, ensures_ite, ensures_pure]
  refine ⟨fun hquestion => ?_, fun _ => ⟨fun hbrackets => ?_, fun hstop => ?_⟩⟩
  · refine (rereads_token hquestion.1 (by simp)).mono fun mark s₁ h₁ => ?_
    refine ⟨by simp [hquestion.1], .nullableType, _, rfl, rfl,
      (h₁ _).mono fun ns rest _ _ hns => ?_⟩
    obtain ⟨t, rfl, ht⟩ := hns
    refine ⟨by simp, fun m hk => ?_⟩
    unfold decorate
    apply gives_get
    intro u hu hku
    have hnext : u.nextKind ≠ .dot := by
      rw [u.nextKind_eq (by simpa using hu)]
      exact hk.2
    have hku : u.kind = .question := by simpa [ht] using hku
    rw [if_pos ⟨hku, fun hdot => hnext hdot.1⟩]
    simpa using (gives_advance t rest).map
  · apply ((rereads_token hbrackets.1 (by simp)).and (ensures_kind_advance s)).mono
    rintro opening s₁ ⟨h₁, hk⟩
    refine (rereads_token (hk.trans hbrackets.2) (by simp)).mono fun closing s₂ h₂ => ?_
    refine ⟨by simp [hbrackets.1], .arrayType, _, rfl, rfl,
      ((h₁ _).append (h₂ _)).mono fun ns rest _ _ hns => ?_⟩
    obtain ⟨_, _, rfl, ⟨t, rfl, ht⟩, -, v, rfl, hv⟩ := hns
    refine ⟨by simp, fun m _ => ?_⟩
    unfold decorate
    apply gives_get
    intro u hu hku
    have hku : u.kind = .openBracket := by simpa [ht] using hku
    have hnext : u.nextKind = .closeBracket := by
      rw [u.nextKind_eq (by simpa using hu)]
      exact hv
    rw [if_neg (by simp [hku]), if_pos ⟨hku, hnext⟩]
    simpa [-bind_pure_comp] using gives_advance_bind (gives_advance v rest).map
  · refine ⟨rfl, fun m rest hrest hk => ?_⟩
    simp only [endsType, Bool.and_eq_true, bne_iff_ne] at hk
    unfold decorate
    apply gives_get
    intro u _ hu
    rw [if_neg fun h => hk.1.2 (hu.symm.trans h.1), if_neg fun h => hk.2 (hu.symm.trans h.1)]
    exact gives_pure none rest

theorem rereads_typeWith {argument : Option (Parser Green)} (h : ∀ p ∈ argument, Argument p)
    (s : ParseState) : RereadsBefore (fun k => endsType k = true) (typeWith argument) s := by
  have heq : typeWith argument =
      (simpleType argument >>= refine (qualify argument)) >>= refine decorate := by
    unfold typeWith
    rw [bind_assoc]
  rw [heq]
  refine rereads_refine (rereads_refine (rereads_simpleType h s) (fun k hk => hk.1)
    (rereads_qualify h)) (fun k hk => ?_) rereads_decorate
  simp only [endsType, Bool.and_eq_true, bne_iff_ne] at hk
  exact hk.1.1

theorem rereads_typeNested {depth : Nat} (h : depth ≤ maxParseDepth + 1) (s : ParseState) :
    RereadsBefore (fun k => endsType k = true) (typeNested depth) s := by
  induction depth generalizing s with
  | zero => exact rereads_typeWith (by simp) s
  | succ depth ih =>
    have hle : depth ≤ maxParseDepth := Nat.le_of_succ_le_succ h
    have hargument : ∀ p ∈ some (typeNested depth), Argument p := by
      rintro p ⟨⟩
      exact ⟨ih (Nat.le_of_succ_le h), depth, hle, foretold_typeNested depth⟩
    exact rereads_typeWith hargument s

/-- A type is read again, with tokens of the same kinds. -/
theorem rereads_type (s : ParseState) : type.Ensures s fun n s' =>
    Rereads s'.Meets s [n] s' fun ms rest => ∃ m : Green, ms = [m] ∧ m.tokens ≠ [] ∧
      m.tokens.map Token.kind = n.tokens.map Token.kind ∧
      (endsType (kindOf rest) = true → type.Gives m.tokens m rest) := by
  apply (Ensures.and (rereads_typeNested (Nat.le_refl _) s) (makes_type s)).mono
  rintro n s' ⟨hrereads, hmakes⟩
  refine .of_quiet fun hq => hrereads.loses.mono fun ms rest _ _ hms => ?_
  obtain ⟨hloses, m, rfl, hne, hm⟩ := hms
  refine ⟨m, rfl, hne, ?_, hm⟩
  refine (List.forall₂_cons.1 hloses).1.kinds_eq (hmakes.1.conforms hq _ (by simp)) ?_
  have hk : n.kind.isType = true := singleton_mem_oneOf.1 (hmakes.2 hq)
  simp [Kind.isTypePart, hk]

end Parser

end NullLint
