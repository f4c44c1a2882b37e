import NullLint.Proofs.Parser.Producing
import NullLint.Proofs.Parser.Lookahead
import NullLint.Proofs.Expression.Parsing

/-!
# Lookahead goes by kinds

Where a type is sure to end, lookahead counts it off wherever lexemes of the same kinds stand
(`byKinds_typeEnd?`), and counts off no `;`. So it depends on the kinds up to the first `;` whether
a declaration is ahead (`declarationAhead_of_kinds`). A type that was read without a report is
counted off by lookahead too (`foretold_typeNested`).
-/

namespace NullLint

namespace Lookahead

variable {ls rest mid : List Lexeme} {end? arguments? simple? type? :
  List Lexeme → Option (List Lexeme)}

theorem length_pos_of_kindAhead {k : Kind} (h : kindAhead ls = k) (hk : k ≠ .endOfFile) :
    0 < ls.length := by
  cases ls with
  | nil => exact absurd h.symm hk
  | cons l ls => simp

theorem kindAhead_eq_head (ls : List Lexeme) :
    kindAhead ls = (ls.map Lexeme.kind).headD .endOfFile := by
  cases ls <;> rfl

theorem kindAhead_congr {read read' rest' : List Lexeme}
    (hread : read'.map Lexeme.kind = read.map Lexeme.kind)
    (hrest : kindAhead rest' = kindAhead rest) :
    kindAhead (read' ++ rest') = kindAhead (read ++ rest) := by
  cases read with
  | nil =>
    obtain rfl : read' = [] := by simpa using hread
    exact hrest
  | cons l read =>
    obtain ⟨l', read', rfl, hl, -⟩ := List.map_eq_cons_iff.1 hread
    exact hl

/-- Up to `rest` lookahead counts off some lexemes, none of them a `;`, and does so wherever lexemes
of the same kinds stand before one of the same kind. -/
def CountsOff (end? : List Lexeme → Option (List Lexeme)) (ls rest : List Lexeme) : Prop :=
  ∃ read, ls = read ++ rest ∧ (∀ l ∈ read, l.kind ≠ .semicolon) ∧
    ∀ read' rest', read'.map Lexeme.kind = read.map Lexeme.kind →
      kindAhead rest' = kindAhead rest → end? (read' ++ rest') = some rest'

/-- Lookahead counts off lexemes where it stops before a kind with `stop`. -/
def ByKinds (stop : Kind → Prop) (end? : List Lexeme → Option (List Lexeme)) : Prop :=
  ∀ ls rest, end? ls = some rest → stop (kindAhead rest) → CountsOff end? ls rest

namespace CountsOff

theorem refl (ls : List Lexeme) : CountsOff some ls ls :=
  ⟨[], rfl, by simp, fun read' _ hread _ => by
    obtain rfl : read' = [] := by simpa using hread
    rfl⟩

theorem token {k : Kind} (hk : kindAhead ls = k) (hend : k ≠ .endOfFile)
    (hsemicolon : k ≠ .semicolon) : CountsOff (fun ls => some (ls.drop 1)) ls (ls.drop 1) := by
  subst hk
  cases ls with
  | nil => exact absurd rfl hend
  | cons l ls =>
    refine ⟨[l], rfl, by simpa using hsemicolon, fun read' rest' hread _ => ?_⟩
    obtain ⟨l', _, rfl, -, hnil⟩ := List.map_eq_cons_iff.1 hread
    obtain rfl := List.map_eq_nil_iff.1 hnil
    rfl

/-- Lexemes are counted off one after the other. -/
theorem bind {first? next? : List Lexeme → Option (List Lexeme)} (h : CountsOff first? ls mid)
    (h' : CountsOff next? mid rest)
    (hend : ∀ xs ys zs, xs.length + mid.length = ys.length + ls.length →
      kindAhead xs = kindAhead ls → kindAhead ys = kindAhead mid → kindAhead zs = kindAhead rest →
      first? xs = some ys → next? ys = some zs → end? xs = some zs) : CountsOff end? ls rest := by
  obtain ⟨read, rfl, hread, hagain⟩ := h
  obtain ⟨more, rfl, hmore, hmoreAgain⟩ := h'
  refine ⟨read ++ more, by simp, List.forall_mem_append.2 ⟨hread, hmore⟩,
    fun read' rest' hkinds hrest => ?_⟩
  rw [List.map_append] at hkinds
  obtain ⟨r, r', rfl, hr, hr'⟩ := List.map_eq_append_iff.1 hkinds
  have hmid := kindAhead_congr hr' hrest
  have hlength : r.length = read.length := by simpa using congrArg List.length hr
  rw [List.append_assoc]
  refine hend _ _ _ ?_ (kindAhead_congr hr hmid) hmid hrest (hagain r _ hr hmid)
    (hmoreAgain r' rest' hr' hrest)
  simp only [List.length_append]
  omega

theorem length_le (h : CountsOff end? ls rest) : rest.length ≤ ls.length := by
  obtain ⟨read, rfl, -⟩ := h
  simp

end CountsOff

theorem ByKinds.arguments (h : ByKinds (fun k => k = .comma ∨ k = .greaterThan) type?) :
    ByKinds (fun _ => True) (argumentsEnd? type?) := by
  intro ls rest hls _
  fun_induction argumentsEnd? type? ls with
  | case1 ls hnone => cases hls
  | case2 ls mid hmid hcomma hlt ih =>
    have hnext : CountsOff (fun ls => argumentsEnd? type? (ls.drop 1)) mid rest :=
      (CountsOff.token hcomma (by simp) (by simp)).bind (ih hls) (by
        rintro xs _ zs - - - - ⟨⟩ hzs
        exact hzs)
    refine (h ls mid hmid (.inl hcomma)).bind hnext fun xs ys zs hlength _ hys _ hxs hzs => ?_
    have hpos := length_pos_of_kindAhead (hys.trans hcomma) (by simp)
    have hlt : (ys.drop 1).length < xs.length := by
      rw [List.length_drop] at hlt ⊢
      omega
    rw [argumentsEnd?, hxs]
    simpa only [if_pos (hys.trans hcomma), dif_pos hlt] using hzs
  | case3 ls mid hmid hcomma hge => cases hls
  | case4 ls mid hmid hcomma hclose =>
    obtain rfl := Option.some.inj hls
    refine (h ls mid hmid (.inr hclose)).bind (.token hclose (by simp) (by simp))
      fun xs ys zs hlength _ hys _ hxs hzs => ?_
    rw [argumentsEnd?, hxs]
    simpa [hys, hclose] using hzs
  | case5 ls mid hmid hcomma hclose => cases hls

theorem ByKinds.simple (h : ByKinds (fun _ => True) arguments?) :
    ByKinds (· ≠ .lessThan) (simpleTypeEnd? arguments?) := by
  intro ls rest hls hrest
  rcases (simpleTypeEnd?_eq_some_iff hrest).1 hls with ⟨hk, rfl⟩ | ⟨hk, rfl⟩ | ⟨hk, hless, hend⟩
  · refine (CountsOff.token hk (by simp) (by simp)).bind (.refl _) ?_
    rintro xs _ _ - hxs - hzs ⟨⟩ ⟨⟩
    exact (simpleTypeEnd?_eq_some_iff (hzs ▸ hrest)).2 (.inl ⟨hxs.trans hk, rfl⟩)
  · refine (CountsOff.token hk (by simp) (by simp)).bind (.refl _) ?_
    rintro xs _ _ - hxs - hzs ⟨⟩ ⟨⟩
    exact (simpleTypeEnd?_eq_some_iff (hzs ▸ hrest)).2 (.inr (.inl ⟨hxs.trans hk, rfl⟩))
  · have hlist : CountsOff (fun ls => arguments? (ls.drop 1)) (ls.drop 1) rest :=
      (CountsOff.token hless (by simp) (by simp)).bind (h _ _ hend trivial) (by
        rintro xs _ zs - - - - ⟨⟩ hzs
        exact hzs)
    refine (CountsOff.token hk (by simp) (by simp)).bind hlist ?_
    rintro xs _ zs - hxs hys hzs ⟨⟩ hlist
    exact (simpleTypeEnd?_eq_some_iff (hzs ▸ hrest)).2
      (.inr (.inr ⟨hxs.trans hk, hys.trans hless, hlist⟩))

theorem dottedEnd?_step (hdot : kindAhead ls = .dot ∧ kindAhead (ls.drop 1) = .identifier)
    (hmid : simple? (ls.drop 1) = some mid) (hlt : mid.length < ls.length) :
    dottedEnd? simple? ls = dottedEnd? simple? mid := by
  rw [dottedEnd?, if_pos hdot, hmid]
  simp only [dif_pos hlt]

theorem ByKinds.dotted (h : ByKinds (· ≠ .lessThan) simple?) :
    ByKinds (fun k => k ≠ .lessThan ∧ k ≠ .dot) (dottedEnd? simple?) := by
  intro ls rest hls hrest
  have part {ls mid : List Lexeme}
      (hdot : kindAhead ls = .dot ∧ kindAhead (ls.drop 1) = .identifier)
      (hmid : simple? (ls.drop 1) = some mid) (hless : kindAhead mid ≠ .lessThan) :
      CountsOff (fun ls => if kindAhead ls = .dot ∧ kindAhead (ls.drop 1) = .identifier then
        simple? (ls.drop 1) else none) ls mid := by
    refine (CountsOff.token hdot.1 (by simp) (by simp)).bind (h _ mid hmid hless) ?_
    rintro xs _ zs - hxs hys - ⟨⟩ hzs
    rw [if_pos ⟨hxs.trans hdot.1, hys.trans hdot.2⟩]
    exact hzs
  fun_induction dottedEnd? simple? ls with
  | case1 ls hdot hnone => cases hls
  | case2 ls hdot mid hmid hlt ih =>
    refine (part hdot hmid (less_of_dottedEnd? hls hrest.1)).bind (ih hls)
      fun xs ys zs hlength _ _ _ hxs hzs => ?_
    split at hxs
    · rename_i hdot'
      rw [dottedEnd?_step hdot' hxs (by omega), hzs]
    · cases hxs
  | case3 ls hdot mid hmid hge =>
    obtain rfl := Option.some.inj hls
    have hle := (h _ _ hmid hrest.1).length_le
    have hpos := length_pos_of_kindAhead hdot.1 (by simp)
    rw [List.length_drop] at hle
    omega
  | case4 ls hdot =>
    obtain rfl := Option.some.inj hls
    refine (CountsOff.refl ls).bind (.refl ls) ?_
    rintro xs _ _ - hxs - - ⟨⟩ ⟨⟩
    exact dottedEnd?_stop fun hdot' => hrest.2 (hxs ▸ hdot'.1)

/-- Where neither `?` nor `[` is ahead the suffixes of a type end. -/
theorem countsOff_suffixEnd (hquestion : kindAhead (suffixEnd ls) ≠ .question)
    (hbracket : kindAhead (suffixEnd ls) ≠ .openBracket) :
    CountsOff (fun ls => some (suffixEnd ls)) ls (suffixEnd ls) := by
  induction hlength : ls.length using Nat.strong_induction_on generalizing ls with
  | _ n ih =>
    subst hlength
    by_cases hk : kindAhead ls = .question
    · have hpos := length_pos_of_kindAhead hk (by simp)
      rw [suffixEnd_question hk] at hquestion hbracket ⊢
      have hrest := ih _ (by rw [List.length_drop]; omega) hquestion hbracket rfl
      refine (CountsOff.token hk (by simp) (by simp)).bind hrest ?_
      rintro xs _ _ - hxs - - ⟨⟩ ⟨⟩
      rw [suffixEnd_question (hxs.trans hk)]
    by_cases hbrackets : kindAhead ls = .openBracket ∧ kindAhead (ls.drop 1) = .closeBracket
    · have hpos := length_pos_of_kindAhead hbrackets.1 (by simp)
      rw [suffixEnd_brackets hbrackets] at hquestion hbracket ⊢
      have hrest := ih _ (by simp only [List.length_drop]; omega) hquestion hbracket rfl
      have hclose : CountsOff (fun ls => if kindAhead ls = .closeBracket then
          some (suffixEnd (ls.drop 1)) else none) (ls.drop 1)
          (suffixEnd ((ls.drop 1).drop 1)) := by
        refine (CountsOff.token hbrackets.2 (by simp) (by simp)).bind hrest ?_
        rintro xs _ _ - hxs - - ⟨⟩ ⟨⟩
        exact if_pos (hxs.trans hbrackets.2)
      refine (CountsOff.token hbrackets.1 (by simp) (by simp)).bind hclose ?_
      rintro xs _ zs - hxs hys - ⟨⟩ hzs
      have hclose' := hys.trans hbrackets.2
      rw [suffixEnd_brackets ⟨hxs.trans hbrackets.1, hclose'⟩]
      simpa only [if_pos hclose'] using hzs
    · have hstop := suffixEnd_stop hk hbrackets
      rw [hstop] at hquestion hbracket ⊢
      refine (CountsOff.refl ls).bind (.refl ls) ?_
      rintro xs _ _ - hxs - - ⟨⟩ ⟨⟩
      rw [suffixEnd_stop (hxs ▸ hk) fun hbrackets => hbracket (hxs ▸ hbrackets.1)]

/-- Lookahead for types goes by kinds wherever the type ends for sure. -/
theorem byKinds_typeEnd? (depth : Nat) :
    ByKinds (fun k => Parser.endsType k = true) (typeEnd? depth) := by
  induction depth with
  | zero =>
    intro ls rest hls
    cases hls
  | succ depth ih =>
    intro ls rest hls hrest
    simp only [Parser.endsType, Bool.and_eq_true, bne_iff_ne] at hrest
    obtain ⟨⟨⟨hless, hdot⟩, hquestion⟩, hbracket⟩ := hrest
    obtain ⟨name, qualified, hname, hqualified, rfl⟩ := typeEnd?_succ_eq_some_iff.1 hls
    have hsimple : ByKinds (· ≠ .lessThan) (simpleTypeEnd? (argumentsEnd? (typeEnd? depth))) := by
      refine (ByKinds.arguments fun ls rest hls hrest => ih ls rest hls ?_).simple
      rcases hrest with hk | hk <;> simp [hk, Parser.endsType]
    have hless' := less_of_suffixEnd hless
    have hdot' : kindAhead qualified ≠ .dot := by
      intro hk
      rw [suffixEnd_stop (by simp [hk]) (by simp [hk])] at hdot
      exact hdot hk
    have hsuffix : CountsOff (fun ls =>
        (dottedEnd? (simpleTypeEnd? (argumentsEnd? (typeEnd? depth))) ls).map suffixEnd) name
        (suffixEnd qualified) := by
      refine (hsimple.dotted _ _ hqualified ⟨hless', hdot'⟩).bind
        (countsOff_suffixEnd hquestion hbracket) ?_
      rintro xs ys zs - - - - hxs ⟨⟩
      simp [hxs]
    refine (hsimple _ _ hname (less_of_dottedEnd? hqualified hless')).bind hsuffix ?_
    rintro xs ys zs - - - - hxs hzs
    simp [typeEnd?, hxs, hzs]

theorem AfterArgument.endsType (h : AfterArgument type? rest mid) :
    Parser.endsType (kindAhead mid) = true := by
  cases h with
  | comma hk _ => simp [hk, Parser.endsType]
  | close hk _ => simp [hk, Parser.endsType]

/-! ## Declarations -/

/-- Behind the name in a declaration stands one of these kinds. -/
def endsDeclared (k : Kind) : Bool := k == .equals || k == .semicolon || k == .comma

theorem declarationAhead_iff {s : ParseState} :
    declarationAhead s = true ↔ ∃ name after, name.kind = .identifier ∧
      endsDeclared (kindAhead after) = true ∧
      typeEnd? (maxParseDepth + 1) s.rest = some (name :: after) := by
  unfold declarationAhead
  cases typeEnd? (maxParseDepth + 1) s.rest with
  | none => simp
  | some rest =>
    cases rest with
    | nil => simp
    | cons name after => simp [endsDeclared]

/-- A declaration begins with `var` or a name. -/
theorem kind_of_declarationAhead {s : ParseState} (h : declarationAhead s = true) :
    s.kind = .varKeyword ∨ s.kind = .identifier := by
  obtain ⟨name, after, -, -, htype⟩ := declarationAhead_iff.1 h
  obtain ⟨mid, -, hmid, -⟩ := typeEnd?_succ_eq_some_iff.1 htype
  rw [ParseState.kind]
  cases hrest : s.rest with
  | nil => simp [simpleTypeEnd?, hrest] at hmid
  | cons l ls =>
    by_contra hk
    simp only [kindAhead_cons, not_or] at hk
    simp [simpleTypeEnd?, hrest, hk] at hmid

/-- A declaration is seen again wherever lexemes of the same kinds stand before a name and a kind
that may stand behind it. -/
theorem exists_declaration {s : ParseState} (h : declarationAhead s = true) :
    ∃ read name after, s.rest = read ++ name :: after ∧ (∀ l ∈ read, l.kind ≠ .semicolon) ∧
      name.kind = .identifier ∧ endsDeclared (kindAhead after) = true ∧
      typeEnd? (maxParseDepth + 1) s.rest = some (name :: after) ∧
      ∀ (u : ParseState) (read' : List Lexeme) (name' : Lexeme) (after' : List Lexeme),
        u.rest = read' ++ name' :: after' → read'.map Lexeme.kind = read.map Lexeme.kind →
        name'.kind = .identifier → kindAhead after' = kindAhead after →
        declarationAhead u = true := by
  obtain ⟨name, after, hname, hafter, htype⟩ := declarationAhead_iff.1 h
  have hends : Parser.endsType (kindAhead (name :: after)) = true := by
    rw [kindAhead_cons, hname]
    rfl
  obtain ⟨read, hread, hsemicolon, hagain⟩ := byKinds_typeEnd? _ _ _ htype hends
  refine ⟨read, name, after, hread, hsemicolon, hname, hafter, htype, ?_⟩
  intro u read' name' after' hu hkinds hname' hafter'
  refine declarationAhead_iff.2 ⟨name', after', hname', hafter' ▸ hafter, ?_⟩
  rw [hu]
  exact hagain _ _ hkinds (hname'.trans hname.symm)

/-- Whether a declaration is ahead depends on the kinds up to the first `;` only. -/
theorem declarationAhead_of_kinds {s u : ParseState} {ks ls ls' : List Kind}
    (hs : s.rest.map Lexeme.kind = ks ++ .semicolon :: ls)
    (hu : u.rest.map Lexeme.kind = ks ++ .semicolon :: ls') (h : declarationAhead s = true) :
    declarationAhead u = true := by
  obtain ⟨read, name, after, hread, hsemicolon, hname, -, -, hagain⟩ := exists_declaration h
  rw [hread, List.map_append, List.map_cons, hname, List.append_cons] at hs
  -- The `;` stands behind the name.
  obtain ⟨ks', rfl, hafter⟩ : ∃ ks', ks = (read.map Lexeme.kind ++ [.identifier]) ++ ks' ∧
      after.map Lexeme.kind = ks' ++ .semicolon :: ls := by
    rcases List.append_eq_append_iff.1 hs with ⟨ks', hks, hafter⟩ | ⟨ks', hks, hafter⟩
    · exact ⟨ks', hks, hafter⟩
    · cases ks' with
      | nil => exact ⟨[], by simpa using hks.symm, hafter.symm⟩
      | cons k ks' =>
        obtain ⟨rfl, -⟩ := List.cons.inj hafter
        have hmem : Kind.semicolon ∈ read.map Lexeme.kind ++ [.identifier] := by simp [hks]
        simp only [List.mem_append, List.mem_map, List.mem_singleton, reduceCtorEq,
          or_false] at hmem
        obtain ⟨l, hl, hk⟩ := hmem
        exact absurd hk (hsemicolon l hl)
  rw [List.append_assoc, List.append_assoc, List.singleton_append] at hu
  obtain ⟨read', _, hrest, hkinds, htail⟩ := List.map_eq_append_iff.1 hu
  obtain ⟨name', after', rfl, hname', hafter'⟩ := List.map_eq_cons_iff.1 htail
  refine hagain u read' name' after' hrest hkinds hname' ?_
  rw [kindAhead_eq_head, kindAhead_eq_head, hafter, hafter']
  cases ks' <;> rfl

end Lookahead

namespace Parser

open Lookahead Grammar

/-! ## Types that were read -/

variable {type? : List Lexeme → Option (List Lexeme)} {argument : Parser Green} {s : ParseState}

theorem ensures_rest_advance (s : ParseState) :
    advance.Ensures s fun _ s' => s'.rest = s.rest.drop 1 := by
  rw [List.drop_one]
  exact rest_advance s

theorem rest_expect {k : Kind} (s : ParseState) :
    (expect k).Ensures s fun _ s' => s'.Quiet → s.kind = k ∧ s'.rest = s.rest.drop 1 := by
  unfold Ensures expect
  split
  · rename_i hk
    exact fun _ => ⟨hk, ensures_rest_advance s⟩
  · exact fun hq => absurd hq (s.not_quiet_report _)

theorem ensures_kind_expect {k : Kind} (hs : s.kind = k) :
    (expect k).Ensures s fun _ s' => s'.kind = s.nextKind := by
  unfold Ensures expect
  rw [if_pos hs]
  exact kind_advance s

/-- Lookahead counts off what the parser reads if nothing is reported and a type ends there. -/
def Foretold (type? : List Lexeme → Option (List Lexeme)) (p : Parser Green) : Prop :=
  ∀ s, p.Ensures s fun n s' => Makes Grammar.type s [n] s' ∧
    (s'.Quiet → endsType s'.kind = true → type? s.rest = some s'.rest)

theorem argumentsEnd?_of_after {ls mid rest : List Lexeme} (h : type? ls = some mid)
    (hle : mid.length ≤ ls.length) (hafter : AfterArgument type? rest mid) :
    argumentsEnd? type? ls = some rest := by
  rw [argumentsEnd?, h]
  cases hafter with
  | comma hk hrest =>
    have hpos := length_pos_of_kindAhead hk (by simp)
    have hlt : (mid.drop 1).length < ls.length := by
      rw [List.length_drop]
      omega
    simpa only [if_pos hk, dif_pos hlt] using hrest
  | close hk hrest => simp [hk, hrest]

theorem foretold_arguments (h : Foretold type? argument) (s : ParseState) :
    (commaSeparated do return [← argument]).Ensures s fun _ s' => s'.Quiet →
      s'.kind = .greaterThan → argumentsEnd? type? s.rest = some (s'.rest.drop 1) := by
  simp only [commaSeparated, ensures_bind, ensures_pure]
  apply (h s).mono
  rintro first s₁ ⟨hfirst, htype⟩
  -- Whatever is counted off behind an argument is counted off from the first one on.
  let inv (_ : List Green) (s₂ : ParseState) : Prop :=
    s₂.Quiet → ∀ rest, AfterArgument type? rest s₂.rest → argumentsEnd? type? s.rest = some rest
  refine (ensures_collectWhile inv (fun ns s₂ hs hinv => ?_) fun hq rest hafter => ?_).mono
    fun _ s₂ hinv hq hk => hinv hq _ (.close hk rfl)
  · simp only [ensures_bind, ensures_pure]
    apply ((makes_token (k := .comma) (by simpa using hs) (by simp)).and
      (ensures_rest_advance s₂)).mono
    rintro comma s₃ ⟨hcomma, hrest⟩
    apply (h s₃).mono
    rintro next s₄ ⟨hnext, htype⟩ hq rest hafter
    refine hinv (hcomma.1.quiet (hnext.1.quiet hq)) rest (.comma (beq_iff_eq.1 hs) ?_)
    rw [← hrest]
    exact argumentsEnd?_of_after (htype hq hafter.endsType) hnext.1.length_le hafter
  · exact argumentsEnd?_of_after (htype hq hafter.endsType) hfirst.1.length_le hafter

theorem foretold_typeArguments (h : Foretold type? argument) (s : ParseState) :
    (typeArguments argument).Ensures s fun _ s' =>
      s'.Quiet → argumentsEnd? type? (s.rest.drop 1) = some s'.rest := by
  simp only [typeArguments, ensures_bind, ensures_pure]
  refine (ensures_rest_advance s).mono fun opening s₁ hrest₁ => ?_
  refine (foretold_arguments h s₁).mono fun types s₂ h₂ => ?_
  apply ((rest_expect s₂).and (makes_expect .greaterThan s₂ rfl (by simp))).mono
  rintro closing s₃ ⟨hrest, hclosing⟩ hq
  obtain ⟨hk, hrest⟩ := hrest hq
  rw [hrest, ← hrest₁]
  exact h₂ (hclosing.1.quiet hq) hk

theorem foretold_simpleType {argument : Option (Parser Green)}
    (h : ∀ p ∈ argument, Foretold type? p) (s : ParseState) :
    (simpleType argument).Ensures s fun _ s' => s'.Quiet → s'.kind ≠ .lessThan →
      simpleTypeEnd? (argumentsEnd? type?) s.rest = some s'.rest := by
  simp only [simpleType, ensures_bind, ensures_sees, ensures_ite, ensures_pure]
  constructor
  · intro hvar
    refine (ensures_rest_advance s).mono fun n s₁ hrest _ hless => ?_
    exact (simpleTypeEnd?_eq_some_iff hless).2 (.inl ⟨beq_iff_eq.1 hvar, hrest.symm⟩)
  · intro _
    apply (rest_expect s).mono
    intro name s₁ hname
    have alone (hq : s₁.Quiet) (hless : s₁.kind ≠ .lessThan) :
        simpleTypeEnd? (argumentsEnd? type?) s.rest = some s₁.rest := by
      obtain ⟨hk, hrest⟩ := hname hq
      exact (simpleTypeEnd?_eq_some_iff hless).2 (.inr (.inl ⟨hk, hrest.symm⟩))
    cases argument with
    | none => exact alone
    | some p =>
      simp only [ensures_bind, ensures_get, ensures_ite, ensures_pure]
      refine ⟨fun hahead => ?_, fun _ => alone⟩
      have hless := kind_of_typeArgumentsAhead hahead
      have hmakes := makes_typeArguments hless fun s => (h p rfl s).mono fun _ _ hp => hp.1
      apply ((foretold_typeArguments (h p rfl) s₁).and hmakes).mono
      rintro list s₂ ⟨hlist, hbuilds⟩ hq hless'
      obtain ⟨hk, hrest⟩ := hname (hbuilds.1.quiet hq)
      refine (simpleTypeEnd?_eq_some_iff hless').2 (.inr (.inr ⟨hk, ?_, ?_⟩))
      · rw [← hrest]
        exact hless
      · rw [← hrest]
        exact hlist hq

theorem foretold_qualify {argument : Option (Parser Green)}
    (h : ∀ p ∈ argument, Foretold type? p) (name : Green) (s : ParseState) :
    Ensures (refine (qualify argument) name) s fun _ s' => s'.Quiet → s.Quiet ∧
      (s'.kind ≠ .lessThan → s'.kind ≠ .dot →
        dottedEnd? (simpleTypeEnd? (argumentsEnd? type?)) s.rest = some s'.rest) := by
  -- Whatever is counted off behind a part is counted off from the first one on.
  let inv (_ : Green) (s' : ParseState) : Prop := s'.Quiet → s.Quiet ∧
    ∀ rest, kindAhead rest ≠ .lessThan →
      dottedEnd? (simpleTypeEnd? (argumentsEnd? type?)) s'.rest = some rest →
      dottedEnd? (simpleTypeEnd? (argumentsEnd? type?)) s.rest = some rest
  have stop (n : Green) (s' : ParseState) (hinv : inv n s') (hq : s'.Quiet) : s.Quiet ∧
      (s'.kind ≠ .lessThan → s'.kind ≠ .dot →
        dottedEnd? (simpleTypeEnd? (argumentsEnd? type?)) s.rest = some s'.rest) :=
    ⟨(hinv hq).1, fun hless hdot =>
      (hinv hq).2 _ hless (dottedEnd?_stop fun hdot' => hdot hdot'.1)⟩
  refine ensures_refine inv _ (fun n s₁ hinv => ?_) fun hq => ⟨hq, fun _ _ hrest => hrest⟩
  simp only [qualify, ensures_bind, ensures_get, ensures_ite, ensures_pure]
  refine ⟨fun hdot => ?_, fun _ => stop n s₁ hinv⟩
  apply ((makes_token hdot.1 (by simp)).and (ensures_rest_advance s₁)).mono
  rintro dot s₂ ⟨hdotMakes, hrest₂⟩
  have hmakes := makes_simpleType (fun p hp s => (h p hp s).mono fun _ _ hp => hp.1) s₂
  apply ((foretold_simpleType h s₂).and hmakes).mono
  rintro part s₃ ⟨hpart, hbuilds⟩
  have hnext : inv (.group .qualifiedName [n, dot, part]) s₃ := by
    intro hq
    obtain ⟨hquiet, hinv⟩ := hinv (hdotMakes.1.quiet (hbuilds.1.quiet hq))
    refine ⟨hquiet, fun rest hless hrest => hinv rest hless ?_⟩
    have hend := hpart hq (less_of_dottedEnd? hrest hless)
    have hpos := length_pos_of_kindAhead hdot.1 (by simp)
    have hle := hbuilds.1.length_le
    rw [hrest₂, List.length_drop] at hle
    rw [hrest₂] at hend
    rw [dottedEnd?_step hdot hend (by omega), hrest]
  split
  · exact hnext
  · exact stop n s₃ hnext

theorem foretold_decorate (name : Green) (s : ParseState) :
    Ensures (refine decorate name) s fun _ s' => (s'.Quiet → s.Quiet) ∧
      suffixEnd s.rest = suffixEnd s'.rest := by
  refine ensures_refine (fun _ s' => (s'.Quiet → s.Quiet) ∧ suffixEnd s.rest = suffixEnd s'.rest) _
    (fun n s₁ h₁ => ?_) ⟨id, rfl⟩
  simp only [decorate, ensures_bind, ensures_get, ensures_ite, ensures_pure]
  refine ⟨fun hquestion => ?_, fun _ => ⟨fun hbrackets => ?_, fun _ => h₁⟩⟩
  · apply ((makes_token hquestion.1 (by simp)).and (ensures_rest_advance s₁)).mono
    rintro mark s₂ ⟨hmark, hrest₂⟩
    rw [suffixEnd_question hquestion.1, ← hrest₂] at h₁
    have hnext := And.imp_left (· ∘ hmark.1.quiet) h₁
    split <;> exact hnext
  · apply ((makes_token_next hbrackets.1 (by simp)).and (ensures_rest_advance s₁)).mono
    rintro opening s₂ ⟨⟨hopening, hkind, -⟩, hrest₂⟩
    apply ((makes_token (hkind.trans hbrackets.2) (by simp)).and (ensures_rest_advance s₂)).mono
    rintro closing s₃ ⟨hclosing, hrest₃⟩
    rw [suffixEnd_brackets hbrackets, ← hrest₂, ← hrest₃] at h₁
    have hnext := And.imp_left (· ∘ (hopening.append hclosing).1.quiet) h₁
    split <;> exact hnext

theorem foretold_typeWith {depth : Nat} {argument : Option (Parser Green)}
    (h : ∀ p ∈ argument, Foretold (typeEnd? depth) p) :
    Foretold (typeEnd? (depth + 1)) (typeWith argument) := by
  intro s
  refine (makes_typeWith (fun p hp s => (h p hp s).mono fun _ _ hp => hp.1) s).and ?_
  simp only [typeWith, ensures_bind]
  refine (foretold_simpleType h s).mono fun name s₁ hname => ?_
  refine (foretold_qualify h name s₁).mono fun qualified s₂ hqualified => ?_
  refine (foretold_decorate qualified s₂).mono fun type s₃ htype hq hends => ?_
  obtain ⟨hquiet₂, hsuffix⟩ := htype
  obtain ⟨hquiet₁, hqualified⟩ := hqualified (hquiet₂ hq)
  simp only [endsType, Bool.and_eq_true, bne_iff_ne] at hends
  obtain ⟨⟨⟨hless, hdot⟩, hquestion⟩, hbracket⟩ := hends
  have hstop : suffixEnd s₃.rest = s₃.rest :=
    suffixEnd_stop hquestion fun hbrackets => hbracket hbrackets.1
  rw [hstop] at hsuffix
  have hless₂ : s₂.kind ≠ .lessThan := less_of_suffixEnd (hsuffix ▸ hless)
  have hdot₂ : s₂.kind ≠ .dot := by
    intro hk
    rw [suffixEnd_stop (by rw [show kindAhead s₂.rest = .dot from hk]; simp)
      (by rw [show kindAhead s₂.rest = .dot from hk]; simp)] at hsuffix
    exact hdot (by rw [ParseState.kind, ← hsuffix]; exact hk)
  have hqualified := hqualified hless₂ hdot₂
  have hname := hname hquiet₁ (less_of_dottedEnd? hqualified hless₂)
  exact typeEnd?_succ_eq_some_iff.2 ⟨_, _, hname, hqualified, hsuffix⟩

/-- Lookahead counts off any type that was read as one. -/
theorem foretold_typeNested (depth : Nat) : Foretold (typeEnd? (depth + 1)) (typeNested depth) := by
  induction depth with
  | zero => exact foretold_typeWith (by simp)
  | succ depth ih => exact foretold_typeWith (by simpa using ih)

end Parser

end NullLint
