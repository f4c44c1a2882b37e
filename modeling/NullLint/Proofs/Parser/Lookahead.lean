import NullLint.Proofs.Parser.Ensures
import NullLint.Syntax.Lexer

/-!
# Declarations are parsed as they are looked ahead

Whether a statement declares a local is settled by lookahead, which counts off a type and does not
parse it. The two recognize types each in its own way. Lookahead takes a name alone where the `<`
behind it opens no list of type arguments, bounds how deep argument lists nest by the depth left to
it, and takes every `?`. The parser looks ahead once more at each `<`, with the whole depth, and
leaves a `?` to the access that it belongs to.

They agree on every type with no `<` and no `.` behind it (`Agrees`). In a declaration a name is
behind the type, and in an argument list it is `,` or `>`; so whatever lookahead took for a
declaration is read as one.
-/

namespace NullLint

@[simp] theorem kindAhead_nil : kindAhead [] = .endOfFile := rfl

@[simp] theorem kindAhead_cons (l : Lexeme) (ls : List Lexeme) : kindAhead (l :: ls) = l.kind :=
  rfl

namespace Lookahead

variable {ls rest mid : List Lexeme} {arguments? simple? simple' type? type' :
  List Lexeme → Option (List Lexeme)}

/-- Neither `<` nor `.` is ahead: the parser and lookahead agree that a type ends here. -/
structure Ends (rest : List Lexeme) : Prop where
  less : kindAhead rest ≠ .lessThan
  dot : kindAhead rest ≠ .dot

/-! ## Steps of the lookahead -/

/-- A simple type is `var`, a name, or a name with its arguments. -/
theorem simpleTypeEnd?_eq_some_iff (hrest : kindAhead rest ≠ .lessThan) :
    simpleTypeEnd? arguments? ls = some rest ↔
      (kindAhead ls = .varKeyword ∧ ls.drop 1 = rest) ∨
      (kindAhead ls = .identifier ∧ ls.drop 1 = rest) ∨
      (kindAhead ls = .identifier ∧ kindAhead (ls.drop 1) = .lessThan ∧
        arguments? ((ls.drop 1).drop 1) = some rest) := by
  cases ls with
  | nil => simp [simpleTypeEnd?]
  | cons l ls =>
    by_cases hvar : l.kind = .varKeyword
    · simp [simpleTypeEnd?, hvar]
    by_cases hname : l.kind = .identifier
    · by_cases hless : kindAhead ls = .lessThan
      · have hne : ls ≠ rest := fun h => hrest (h ▸ hless)
        cases harguments : arguments? ls.tail <;>
          simp [simpleTypeEnd?, hname, hless, harguments, hne]
      · simp [simpleTypeEnd?, hname, hless]
    · simp [simpleTypeEnd?, hvar, hname]

theorem dottedEnd?_stop (h : ¬(kindAhead ls = .dot ∧ kindAhead (ls.drop 1) = .identifier)) :
    dottedEnd? simple? ls = some ls := by
  rw [dottedEnd?, if_neg h]

/-- Lookahead for qualified names stops at a `<`. -/
theorem less_of_dottedEnd? (h : dottedEnd? simple? ls = some rest)
    (hrest : kindAhead rest ≠ .lessThan) : kindAhead ls ≠ .lessThan := by
  intro hless
  rw [dottedEnd?_stop (by simp [hless])] at h
  exact hrest (Option.some.inj h ▸ hless)

theorem exists_of_dottedEnd? (hdot : kindAhead ls = .dot ∧ kindAhead (ls.drop 1) = .identifier)
    (h : dottedEnd? simple? ls = some rest) (hrest : kindAhead rest ≠ .lessThan) :
    ∃ mid, simple? (ls.drop 1) = some mid ∧ kindAhead mid ≠ .lessThan ∧
      (mid.length < ls.length → dottedEnd? simple? mid = some rest) := by
  rw [dottedEnd?, if_pos hdot] at h
  cases hmid : simple? (ls.drop 1) with
  | none =>
    rw [hmid] at h
    cases h
  | some mid =>
    simp only [hmid] at h
    by_cases hlt : mid.length < ls.length
    · rw [dif_pos hlt] at h
      exact ⟨mid, rfl, less_of_dottedEnd? h hrest, fun _ => h⟩
    · rw [dif_neg hlt] at h
      obtain rfl := Option.some.inj h
      exact ⟨mid, rfl, hrest, fun h' => absurd h' hlt⟩

theorem suffixEnd_question (h : kindAhead ls = .question) :
    suffixEnd ls = suffixEnd (ls.drop 1) := by
  match ls with
  | [] => cases h
  | [l] => simpa [suffixEnd] using h
  | l :: m :: rest => simp_all [suffixEnd]

theorem suffixEnd_brackets
    (h : kindAhead ls = .openBracket ∧ kindAhead (ls.drop 1) = .closeBracket) :
    suffixEnd ls = suffixEnd ((ls.drop 1).drop 1) := by
  match ls with
  | [] => cases h.1
  | [l] => cases h.2
  | l :: m :: rest => simp_all [suffixEnd]

theorem suffixEnd_stop (hquestion : kindAhead ls ≠ .question)
    (hbrackets : ¬(kindAhead ls = .openBracket ∧ kindAhead (ls.drop 1) = .closeBracket)) :
    suffixEnd ls = ls := by
  match ls with
  | [] => rfl
  | [l] => simpa [suffixEnd] using hquestion
  | l :: m :: rest => simp_all [suffixEnd]

theorem less_of_suffixEnd (h : kindAhead (suffixEnd ls) ≠ .lessThan) :
    kindAhead ls ≠ .lessThan := by
  intro hless
  rw [suffixEnd_stop (by simp [hless]) (by simp [hless])] at h
  exact h hless

/-- Where lookahead takes a `?` into a type, no access with `.` follows. -/
theorem dot_of_suffixEnd (hrest : Ends (suffixEnd ls)) (h : kindAhead ls = .question) :
    kindAhead (ls.drop 1) ≠ .dot := by
  intro hdot
  rw [suffixEnd_question h, suffixEnd_stop (by rw [hdot]; decide) (by rw [hdot]; simp)] at hrest
  exact hrest.dot hdot

/-- Behind a type argument the list goes on with `,` or is closed with `>`. -/
inductive AfterArgument (type? : List Lexeme → Option (List Lexeme)) (rest mid : List Lexeme) :
    Prop where
  | comma (hk : kindAhead mid = .comma) (h : argumentsEnd? type? (mid.drop 1) = some rest)
  | close (hk : kindAhead mid = .greaterThan) (h : mid.drop 1 = rest)

theorem AfterArgument.ends (h : AfterArgument type? rest mid) : Ends mid := by
  cases h with
  | comma hk _ => exact ⟨by simp [hk], by simp [hk]⟩
  | close hk _ => exact ⟨by simp [hk], by simp [hk]⟩

theorem exists_afterArgument (h : argumentsEnd? type? ls = some rest) :
    ∃ mid, type? ls = some mid ∧ AfterArgument type? rest mid := by
  rw [argumentsEnd?] at h
  cases htype : type? ls with
  | none => simp [htype] at h
  | some mid =>
    refine ⟨mid, rfl, ?_⟩
    simp only [htype] at h
    split at h
    · rename_i hk
      split at h
      · exact .comma hk h
      · cases h
    · split at h
      · rename_i hk
        exact .close hk (Option.some.inj h)
      · cases h

/-! ## Depth

With more depth left, lookahead finds whatever it found before: what it took for a name with a `<`
behind it is the only thing that can become something else. -/

/-- Where `type?` finds an end with no `<` behind it, `type'` finds the same end. -/
def Extends (type? type' : List Lexeme → Option (List Lexeme)) : Prop :=
  ∀ ls rest, type? ls = some rest → kindAhead rest ≠ .lessThan → type' ls = some rest

theorem Extends.arguments (h : Extends type? type') (ls : List Lexeme)
    (hrest : argumentsEnd? type? ls = some rest) : argumentsEnd? type' ls = some rest := by
  fun_induction argumentsEnd? type? ls with
  | case1 ls hnone => cases hrest
  | case2 ls mid hmid hcomma hlt ih =>
    rw [argumentsEnd?, h ls mid hmid (by simp [hcomma])]
    simp only [if_pos hcomma, dif_pos hlt]
    exact ih hrest
  | case3 ls mid hmid hcomma hge => cases hrest
  | case4 ls mid hmid hcomma hclose =>
    rw [argumentsEnd?, h ls mid hmid (by simp [hclose])]
    simpa [hcomma, hclose] using hrest
  | case5 ls mid hmid hcomma hclose => cases hrest

theorem Extends.simple (h : Extends type? type') :
    Extends (simpleTypeEnd? (argumentsEnd? type?)) (simpleTypeEnd? (argumentsEnd? type')) := by
  intro ls rest hls hrest
  rw [simpleTypeEnd?_eq_some_iff hrest] at hls ⊢
  rcases hls with hvar | hname | ⟨hname, hless, harguments⟩
  · exact .inl hvar
  · exact .inr (.inl hname)
  · exact .inr (.inr ⟨hname, hless, h.arguments _ harguments⟩)

theorem Extends.dotted (h : Extends simple? simple') :
    Extends (dottedEnd? simple?) (dottedEnd? simple') := by
  intro ls rest hls hrest
  fun_induction dottedEnd? simple? ls with
  | case1 ls hdot hnone => cases hls
  | case2 ls hdot mid hmid hlt ih =>
    rw [dottedEnd?, if_pos hdot, h _ mid hmid (less_of_dottedEnd? hls hrest)]
    simp only [dif_pos hlt]
    exact ih hls
  | case3 ls hdot mid hmid hge =>
    obtain rfl := Option.some.inj hls
    rw [dottedEnd?, if_pos hdot, h _ _ hmid hrest]
    simp only [dif_neg hge]
  | case4 ls hdot => rwa [dottedEnd?_stop hdot]

theorem typeEnd?_succ_eq_some_iff {depth : Nat} :
    typeEnd? (depth + 1) ls = some rest ↔
      ∃ name qualified, simpleTypeEnd? (argumentsEnd? (typeEnd? depth)) ls = some name ∧
        dottedEnd? (simpleTypeEnd? (argumentsEnd? (typeEnd? depth))) name = some qualified ∧
        suffixEnd qualified = rest := by
  simp [typeEnd?, Option.bind_eq_some_iff]

theorem extends_typeEnd?_succ (depth : Nat) : Extends (typeEnd? depth) (typeEnd? (depth + 1)) := by
  induction depth with
  | zero =>
    intro ls rest hls
    cases hls
  | succ depth ih =>
    intro ls rest hls hrest
    rw [typeEnd?_succ_eq_some_iff] at hls ⊢
    obtain ⟨name, qualified, hname, hqualified, rfl⟩ := hls
    have hless := less_of_suffixEnd hrest
    exact ⟨name, qualified, ih.simple _ _ hname (less_of_dottedEnd? hqualified hless),
      ih.simple.dotted _ _ hqualified hless, rfl⟩

theorem extends_typeEnd? {depth depth' : Nat} (h : depth ≤ depth') :
    Extends (typeEnd? depth) (typeEnd? depth') := by
  induction h with
  | refl => exact fun ls rest hls _ => hls
  | step _ ih =>
    intro ls rest hls hrest
    exact extends_typeEnd?_succ _ ls rest (ih ls rest hls hrest) hrest

end Lookahead

open Lookahead

/-! ## What the parser reads -/

/-- Between `s` and `s'` the lexemes of the tokens `ts` are read, and nothing is reported. -/
structure Consumes (s : ParseState) (ts : List Token) (s' : ParseState) : Prop where
  rest : ∃ read, s.rest = read ++ s'.rest ∧ read.map Lexeme.token = ts
  errors : s'.errors = s.errors

namespace Consumes

variable {s s' s'' : ParseState} {ts us : List Token}

theorem refl (s : ParseState) : Consumes s [] s := ⟨⟨[], rfl, rfl⟩, rfl⟩

theorem append (h : Consumes s ts s') (h' : Consumes s' us s'') : Consumes s (ts ++ us) s'' := by
  obtain ⟨read, hs, hts⟩ := h.rest
  obtain ⟨read', hs', hus⟩ := h'.rest
  constructor
  · exact ⟨read ++ read', by rw [hs, hs', List.append_assoc], by rw [List.map_append, hts, hus]⟩
  · exact h'.errors.trans h.errors

/-- Behind a token, whatever is consumed, the input is shorter than it was before the token. -/
theorem length_lt (h : Consumes s' ts s'') (hs' : s'.rest = s.rest.drop 1)
    (hs : s.kind ≠ .endOfFile) : s''.rest.length < s.rest.length := by
  obtain ⟨read, hread, -⟩ := h.rest
  have hlength : (s.rest.drop 1).length = read.length + s''.rest.length := by
    rw [← hs', hread, List.length_append]
  have hpos : 0 < s.rest.length := List.length_pos_iff.2 (Parser.ne_nil_of_kind_ne hs)
  rw [List.length_drop] at hlength
  omega

end Consumes

namespace Parser

variable {s : ParseState} {rest : List Lexeme}

/-- The node is read up to `rest`: its tokens are the lexemes before, and nothing is reported. -/
def ReadsTo (p : Parser Green) (s : ParseState) (rest : List Lexeme) : Prop :=
  p.Ensures s fun n s' => s'.rest = rest ∧ Consumes s n.tokens s'

theorem readsTo_advance (h : s.kind ≠ .endOfFile) : advance.ReadsTo s (s.rest.drop 1) := by
  cases hs : s.rest with
  | nil => exact absurd hs (ne_nil_of_kind_ne h)
  | cons l rest =>
    simp only [ReadsTo, Ensures, advance, hs]
    exact ⟨rfl, ⟨[l], hs, rfl⟩, rfl⟩

theorem readsTo_expect {k : Kind} (h : s.kind = k) (hk : k ≠ .endOfFile) :
    (expect k).ReadsTo s (s.rest.drop 1) := by
  have hadvance := readsTo_advance (s := s) (h ▸ hk)
  simpa only [ReadsTo, Ensures, expect, if_pos h] using hadvance

/-- The parser reads what lookahead counts off, unless it stops at `<` or `.`. -/
def Agrees (type? : List Lexeme → Option (List Lexeme)) (p : Parser Green) : Prop :=
  ∀ (s : ParseState) (rest : List Lexeme), type? s.rest = some rest → Ends rest →
    p.ReadsTo s rest

section

variable {type? : List Lexeme → Option (List Lexeme)} {argument : Parser Green}

/-- The arguments are read up to the `>` behind which lookahead stops. -/
theorem consumes_arguments (hp : Agrees type? argument)
    (h : argumentsEnd? type? s.rest = some rest) :
    (commaSeparated do return [← argument]).Ensures s fun ns s' =>
      s'.kind = .greaterThan ∧ s'.rest.drop 1 = rest ∧ Consumes s (ns.flatMap Node.tokens) s' := by
  obtain ⟨mid, hmid, hafter⟩ := exists_afterArgument h
  simp only [commaSeparated, ensures_bind, ensures_pure]
  apply (hp s mid hmid hafter.ends).mono
  rintro first s₁ ⟨rfl, hfirst⟩
  -- What is behind an argument tells whether another one follows.
  apply ensures_collectWhile_until fun ns s' =>
    AfterArgument type? rest s'.rest ∧ Consumes s (([first] ++ ns).flatMap Node.tokens) s'
  case start => exact ⟨hafter, by simpa using hfirst⟩
  case stop =>
    rintro ns s' hcomma ⟨hafter', hns⟩
    cases hafter' with
    | comma hk _ => simp [ParseState.kind, hk] at hcomma
    | close hk hrest => exact ⟨hk, hrest, hns⟩
  case round =>
    rintro ns s' hcomma ⟨hafter', hns⟩
    cases hafter' with
    | close hk _ => simp [ParseState.kind, hk] at hcomma
    | comma hk h' =>
      obtain ⟨mid', hmid', hnext⟩ := exists_afterArgument h'
      have hread : s'.kind ≠ .endOfFile := by simp [ParseState.kind, hk]
      simp only [ensures_bind, ensures_pure]
      apply (readsTo_advance hread).mono
      rintro comma s₂ ⟨hrest₂, hcomma⟩
      apply (hp s₂ mid' (hrest₂ ▸ hmid') hnext.ends).mono
      rintro next s₃ ⟨rfl, hargument⟩
      rw [if_pos (hargument.length_lt hrest₂ hread)]
      exact ⟨hnext, by simpa using hns.append (hcomma.append hargument)⟩

theorem readsTo_typeArguments (hp : Agrees type? argument) (hs : s.kind = .lessThan)
    (h : argumentsEnd? type? (s.rest.drop 1) = some rest) :
    (typeArguments argument).ReadsTo s rest := by
  simp only [ReadsTo, typeArguments, ensures_bind, ensures_pure]
  apply (readsTo_advance (by simp [hs])).mono
  rintro opening s₁ ⟨hrest₁, hopening⟩
  apply (consumes_arguments hp (hrest₁ ▸ h)).mono
  rintro ns s₂ ⟨hclose, rfl, hns⟩
  apply (readsTo_expect hclose (by simp)).mono
  rintro closing s₃ ⟨hrest₃, hclosing⟩
  constructor
  · exact hrest₃
  · simpa using hopening.append (hns.append hclosing)

variable (hp : Agrees type? argument) (hext : Extends type? (typeEnd? (maxParseDepth + 1)))
include hp hext

theorem readsTo_simpleType (h : simpleTypeEnd? (argumentsEnd? type?) s.rest = some rest)
    (hrest : kindAhead rest ≠ .lessThan) : (simpleType (some argument)).ReadsTo s rest := by
  rw [simpleTypeEnd?_eq_some_iff hrest] at h
  simp only [ReadsTo, simpleType, ensures_bind, ensures_sees]
  rcases h with ⟨hvar, rfl⟩ | hname
  · rw [if_pos (by simp [ParseState.kind, hvar])]
    simp only [ensures_bind, ensures_pure]
    apply (readsTo_advance (by simp [ParseState.kind, hvar])).mono
    rintro keyword s₁ ⟨hrest₁, hkeyword⟩
    exact ⟨hrest₁, by simpa using hkeyword⟩
  have hkind : s.kind = .identifier := hname.elim And.left And.left
  rw [if_neg (by simp [hkind])]
  simp only [ensures_bind, ensures_get]
  apply (readsTo_expect hkind (by simp)).mono
  rintro name s₁ ⟨hrest₁, hread⟩
  rcases hname with ⟨-, rfl⟩ | ⟨-, hless, harguments⟩
  · have hahead : typeArgumentsAhead s₁ = false := by
      rw [typeArgumentsAhead, ParseState.kind, hrest₁, beq_eq_false_iff_ne.2 hrest,
        Bool.false_and]
    simp only [hahead, Bool.false_eq_true, if_false, ensures_pure]
    exact ⟨hrest₁, by simpa using hread⟩
  · have hkind₁ : s₁.kind = .lessThan := by rw [ParseState.kind, hrest₁, hless]
    have hahead : typeArgumentsAhead s₁ = true := by
      rw [typeArgumentsAhead, hkind₁, hrest₁, hext.arguments _ harguments]
      rfl
    simp only [hahead, if_true, ensures_bind, ensures_pure]
    apply (readsTo_typeArguments hp hkind₁ (hrest₁ ▸ harguments)).mono
    rintro list s₂ ⟨hrest₂, hlist⟩
    exact ⟨hrest₂, by simpa using hread.append hlist⟩

/-- A name is qualified by the parts that lookahead counts off behind it. -/
theorem consumes_qualified {type : Green}
    (h : dottedEnd? (simpleTypeEnd? (argumentsEnd? type?)) s.rest = some rest)
    (hrest : kindAhead rest ≠ .lessThan) :
    Ensures (refine (qualify (some argument)) type) s fun n s' =>
      s'.rest = rest ∧ ∃ ts, n.tokens = type.tokens ++ ts ∧ Consumes s ts s' := by
  apply ensures_refine fun n s' =>
    dottedEnd? (simpleTypeEnd? (argumentsEnd? type?)) s'.rest = some rest ∧
      ∃ ts, n.tokens = type.tokens ++ ts ∧ Consumes s ts s'
  case start => exact ⟨h, [], by simp, .refl s⟩
  rintro n s₁ ⟨h₁, ts, hn, hts⟩
  simp only [qualify, ensures_bind, ensures_get, ensures_ite, ensures_pure]
  constructor
  · intro hdot
    have hread : s₁.kind ≠ .endOfFile := by simp [hdot.1]
    obtain ⟨mid, hmid, hless, hnext⟩ := exists_of_dottedEnd? hdot h₁ hrest
    apply (readsTo_advance hread).mono
    rintro dot s₂ ⟨hrest₂, hdot⟩
    apply (readsTo_simpleType hp hext (hrest₂ ▸ hmid) hless).mono
    rintro part s₃ ⟨rfl, hpart⟩
    have hlt := hpart.length_lt hrest₂ hread
    rw [if_pos hlt]
    refine ⟨hnext hlt, ts ++ (dot.tokens ++ part.tokens), by simp [hn], ?_⟩
    exact hts.append (hdot.append hpart)
  · intro hstop
    rw [dottedEnd?_stop hstop] at h₁
    exact ⟨Option.some.inj h₁, ts, hn, hts⟩

omit hp hext in
/-- Every `?` and `[]` that lookahead takes is read, as no access is behind it. -/
theorem consumes_decorated {type : Green} (h : suffixEnd s.rest = rest) (hrest : Ends rest) :
    Ensures (refine decorate type) s fun n s' =>
      s'.rest = rest ∧ ∃ ts, n.tokens = type.tokens ++ ts ∧ Consumes s ts s' := by
  apply ensures_refine fun n s' =>
    suffixEnd s'.rest = rest ∧ ∃ ts, n.tokens = type.tokens ++ ts ∧ Consumes s ts s'
  case start => exact ⟨h, [], by simp, .refl s⟩
  rintro n s₁ ⟨h₁, ts, hn, hts⟩
  simp only [decorate, ensures_bind, ensures_get, ensures_ite, ensures_pure]
  constructor
  · rintro ⟨hquestion, -⟩
    rw [suffixEnd_question hquestion] at h₁
    have hread : s₁.kind ≠ .endOfFile := by simp [hquestion]
    apply (readsTo_advance hread).mono
    rintro mark s₂ ⟨hrest₂, hmark⟩
    rw [if_pos ((Consumes.refl s₂).length_lt hrest₂ hread)]
    exact ⟨hrest₂ ▸ h₁, ts ++ mark.tokens, by simp [hn], hts.append hmark⟩
  intro haccess
  have hquestion : s₁.kind ≠ .question := fun hk =>
    haccess ⟨hk, fun hdot => dot_of_suffixEnd (h₁ ▸ hrest) hk hdot.1⟩
  constructor
  · rintro ⟨hopen, hclose⟩
    rw [suffixEnd_brackets ⟨hopen, hclose⟩] at h₁
    have hread : s₁.kind ≠ .endOfFile := by simp [hopen]
    apply (readsTo_advance hread).mono
    rintro opening s₂ ⟨hrest₂, hopening⟩
    have hclose₂ : s₂.kind = .closeBracket := by rw [ParseState.kind, hrest₂]; exact hclose
    apply (readsTo_advance (by simp [hclose₂])).mono
    rintro closing s₃ ⟨hrest₃, hclosing⟩
    rw [if_pos (hclosing.length_lt hrest₂ hread)]
    refine ⟨by rw [hrest₃, hrest₂, h₁], ts ++ (opening.tokens ++ closing.tokens), by simp [hn], ?_⟩
    exact hts.append (hopening.append hclosing)
  · intro hstop
    rw [suffixEnd_stop hquestion hstop] at h₁
    exact ⟨h₁, ts, hn, hts⟩

theorem readsTo_typeWith {name qualified : List Lexeme}
    (hname : simpleTypeEnd? (argumentsEnd? type?) s.rest = some name)
    (hqualified : dottedEnd? (simpleTypeEnd? (argumentsEnd? type?)) name = some qualified)
    (hrest : Ends (suffixEnd qualified)) :
    (typeWith (some argument)).ReadsTo s (suffixEnd qualified) := by
  have hless := less_of_suffixEnd hrest.less
  simp only [ReadsTo, typeWith, ensures_bind]
  apply (readsTo_simpleType hp hext hname (less_of_dottedEnd? hqualified hless)).mono
  rintro n s₁ ⟨rfl, hn⟩
  apply (consumes_qualified hp hext hqualified hless).mono
  rintro m s₂ ⟨rfl, ts, hm, hts⟩
  apply (consumes_decorated rfl hrest).mono
  rintro t s₃ ⟨hrest₃, us, ht, hus⟩
  exact ⟨hrest₃, by simpa [ht, hm] using hn.append (hts.append hus)⟩

end

/-- Parser and lookahead agree at each depth that is left to both. -/
theorem agrees_typeNested {depth : Nat} (h : depth ≤ maxParseDepth + 1) :
    Agrees (typeEnd? depth) (typeNested depth) := by
  induction depth with
  | zero =>
    intro s rest hs
    cases hs
  | succ depth ih =>
    intro s rest hs hrest
    have hle : depth ≤ maxParseDepth + 1 := Nat.le_of_succ_le h
    obtain ⟨name, qualified, hname, hqualified, rfl⟩ := typeEnd?_succ_eq_some_iff.1 hs
    exact readsTo_typeWith (ih hle) (extends_typeEnd? hle) hname hqualified hrest

/-! ## Declarations -/

theorem exists_of_declarationAhead {s : ParseState} (h : declarationAhead s = true) :
    ∃ name after, typeEnd? (maxParseDepth + 1) s.rest = some (name :: after) ∧
      name.kind = .identifier := by
  simp only [declarationAhead] at h
  split at h
  · cases h
  · rename_i rest hrest
    rw [Bool.and_eq_true, beq_iff_eq] at h
    cases rest with
    | nil => cases h.1
    | cons name after => exact ⟨name, after, hrest, h.1⟩

/-- What is parsed behind the type and the first name of a declaration. -/
def declarationTail (depth : Nat) (declared name : Green) : Parser Green := do
  let first ← declarator depth name
  let others ← moreDeclarators depth
  return .group .localDeclarationStatement
    (declared :: first :: others ++ [← expect .semicolon])

theorem localDeclaration_eq (depth : Nat) :
    localDeclaration depth = (do
      let declared ← type
      let name ← expect .identifier
      declarationTail depth declared name) := rfl

/-- The type and the first name stay in front, whatever is behind them. -/
theorem shape_declarationTail (depth : Nat) (declared name : Green) (s : ParseState) :
    (declarationTail depth declared name).Ensures s fun n _ =>
      ∃ value others, n = .group .localDeclarationStatement
        (declared :: .group .variableDeclarator (name :: value) :: others) := by
  simp only [declarationTail, declarator, ensures_bind, ensures_sees, ensures_ite, ensures_pure]
  constructor
  · exact fun _ => ⟨[_], _, rfl⟩
  · exact fun _ => ⟨[], _, rfl⟩

/-- Where lookahead finds a declaration, the parser reads one: the type is made of the lexemes
before the end that lookahead found for it, the name of the first declarator is the lexeme there,
and nothing is reported or put in on the way. -/
theorem localDeclaration_follows_lookahead {s : ParseState} (h : declarationAhead s = true)
    (depth : Nat) :
    ∃ before name after declared s₁ s₂,
      typeEnd? (maxParseDepth + 1) s.rest = some (name :: after) ∧
      s.rest = before ++ name :: after ∧
      type s = (declared, s₁) ∧ declared.tokens = before.map Lexeme.token ∧
      s₁.rest = name :: after ∧ s₁.errors = s.errors ∧
      name.kind = .identifier ∧ expect .identifier s₁ = (.leaf name.token, s₂) ∧
      s₂.rest = after ∧ s₂.errors = s.errors ∧
      localDeclaration depth s = declarationTail depth declared (.leaf name.token) s₂ ∧
      ∃ value others, (localDeclaration depth s).1 = .group .localDeclarationStatement
        (declared :: .group .variableDeclarator (.leaf name.token :: value) :: others) := by
  obtain ⟨name, after, htype, hname⟩ := exists_of_declarationAhead h
  have hends : Ends (name :: after) := ⟨by simp [hname], by simp [hname]⟩
  have hread : type.ReadsTo s (name :: after) :=
    agrees_typeNested (Nat.le_refl _) s _ htype hends
  unfold ReadsTo Ensures at hread
  rcases hdeclared : type s with ⟨declared, s₁⟩
  rw [hdeclared] at hread
  have hrest : s₁.rest = name :: after := hread.1
  have hconsumes : Consumes s declared.tokens s₁ := hread.2
  obtain ⟨before, hbefore, htokens⟩ := hconsumes.rest
  rw [hrest] at hbefore
  have hexpect : expect .identifier s₁ =
      (.leaf name.token, { s₁ with rest := after, lastStop := name.stop }) := by
    simp [expect, advance, ParseState.kind, hrest, hname]
  have hlocal : localDeclaration depth s = declarationTail depth declared (.leaf name.token)
      { s₁ with rest := after, lastStop := name.stop } := by
    calc localDeclaration depth s
        = (expect .identifier >>= declarationTail depth (type s).1) (type s).2 := by
          rw [localDeclaration_eq]
          rfl
      _ = declarationTail depth declared (expect .identifier s₁).1 (expect .identifier s₁).2 := by
          rw [hdeclared]
          rfl
      _ = declarationTail depth declared (.leaf name.token)
            { s₁ with rest := after, lastStop := name.stop } := by
          rw [hexpect]
  refine ⟨before, name, after, declared, s₁, _, htype, hbefore, rfl, htokens.symm, hrest,
    hconsumes.errors, hname, hexpect, rfl, hconsumes.errors, hlocal, ?_⟩
  rw [hlocal]
  exact shape_declarationTail depth declared (.leaf name.token) _

/-- The type of `List<a.b?[], C<d>>? e = f;` is all that is before `e`. -/
theorem localDeclaration_follows_lookahead_nested :
    let s : ParseState := { rest := (Lexer.lex "List<a.b?[], C<d>>? e = f;").1 }
    declarationAhead s = true ∧
      ∃ before name declared s₁ s₂,
        s.rest = before ++ name :: s₂.rest ∧ name.token.text = "e" ∧
        type s = (declared, s₁) ∧ declared.tokens = before.map Lexeme.token ∧
        expect .identifier s₁ = (.leaf name.token, s₂) ∧ s₂.errors = [] ∧
        localDeclaration maxParseDepth s =
          declarationTail maxParseDepth declared (.leaf name.token) s₂ := by
  intro s
  have h : declarationAhead s = true := by decide +kernel
  have hend : (typeEnd? (maxParseDepth + 1) s.rest).map (fun ls => ls.map (·.token.text)) =
      some ["e", "=", "f", ";", ""] := by decide +kernel
  obtain ⟨before, name, after, declared, s₁, s₂, htype, hbefore, hdeclared, htokens, -, -, -,
    hname, rfl, herrors, hlocal, -⟩ := localDeclaration_follows_lookahead h maxParseDepth
  rw [htype, Option.map_some, List.map_cons] at hend
  have htext : name.token.text = "e" := (List.cons.inj (Option.some.inj hend)).1
  exact ⟨h, before, name, declared, s₁, s₂, hbefore, htext, hdeclared, htokens, hname, herrors,
    hlocal⟩

end Parser

end NullLint
