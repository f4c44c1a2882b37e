import NullLint.Proofs.Parser.Shapes

/-!
# Properties that parsing passes on

Trees are built from the tokens upwards. A property that every token has, and that a branch has as
soon as its children do, need only be looked at where operands are joined by an operator: if every
expression that is read has it, so has all that a parser gives, whatever the source. The lemmas go
through the parsers one by one.
-/

namespace NullLint

/-- Whether branches of this kind join operands by an operator between them. -/
def Kind.joins : Kind → Bool
  | .binaryExpression | .assignmentExpression => true
  | _ => false

/-- Tokens have the property, and so has every branch whose children have it, unless it joins
operands. -/
structure Inherited (P : Green → Prop) : Prop where
  leaf (t : Token) : P (.leaf t)
  group {k : Kind} {ns : List Green} (hk : k.joins = false) (hns : ∀ n ∈ ns, P n) :
    P (.group k ns)

/-- The node has the property and joins no operands. -/
def Single (P : Green → Prop) (n : Green) : Prop := P n ∧ n.kind.joins = false

theorem Inherited.single {P : Green → Prop} (h : Inherited P) {k : Kind} {ns : List Green}
    (hk : k.joins = false) (hns : ∀ n ∈ ns, P n) : Single P (.group k ns) :=
  ⟨h.group hk hns, hk⟩

namespace Parser

open Lookahead

/-! ## Yielding -/

section Rules

variable {α β : Type} {p q : Parser α} {P : α → Prop} {Q : β → Prop}

/-- From every state the parser gives a value with the property. -/
def Yields (p : Parser α) (P : α → Prop) : Prop := ∀ s, p.Ensures s fun a _ => P a

namespace Yields

theorem mono {P' : α → Prop} (h : p.Yields P) (h' : ∀ a, P a → P' a) : p.Yields P' :=
  fun s => (h s).mono fun a _ => h' a

theorem pure {a : α} (h : P a) : Yields (Pure.pure a) P := fun _ => h

theorem bind {f : α → Parser β} (h : p.Yields P) (h' : ∀ a, P a → (f a).Yields Q) :
    (p >>= f).Yields Q :=
  fun s => h' _ (h s) _

theorem get {f : ParseState → Parser β} (h : ∀ s, (f s).Yields Q) :
    (MonadState.get >>= f).Yields Q :=
  fun s => h s s

theorem sees {k : Kind} {f : Bool → Parser β} (h : ∀ b, (f b).Yields Q) :
    (Parser.sees k >>= f).Yields Q :=
  fun s => h _ s

theorem ite {c : Prop} [Decidable c] (h : p.Yields P) (h' : q.Yields P) :
    Yields (if c then p else q) P := by
  split
  · exact h
  · exact h'

end Yields

end Rules

variable {P : Green → Prop}

/-- From every state the parser gives nodes with the property. -/
abbrev YieldsAll (p : Parser (List Green)) (P : Green → Prop) : Prop :=
  p.Yields fun ns => ∀ n ∈ ns, P n

theorem yields_collectWhile {more : ParseState → Bool} {item : Parser (List Green)}
    (hitem : item.YieldsAll P) : (collectWhile more item).YieldsAll P :=
  fun s => all_collectWhile (fun s _ => hitem s) s

theorem yields_refine {step : Green → Parser (Option Green)}
    (hstep : ∀ n, P n → (step n).Yields fun r => ∀ m ∈ r, P m) {n : Green} (hn : P n) :
    Yields (refine step n) P :=
  fun s => all_refine (fun n s hn => hstep n hn s) hn s

section Tokens

variable (h : Inherited P)
include h

theorem yields_advance : advance.Yields P := by
  intro s
  unfold Ensures advance
  cases s.rest with
  | nil => exact h.leaf _
  | cons l rest => exact h.leaf _

theorem yields_expect (k : Kind) : (expect k).Yields P := by
  intro s
  unfold Ensures expect
  split
  · exact yields_advance h s
  · exact h.leaf _

theorem yields_accept (k : Kind) : (accept k).YieldsAll P := by
  intro s
  unfold Ensures accept
  split
  · exact List.forall_mem_singleton.2 (yields_advance h s)
  · simp

theorem yields_skip (code : ErrorCode) : (skip code).Yields P := by
  intro s
  have htoken := yields_advance h (complain code s).2
  exact h.group rfl (List.forall_mem_singleton.2 htoken)

theorem yields_modifiers : modifiers.YieldsAll P :=
  yields_collectWhile ((yields_advance h).bind fun n hn => .pure (by simpa using hn))

theorem yields_giveUp (withSemicolon : Bool) : (giveUp withSemicolon).Yields P := by
  have skipped : (collectWhile (fun s => !endsStatement s.kind) do
      return [← advance]).YieldsAll P :=
    yields_collectWhile ((yields_advance h).bind fun n hn => .pure (by simpa using hn))
  refine Yields.bind (P := fun _ => True) (fun _ => trivial) fun _ _ => ?_
  refine skipped.bind fun ns hns => .ite ?_ ?_
  · refine (yields_accept h .semicolon).bind fun semicolon hsemicolon => .pure ?_
    exact h.group rfl (List.forall_mem_append.2 ⟨hns, hsemicolon⟩)
  · exact .pure (h.group rfl (by simpa using hns))

variable {nested : Parser Green} (hnested : nested.Yields P)
include hnested

theorem yields_commaSeparated : (commaSeparated do return [← nested]).YieldsAll P := by
  have item : (do return [← nested] : Parser (List Green)).YieldsAll P :=
    hnested.bind fun n hn => .pure (by simpa using hn)
  refine item.bind fun first hfirst => ?_
  refine Yields.bind (P := fun ns => ∀ n ∈ ns, P n) (yields_collectWhile ?_) fun others hothers =>
    .pure (List.forall_mem_append.2 ⟨hfirst, hothers⟩)
  refine (yields_advance h).bind fun comma hcomma => ?_
  exact item.bind fun ns hns => .pure (List.forall_mem_cons.2 ⟨hcomma, hns⟩)

theorem yields_element (code : ErrorCode) : (element code nested).YieldsAll P := by
  refine .get fun before => hnested.bind fun node hnode => .get fun s => .ite ?_ ?_
  · exact (yields_skip h code).bind fun n hn => .pure (by simp [hnode, hn])
  · exact .pure (by simpa using hnode)

end Tokens

/-! ## Types -/

section Types

variable (h : Inherited P)
include h

theorem yields_typeArguments {argument : Parser Green} (hargument : argument.Yields P) :
    (typeArguments argument).Yields P := by
  refine (yields_advance h).bind fun opening hopening => ?_
  refine (yields_commaSeparated h hargument).bind fun types htypes => ?_
  refine (yields_expect h _).bind fun closing hclosing => .pure (h.group rfl ?_)
  simpa [hopening, or_imp, forall_and, hclosing] using htypes

theorem yields_simpleType {argument : Option (Parser Green)}
    (hargument : ∀ p ∈ argument, p.Yields P) : (simpleType argument).Yields P := by
  refine .sees fun implicit => .ite ?_ ?_
  · exact (yields_advance h).bind fun n hn => .pure (h.group rfl (by simpa using hn))
  · refine (yields_expect h _).bind fun name hname => ?_
    have plain : P (.group .predefinedOrNamedType [name]) := h.group rfl (by simpa using hname)
    cases argument with
    | none => exact .pure plain
    | some p =>
      refine .get fun s => .ite ?_ (.pure plain)
      refine (yields_typeArguments h (hargument p rfl)).bind fun list hlist => ?_
      exact .pure (h.group rfl (by simp [hname, hlist]))

theorem yields_qualify {argument : Option (Parser Green)}
    (hargument : ∀ p ∈ argument, p.Yields P) (n : Green) (hn : P n) :
    (qualify argument n).Yields fun r => ∀ m ∈ r, P m := by
  refine .get fun s => .ite ?_ (.pure (by simp))
  refine (yields_advance h).bind fun dot hdot => ?_
  refine (yields_simpleType h hargument).bind fun name hname => .pure ?_
  have hqualified : P (.group .qualifiedName [n, dot, name]) :=
    h.group rfl (by simp [hn, hdot, hname])
  simpa using hqualified

theorem yields_decorate (n : Green) (hn : P n) :
    (decorate n).Yields fun r => ∀ m ∈ r, P m := by
  refine .get fun s => .ite ?_ (.ite ?_ (.pure (by simp)))
  · refine (yields_advance h).bind fun question hquestion => .pure ?_
    have hnullable : P (.group .nullableType [n, question]) :=
      h.group rfl (by simp [hn, hquestion])
    simpa using hnullable
  · refine (yields_advance h).bind fun opening hopening => ?_
    refine (yields_advance h).bind fun closing hclosing => .pure ?_
    have harray : P (.group .arrayType [n, opening, closing]) :=
      h.group rfl (by simp [hn, hopening, hclosing])
    simpa using harray

theorem yields_typeWith {argument : Option (Parser Green)}
    (hargument : ∀ p ∈ argument, p.Yields P) : (typeWith argument).Yields P := by
  refine (yields_simpleType h hargument).bind fun name hname => ?_
  refine (yields_refine (yields_qualify h hargument) hname).bind fun qualified hqualified => ?_
  exact yields_refine (yields_decorate h) hqualified

theorem yields_typeNested (depth : Nat) : (typeNested depth).Yields P := by
  induction depth with
  | zero => exact yields_typeWith h (by simp)
  | succ depth ih => exact yields_typeWith h (by simpa using ih)

theorem yields_type : type.Yields P := yields_typeNested h _

end Types

/-! ## Operands -/

section Operands

variable (h : Inherited P)
include h

theorem single_identifierName : identifierName.Yields (Single P) :=
  (yields_expect h _).bind fun n hn => .pure (h.single rfl (by simpa using hn))

theorem single_absentExpression : absentExpression.Yields (Single P) :=
  fun _ => h.single rfl (by simpa using h.leaf _)

variable {nested : Parser Green} (hnested : nested.Yields P)
include hnested

theorem yields_argumentList (opening closing : Kind) {kind : Kind} (hk : kind.joins = false) :
    (argumentList nested opening closing kind).Yields P := by
  have enclosed {first : Green} {ns : List Green} (hfirst : P first) (hns : ∀ n ∈ ns, P n) :
      (do return Green.group kind (first :: ns ++ [← expect closing]) : Parser Green).Yields P := by
    refine (yields_expect h closing).bind fun last hlast => .pure (h.group hk ?_)
    simpa [hfirst, or_imp, forall_and, hlast] using hns
  refine (yields_expect h opening).bind fun first hfirst => .sees fun empty => ?_
  refine .ite (enclosed hfirst (by simp)) ?_
  exact (yields_commaSeparated h hnested).bind fun ns hns => enclosed hfirst hns

theorem yields_parenthesizedArguments : (parenthesizedArguments nested).Yields P :=
  yields_argumentList h hnested _ _ rfl

theorem yields_bracketedArguments : (bracketedArguments nested).Yields P :=
  yields_argumentList h hnested _ _ rfl

theorem single_parenthesized : (parenthesized nested).Yields (Single P) := by
  refine (yields_advance h).bind fun opening hopening => ?_
  refine hnested.bind fun e he => ?_
  refine (yields_expect h _).bind fun closing hclosing => .pure (h.single rfl ?_)
  simp [hopening, he, hclosing]

theorem single_objectCreation : (objectCreation nested).Yields (Single P) := by
  have created {keyword type list : Green} (hkeyword : P keyword) (htype : P type)
      (hlist : P list) :
      Single P (.group .objectCreationExpression [keyword, type, list]) :=
    h.single rfl (by simp [hkeyword, htype, hlist])
  refine (yields_advance h).bind fun keyword hkeyword => ?_
  refine (yields_type h).bind fun type htype => .sees fun opens => .ite ?_ ?_
  · exact (yields_parenthesizedArguments h hnested).bind fun list hlist =>
      .pure (created hkeyword htype hlist)
  · exact (yields_expect h _).bind fun list hlist => .pure (created hkeyword htype hlist)

theorem single_primary : (primary nested).Yields (Single P) := by
  have token {k : Kind} (hk : k.joins = false) :
      (do return Green.group k [← advance] : Parser Green).Yields (Single P) :=
    (yields_advance h).bind fun n hn => .pure (h.single hk (by simpa using hn))
  refine .get fun s => ?_
  split
  · exact single_identifierName h
  · exact token rfl
  · exact single_parenthesized h hnested
  · exact single_objectCreation h hnested
  · intro s
    exact ⟨yields_skip h _ s, rfl⟩
  · exact .ite (token rfl) (single_absentExpression h)

theorem single_extend (e : Green) (he : Single P e) :
    (extend nested e).Yields fun r => ∀ m ∈ r, Single P m := by
  have behind {p : Parser Green} (hp : p.Yields P) {k : Kind} (hk : k.joins = false) :
      (do return some (Green.group k [e, ← p])).Yields fun r => ∀ m ∈ r, Single P m := by
    refine hp.bind fun n hn => .pure ?_
    have hnode : Single P (.group k [e, n]) := h.single hk (by simp [he.1, hn])
    simpa using hnode
  have marked {k : Kind} (hk : k.joins = false) := behind (yields_advance h) hk
  refine .get fun s => ?_
  split
  · refine (yields_advance h).bind fun dot hdot => ?_
    refine (single_identifierName h).bind fun name hname => .pure ?_
    have haccess : Single P (.group .memberAccessExpression [e, dot, name]) :=
      h.single rfl (by simp [he.1, hdot, hname.1])
    simpa using haccess
  · exact .ite (marked rfl) (.pure (by simp))
  · exact behind (yields_parenthesizedArguments h hnested) rfl
  · exact behind (yields_bracketedArguments h hnested) rfl
  · exact marked rfl
  · exact marked rfl
  · exact marked rfl
  · exact .pure (by simp)

/-- An operand is a node that joins no operands itself. -/
theorem single_unary : (unary nested).Yields (Single P) := by
  have signs : (collectWhile (fun s => isSignOperator s.kind) do
      return [← advance]).YieldsAll P :=
    yields_collectWhile ((yields_advance h).bind fun n hn => .pure (by simpa using hn))
  refine signs.bind fun operators hoperators => ?_
  refine Yields.bind (P := Single P) ?_ fun operand hoperand => .pure ?_
  · exact (single_primary h hnested).bind fun e he => yields_refine (single_extend h hnested) he
  · induction operators with
    | nil => exact hoperand
    | cons op operators ih =>
      obtain ⟨hop, hoperators⟩ := List.forall_mem_cons.1 hoperators
      exact h.single rfl (by simpa using ⟨hop, (ih hoperators).1⟩)

end Operands

/-! ## Statements -/

section Statements

variable (h : Inherited P) (he : ∀ depth, (expression depth).Yields P) (depth : Nat)
include h he

theorem yields_equalsValue : (equalsValue depth).Yields P := by
  refine (yields_advance h).bind fun equals hequals => ?_
  exact (he depth).bind fun e he => .pure (h.group rfl (by simp [hequals, he]))

theorem yields_declarator {name : Green} (hname : P name) :
    (declarator depth name).Yields P := by
  refine .sees fun initialized => .ite ?_ (.pure (h.group rfl (by simpa using hname)))
  refine (yields_equalsValue h he depth).bind fun value hvalue => ?_
  exact .pure (h.group rfl (by simp [hname, hvalue]))

theorem yields_moreDeclarators : (moreDeclarators depth).YieldsAll P := by
  refine yields_collectWhile ?_
  refine (yields_advance h).bind fun comma hcomma => ?_
  refine (yields_expect h _).bind fun name hname => ?_
  exact (yields_declarator h he depth hname).bind fun n hn => .pure (by simp [hcomma, hn])

theorem yields_localDeclaration : (localDeclaration depth).Yields P := by
  refine (yields_type h).bind fun declared hdeclared => ?_
  refine (yields_expect h _).bind fun name hname => ?_
  refine (yields_declarator h he depth hname).bind fun first hfirst => ?_
  refine (yields_moreDeclarators h he depth).bind fun others hothers => ?_
  refine (yields_expect h _).bind fun semicolon hsemicolon => .pure (h.group rfl ?_)
  simpa [hdeclared, hfirst, or_imp, forall_and, hsemicolon] using hothers

theorem yields_expressionStatement : (expressionStatement depth).Yields P := by
  refine (he depth).bind fun e he => ?_
  refine (yields_expect h _).bind fun semicolon hsemicolon => ?_
  exact .pure (h.group rfl (by simp [he, hsemicolon]))

theorem yields_jump {kind : Kind} (hk : kind.joins = false) : (jump depth kind).Yields P := by
  have ended {keyword : Green} {value : List Green} (hkeyword : P keyword)
      (hvalue : ∀ n ∈ value, P n) :
      (do return Green.group kind (keyword :: value ++ [← expect .semicolon]) :
        Parser Green).Yields P := by
    refine (yields_expect h _).bind fun semicolon hsemicolon => .pure (h.group hk ?_)
    simpa [hkeyword, or_imp, forall_and, hsemicolon] using hvalue
  refine (yields_advance h).bind fun keyword hkeyword => .get fun s => .ite ?_ ?_
  · exact (he depth).bind fun e he => ended hkeyword (by simpa using he)
  · exact ended hkeyword (by simp)

variable {nested : Parser Green} (hnested : nested.Yields P)
include hnested

theorem yields_embedded : (embedded depth nested).Yields P :=
  .get fun _ => .ite hnested (yields_expressionStatement h he depth)

theorem yields_guarded : (guarded depth nested).YieldsAll P := by
  refine (yields_advance h).bind fun keyword hkeyword => ?_
  refine (yields_expect h _).bind fun opening hopening => ?_
  refine (he depth).bind fun condition hcondition => ?_
  refine (yields_expect h _).bind fun closing hclosing => ?_
  refine (yields_embedded h he depth hnested).bind fun body hbody => .pure ?_
  simp [hkeyword, hopening, hcondition, hclosing, hbody]

theorem yields_ifStatement : (ifStatement depth nested).Yields P := by
  refine (yields_guarded h he depth hnested).bind fun parts hparts => .sees fun more => .ite ?_ ?_
  · refine (yields_advance h).bind fun keyword hkeyword => ?_
    refine (yields_embedded h he depth hnested).bind fun other hother => .pure (h.group rfl ?_)
    have hclause : P (.group .elseClause [keyword, other]) :=
      h.group rfl (by simp [hkeyword, hother])
    simpa [or_imp, forall_and, hclause] using hparts
  · exact .pure (h.group rfl hparts)

theorem yields_whileStatement : (whileStatement depth nested).Yields P :=
  (yields_guarded h he depth hnested).bind fun _ hparts => .pure (h.group rfl hparts)

omit he in
theorem yields_block : (block nested).Yields P := by
  have item : (do if startsStatement (← get).kind then nested else skip .invalidExpressionTerm :
      Parser Green).Yields P :=
    .get fun _ => .ite hnested (yields_skip h _)
  refine (yields_expect h _).bind fun opening hopening => ?_
  refine (yields_collectWhile (yields_element h item _)).bind fun body hbody => ?_
  refine (yields_expect h _).bind fun closing hclosing => .pure (h.group rfl ?_)
  simpa [hopening, or_imp, forall_and, hclosing] using hbody

theorem yields_statementWith : (statementWith depth nested).Yields P := by
  refine .get fun s => ?_
  split
  · exact yields_block h hnested
  · exact (yields_advance h).bind fun n hn => .pure (h.group rfl (by simpa using hn))
  · exact yields_ifStatement h he depth hnested
  · exact yields_whileStatement h he depth hnested
  · exact yields_jump h he depth rfl
  · exact yields_jump h he depth rfl
  · exact .ite (yields_localDeclaration h he depth) (yields_expressionStatement h he depth)

omit hnested in
theorem yields_statement : (statement depth).Yields P := by
  induction depth with
  | zero => exact yields_giveUp h true
  | succ depth ih => exact yields_statementWith h he depth ih

end Statements

/-! ## Declarations -/

section Declarations

variable (h : Inherited P) (he : ∀ depth, (expression depth).Yields P)
include h he

theorem yields_arrowClause : arrowClause.Yields P := by
  refine (yields_advance h).bind fun arrow harrow => ?_
  exact (he _).bind fun e he => .pure (h.group rfl (by simp [harrow, he]))

theorem yields_body : body.YieldsAll P := by
  refine .get fun s => ?_
  split
  · exact (yields_block h (yields_statement h he _)).bind fun n hn => .pure (by simpa using hn)
  · refine (yields_arrowClause h he).bind fun clause hclause => ?_
    exact (yields_expect h _).bind fun semicolon hsemicolon =>
      .pure (by simp [hclause, hsemicolon])
  · exact (yields_expect h _).bind fun n hn => .pure (by simpa using hn)

theorem yields_parameter : parameter.Yields P := by
  refine (yields_type h).bind fun declared hdeclared => ?_
  refine (yields_expect h _).bind fun name hname => .sees fun initialized => .ite ?_ ?_
  · refine (yields_equalsValue h he _).bind fun value hvalue => ?_
    exact .pure (h.group rfl (by simp [hdeclared, hname, hvalue]))
  · exact .pure (h.group rfl (by simp [hdeclared, hname]))

theorem yields_parameterList : parameterList.Yields P := by
  let inv (ns : List Green) (_ : ParseState) : Prop := ∀ n ∈ ns, P n
  refine (yields_expect h _).bind fun opening hopening => ?_
  refine Yields.bind (P := fun ns => ∀ n ∈ ns, P n) (fun s => ?_) fun parameters hparameters => ?_
  · refine ensures_collect inv inv (fun ns s hns => ?_) (by simp [inv])
    have round : ∀ ms, (∀ n ∈ ms, P n) → ∀ n ∈ ns ++ ms, P n :=
      fun ms hms => List.forall_mem_append.2 ⟨hns, hms⟩
    simp only [ensures_bind, ensures_get, ensures_ite, ensures_pure]
    refine ⟨fun _ => ?_, fun _ => by simpa using hns⟩
    refine (yields_parameter h he s).mono fun p s₁ hp => ?_
    refine (yields_accept h _ s₁).mono fun comma s₂ hcomma => ?_
    have hround := round _ (List.forall_mem_cons.2 ⟨hp, hcomma⟩)
    split <;> exact hround
  · refine (yields_expect h _).bind fun closing hclosing => .pure (h.group rfl ?_)
    simpa [hopening, or_imp, forall_and, hclosing] using hparameters

theorem yields_accessorList : accessorList.Yields P := by
  refine (yields_advance h).bind fun opening hopening => ?_
  refine Yields.bind (P := fun ns => ∀ n ∈ ns, P n) (yields_collectWhile ?_)
    fun accessors haccessors => ?_
  · refine (yields_modifiers h).bind fun words hwords => ?_
    refine (yields_expect h _).bind fun name hname => ?_
    refine (yields_body h he).bind fun rest hrest => .pure ?_
    have hchildren : ∀ n ∈ words ++ name :: rest, P n :=
      List.forall_mem_append.2 ⟨hwords, List.forall_mem_cons.2 ⟨hname, hrest⟩⟩
    simpa using h.group (k := .accessorDeclaration) rfl hchildren
  · refine (yields_expect h _).bind fun closing hclosing => .pure (h.group rfl ?_)
    simpa [hopening, or_imp, forall_and, hclosing] using haccessors

theorem yields_memberTail {before : List Green} {name : Green} (hbefore : ∀ n ∈ before, P n)
    (hname : P name) : (memberTail before name).Yields P := by
  have grouped {k : Kind} {ns : List Green} (hk : k.joins = false) (hns : ∀ n ∈ ns, P n) :
      P (.group k (before ++ ns)) :=
    h.group hk (List.forall_mem_append.2 ⟨hbefore, hns⟩)
  refine .get fun s => ?_
  split
  · refine (yields_parameterList h he).bind fun parameters hparameters => ?_
    refine (yields_body h he).bind fun rest hrest => .pure (grouped rfl ?_)
    simpa [hname, hparameters] using hrest
  · refine (yields_accessorList h he).bind fun accessors haccessors => .sees fun more => .ite ?_ ?_
    · refine (yields_equalsValue h he _).bind fun value hvalue => ?_
      refine (yields_expect h _).bind fun semicolon hsemicolon => .pure (grouped rfl ?_)
      simp [hname, haccessors, hvalue, hsemicolon]
    · exact .pure (grouped rfl (by simp [hname, haccessors]))
  · refine (yields_arrowClause h he).bind fun clause hclause => ?_
    refine (yields_expect h _).bind fun semicolon hsemicolon => .pure (grouped rfl ?_)
    simp [hname, hclause, hsemicolon]
  · refine (yields_declarator h he _ hname).bind fun first hfirst => ?_
    refine (yields_moreDeclarators h he _).bind fun others hothers => ?_
    refine (yields_expect h _).bind fun semicolon hsemicolon => .pure ?_
    have hfield : P (.group .fieldDeclaration (before ++ (first :: others ++ [semicolon]))) :=
      grouped rfl (by simpa [hfirst, or_imp, forall_and, hsemicolon] using hothers)
    simpa using hfield

theorem yields_member {nested : List Green → Parser Green}
    (hnested : ∀ words, (∀ n ∈ words, P n) → (nested words).Yields P) :
    (member nested).Yields P := by
  refine (yields_modifiers h).bind fun words hwords => .get fun s => ?_
  refine .ite (hnested words hwords) (.ite ?_ (.ite ?_ ?_))
  · refine (yields_advance h).bind fun name hname => ?_
    refine (yields_parameterList h he).bind fun parameters hparameters => ?_
    refine (yields_body h he).bind fun rest hrest => .pure (h.group rfl ?_)
    simpa [or_imp, forall_and, hname, hparameters] using ⟨hwords, hrest⟩
  · refine (yields_type h).bind fun declared hdeclared => ?_
    refine (yields_expect h _).bind fun name hname => yields_memberTail h he ?_ hname
    simpa [or_imp, forall_and, hdeclared] using hwords
  · refine (yields_expect h _).bind fun name hname => .pure (h.group rfl ?_)
    simpa [or_imp, forall_and, hname] using hwords

omit he in
theorem yields_baseList : baseList.YieldsAll P := by
  refine .sees fun derived => .ite ?_ (.pure (by simp))
  refine (yields_advance h).bind fun colon hcolon => ?_
  exact (yields_commaSeparated h (yields_type h)).bind fun types htypes =>
    .pure (List.forall_mem_cons.2 ⟨hcolon, htypes⟩)

theorem yields_typeDeclarationWith {nested : List Green → Parser Green}
    (hnested : ∀ words, (∀ n ∈ words, P n) → (nested words).Yields P) (words : List Green)
    (hwords : ∀ n ∈ words, P n) : (typeDeclarationWith nested words).Yields P := by
  have item : (do if startsMember (← get).kind then member nested else skip .invalidMemberToken :
      Parser Green).Yields P :=
    .get fun _ => .ite (yields_member h he hnested) (yields_skip h _)
  refine .get fun s => (yields_advance h).bind fun keyword hkeyword => ?_
  refine (yields_expect h _).bind fun name hname => ?_
  refine (yields_baseList h).bind fun bases hbases => ?_
  refine (yields_expect h _).bind fun opening hopening => ?_
  refine (yields_collectWhile (yields_element h item _)).bind fun members hmembers => ?_
  refine (yields_expect h _).bind fun closing hclosing => .pure (h.group (by split <;> rfl) ?_)
  simp only [List.forall_mem_append, List.forall_mem_cons]
  simp_all

theorem yields_typeDeclarationNested (depth : Nat) (words : List Green)
    (hwords : ∀ n ∈ words, P n) : (typeDeclarationNested depth words).Yields P := by
  induction depth generalizing words with
  | zero =>
    intro s
    have htoken := yields_advance h (complain .invalidMemberToken s).2
    exact h.group rfl (List.forall_mem_append.2 ⟨hwords, List.forall_mem_singleton.2 htoken⟩)
  | succ depth ih => exact yields_typeDeclarationWith h he ih words hwords

theorem yields_typeDeclaration : typeDeclaration.Yields P :=
  (yields_modifiers h).bind fun words hwords =>
    .get fun _ => yields_typeDeclarationNested h he _ words hwords

omit he in
theorem yields_usingDirective : usingDirective.Yields P := by
  refine (yields_advance h).bind fun keyword hkeyword => ?_
  refine (yields_accept h _).bind fun static hstatic => .get fun s => ?_
  have ended {shortName : List Green} (hshort : ∀ n ∈ shortName, P n) :
      (do
        let target ← type
        return Green.group .usingDirective
          (keyword :: static ++ shortName ++ [target, ← expect .semicolon])).Yields P := by
    refine (yields_type h).bind fun target htarget => ?_
    refine (yields_expect h _).bind fun semicolon hsemicolon => .pure (h.group rfl ?_)
    simp only [List.forall_mem_append, List.forall_mem_cons]
    simp_all
  refine .ite ?_ (ended (by simp))
  refine (yields_advance h).bind fun name hname => ?_
  exact (yields_advance h).bind fun equals hequals => ended (by simp [hname, hequals])

theorem yields_namespaceMember {nested : Parser Green} (hnested : nested.Yields P) :
    (namespaceMember nested).Yields P := by
  refine .get fun s => ?_
  split
  · exact yields_usingDirective h
  · exact hnested
  · exact .ite (yields_typeDeclaration h he) (yields_skip h _)

theorem yields_namespaceWith {nested : Parser Green} (hnested : nested.Yields P) :
    (namespaceWith nested).Yields P := by
  have items (more : ParseState → Bool) :
      (collectWhile more
        (element .namespaceMemberExpected (namespaceMember nested))).YieldsAll P :=
    yields_collectWhile (yields_element h (yields_namespaceMember h he hnested) _)
  refine (yields_advance h).bind fun keyword hkeyword => ?_
  refine (yields_type h).bind fun name hname => .sees fun whole => .ite ?_ ?_
  · refine (yields_advance h).bind fun semicolon hsemicolon => ?_
    refine (items _).bind fun members hmembers => .pure (h.group rfl ?_)
    simpa [hkeyword, hname, hsemicolon] using hmembers
  · refine (yields_expect h _).bind fun opening hopening => ?_
    refine (items _).bind fun members hmembers => ?_
    refine (yields_expect h _).bind fun closing hclosing => .pure (h.group rfl ?_)
    simpa [hkeyword, hname, hopening, or_imp, forall_and, hclosing] using hmembers

theorem yields_namespaceNested (depth : Nat) : (namespaceNested depth).Yields P := by
  induction depth with
  | zero => exact yields_skip h _
  | succ depth ih => exact yields_namespaceWith h he ih

theorem yields_topLevelItem : topLevelItem.Yields P := by
  refine .get fun s => ?_
  split
  · exact yields_usingDirective h
  · exact .get fun _ => yields_namespaceNested h he _
  · exact .ite (yields_typeDeclaration h he) (.ite (yields_statement h he _) (yields_skip h _))

/-- What is inherited and holds of expressions holds of a whole file. -/
theorem yields_compilationUnit : compilationUnit.Yields P := by
  have items : (collectWhile (fun s => s.kind != .endOfFile)
      (element .namespaceMemberExpected topLevelItem)).YieldsAll P :=
    yields_collectWhile (yields_element h (yields_topLevelItem h he) _)
  refine items.bind fun ns hns => ?_
  refine (yields_advance h).bind fun n hn => .pure (h.group rfl ?_)
  simpa [or_imp, forall_and, hn] using hns

end Declarations

end Parser

end NullLint
