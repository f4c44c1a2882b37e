import NullLint.Proofs.Semantics.Conditions

/-!
# What the statements before show

A statement that is said to exit does not come through, a null guard that comes through leaves the
variable not null, and a statement that is said to assign a value leaves the variable with the
value that the expression has there.
-/

namespace NullLint

variable {m : Model} {n c e s root : Placed} {outs : List Outcome} {o o' : Outcome}
  {σ σ' : Store} {v w : Value} {x : Nat}

/-! ## Parts by kind -/

theorem Next.of_list (h : Next m n outs c) (hn : n.kind.isList = true) :
    n.statements[outs.length]? = some c ∧ ∀ o ∈ outs, o = .done := by
  have hkind : n.kind = .block ∨ n.kind = .compilationUnit := by simpa [Kind.isList] using hn
  cases h with
  | statement h hs before => exact ⟨hs, before⟩
  | _ => rcases hkind with hkind | hkind <;> simp_all [Kind.continuesChain, Kind.isArguments,
      Kind.isUnary, Kind.holdsValue]

theorem Next.exists_if (h : Next m n outs c) (hn : n.kind = .ifStatement) :
    ∃ view, n.ifStatement? = some view := by
  cases h with
  | ifCondition h hv he | thenBranch h hv hs ho hw | elseClause h hv hs hc ho hw => exact ⟨_, hv⟩
  | _ => simp_all [Kind.continuesChain, Kind.isArguments, Kind.isUnary, Kind.holdsValue,
      Kind.isList]

theorem Next.of_if {view : Node.IfView Place} (h : Next m n outs c) (hn : n.kind = .ifStatement)
    (hv : n.ifStatement? = some view) :
    outs = [] ∧ c = view.condition ∧ c.isExpression = true ∨
      ∃ o v b, outs = [o] ∧ o.Has v ∧ v.ComesOut b ∧ view.thenBranch.kind.isStatement = true ∧
        if b then c = view.thenBranch else n.childOfKind? .elseClause = some c := by
  cases h with
  | ifCondition h hv' he =>
    obtain rfl := Option.some.inj (hv.symm.trans hv')
    exact .inl ⟨rfl, rfl, he⟩
  | thenBranch h hv' hs ho hw =>
    obtain rfl := Option.some.inj (hv.symm.trans hv')
    exact .inr ⟨_, _, true, rfl, ho, hw, hs, rfl⟩
  | elseClause h hv' hs hc ho hw =>
    obtain rfl := Option.some.inj (hv.symm.trans hv')
    exact .inr ⟨_, _, false, rfl, ho, hw, hs, hc⟩
  | _ => simp_all [Kind.continuesChain, Kind.isArguments, Kind.isUnary, Kind.holdsValue,
      Kind.isList]

theorem Next.exists_while (h : Next m n outs c) (hn : n.kind = .whileStatement) :
    ∃ view, n.whileStatement? = some view := by
  cases h with
  | whileCondition h hv he turn before | whileBody h hv hs turn ho hw => exact ⟨_, hv⟩
  | _ => simp_all [Kind.continuesChain, Kind.isArguments, Kind.isUnary, Kind.holdsValue,
      Kind.isList]

theorem Next.of_while {view : Node.WhileView Place} (h : Next m n outs c)
    (hn : n.kind = .whileStatement) (hv : n.whileStatement? = some view) :
    outs.length % 2 = 0 ∧ c = view.condition ∧ c.isExpression = true ∨
      ∃ o outs' v, outs = o :: outs' ∧ outs'.length % 2 = 0 ∧ o.Has v ∧ v.ComesOut true ∧
        c = view.body := by
  cases h with
  | whileCondition h hv' he turn before =>
    obtain rfl := Option.some.inj (hv.symm.trans hv')
    exact .inl ⟨turn, rfl, he⟩
  | whileBody h hv' hs turn ho hw =>
    obtain rfl := Option.some.inj (hv.symm.trans hv')
    exact .inr ⟨_, _, _, rfl, turn, ho, hw, rfl⟩
  | _ => simp_all [Kind.continuesChain, Kind.isArguments, Kind.isUnary, Kind.holdsValue,
      Kind.isList]

theorem Next.of_declaration (h : Next m n outs c) (hn : n.kind = .localDeclarationStatement) :
    ∃ view, n.variableDeclaration? = some view ∧ view.declarators[outs.length]? = some c := by
  cases h with
  | declarator h hv hd => exact ⟨_, hv, hd⟩
  | _ => simp_all [Kind.continuesChain, Kind.isArguments, Kind.isUnary, Kind.holdsValue,
      Kind.isList]

theorem Next.of_declarator (h : Next m n outs c) (hn : n.kind = .variableDeclarator) :
    outs = [] ∧ n.childOfKind? .equalsValueClause = some c := by
  cases h with
  | initializer h hc => exact ⟨rfl, hc⟩
  | _ => simp_all [Kind.continuesChain, Kind.isArguments, Kind.isUnary, Kind.holdsValue,
      Kind.isList]

theorem Next.of_equalsValue (h : Next m n outs c) (hn : n.kind = .equalsValueClause) :
    outs = [] ∧ n.children[1]? = some c := by
  cases h with
  | initialValue h parts he => exact ⟨rfl, parts⟩
  | _ => simp_all [Kind.continuesChain, Kind.isArguments, Kind.isUnary, Kind.holdsValue,
      Kind.isList]

theorem Next.of_value (h : Next m n outs c) (hn : n.kind.holdsValue = true) :
    outs = [] ∧ n.value? = some c := by
  have hkind : n.kind = .expressionStatement ∨ n.kind = .returnStatement ∨
      n.kind = .throwStatement := by simpa [Kind.holdsValue, or_assoc] using hn
  cases h with
  | value h he => exact ⟨rfl, he⟩
  | _ => rcases hkind with hkind | hkind | hkind <;> simp_all [Kind.continuesChain,
      Kind.isArguments, Kind.isUnary, Kind.isList]

theorem Next.of_elseClause (h : Next m n outs c) (hn : n.kind = .elseClause) :
    outs = [] ∧ n.children[1]? = some c := by
  cases h with
  | elseBranch h parts hs => exact ⟨rfl, parts⟩
  | _ => simp_all [Kind.continuesChain, Kind.isArguments, Kind.isUnary, Kind.holdsValue,
      Kind.isList]

/-! ## Results by kind -/

theorem Gives.of_list (h : Gives m n outs σ o σ') (hn : n.kind.isList = true) :
    o = .exited ∨ o = .done ∧ outs.length = n.statements.length ∧ ∀ o ∈ outs, o = .done := by
  have hkind : n.kind = .block ∨ n.kind = .compilationUnit := by simpa [Kind.isList] using hn
  cases h with
  | list h hl before => exact .inr ⟨rfl, hl, before⟩
  | listExit h => exact .inl rfl
  | _ => rcases hkind with hkind | hkind <;> simp_all [Kind.continuesChain, Kind.isArguments,
      Kind.isUnary]

theorem Gives.of_exit (h : Gives m n outs σ o σ')
    (hn : n.kind = .returnStatement ∨ n.kind = .throwStatement) : o = .exited := by
  cases h with
  | exit h hl => rfl
  | _ => rcases hn with hn | hn <;> simp_all [Kind.continuesChain, Kind.isArguments,
      Kind.isUnary, Kind.isList]

theorem Gives.of_if (h : Gives m n outs σ o σ') (hn : n.kind = .ifStatement) :
    σ' = σ ∧ ((∃ o₁, outs = [o, o₁]) ∨
      ∃ o₁ v, outs = [o₁] ∧ o₁.Has v ∧ v.ComesOut false ∧ n.childOfKind? .elseClause = none) := by
  cases h with
  | branch h => exact ⟨rfl, .inl ⟨_, rfl⟩⟩
  | noElse h hc ho hv => exact ⟨rfl, .inr ⟨_, _, rfl, ho, hv, hc⟩⟩
  | _ => simp_all [Kind.continuesChain, Kind.isArguments, Kind.isUnary, Kind.isList]

theorem Gives.of_elseClause (h : Gives m n outs σ o σ') (hn : n.kind = .elseClause) :
    outs = [o] := by
  cases h with
  | elseClause h => rfl
  | _ => simp_all [Kind.continuesChain, Kind.isArguments, Kind.isUnary, Kind.isList]

theorem Gives.of_declaration {view : Node.VariableDeclaration Place} (h : Gives m n outs σ o σ')
    (hn : n.kind = .localDeclarationStatement) (hv : n.variableDeclaration? = some view) :
    σ' = σ ∧ outs.length = view.declarators.length := by
  cases h with
  | declaration h hv' hl =>
    obtain rfl := Option.some.inj (hv.symm.trans hv')
    exact ⟨rfl, hl⟩
  | _ => simp_all [Kind.continuesChain, Kind.isArguments, Kind.isUnary, Kind.isList]

theorem Gives.of_declarator (h : Gives m n outs σ o σ') (hn : n.kind = .variableDeclarator)
    (hc : n.childOfKind? .equalsValueClause = some c) :
    ∃ x v, m.symbolAt n.id = some x ∧ outs = [.value v] ∧ σ' = Function.update σ x v := by
  cases h with
  | initialized h hx => exact ⟨_, _, hx, rfl, rfl⟩
  | _ => simp_all [Kind.continuesChain, Kind.isArguments, Kind.isUnary, Kind.isList]

theorem Gives.of_equalsValue (h : Gives m n outs σ o σ') (hn : n.kind = .equalsValueClause) :
    σ' = σ ∧ ∃ o₁ v, outs = [o₁] ∧ o₁.Has v ∧ o = .value v := by
  cases h with
  | initialValue h ho => exact ⟨rfl, _, _, rfl, ho, rfl⟩
  | _ => simp_all [Kind.continuesChain, Kind.isArguments, Kind.isUnary, Kind.isList]

theorem Gives.of_effect (h : Gives m n outs σ o σ') (hn : n.kind = .expressionStatement) :
    σ' = σ ∧ ∃ o₁ v, outs = [o₁] ∧ o₁.Has v := by
  cases h with
  | effect h ho => exact ⟨rfl, _, _, rfl, ho⟩
  | _ => simp_all [Kind.continuesChain, Kind.isArguments, Kind.isUnary, Kind.isList]

theorem Model.refersTo_unique {y : Nat} (h : m.refersTo x n = true) (h' : m.refersTo y n = true) :
    x = y := by
  simp only [Model.refersTo, Bool.and_eq_true, beq_iff_eq] at h h'
  exact Option.some.inj (h.2.symm.trans h'.2)

theorem Gives.of_assignment {b : Node.Binary Place} (h : Gives m n outs σ o σ')
    (hn : n.kind = .assignmentExpression) (hb : n.binary? = some b)
    (hx : m.refersTo x b.left = true) :
    ∃ o₁ v, outs = [o₁] ∧ o₁.Has v ∧ o = .value v ∧ σ' = Function.update σ x v := by
  cases h with
  | assign h hb' hx' ho =>
    obtain rfl := Option.some.inj (hb.symm.trans hb')
    obtain rfl := Model.refersTo_unique hx hx'
    exact ⟨_, _, rfl, ho, rfl, rfl⟩
  | assignTarget h hb' hx' ho =>
    obtain rfl := Option.some.inj (hb.symm.trans hb')
    simp [hx' x] at hx
  | _ => simp_all [Kind.continuesChain, Kind.isArguments, Kind.isUnary, Kind.isList]

/-! ## Exits -/

theorem Model.lastExits_eq (before : Bool) (cs : List Placed) :
    Model.lastExits before cs =
      match (cs.filter fun c => c.kind.isStatement).getLast? with
      | some s => Model.alwaysExits s
      | none => before := by
  induction cs generalizing before with
  | nil => rfl
  | cons c cs ih =>
    rw [Model.lastExits, ih]
    cases hc : c.kind.isStatement with
    | true =>
      rw [List.filter_cons, if_pos hc, List.getLast?_cons]
      cases (cs.filter fun c => c.kind.isStatement).getLast? <;> rfl
    | false => simp [hc]

/-- A statement that always exits does not come through. -/
theorem Runs.exited (h : Runs m s σ o σ') (hs : Model.alwaysExits s = true) : o = .exited := by
  induction s using Node.induction generalizing σ o σ' with
  | token a t =>
    obtain ⟨outs, σ₁, _, hgives⟩ := h
    exact hgives.of_exit (by simpa [Model.alwaysExits] using hs)
  | branch a k cs ih =>
    obtain ⟨outs, σ₁, hpartly, hgives⟩ := h
    simp only [Model.alwaysExits, Bool.or_eq_true, beq_iff_eq, Bool.and_eq_true] at hs
    rcases hs with hs | ⟨rfl, hlast⟩
    · exact hgives.of_exit hs
    · rcases hgives.of_list rfl with rfl | ⟨rfl, hlen, hdone⟩
      · rfl
      · -- all statements came through, but the last one cannot
        have hstatements : (Node.branch a .block cs).statements =
            cs.filter fun c => c.kind.isStatement := rfl
        rw [hstatements] at hlen
        rw [Model.lastExits_eq] at hlast
        cases houts : outs with
        | nil =>
          rw [houts, List.length_nil] at hlen
          rw [List.eq_nil_of_length_eq_zero hlen.symm] at hlast
          simp at hlast
        | cons o outs' =>
          subst houts
          obtain ⟨c, σ₂, _, next, run⟩ := hpartly.last
          obtain ⟨hc, _⟩ := next.of_list rfl
          rw [hstatements] at hc
          have hget : (cs.filter fun c => c.kind.isStatement).getLast? = some c := by
            rw [List.getLast?_eq_getElem?, ← hlen]
            simpa using hc
          rw [hget] at hlast
          have hmem := (List.mem_filter.1 (List.mem_of_getElem? hc)).1
          have := ih c hmem run hlast
          rw [hdone o (by simp)] at this
          cases this

/-! ## Guards -/

/-- An expression that is a part of a statement other than an expression statement has no
assignments. -/
theorem quiet_of_next (hroot : StatementAssignments m root) (hs : s ∈ root.preorder)
    (next : Next m s outs c) (hc : c.isExpression = true) (hk : s.kind ≠ .expressionStatement) :
    Quiet root c where
  mem := Node.mem_preorder_trans (Node.mem_preorder_of_mem_children next.mem_children) hs
  operand := by
    have hc : c.kind.isExpression = true := hc
    simp [Kind.isOperand, hc]
  no_assignment hck := hk (hroot s hs c next.mem_children hck).1

/-- An `if` whose condition came out as `b`. -/
theorem tested_of_if {view : Node.IfView Place} {b : Bool} (hroot : StatementAssignments m root)
    (hs : s ∈ root.preorder) (hk : s.kind = .ifStatement) (hv : s.ifStatement? = some view)
    (h : Partly m s σ [o] σ') (ho : o.Has v) (hb : v.ComesOut b) :
    SameNull x σ σ' ∧ Tested m root x (σ x = .null) view.condition b := by
  obtain ⟨c, next, run⟩ := h.one
  rcases next.of_if hk hv with ⟨_, rfl, he⟩ | ⟨_, _, _, hne, _⟩
  · have hquiet := quiet_of_next hroot hs next he (by simp [hk])
    exact ⟨run.sameNull_of_quiet hroot hquiet x, hquiet, σ, o, v, σ', Iff.rfl, run, ho, hb⟩
  · simp at hne

/-- A null guard that comes through leaves the variable not null. -/
theorem Runs.of_isNullGuard (hroot : StatementAssignments m root) (hs : s ∈ root.preorder)
    (h : Runs m s σ .done σ') (hguard : m.isNullGuard s x = true) : σ' x ≠ .null := by
  obtain ⟨view, hv, hguard⟩ : ∃ view, s.ifStatement? = some view ∧
      (view.elseBranch.isNone && Model.alwaysExits view.thenBranch &&
        m.conditionImplies view.condition x false true) = true := by
    simpa [Model.isNullGuard, Option.any_eq_true] using hguard
  simp only [Bool.and_eq_true] at hguard
  obtain ⟨⟨helse, hexit⟩, himplies⟩ := hguard
  obtain ⟨hk, hbranch, _⟩ := Node.ifStatement?_eq_some hv
  obtain ⟨outs, σ₁, hpartly, hgives⟩ := h
  obtain ⟨rfl, ⟨o₁, rfl⟩ | ⟨o₁, v, rfl, ho₁, hb, _⟩⟩ := hgives.of_if hk
  · -- the branch that was taken does not come through
    obtain ⟨c, σ₂, _, next, run⟩ := hpartly.last
    rcases next.of_if hk hv with ⟨hne, _⟩ | ⟨_, _, b, _, _, _, _, hc⟩
    · simp at hne
    cases b with
    | true =>
      obtain rfl : c = view.thenBranch := by simpa using hc
      cases run.exited hexit
    | false =>
      have hc : s.childOfKind? .elseClause = some c := by simpa using hc
      have hck := (Node.childOfKind?_eq_some hc).2
      obtain ⟨outs, σ₃, hpartly', hgives'⟩ := run
      rw [hgives'.of_elseClause hck] at hpartly'
      obtain ⟨d, next', _⟩ := hpartly'.one
      have hd := (next'.of_elseClause hck).2
      simp [hbranch, hc, hd] at helse
  · obtain ⟨hsame, htested⟩ := tested_of_if (x := x) hroot hs hk hv hpartly ho₁ hb
    have hnull : ¬σ x = .null := m.anyImplies_sound hroot himplies (by simpa using htested)
    exact fun h => hnull (hsame.2 h)

/-! ## Assignments -/

/-- A chain of assignments in parentheses would be an assignment that is not a whole statement. -/
theorem chainedValue?_eq_none (hroot : StatementAssignments m root) (hn : n ∈ root.preorder)
    (hk : n.kind ≠ .assignmentExpression) : m.chainedValue? x n = none := by
  induction n using Node.inner_induction with
  | stop n hi =>
    unfold Model.chainedValue?
    split
    · exact absurd ‹_› hk
    · split
      · simp_all
      · rfl
    · rfl
  | inner n e hi ih =>
    obtain ⟨hkind, _, opening, rest, hc⟩ := Node.inner?_eq_some hi
    have he : e ∈ n.children := by simp [hc]
    have hek : e.kind ≠ .assignmentExpression := by
      intro hek
      have := (hroot n hn e he hek).1
      simp [hkind] at this
    unfold Model.chainedValue?
    split
    · exact absurd ‹_› hk
    · split
      · rename_i hi'
        obtain rfl := Option.some.inj (hi.symm.trans hi')
        exact ih (Node.mem_preorder_trans (Node.mem_preorder_of_mem_children he) hn) hek
      · rfl
    · rfl

theorem chainedValue?_eq_some (hroot : StatementAssignments m root) (hs : s ∈ root.preorder)
    (hn : n ∈ s.children) (h : m.chainedValue? x n = some e) :
    n.kind = .assignmentExpression ∧
      ∃ b, n.binary? = some b ∧ m.refersTo x b.left = true ∧ e = b.right := by
  have hmem := Node.mem_preorder_trans (Node.mem_preorder_of_mem_children hn) hs
  by_cases hk : n.kind = .assignmentExpression
  · obtain ⟨_, b, y, hb, _, _, hright⟩ := hroot s hs n hn hk
    obtain ⟨_, rest, hc⟩ := Node.binary?_eq_some hb
    have hbright : b.right ∈ root.preorder :=
      Node.mem_preorder_trans (Node.mem_preorder_of_mem_children (by simp [hc])) hmem
    refine ⟨hk, b, hb, ?_⟩
    unfold Model.chainedValue? at h
    simp only [hk] at h
    split at h
    · rename_i b' hb'
      obtain rfl := Option.some.inj (hb.symm.trans hb')
      split at h
      · rename_i hx
        exact ⟨hx, (Option.some.inj h).symm⟩
      · rw [chainedValue?_eq_none hroot hbright (hright _ (Node.self_mem_preorder _))] at h
        cases h
    · cases h
  · rw [chainedValue?_eq_none hroot hmem hk] at h
    cases h

/-- What a local declaration gives its variable. -/
theorem Runs.of_declaration {d : Placed} {above : List Placed}
    {view : Node.VariableDeclaration Place} (here : Arrives m root (s :: above) σ)
    (h : Runs m s σ o σ')
    (hk : s.kind = .localDeclarationStatement) (hv : s.variableDeclaration? = some view)
    (hd : view.declarators = [d]) (he : d.initializer? = some e)
    (hx : m.symbolAt d.id = some x) :
    ∃ above' o v σ₁, Arrives m root (e :: above') σ ∧ Runs m e σ o σ₁ ∧ o.Has v ∧ σ' x = v := by
  have hdk := (Node.mem_declarators hv (d := d) (by simp [hd])).2
  obtain ⟨c, hc, hck, hchild, he⟩ := Node.initializer?_eq_some he
  -- the statement runs its declarator
  obtain ⟨outs, σ₁, hpartly, hgives⟩ := h
  obtain ⟨rfl, hlen⟩ := hgives.of_declaration hk hv
  obtain ⟨o₁, rfl⟩ : ∃ o₁, outs = [o₁] := List.length_eq_one_iff.1 (by simpa [hd] using hlen)
  obtain ⟨d', next, run⟩ := hpartly.one
  obtain ⟨view', hv', hd'⟩ := next.of_declaration hk
  obtain rfl := Option.some.inj (hv.symm.trans hv')
  obtain rfl : d = d' := by simpa [hd] using hd'
  have here' := here.enter (.start _ _) next
  -- the declarator runs its clause
  obtain ⟨outs', σ₂, hpartly', hgives'⟩ := run
  obtain ⟨y, v, hy, rfl, rfl⟩ := hgives'.of_declarator hdk hchild
  obtain rfl := Option.some.inj (hx.symm.trans hy)
  obtain ⟨c', next', run'⟩ := hpartly'.one
  obtain rfl := Option.some.inj (hchild.symm.trans (next'.of_declarator hdk).2)
  have here' := here'.enter (.start _ _) next'
  -- and the clause its value
  obtain ⟨outs'', σ₃, hpartly'', hgives''⟩ := run'
  obtain ⟨rfl, o₂, w, rfl, ho₂, hw⟩ := hgives''.of_equalsValue hck
  obtain rfl := Outcome.value.inj hw
  obtain ⟨e', next'', run''⟩ := hpartly''.one
  obtain rfl := Option.some.inj (he.symm.trans (next''.of_equalsValue hck).2)
  exact ⟨_, o₂, v, _, here'.enter (.start _ _) next'', run'', ho₂, Function.update_self ..⟩

/-- A statement that gives the variable the value of `e` evaluates `e` first, in the state it is
come upon in, and leaves the variable with that value. -/
theorem Runs.of_assignment? {above : List Placed} (hplain : PlainLocals root)
    (hroot : StatementAssignments m root) (here : Arrives m root (s :: above) σ)
    (h : Runs m s σ o σ') (ha : m.assignment? s x = some (some e)) :
    ∃ above' o v σ₁, Arrives m root (e :: above') σ ∧ Runs m e σ o σ₁ ∧ o.Has v ∧ σ' x = v := by
  have hs := here.mem_preorder
  unfold Model.assignment? at ha
  split at ha
  · rename_i hk
    obtain ⟨view, hv, ha⟩ := Option.bind_eq_some_iff.1 ha
    obtain ⟨d, hd, ha⟩ := Option.bind_eq_some_iff.1 ha
    obtain ⟨dview, hdview, ha⟩ := Option.bind_eq_some_iff.1 ha
    obtain ⟨view', d', e', hv', hone, he'⟩ := hplain.one s hs hk
    obtain rfl := Option.some.inj (hv.symm.trans hv')
    obtain rfl : d = d' := by simpa [hone] using List.mem_of_find?_eq_some hd
    have hx : m.symbolAt d.id = some x := by simpa using List.find?_some hd
    refine h.of_declaration here hk hv hone ?_ hx
    rw [← (Node.declarator?_eq_some hdview).2]
    exact Option.some.inj ha
  · rename_i hk
    obtain ⟨a, hvalue, ha⟩ := Option.bind_eq_some_iff.1 ha
    obtain ⟨e', hchain, ha⟩ := Option.bind_eq_some_iff.1 ha
    obtain rfl : e' = e := Option.some.inj (Option.some.inj ha)
    have hchild := (Node.value?_eq_some hvalue).2.2
    obtain ⟨hak, b, hb, hx, rfl⟩ := chainedValue?_eq_some hroot hs hchild hchain
    -- the statement runs the assignment
    obtain ⟨outs, σ₁, hpartly, hgives⟩ := h
    obtain ⟨rfl, o₁, w, rfl, _⟩ := hgives.of_effect hk
    obtain ⟨a', next, run⟩ := hpartly.one
    have ha' := (next.of_value (by simp [Kind.holdsValue, hk])).2
    obtain rfl := Option.some.inj (hvalue.symm.trans ha')
    have here' := here.enter (.start _ _) next
    -- and the assignment its right side
    obtain ⟨outs', σ₂, hpartly', hgives'⟩ := run
    obtain ⟨o₂, v, rfl, ho₂, _, rfl⟩ := hgives'.of_assignment hak hb hx
    obtain ⟨c, next', run'⟩ := hpartly'.one
    obtain ⟨_, rfl⟩ := next'.of_assignment hak hb hx
    exact ⟨_, o₂, v, _, here'.enter (.start _ _) next', run', ho₂, Function.update_self ..⟩
  · cases ha

end NullLint
