import NullLint.Proofs.Semantics.Statements
import NullLint.Proofs.Semantics.Walk
import NullLint.Syntax.Parse

/-!
# Soundness of the null state

In files of top-level statements whose assignments are whole statements, a reference to a local
that is said to be not null is not null whenever it is evaluated.

The proof goes with the walk: what climbing from a reference finds is right about the variable in
the state the reference is come upon in (`climb_sound`), since nothing that the walk passes changes
whether the variable is null. A walk that ends at a value goes on in the state in which that value
was evaluated, with fewer steps.
-/

namespace NullLint

variable {m : Model} {root : Placed} {bound : Nat} {x : Nat}

/-- Within fewer steps than `bound`, no expression that is said to be not null is null. -/
def SoundBelow (m : Model) (root : Placed) (bound : Nat) : Prop :=
  ∀ steps < bound, ∀ {n : Placed} {above : List Placed} {σ σ' : Store} {o : Outcome} {v : Value},
    Arrives m root (n :: above) σ → Runs m n σ o σ' → o.Has v →
    m.nullStateWithin steps n = .notNull → v ≠ .null

/-- What climbing found is right about the variable in this store. -/
def RightAbout (m : Model) (bound x : Nat) (σ : Store) : Model.Source → Prop
  | .verdict v => v = .notNull → σ x ≠ .null
  | .value e => ∀ steps < bound, m.nullStateWithin steps e = .notNull → σ x ≠ .null

theorem RightAbout.of_sameNull {σ σ' : Store} {source : Model.Source} (h : SameNull x σ σ')
    (hs : RightAbout m bound x σ source) : RightAbout m bound x σ' source := by
  cases source with
  | verdict v => exact fun hv hn => hs hv (h.2 hn)
  | value e => exact fun steps hlt he hn => hs steps hlt he (h.2 hn)

/-- What a part of the walk found is right about the variable in the second store; if it found
nothing, the variable is as it was in the first. -/
def Explains (m : Model) (bound x : Nat) (σ σ' : Store) : Option Model.Source → Prop
  | some source => RightAbout m bound x σ' source
  | none => SameNull x σ σ'

theorem Explains.of_sameNull {σ σ₁ σ' : Store} {found : Option Model.Source}
    (hf : Explains m bound x σ σ₁ found) (h : SameNull x σ₁ σ') :
    Explains m bound x σ σ' found := by
  cases found with
  | none => exact Iff.trans hf h
  | some source => exact RightAbout.of_sameNull h hf

/-! ## Statement lists -/

/-- The statements came through one after the other; the last one comes first. -/
inductive Trail (m : Model) (root n : Placed) (above : List Placed) :
    List Placed → Store → Store → Prop where
  | nil (σ : Store) : Trail m root n above [] σ σ
  | cons {s : Placed} {ss : List Placed} {σ σ₁ σ' : Store} (before : Trail m root n above ss σ σ₁)
      (here : Arrives m root (s :: n :: above) σ₁) (run : Runs m s σ₁ .done σ') :
      Trail m root n above (s :: ss) σ σ'

theorem Partly.trail {n : Placed} {above : List Placed} {σ σ' : Store} {outs : List Outcome}
    (here : Arrives m root (n :: above) σ) (hn : n.kind.isList = true)
    (h : Partly m n σ outs σ') (hdone : ∀ o ∈ outs, o = .done) :
    Trail m root n above (n.statements.take outs.length).reverse σ σ' := by
  induction outs generalizing σ' with
  | nil =>
    obtain rfl := h.eq_of_nil
    exact .nil _
  | cons o outs ih =>
    obtain ⟨s, σ₁, before, next, run⟩ := h.last
    obtain rfl := hdone o (by simp)
    rw [List.length_cons, List.take_add_one, (next.of_list hn).1, Option.toList_some,
      List.reverse_append, List.reverse_singleton, List.singleton_append]
    exact .cons (ih before fun o ho => hdone o (by simp [ho])) (here.enter before next) run

/-- In a file of plain locals every declaration has a value. -/
theorem assignment?_ne_some_none (hplain : PlainLocals root) {s : Placed}
    (hs : s ∈ root.preorder) : m.assignment? s x ≠ some none := by
  intro ha
  unfold Model.assignment? at ha
  split at ha
  · rename_i hk
    obtain ⟨view, hv, ha⟩ := Option.bind_eq_some_iff.1 ha
    obtain ⟨d, hd, ha⟩ := Option.bind_eq_some_iff.1 ha
    obtain ⟨dview, hdview, ha⟩ := Option.bind_eq_some_iff.1 ha
    obtain ⟨view', d', e, hv', hone, he⟩ := hplain.one s hs hk
    obtain rfl := Option.some.inj (hv.symm.trans hv')
    obtain rfl : d = d' := by simpa [hone] using List.mem_of_find?_eq_some hd
    have hnone : dview.initializer = none := Option.some.inj ha
    rw [(Node.declarator?_eq_some hdview).2, he] at hnone
    cases hnone
  · obtain ⟨a, hvalue, ha⟩ := Option.bind_eq_some_iff.1 ha
    obtain ⟨e, hchain, ha⟩ := Option.bind_eq_some_iff.1 ha
    cases ha
  · cases ha

/-- What looking back through statements that came through finds is right, and if it finds
nothing they kept the variable as it was. -/
theorem lookBack_sound (hplain : PlainLocals root) (hroot : StatementAssignments m root)
    (hsound : SoundBelow m root bound) {n : Placed} {above ss : List Placed} {σ σ' : Store}
    (trail : Trail m root n above ss σ σ')
    (hdecl : ∀ s ∈ ss, ∀ d ∈ s.preorder, d.kind = .variableDeclarator →
      m.symbolAt d.id = some x → m.assignment? s x ≠ none) (steps : Nat) :
    Explains m bound x σ σ' (m.lookBack x steps ss).1 := by
  induction trail generalizing steps with
  | nil σ =>
    rw [Model.lookBack]
    exact Iff.rfl
  | @cons s ss σ σ₁ σ' before here run ih =>
    have hs := here.mem_preorder
    cases steps with
    | zero =>
      intro h
      cases h
    | succ steps =>
      simp only [Model.lookBack]
      cases ha : m.assignment? s x with
      | some value =>
        cases value with
        | none => exact absurd ha (assignment?_ne_some_none hplain hs)
        | some e =>
          intro steps hlt he hnull
          obtain ⟨above', o, v, σ₂, here', run', ho, hv⟩ :=
            run.of_assignment? hplain hroot here ha
          exact hsound steps hlt here' run' ho he (hv ▸ hnull)
      | none =>
        by_cases hguard : m.isNullGuard s x = true
        · rw [if_pos hguard]
          exact fun _ => run.of_isNullGuard hroot hs hguard
        by_cases hassigns : m.assigns s x = true
        · rw [if_neg hguard, if_pos hassigns]
          intro h
          cases h
        · have hspares : Spares m x s := by
            refine ⟨by simpa using hassigns, fun d hd hk hx => ?_⟩
            exact hdecl s (by simp) d hd hk hx ha
          rw [if_neg hguard, if_neg hassigns]
          have hbefore := ih (fun s hs => hdecl s (by simp [hs])) steps
          exact hbefore.of_sameNull (run.sameNull_of_spares hspares)

/-- Some statement is found that gives the variable its value, if there is one. -/
theorem lookBack_isSome {ss : List Placed} {s : Placed} (hs : s ∈ ss)
    (ha : m.assignment? s x ≠ none) (steps : Nat) : (m.lookBack x steps ss).1 ≠ none := by
  induction ss generalizing steps with
  | nil => simp at hs
  | cons t ss ih =>
    cases steps with
    | zero => simp [Model.lookBack]
    | succ steps =>
      simp only [Model.lookBack]
      split
      · simp
      · simp
      · rename_i hnone
        split
        · simp
        · split
          · simp
          · have hs' : s ∈ ss := by
              rcases List.mem_cons.1 hs with rfl | hs
              · exact absurd hnone ha
              · exact hs
            exact ih hs' steps

/-- A statement that declares the variable gives it a value. -/
theorem assignment?_of_declares (ws : m.WellScoped root) {s : Placed} (hs : s ∈ root.preorder)
    (hd : Declares m.bindings.symbolOf s x) : m.assignment? s x ≠ none := by
  obtain ⟨hk, view, hv, d, hd, hentry⟩ := hd
  obtain ⟨view', d', e, hv', hone, he⟩ := ws.plain.one s hs hk
  obtain rfl := Option.some.inj (hv.symm.trans hv')
  obtain rfl : d = d' := by simpa [hone] using hd
  have hx : m.symbolAt d.id = some x := (ws.symbolAt_iff _ _).2 hentry
  have hdk := (Node.mem_declarators hv (d := d) (by simp [hone])).2
  obtain ⟨c, hc, _⟩ := Node.initializer?_eq_some he
  cases hcs : d.children with
  | nil => simp [hcs] at hc
  | cons name rest =>
    simp [Model.assignment?, hk, hv, hone, hx, Node.declarator?, hdk, hcs]

/-! ## One step outward -/

/-- What is declared above a node is not declared below it. -/
theorem no_declarator_below (ws : m.WellScoped root) {p : Placed} {above : List Placed}
    (hpath : Node.Descends root [] (p :: above))
    (hx : DeclaredAbove m.bindings.symbolOf x (p :: above)) :
    ∀ d ∈ p.preorder, d.kind = .variableDeclarator → m.symbolAt d.id ≠ some x := by
  intro d hd hk hdx
  obtain ⟨c, n, hin, s, hs, hsk, view, hv, d', hd', hentry⟩ := hx
  obtain ⟨hc, hn, hp⟩ := hpath.step_of_infix hin
  have hnn : n.Numbered := ws.numbered.of_mem hn
  have hpc : p ∈ c.preorder := hp p (by simp)
  -- the statement that declares the variable stands beside the child on the path
  have hsn := (of_mem_statementsBefore hnn hc hs).2
  obtain ⟨hd's, hk'⟩ := Node.mem_declarators hv hd'
  have hd'mem := Node.mem_preorder_of_mem_children hd's
  have hcn := Node.mem_preorder_trans (Node.mem_preorder_of_mem_children hc) hn
  obtain rfl : d = d' := by
    refine ws.unique ?_ ?_ hk hk' hdx ((ws.symbolAt_iff _ _).2 hentry)
    · exact Node.mem_preorder_trans (Node.mem_preorder_trans hd hpc) hcn
    · exact Node.mem_preorder_trans hd'mem
        (Node.mem_preorder_trans (Node.mem_preorder_of_mem_children hsn.1) hn)
  have hcs : s = c := hnn.child_eq hsn.1 hc hd'mem (Node.mem_preorder_trans hd hpc) rfl
  exact hsn.2 (hcs ▸ rfl)

/-- On the way to a child of a node other than a list or a loop no variable changes between null
and not null. -/
theorem sameNull_of_enter (hplain : PlainLocals root) (hroot : StatementAssignments m root)
    {parent child : Placed} {σ σ' : Store} {outs : List Outcome} (hp : parent ∈ root.preorder)
    (before : Partly m parent σ outs σ') (next : Next m parent outs child)
    (hlist : parent.kind.isList = false) (hwhile : parent.kind ≠ .whileStatement) :
    SameNull x σ σ' := by
  by_cases hop : parent.kind.isOperand = true
  · exact before.sameNull_of_operand hroot hp hop x
  cases next with
  | @thenBranch v o w h hv hs ho hw | @elseClause v o w c h hv hs hc ho hw =>
    exact (tested_of_if hroot hp h hv before ho hw).1
  | declarator h hv hd =>
    obtain ⟨view, d, e, hview, hone, he⟩ := hplain.one parent hp h
    obtain rfl := Option.some.inj (hv.symm.trans hview)
    obtain rfl : outs = [] := by
      rw [hone] at hd
      cases outs with
      | nil => rfl
      | cons o outs => simp at hd
    obtain rfl := before.eq_of_nil
    exact Iff.rfl
  | statement h hs hbefore => simp [hlist] at h
  | whileCondition h hv he turn hbefore | whileBody h hv hs turn ho hw => exact absurd h hwhile
  | right h hb he ho goesOn | assignedTarget h hb hx he =>
    simp [h, Kind.isOperand, Kind.isExpression] at hop
  | accessArguments h parts hl =>
    rcases h with h | h <;> simp [h, Kind.isOperand, Kind.isExpression] at hop
  | argument h he hbefore => simp [h, Kind.isOperand] at hop
  | _ =>
    obtain rfl := before.eq_of_nil
    exact Iff.rfl

section StepOut

variable {parent child : Placed} {above : List Placed} {σ σ' : Store} {outs : List Outcome}

theorem stepOut_binary (hroot : StatementAssignments m root) (hn : root.Numbered)
    (hp : parent ∈ root.preorder) (before : Partly m parent σ outs σ')
    (next : Next m parent outs child) (hk : parent.kind = .binaryExpression) (steps : Nat) :
    Explains m bound x σ σ' (m.stepOut x steps child parent).1 := by
  have hsame : SameNull x σ σ' :=
    before.sameNull_of_operand hroot hp (by simp [hk, Kind.isOperand, Kind.isExpression]) x
  have hquiet : Quiet root parent :=
    ⟨hp, by simp [hk, Kind.isOperand, Kind.isExpression], by simp [hk]⟩
  simp only [Model.stepOut, hk]
  cases hb : parent.binary? with
  | none => exact hsame
  | some b =>
    dsimp only
    split
    · rename_i hnarrow
      simp only [Bool.and_eq_true, Bool.or_eq_true, beq_iff_eq] at hnarrow
      obtain ⟨hid, hnarrow⟩ := hnarrow
      intro _ hnull
      have hnull : σ x = .null := hsame.2 hnull
      rcases next.of_binary hk hb with ⟨_, rfl⟩ | ⟨o, v, rfl, rfl, ho, goesOn⟩
      · -- the left operand is not the right one
        obtain ⟨_, rest, hc⟩ := Node.binary?_eq_some hb
        have hnodup := (hn.of_mem hp).nodup_children
        simp [hc, hid] at hnodup
      · obtain ⟨c, next', run⟩ := before.one
        rcases next'.of_binary hk hb with ⟨_, rfl⟩ | ⟨_, _, hne, _⟩
        · have htested : ∀ outcome, v.ComesOut outcome →
              Tested m root x (σ x = .null) b.left outcome := fun outcome hv =>
            ⟨hquiet.next hroot next', σ, o, v, σ', Iff.rfl, run, ho, hv⟩
          rcases hnarrow with ⟨hop, himplies⟩ | ⟨hop, himplies⟩
          · rw [hop] at goesOn
            exact m.anyImplies_sound hroot himplies (by simpa using htested true goesOn) hnull
          · rw [hop] at goesOn
            exact m.anyImplies_sound hroot himplies (by simpa using htested false goesOn) hnull
        · simp at hne
    · exact hsame

theorem stepOut_if (hroot : StatementAssignments m root) (hn : root.Numbered)
    (hp : parent ∈ root.preorder) (before : Partly m parent σ outs σ')
    (next : Next m parent outs child) (hk : parent.kind = .ifStatement) (steps : Nat) :
    Explains m bound x σ σ' (m.stepOut x steps child parent).1 := by
  obtain ⟨view, hv⟩ := next.exists_if hk
  obtain ⟨_, _, keyword, opening, closing, rest, hc⟩ := Node.ifStatement?_eq_some hv
  simp only [Model.stepOut, hk, hv]
  rcases next.of_if hk hv with ⟨rfl, rfl, he⟩ | ⟨o, v, b, rfl, ho, hb, hs, hchild⟩
  · -- the condition is neither branch
    have hid : view.condition.id ≠ view.thenBranch.id := by
      intro hid
      have hnodup := (hn.of_mem hp).nodup_children
      simp [hc, hid] at hnodup
    have hkind : view.condition.kind ≠ .elseClause := by
      intro hkind
      have he : view.condition.kind.isExpression = true := he
      simp [hkind, Kind.isExpression] at he
    rw [if_neg hid, if_neg hkind]
    obtain rfl := before.eq_of_nil
    exact Iff.rfl
  · obtain ⟨hsame, htested⟩ := tested_of_if (x := x) hroot hp hk hv before ho hb
    have hbranch : (if child.id = view.thenBranch.id then some true
        else if child.kind = .elseClause then some false else none) = some b := by
      cases b with
      | true =>
        obtain rfl : child = view.thenBranch := by simpa using hchild
        exact if_pos rfl
      | false =>
        obtain ⟨hmem, hkind⟩ :=
          Node.childOfKind?_eq_some (show _ = some child by simpa using hchild)
        have hid : child.id ≠ view.thenBranch.id := by
          intro hid
          have := (hn.of_mem hp).child_eq hmem (by simp [hc]) (Node.self_mem_preorder child)
            (Node.self_mem_preorder _) hid
          simp [← this, hkind, Kind.isStatement] at hs
        rw [if_neg hid, if_pos hkind]
    rw [hbranch]
    dsimp only
    split
    · rename_i himplies
      intro _ hnull
      exact m.anyImplies_sound hroot himplies (by simpa using htested) (hsame.2 hnull)
    · split
      · intro h
        cases h
      · exact hsame

theorem stepOut_while (hroot : StatementAssignments m root) (hn : root.Numbered)
    (hp : parent ∈ root.preorder) (before : Partly m parent σ outs σ')
    (next : Next m parent outs child) (hk : parent.kind = .whileStatement)
    (hx : ∀ d ∈ parent.preorder, d.kind = .variableDeclarator → m.symbolAt d.id ≠ some x)
    (steps : Nat) : Explains m bound x σ σ' (m.stepOut x steps child parent).1 := by
  obtain ⟨view, hv⟩ := next.exists_while hk
  simp only [Model.stepOut, hk, hv]
  by_cases hassigns : m.assigns parent x = true
  · rw [if_pos hassigns]
    intro h
    cases h
  · rw [if_neg hassigns]
    have hspares : Spares m x parent := ⟨by simpa using hassigns, hx⟩
    have hsame := before.sameNull_of_spares hspares
    split
    · rename_i hbody
      intro _ hnull
      rcases next.of_while hk hv with ⟨_, rfl, _⟩ | ⟨o, outs, v, rfl, turn, ho, hb, rfl⟩
      · -- the condition is not the body
        obtain ⟨_, keyword, opening, closing, rest, hc⟩ := Node.whileStatement?_eq_some hv
        have hnodup := (hn.of_mem hp).nodup_children
        simp [hc, hbody.1] at hnodup
      · -- the round begins with the condition
        obtain ⟨c, σ₁, before', next', run⟩ := before.last
        rcases next'.of_while hk hv with ⟨_, rfl, he⟩ | ⟨o', outs', v', rfl, turn', _⟩
        · have hquiet := quiet_of_next hroot hp next' he (by simp [hk])
          have hsame' := run.sameNull_of_quiet hroot hquiet x
          have htested : Tested m root x (σ₁ x = .null) view.condition true :=
            ⟨hquiet, σ₁, o, v, σ', Iff.rfl, run, ho, hb⟩
          exact m.anyImplies_sound hroot hbody.2 (by simpa using htested) (hsame'.2 hnull)
        · simp at turn
          omega
    · exact hsame

theorem stepOut_list (ws : m.WellScoped root) (hroot : StatementAssignments m root)
    (hsound : SoundBelow m root bound) (here : Arrives m root (parent :: above) σ)
    (before : Partly m parent σ outs σ') (next : Next m parent outs child)
    (hk : parent.kind.isList = true)
    (hx : DeclaredAbove m.bindings.symbolOf x (child :: parent :: above)) (steps : Nat) :
    Explains m bound x σ σ' (m.stepOut x steps child parent).1 ∧
      ((m.stepOut x steps child parent).1 = none →
        DeclaredAbove m.bindings.symbolOf x (parent :: above)) := by
  have hp := here.mem_preorder
  have hnumbered := ws.numbered.of_mem hp
  obtain ⟨hget, hdone⟩ := next.of_list hk
  obtain ⟨hlt, hget⟩ := List.getElem?_eq_some_iff.1 hget
  have hsplit : parent.statements = parent.statements.take outs.length ++ child ::
      parent.statements.drop (outs.length + 1) := by
    rw [← hget, ← List.drop_eq_getElem_cons, List.take_append_drop]
  have hback := statementsBefore_of_split hnumbered hk hsplit
  have hstep : m.stepOut x steps child parent =
      m.lookBack x steps (Model.statementsBefore parent child) := by
    have hkind : parent.kind = .block ∨ parent.kind = .compilationUnit := by
      simpa [Kind.isList] using hk
    rcases hkind with hkind | hkind <;> simp [Model.stepOut, hkind]
  have hchild := next.mem_children
  have below : ∀ {s d : Placed}, s ∈ Model.statementsBefore parent child → d ∈ s.preorder →
      d ∈ parent.preorder := fun hs hd => Node.mem_preorder_trans hd
    (Node.mem_preorder_of_mem_children (of_mem_statementsBefore hnumbered hchild hs).2.1)
  have trail := before.trail here hk hdone
  rw [← hback] at trail
  rw [hstep]
  obtain ⟨c, n, hin, s₀, hs₀, hdecl₀⟩ := hx
  rcases List.infix_cons_iff.1 hin with hpre | hin
  · -- the variable is declared in this list
    obtain ⟨hc, hpre'⟩ := List.cons_prefix_cons.1 hpre
    obtain ⟨hn, _⟩ := List.cons_prefix_cons.1 hpre'
    subst hc hn
    have hmem₀ := (of_mem_statementsBefore hnumbered hchild hs₀).2.1
    have ha₀ := assignment?_of_declares ws
      (Node.mem_preorder_trans (Node.mem_preorder_of_mem_children hmem₀) hp) hdecl₀
    refine ⟨lookBack_sound ws.plain hroot hsound trail ?_ steps,
      fun hnone => absurd hnone (lookBack_isSome hs₀ ha₀ steps)⟩
    intro s hs d hd hdk hdx
    obtain ⟨_, view, hv, d₀, hd₀, hentry⟩ := hdecl₀
    obtain ⟨hd₀s, hd₀k⟩ := Node.mem_declarators hv hd₀
    have hd₀mem := Node.mem_preorder_of_mem_children hd₀s
    obtain rfl : d = d₀ := ws.unique (Node.mem_preorder_trans (below hs hd) hp)
      (Node.mem_preorder_trans (below hs₀ hd₀mem) hp) hdk hd₀k hdx ((ws.symbolAt_iff _ _).2 hentry)
    have hmem := (of_mem_statementsBefore hnumbered hchild hs).2.1
    obtain rfl : s = s₀ := hnumbered.child_eq hmem hmem₀ hd hd₀mem rfl
    exact ha₀
  · have hx : DeclaredAbove m.bindings.symbolOf x (parent :: above) :=
      ⟨c, n, hin, s₀, hs₀, hdecl₀⟩
    refine ⟨lookBack_sound ws.plain hroot hsound trail ?_ steps, fun _ => hx⟩
    intro s hs d hd hdk hdx
    exact absurd hdx (no_declarator_below ws here.descends hx d (below hs hd) hdk)

/-- What a step outward finds is right. If it finds nothing, the variable is as it was when the
parent was come upon, and it is declared further out. -/
theorem stepOut_sound (ws : m.WellScoped root) (hroot : StatementAssignments m root)
    (hsound : SoundBelow m root bound) (here : Arrives m root (parent :: above) σ)
    (before : Partly m parent σ outs σ') (next : Next m parent outs child)
    (hx : DeclaredAbove m.bindings.symbolOf x (child :: parent :: above)) (steps : Nat) :
    Explains m bound x σ σ' (m.stepOut x steps child parent).1 ∧
      ((m.stepOut x steps child parent).1 = none →
        DeclaredAbove m.bindings.symbolOf x (parent :: above)) := by
  by_cases hlist : parent.kind.isList = true
  · exact stepOut_list ws hroot hsound here before next hlist hx steps
  have hlist : parent.kind.isList = false := by simpa using hlist
  have hp := here.mem_preorder
  have hx' : DeclaredAbove m.bindings.symbolOf x (parent :: above) := by
    obtain ⟨c, n, hin, s, hs, hdecl⟩ := hx
    rcases List.infix_cons_iff.1 hin with hpre | hin
    · obtain ⟨hc, hpre'⟩ := List.cons_prefix_cons.1 hpre
      obtain ⟨hn, _⟩ := List.cons_prefix_cons.1 hpre'
      subst hc hn
      rw [statementsBefore_eq_nil (ws.numbered.of_mem hp) hlist next.mem_children] at hs
      simp at hs
    · exact ⟨c, n, hin, s, hs, hdecl⟩
  refine ⟨?_, fun _ => hx'⟩
  by_cases hbinary : parent.kind = .binaryExpression
  · exact stepOut_binary hroot ws.numbered hp before next hbinary steps
  by_cases hif : parent.kind = .ifStatement
  · exact stepOut_if hroot ws.numbered hp before next hif steps
  by_cases hwhile : parent.kind = .whileStatement
  · exact stepOut_while hroot ws.numbered hp before next hwhile
      (no_declarator_below ws here.descends hx') steps
  · have hnone : (m.stepOut x steps child parent).1 = none := by
      have hdecl := ws.plain.no_declaration parent hp
      cases hk : parent.kind <;> simp_all [Model.stepOut, Kind.isDeclaration, Kind.isList]
    rw [hnone]
    exact sameNull_of_enter ws.plain hroot hp before next hlist hwhile

end StepOut

/-! ## The whole walk -/

/-- What climbing from a node finds is right about the variable when the node is come upon. -/
theorem climb_sound (ws : m.WellScoped root) (hroot : StatementAssignments m root)
    (hsound : SoundBelow m root bound) {child : Placed} {above : List Placed} {σ : Store}
    (here : Arrives m root (child :: above) σ)
    (hx : DeclaredAbove m.bindings.symbolOf x (child :: above)) (steps : Nat) :
    RightAbout m bound x σ (m.climb x steps child above).1 := by
  induction above generalizing child σ steps with
  | nil =>
    obtain ⟨c, n, hin, _⟩ := hx
    have := hin.length_le
    simp at this
  | cons parent above ih =>
    cases here with
    | enter here before next =>
      cases steps with
      | zero =>
        intro h
        cases h
      | succ steps =>
        obtain ⟨hfound, hnone⟩ := stepOut_sound ws hroot hsound here before next hx steps
        rw [Model.climb]
        rcases hstep : m.stepOut x steps child parent with ⟨_ | source, left⟩
        · rw [hstep] at hfound hnone
          exact RightAbout.of_sameNull hfound (ih here (hnone rfl) left)
        · rw [hstep] at hfound
          exact hfound

/-! ## Expressions -/

section Expressions

variable {n e : Placed} {above : List Placed} {σ σ' : Store} {outs : List Outcome} {o : Outcome}
  {v : Value}

theorem Arrives.unparenthesized (here : Arrives m root (n :: above) σ) :
    ∃ above', Arrives m root (n.unparenthesized :: above') σ := by
  induction n using Node.inner_induction generalizing above with
  | stop n hi =>
    rw [Node.unparenthesized_of_inner?_eq_none hi]
    exact ⟨above, here⟩
  | inner n e hi ih =>
    rw [Node.unparenthesized_of_inner? hi]
    exact ih (here.enter (.start _ _) (.inner (Node.inner?_eq_some hi).1 hi))

theorem Next.of_chain (h : Next m n [] e) (hn : n.kind.continuesChain = true) :
    e.isExpression = true ∧ ∃ rest, n.children = e :: rest := by
  cases h with
  | receiver h parts he => exact ⟨he, _, parts⟩
  | _ => cases hk : n.kind <;> simp_all [Kind.continuesChain, Kind.isArguments, Kind.isUnary,
      Kind.holdsValue, Kind.isList]

theorem Gives.of_skipped {asserted : Bool} (h : Gives m n outs σ (.skipped asserted) σ')
    (hn : n.isExpression = true) : n.kind = .conditionalAccessExpression ∨
      n.kind.continuesChain = true ∧ ∃ asserted', outs = [.skipped asserted'] := by
  have hn : n.kind.isExpression = true := hn
  cases h with
  | accessNull h => exact .inl h
  | skippedAssertion h => exact .inr ⟨by simp [h, Kind.continuesChain], _, rfl⟩
  | skipped h hne => exact .inr ⟨h, _, rfl⟩
  | branch h | elseClause h => simp [h, Kind.isExpression] at hn

theorem inConditionalChain_of_receiver {rest : List Placed} (hn : n.kind.continuesChain = true)
    (hc : n.children = e :: rest) (he : Model.inConditionalChain e = true) :
    Model.inConditionalChain n = true := by
  unfold Model.inConditionalChain
  cases hk : n.kind <;> simp only [hk, Kind.continuesChain, Bool.false_eq_true] at hn ⊢
  all_goals
    split
    · simp_all
    · simp_all

/-- Only a chain with a `?.` or `?[` in it is cut short. -/
theorem Runs.inConditionalChain {asserted : Bool} (h : Runs m n σ (.skipped asserted) σ')
    (hn : n.isExpression = true) : Model.inConditionalChain n = true := by
  induction hsize : n.size using Nat.strongRecOn generalizing n asserted σ σ' with
  | ind size ih =>
    subst hsize
    obtain ⟨outs, σ₁, hpartly, hgives⟩ := h
    rcases hgives.of_skipped hn with hk | ⟨hk, asserted', rfl⟩
    · unfold Model.inConditionalChain
      simp [hk]
    · obtain ⟨c, next, run⟩ := hpartly.one
      obtain ⟨hc, rest, hchildren⟩ := next.of_chain hk
      have hlt := Node.size_lt_of_mem_children next.mem_children
      have hchain := ih c.size hlt run hc rfl
      exact inConditionalChain_of_receiver hk hchildren hchain

/-- The truth values that comparisons and logical operators give are not null. -/
theorem Gives.of_comparison {b : Node.Binary Place} (h : Gives m n outs σ o σ')
    (hn : n.kind = .binaryExpression) (hb : n.binary? = some b)
    (hop : Model.isComparison b.operator.kind = true) : ∃ t, o = .value (.truth t) := by
  cases h with
  | cutShort outcome h hb' hop' ho hv => exact ⟨_, rfl⟩
  | logical outcome h hb' hop' ho hv => exact ⟨_, rfl⟩
  | equality h hb' hop' ho ho' he => exact ⟨_, rfl⟩
  | order outcome h hb' hop' => exact ⟨_, rfl⟩
  | arithmetic v h hb' hop' =>
    obtain rfl := Option.some.inj (hb.symm.trans hb')
    cases hk : b.operator.kind <;> simp_all [Model.isComparison, Kind.precedence]
  | present h hb' hop' ho hv | replaced h hb' hop' ho =>
    obtain rfl := Option.some.inj (hb.symm.trans hb')
    simp [hop', Model.isComparison] at hop
  | _ => simp_all [Kind.continuesChain, Kind.isArguments, Kind.isUnary, Kind.isList]

theorem Gives.of_call (h : Gives m n outs σ o σ') (hn : n.kind = .invocationExpression)
    (hv : o.Has v) :
    (∃ asserted, outs = [.skipped asserted]) ∨ (callsToString n = true → v ≠ .null) := by
  cases h with
  | call h hcall => exact .inr (by rwa [Outcome.has_value.1 hv])
  | skipped h hne => exact .inl ⟨_, rfl⟩
  | _ => simp_all [Kind.isArguments, Kind.isUnary, Kind.isList]

/-- If the callee `receiver.name` of a call is cut short, so is its receiver. -/
theorem Runs.receiver_of_skipped {callee : Placed} {access : Node.MemberAccess Place}
    {asserted : Bool} (h : Runs m callee σ (.skipped asserted) σ')
    (hc : callee.isExpression = true) (ha : callee.memberAccess? = some access) :
    Model.inConditionalChain access.expression = true := by
  obtain ⟨hk, rest, hchildren⟩ := Node.memberAccess?_eq_some ha
  obtain ⟨outs, σ₁, hpartly, hgives⟩ := h
  rcases hgives.of_skipped hc with hk' | ⟨hchain, asserted', rfl⟩
  · simp [hk] at hk'
  · obtain ⟨c, next, run⟩ := hpartly.one
    obtain ⟨hexpr, rest', hchildren'⟩ := next.of_chain hchain
    obtain rfl : access.expression = c := (List.cons.inj (hchildren.symm.trans hchildren')).1
    exact run.inConditionalChain hexpr

/-- A call whose type is that of a value that is not null gives one. -/
theorem Runs.of_invocationType (ws : m.WellScoped root) (h : Runs m n σ o σ') (ho : o.Has v)
    (hn : n.kind = .invocationExpression)
    (ht : Verdict.ofType (m.invocationType n) = .notNull) : v ≠ .null := by
  unfold Model.invocationType at ht
  cases hi : n.invocation? with
  | none => simp [hi, Verdict.ofType] at ht
  | some call =>
    obtain ⟨_, list, rest, hchildren, _⟩ := Node.invocation?_eq_some hi
    simp only [hi, Option.bind_eq_bind, Option.bind_some] at ht
    split at ht
    · -- no name is that of a method
      cases hx : m.symbolAt call.expression.unparenthesized.id with
      | none => simp [hx, Verdict.ofType] at ht
      | some x => simp [hx, ws.locals x (fun k => k == .method) rfl, Verdict.ofType] at ht
    · rename_i hk
      cases ha : call.expression.unparenthesized.memberAccess? with
      | none => simp [ha, Verdict.ofType] at ht
      | some access =>
        simp only [ha, Option.bind_some] at ht
        split at ht
        · rename_i hname
          have hcalls : callsToString n = true := by simp [callsToString, hi, ha, hname]
          have hchain : Model.inConditionalChain access.expression = false := by
            cases hc : Model.inConditionalChain access.expression with
            | false => rfl
            | true =>
              rw [hc] at ht
              unfold TypeTable.reference at ht
              split at ht <;> simp [Verdict.ofType] at ht
          obtain ⟨outs, σ₁, hpartly, hgives⟩ := h
          rcases hgives.of_call hn ho with ⟨asserted, rfl⟩ | hv
          · obtain ⟨c, next, run⟩ := hpartly.one
            obtain ⟨hexpr, rest', hchildren'⟩ := next.of_chain (by simp [hn, Kind.continuesChain])
            obtain rfl : call.expression = c := (List.cons.inj (hchildren.symm.trans hchildren')).1
            -- parentheses would have made null of the chain that was cut short
            have hparen : call.expression.kind ≠ .parenthesizedExpression := by
              intro hparen
              obtain ⟨outs, σ₂, _, hgives'⟩ := run
              obtain ⟨_, _, _, _, _, hvalue⟩ := hgives'.of_parenthesized hparen
              cases hvalue
            rw [Node.unparenthesized_of_kind_ne hparen] at ha
            rw [run.receiver_of_skipped hexpr ha] at hchain
            cases hchain
          · exact hv hcalls
        · simp [Verdict.ofType] at ht
    · simp [Verdict.ofType] at ht

/-- The type of an operator, access or call tells the truth about null. -/
theorem Runs.of_typeOf (ws : m.WellScoped root) (h : Runs m n σ o σ') (ho : o.Has v)
    (hi : n.inner? = none) (hsuppress : n.kind ≠ .suppressNullableWarningExpression)
    (hliteral : n.kind ≠ .literalExpression) (hname : n.kind ≠ .identifierName)
    (hthis : n.kind ≠ .thisExpression) (hnew : n.kind ≠ .objectCreationExpression)
    (ht : Verdict.ofType (m.typeOf n) = .notNull) : v ≠ .null := by
  rw [Model.typeOf] at ht
  split at ht
  · split at ht <;> simp_all [Verdict.ofType]
  · exact absurd ‹_› hsuppress
  · exact absurd ‹_› hliteral
  · exact absurd ‹_› hname
  · exact absurd ‹_› hthis
  · exact absurd ‹_› hnew
  · exact h.of_invocationType ws ho ‹_› ht
  · rename_i hk
    split at ht
    · rename_i hop
      obtain ⟨b, hb, hop⟩ := (Option.any_eq_true _ _).1 hop
      obtain ⟨outs, σ₁, _, hgives⟩ := h
      obtain ⟨t, rfl⟩ := hgives.of_comparison hk hb hop
      rw [Outcome.has_value.1 ho]
      intro h
      cases h
    · simp [Verdict.ofType] at ht
  · rename_i hk
    split at ht
    · rename_i hop
      obtain ⟨u, hu, hop⟩ := (Option.any_eq_true _ _).1 hop
      obtain ⟨outs, σ₁, _, hgives⟩ := h
      obtain ⟨_, _, _, _, _, _, _, rfl⟩ := hgives.of_negation hk hu (by simpa using hop)
      rw [Outcome.has_value.1 ho]
      intro h
      cases h
    · simp [Verdict.ofType] at ht
  · simp [Verdict.ofType] at ht

theorem Gives.of_new_this_assertion (h : Gives m n outs σ o σ') (ho : o.Has v)
    (hn : n.kind = .objectCreationExpression ∨ n.kind = .thisExpression ∨
      n.kind = .suppressNullableWarningExpression) : v ≠ .null := by
  cases h with
  | creation h hv | this h hv | assertion h hv => rwa [Outcome.has_value.1 ho]
  | skippedAssertion h => cases ho
  | skipped h hne => rcases hn with hn | hn | hn <;> simp_all [Kind.continuesChain]
  | _ => rcases hn with hn | hn | hn <;> simp_all [Kind.isArguments,
      Kind.isUnary, Kind.isList]

/-- An expression of which the verdict is known at once to be not null. -/
theorem Runs.of_verdict (ws : m.WellScoped root) (h : Runs m n σ o σ') (ho : o.Has v)
    (hr : m.reading n = .verdict .notNull) : v ≠ .null := by
  obtain ⟨o', run, ho'⟩ := h.unparenthesized ho
  have hinner := n.inner?_unparenthesized
  simp only [Model.reading] at hr
  generalize n.unparenthesized = e at run hinner hr
  obtain ⟨outs, σ₁, hpartly, hgives⟩ := run
  split at hr
  · rename_i hk
    obtain ⟨w, rfl, hw⟩ := hgives.of_literal hk
    rw [Outcome.has_value.1 ho', Ne, hw]
    intro hnull
    have hlit : (e.literal?.any fun t => t.kind == .nullKeyword) = true := by
      simpa [Model.isNullLiteral, Node.unparenthesized_of_inner?_eq_none hinner] using hnull
    simp [hlit] at hr
  · exact hgives.of_new_this_assertion ho' (.inl ‹_›)
  · exact hgives.of_new_this_assertion ho' (.inr (.inl ‹_›))
  · exact hgives.of_new_this_assertion ho' (.inr (.inr ‹_›))
  · split at hr
    · split at hr <;> simp at hr
    · simp at hr
  · split at hr <;> simp at hr
  · rename_i hk
    have ht : Verdict.ofType (m.typeOf e) = .notNull := by
      split at hr
      · split at hr
        · simp at hr
        · simpa using hr
      · simpa using hr
    exact Runs.of_typeOf ws ⟨outs, σ₁, hpartly, hgives⟩ ho' hinner (by simp [hk]) (by simp [hk])
      (by simp [hk]) (by simp [hk]) (by simp [hk]) ht
  · refine Runs.of_typeOf ws ⟨outs, σ₁, hpartly, hgives⟩ ho' hinner ?_ ?_ ?_ ?_ ?_
      (by simpa using hr)
    all_goals assumption

/-- An assignment has the value of its right side, which runs last. -/
theorem Gives.assigned_last {b : Node.Binary Place} {σ₀ : Store} (h : Gives m n outs σ o σ')
    (hn : n.kind = .assignmentExpression) (hb : n.binary? = some b) (hpartly : Partly m n σ₀ outs σ)
    (ho : o.Has v) :
    ∃ o₁ rest, o₁.Has v ∧ outs = o₁ :: rest ∧ ∃ σ₁, Partly m n σ₀ rest σ₁ ∧
      Next m n rest b.right ∧ Runs m b.right σ₁ o₁ σ := by
  cases h with
  | assign h hb' hx ho₁ =>
    obtain rfl := Option.some.inj (hb.symm.trans hb')
    obtain ⟨c, σ₁, before, next, run⟩ := hpartly.last
    obtain ⟨_, rfl⟩ := next.of_assignment hn hb hx
    exact ⟨_, _, by rwa [Outcome.has_value.1 ho], rfl, σ₁, before, next, run⟩
  | assignTarget h hb' hx ho₁ =>
    obtain ⟨c, σ₁, before, next, run⟩ := hpartly.last
    obtain rfl : c = b.right := by
      cases next with
      | assignedTarget h hb' hx' he => exact congrArg _ (Option.some.inj (hb'.symm.trans hb))
      | _ => simp_all [Kind.isArguments, Kind.isList]
    exact ⟨_, _, by rwa [Outcome.has_value.1 ho], rfl, σ₁, before, next, run⟩
  | _ => simp_all [Kind.continuesChain, Kind.isArguments, Kind.isUnary, Kind.isList]

theorem Gives.of_coalesce {b : Node.Binary Place} (h : Gives m n outs σ o σ')
    (hn : n.kind = .binaryExpression) (hb : n.binary? = some b)
    (hop : b.operator.kind = .questionQuestion) :
    (∃ v, o = .value v ∧ v ≠ .null) ∨
      ∃ o₁ o₂ v, outs = [o₂, o₁] ∧ o₂.Has v ∧ o = .value v := by
  cases h with
  | present h hb' hop' ho hv => exact .inl ⟨_, rfl, hv⟩
  | replaced h hb' hop' ho => exact .inr ⟨_, _, _, rfl, ho, rfl⟩
  | cutShort outcome h hb' hop' ho hv =>
    obtain rfl := Option.some.inj (hb.symm.trans hb')
    cases outcome <;> simp [hop] at hop'
  | _ => simp_all [Kind.continuesChain, Kind.isArguments, Kind.isUnary, Kind.isList,
      Kind.precedence]

/-- An expression that has the state of a part of it has the value of that part, or is not
null. -/
theorem Runs.of_part (here : Arrives m root (n :: above) σ)
    (h : Runs m n σ o σ') (ho : o.Has v) (hr : m.reading n = .part e) :
    v ≠ .null ∨ ∃ above' σ₁ o' σ₂, Arrives m root (e :: above') σ₁ ∧ Runs m e σ₁ o' σ₂ ∧
      o'.Has v := by
  obtain ⟨o', run, ho'⟩ := h.unparenthesized ho
  obtain ⟨above', here'⟩ := here.unparenthesized
  obtain ⟨b, hb, rfl, hkind⟩ := Model.reading_eq_part hr
  obtain ⟨outs, σ₁, hpartly, hgives⟩ := run
  rcases hkind with hk | ⟨hk, hop⟩
  · obtain ⟨o₁, rest, ho₁, rfl, hright⟩ := hgives.assigned_last hk hb hpartly ho'
    obtain ⟨σ₂, before, next, run⟩ := hright
    exact .inr ⟨_, σ₂, o₁, _, here'.enter before next, run, ho₁⟩
  · rcases hgives.of_coalesce hk hb hop with ⟨w, rfl, hw⟩ | ⟨o₁, o₂, w, rfl, ho₂, rfl⟩
    · rw [Outcome.has_value.1 ho']
      exact .inl hw
    · obtain rfl := Outcome.has_value.1 ho'
      obtain ⟨c, σ₂, before, next, run⟩ := hpartly.last
      rcases next.of_binary hk hb with ⟨hne, _⟩ | ⟨_, _, _, rfl, _⟩
      · simp at hne
      · exact .inr ⟨_, σ₂, o₂, _, here'.enter before next, run, ho₂⟩

/-- A reference to a variable has the value of the variable. -/
theorem Runs.of_variable {r : Placed} (h : Runs m n σ o σ') (ho : o.Has v)
    (hr : m.reading n = .variable x r) :
    r = n.unparenthesized ∧ r.kind = .identifierName ∧ m.symbolAt r.id = some x ∧ v = σ x := by
  obtain ⟨rfl, hk, hx⟩ := Model.reading_eq_variable hr
  refine ⟨rfl, hk, hx, h.value_of_refersTo ho ?_⟩
  simp [Model.refersTo, hk, hx]

end Expressions

/-- Within any number of steps, no expression that is said to be not null is null. -/
theorem soundBelow (ws : m.WellScoped root) (hroot : StatementAssignments m root) (bound : Nat) :
    SoundBelow m root bound := by
  induction bound with
  | zero => exact fun steps hlt => absurd hlt (Nat.not_lt_zero _)
  | succ bound ih =>
    intro steps hlt n above σ σ' o v here run ho hstate
    rcases Nat.lt_succ_iff_lt_or_eq.1 hlt with hlt | rfl
    · exact ih steps hlt here run ho hstate
    rw [Model.nullStateWithin.eq_def] at hstate
    cases steps with
    | zero => cases hstate
    | succ steps =>
      simp only at hstate
      rcases hr : m.reading n with w | e | ⟨x, r⟩
      · rw [hr] at hstate
        obtain rfl : w = .notNull := hstate
        exact run.of_verdict ws ho hr
      · rw [hr] at hstate
        rcases run.of_part here ho hr with hv | ⟨above', σ₁, o', σ₂, here', run', ho'⟩
        · exact hv
        · exact ih steps (Nat.lt_succ_self steps) here' run' ho' hstate
      · rw [hr] at hstate
        obtain ⟨rfl, hk, hx, rfl⟩ := run.of_variable ho hr
        obtain ⟨above', here'⟩ := here.unparenthesized
        have hancestors : m.ancestors n.unparenthesized = above' := by
          simp [Model.ancestors, ws.root_eq, Node.path?_of_descends ws.numbered here'.descends]
        have hdeclared := ws.declared here'.descends here'.listed hk hx
        have hright := climb_sound ws hroot ih here' hdeclared steps
        simp only [hancestors] at hstate
        rcases hclimb : m.climb x steps n.unparenthesized above' with ⟨w | e, left⟩
        · rw [hclimb] at hstate hright
          exact hright hstate
        · rw [hclimb] at hstate hright
          refine hright (min left steps) ?_ hstate
          exact Nat.lt_succ_of_le (Nat.min_le_right left steps)

/-- In every execution, a reference to a local that is said to be not null is come upon in a state
in which the local is not null. -/
theorem nullState_sound {file text : String} {root r : Placed} {m : Model}
    {nullableContext : Bool} {above : List Placed} {σ : Store} {x : Nat}
    (hroot : (parse file text).tree.placed = some root)
    (hm : m = Model.build (some root) nullableContext) (hplain : PlainLocals root)
    (hassign : StatementAssignments m root) (here : Arrives m root (r :: above) σ)
    (hr : r.kind = .identifierName) (hx : m.symbolAt r.id = some x)
    (hstate : m.nullState r = .notNull) : σ x ≠ .null := by
  obtain ⟨g, -, rfl⟩ := Option.map_eq_some_iff.1 hroot
  have ws : m.WellScoped g.placed :=
    hm ▸ Model.wellScoped_build (Node.numbered_placed g) hplain nullableContext
  have run : Runs m r σ (.value (σ x)) σ := ⟨[], σ, .start r σ, .variableRead hr hx⟩
  exact soundBelow ws hassign (maxFlowSteps + 1) maxFlowSteps (Nat.lt_succ_self _) here run
    (Outcome.Has.value (σ x)) hstate

/-- In `string x = "a"; x;` the second `x` is come upon in some execution, and is not null. -/
theorem nullState_sound_initialized :
    let tree := (parse "" "string x = \"a\"; x;").tree
    ∃ root r above σ, tree.placed = some root ∧ tree.node? 12 = some r ∧
      Arrives (Model.build (some root) false) root (r :: above) σ ∧ σ 0 ≠ .null := by
  intro tree
  let n (k : Nat) : Placed := (tree.node? k).getD default
  let m := Model.build (some (n 0)) false
  have hroot : tree.placed = some (n 0) := by decide +kernel
  have hr : tree.node? 12 = some (n 12) := by decide +kernel
  have hkinds : (n 0).kind = .compilationUnit ∧ (n 1).kind = .localDeclarationStatement ∧
      (n 4).kind = .variableDeclarator ∧ (n 6).kind = .equalsValueClause ∧
      (n 8).kind = .literalExpression ∧ (n 11).kind = .expressionStatement ∧
      (n 12).kind = .identifierName := by decide +kernel
  obtain ⟨hk0, hk1, hk4, hk6, hk8, hk11, hk12⟩ := hkinds
  have hstatements : (n 0).statements = [n 1, n 11] := by decide +kernel
  have hdeclarators : (n 1).variableDeclaration?.map (·.declarators) = some [n 4] := by
    decide +kernel
  have hinitializer : (n 4).initializer? = some (n 8) := by decide +kernel
  have hclause : (n 4).childOfKind? .equalsValueClause = some (n 6) := by decide +kernel
  have hinitial : (n 6).children[1]? = some (n 8) := by decide +kernel
  have hvalue : (n 11).value? = some (n 12) := by decide +kernel
  have hliteral : Model.isNullLiteral (n 8) = false := by decide +kernel
  have hx4 : m.symbolAt (n 4).id = some 0 := by decide +kernel
  have hx12 : m.symbolAt (n 12).id = some 0 := by decide +kernel
  have hstate : m.nullState (n 12) = .notNull := by decide +kernel
  obtain ⟨v, hv, hd⟩ := Option.map_eq_some_iff.1 hdeclarators
  have hplain : PlainLocals (n 0) := by
    refine ⟨by decide +kernel, by decide +kernel, fun s hs hk => ?_⟩
    have hone : ∀ s ∈ (n 0).preorder, s.kind = .localDeclarationStatement → s = n 1 := by
      decide +kernel
    exact hone s hs hk ▸ ⟨v, n 4, n 8, hv, hd, hinitializer⟩
  have hassign : StatementAssignments m (n 0) := by
    have hnone : ∀ e ∈ (n 0).preorder, ∀ a ∈ e.children, a.kind ≠ .assignmentExpression := by
      decide +kernel
    exact fun e he a ha hk => absurd hk (hnone e he a ha)
  -- The declaration runs, then the second statement is entered and the name in it.
  let σ : Store := fun _ => .null
  let σ' : Store := Function.update σ 0 .object
  have hlist : (n 0).kind.isList = true := by simp [hk0, Kind.isList]
  have declared : Partly m (n 0) σ [.done] σ' := by
    have clause : Partly m (n 6) σ [.value .object] σ :=
      .part (.start _ _) (.initialValue hk6 hinitial (by decide +kernel)) (.start _ _)
        (.literal hk8 (by simp [hliteral]))
    have declarator : Partly m (n 4) σ [.value .object] σ :=
      .part (.start _ _) (.initializer hk4 hclause) clause (.initialValue hk6 (.value _))
    have declaration : Partly m (n 1) σ [.done] σ' :=
      .part (.start _ _) (.declarator hk1 hv (by simp [hd])) declarator (.initialized hk4 hx4)
    exact .part (.start _ _) (.statement hlist (by simp [hstatements]) (by simp)) declaration
      (.declaration hk1 hv (by simp [hd]))
  have statement : Arrives m (n 0) [n 11, n 0] σ' :=
    .enter (.start σ) declared (.statement hlist (by simp [hstatements]) (by simp))
  have here : Arrives m (n 0) [n 12, n 11, n 0] σ' :=
    .enter statement (.start _ _) (.value (by simp [hk11, Kind.holdsValue]) hvalue)
  exact ⟨n 0, n 12, [n 11, n 0], σ', hroot, hr, here,
    nullState_sound hroot rfl hplain hassign here hk12 hx12 hstate⟩

end NullLint
