import NullLint.Proofs.Semantics.Outcomes
import NullLint.Proofs.Semantics.Scoping

/-!
# What running a node leaves alone

A node runs its children only. An expression without assignments keeps every variable as null, or
as not null, as it was, and a statement keeps the variables that it neither assigns nor declares.
-/

namespace NullLint

variable {m : Model} {n c root : Placed} {outs : List Outcome} {o : Outcome} {σ σ' : Store}

/-- Only children are run. -/
theorem Next.mem_children (h : Next m n outs c) : c ∈ n.children := by
  cases h with
  | receiver h parts he => simp [parts]
  | accessArguments h parts hl => simp [parts]
  | argument h he before => exact (List.mem_filter.1 (List.mem_of_getElem? he)).1
  | creationArguments h hl => exact (Node.childOfKind?_eq_some hl).1
  | inner h he =>
    obtain ⟨_, _, opening, rest, hc⟩ := Node.inner?_eq_some he
    simp [hc]
  | operand h hu he => exact Node.operand_mem_children hu
  | left h hb he | right h hb he ho goesOn | assigned h hb hx he | target h hb hx he
  | assignedTarget h hb hx he =>
    obtain ⟨_, rest, hc⟩ := Node.binary?_eq_some hb
    simp [hc]
  | statement h hs before =>
    have hkind : n.kind = .block ∨ n.kind = .compilationUnit := by simpa [Kind.isList] using h
    have hmem := List.mem_of_getElem? hs
    rcases hkind with hkind | hkind <;> simp [Node.statements, hkind] at hmem <;> exact hmem.1
  | declarator h hv hd => exact (Node.mem_declarators hv (List.mem_of_getElem? hd)).1
  | initializer h hc => exact (Node.childOfKind?_eq_some hc).1
  | initialValue h parts he => exact List.mem_of_getElem? parts
  | value h he => exact (Node.value?_eq_some he).2.2
  | ifCondition h hv he | thenBranch h hv hs ho hw =>
    obtain ⟨_, _, keyword, opening, closing, rest, hc⟩ := Node.ifStatement?_eq_some hv
    simp [hc]
  | elseClause h hv hs hc ho hw => exact (Node.childOfKind?_eq_some hc).1
  | elseBranch h parts hs => exact List.mem_of_getElem? parts
  | whileCondition h hv he turn before | whileBody h hv hs turn ho hw =>
    obtain ⟨_, keyword, opening, closing, rest, hc⟩ := Node.whileStatement?_eq_some hv
    simp [hc]

/-- A statement list runs statements. -/
theorem Next.isStatement (h : Next m n outs c) (hn : n.kind.isList = true) :
    c.kind.isStatement = true := by
  have hkind : n.kind = .block ∨ n.kind = .compilationUnit := by simpa [Kind.isList] using hn
  cases h with
  | statement h hs before =>
    have hmem := List.mem_of_getElem? hs
    rcases hkind with hkind | hkind <;> simp [Node.statements, hkind] at hmem <;> exact hmem.2
  | _ => rcases hkind with hkind | hkind <;> simp_all [Kind.continuesChain, Kind.isArguments,
      Kind.isUnary, Kind.holdsValue]

/-! ## Arrivals -/

theorem Arrives.descends {path : List Placed} (h : Arrives m root path σ) :
    Node.Descends root [] path := by
  induction h with
  | start σ => exact .here _ _
  | enter here before next ih => exact ih.step next.mem_children

theorem Arrives.listed {path : List Placed} (h : Arrives m root path σ) : Listed path := by
  induction h with
  | start σ =>
    intro c n hinfix
    have := hinfix.length_le
    simp at this
  | enter here before next ih =>
    intro c' n' hinfix hlist
    rcases List.infix_cons_iff.1 hinfix with hpre | hinfix
    · obtain ⟨hc, hpre'⟩ := List.cons_prefix_cons.1 hpre
      obtain ⟨hn, _⟩ := List.cons_prefix_cons.1 hpre'
      subst hc hn
      exact next.isStatement hlist
    · exact ih c' n' hinfix hlist

theorem Arrives.mem_preorder {above : List Placed} (h : Arrives m root (n :: above) σ) :
    n ∈ root.preorder := h.descends.head_mem n (by simp)

/-! ## Invariants of a run -/

/-- What every result of a node preserves, as long as control stays among nodes that satisfy `S`,
a run of the parts preserves. -/
theorem Partly.preserves {R : Store → Store → Prop} {S : Placed → Prop} (refl : ∀ σ, R σ σ)
    (trans : ∀ {σ₁ σ₂ σ₃}, R σ₁ σ₂ → R σ₂ σ₃ → R σ₁ σ₃)
    (closed : ∀ {n outs c}, S n → Next m n outs c → S c)
    (gives : ∀ {n outs σ o σ'}, S n → Gives m n outs σ o σ' → R σ σ')
    (h : Partly m n σ outs σ') (hn : S n) : R σ σ' := by
  induction h with
  | start n σ => exact refl σ
  | part before next run result ih ih' =>
    have hc := closed hn next
    exact trans (trans (ih hn) (ih' hc)) (gives hc result)

/-- The variable is null in both stores or in neither. -/
def SameNull (x : Nat) (σ σ' : Store) : Prop := σ x = .null ↔ σ' x = .null

theorem SameNull.update_of_ne {x y : Nat} (h : x ≠ y) (v : Value) :
    SameNull x σ (Function.update σ y v) := by
  unfold SameNull
  rw [Function.update_of_ne h]

/-! ## Expressions -/

/-- Expressions and lists of arguments. -/
def Kind.isOperand (k : Kind) : Bool := k.isExpression || k.isArguments

/-- The parts of an expression are expressions and lists of arguments. -/
theorem Next.isOperand (h : Next m n outs c) (hn : n.kind.isOperand = true) :
    c.kind.isOperand = true := by
  have of_expression : ∀ {e : Placed}, e.isExpression = true → e.kind.isOperand = true := by
    intro e he
    have he : e.kind.isExpression = true := he
    simp [Kind.isOperand, he]
  cases h with
  | receiver h parts he => exact of_expression he
  | accessArguments h parts hl => simp [Kind.isOperand, hl]
  | argument h he before => exact of_expression (List.mem_filter.1 (List.mem_of_getElem? he)).2
  | creationArguments h hl =>
    rw [(Node.childOfKind?_eq_some hl).2]
    rfl
  | inner h he => exact of_expression (Node.inner?_eq_some he).2.1
  | operand h hu he | left h hb he | right h hb he ho goesOn | assigned h hb hx he
  | target h hb hx he | assignedTarget h hb hx he => exact of_expression he
  | statement h hs before =>
    have hkind : n.kind = .block ∨ n.kind = .compilationUnit := by simpa [Kind.isList] using h
    rcases hkind with hkind | hkind <;> simp [hkind, Kind.isOperand, Kind.isExpression,
      Kind.isArguments] at hn
  | value h he =>
    rcases (Node.value?_eq_some he).1 with hkind | hkind | hkind <;>
      simp [hkind, Kind.isOperand, Kind.isExpression, Kind.isArguments] at hn
  | _ => simp_all [Kind.isOperand, Kind.isExpression, Kind.isArguments]

/-- Every assignment below the node is the whole of an expression statement and assigns a local
by its bare name a value without assignments. -/
def StatementAssignments (m : Model) (root : Placed) : Prop :=
  ∀ n ∈ root.preorder, ∀ a ∈ n.children, a.kind = .assignmentExpression →
    n.kind = .expressionStatement ∧ ∃ v x, a.binary? = some v ∧
      v.left.kind = .identifierName ∧ m.symbolAt v.left.id = some x ∧
      ∀ e ∈ v.right.preorder, e.kind ≠ .assignmentExpression

/-- An expression or list of arguments of the tree that is no assignment itself. -/
structure Quiet (root n : Placed) : Prop where
  mem : n ∈ root.preorder
  operand : n.kind.isOperand = true
  no_assignment : n.kind ≠ .assignmentExpression

theorem Quiet.next (hroot : StatementAssignments m root) (hn : Quiet root n)
    (h : Next m n outs c) : Quiet root c where
  mem := Node.mem_preorder_trans (Node.mem_preorder_of_mem_children h.mem_children) hn.mem
  operand := h.isOperand hn.operand
  no_assignment hk := by
    have hkind := (hroot n hn.mem c h.mem_children hk).1
    have := hn.operand
    simp [hkind, Kind.isOperand, Kind.isExpression, Kind.isArguments] at this

/-- A quiet node changes no variable, but for a step that keeps null as it is. -/
theorem Gives.sameNull_of_quiet (h : Gives m n outs σ o σ') (hn : Quiet root n) (x : Nat) :
    SameNull x σ σ' := by
  cases h with
  | @variableStep _ u _ y v w h hu hop hx hv hw =>
    by_cases hxy : x = y
    · subst hxy
      unfold SameNull
      rw [Function.update_self, hw]
    · exact .update_of_ne hxy w
  | assign h hb hx ho => exact absurd h hn.no_assignment
  | initialized h hx | uninitialized v h hx hc =>
    have := hn.operand
    simp [h, Kind.isOperand, Kind.isExpression, Kind.isArguments] at this
  | _ => exact Iff.rfl

theorem Partly.sameNull_of_quiet (hroot : StatementAssignments m root) (hn : Quiet root n)
    (h : Partly m n σ outs σ') (x : Nat) : SameNull x σ σ' :=
  h.preserves (fun _ => Iff.rfl) Iff.trans (fun hn next => hn.next hroot next)
    (fun hn gives => gives.sameNull_of_quiet hn x) hn

/-- Running an expression without assignments keeps every variable null or not null. -/
theorem Runs.sameNull_of_quiet (hroot : StatementAssignments m root) (hn : Quiet root n)
    (h : Runs m n σ o σ') (x : Nat) : SameNull x σ σ' := by
  obtain ⟨outs, σ₁, hpartly, hgives⟩ := h
  exact (hpartly.sameNull_of_quiet hroot hn x).trans (hgives.sameNull_of_quiet hn x)

/-- The parts of an expression are quiet, even if it is an assignment. -/
theorem Partly.sameNull_of_operand (hroot : StatementAssignments m root) (hn : n ∈ root.preorder)
    (hop : n.kind.isOperand = true) (h : Partly m n σ outs σ') (x : Nat) : SameNull x σ σ' := by
  induction h with
  | start => exact Iff.rfl
  | @part n c _ _ _ _ _ _ _ before next run gives ih =>
    have hquiet : Quiet root c := by
      refine ⟨Node.mem_preorder_trans (Node.mem_preorder_of_mem_children next.mem_children) hn,
        next.isOperand hop, fun hk => ?_⟩
      have hkind := (hroot n hn _ next.mem_children hk).1
      simp [hkind, Kind.isOperand, Kind.isExpression, Kind.isArguments] at hop
    exact (ih hn hop).trans (Runs.sameNull_of_quiet hroot hquiet ⟨_, _, run, gives⟩ x)

/-! ## Statements -/

/-- Nothing below the node assigns the variable or declares it. -/
structure Spares (m : Model) (x : Nat) (n : Placed) : Prop where
  no_assignment : m.assigns n x = false
  no_declarator : ∀ d ∈ n.preorder, d.kind = .variableDeclarator → m.symbolAt d.id ≠ some x

theorem Spares.of_mem {x : Nat} (h : Spares m x n) (hc : c ∈ n.preorder) : Spares m x c where
  no_assignment := Model.assigns_below h.no_assignment hc
  no_declarator d hd := h.no_declarator d (Node.mem_preorder_trans hd hc)

theorem Gives.sameNull_of_spares {x : Nat} (h : Gives m n outs σ o σ') (hn : Spares m x n) :
    SameNull x σ σ' := by
  cases h with
  | @variableStep _ u _ y v w h hu hop hx hv hw =>
    by_cases hxy : x = y
    · subst hxy
      unfold SameNull
      rw [Function.update_self, hw]
    · exact .update_of_ne hxy w
  | @assign _ b y o v h hb hx ho =>
    refine .update_of_ne ?_ v
    rintro rfl
    have := hn.no_assignment
    simp only [Model.assigns, List.any_eq_false] at this
    exact this n (Node.self_mem_preorder n) (by simp [h, hb, hx])
  | @initialized _ y v h hx | @uninitialized _ y v h hx hc =>
    refine .update_of_ne ?_ v
    rintro rfl
    exact hn.no_declarator n (Node.self_mem_preorder n) h hx
  | _ => exact Iff.rfl

theorem Partly.sameNull_of_spares {x : Nat} (h : Partly m n σ outs σ') (hn : Spares m x n) :
    SameNull x σ σ' :=
  h.preserves (fun _ => Iff.rfl) Iff.trans
    (fun hn next => hn.of_mem (Node.mem_preorder_of_mem_children next.mem_children))
    (fun hn gives => gives.sameNull_of_spares hn) hn

theorem Runs.sameNull_of_spares {x : Nat} (h : Runs m n σ o σ') (hn : Spares m x n) :
    SameNull x σ σ' := by
  obtain ⟨outs, σ₁, hpartly, hgives⟩ := h
  exact (hpartly.sameNull_of_spares hn).trans (hgives.sameNull_of_spares hn)

end NullLint
