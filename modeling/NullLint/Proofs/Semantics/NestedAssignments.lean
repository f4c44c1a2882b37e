import NullLint.Proofs.Semantics.Walk
import NullLint.Syntax.Parse
import Mathlib.Data.List.Find

/-!
# Assignments the walk overlooks

The walk for a variable looks at the statements before the one it starts in, at conditions only
for comparisons with null, and at loops as a whole. So an assignment in the same statement as the
reference, or in the condition of an `if` around it, has no say: forgetting what its left side
names changes nothing but the answer of the loops that hold it (`Model.nullStateWithin_forget`).
-/

namespace NullLint

variable {m : Model} {root n : Placed} {k x : Nat}

namespace Model

/-- The model in which the node numbered `k` names nothing. -/
def forget (m : Model) (k : Nat) : Model :=
  { m with bindings := { m.bindings with
      symbolOf := m.bindings.symbolOf.filter fun p => p.1 != k } }

theorem symbolAt_forget (m : Model) (k j : Nat) :
    (m.forget k).symbolAt j = if j = k then none else m.symbolAt j := by
  simp only [symbolAt, forget]
  induction m.bindings.symbolOf with
  | nil => simp
  | cons p ps ih =>
    obtain ⟨i, y⟩ := p
    rw [List.lookup_cons]
    by_cases hi : i = k
    · subst hi
      rw [List.filter_cons_of_neg (by simp), ih]
      by_cases hj : j = i
      · simp [hj]
      · simp [hj, beq_false_of_ne hj]
    · rw [List.filter_cons_of_pos (by simpa using hi), List.lookup_cons]
      by_cases hj : j = i
      · simp [hj, hi]
      · simp [beq_false_of_ne hj, ih]

/-- Nothing below the node is the node numbered `k`. -/
def Free (k : Nat) (n : Placed) : Prop := ∀ e ∈ n.preorder, e.id ≠ k

theorem Free.of_mem {e : Placed} (h : Free k n) (he : e ∈ n.preorder) : Free k e :=
  fun e' he' => h e' (Node.mem_preorder_trans he' he)

theorem Free.symbolAt_forget (h : Free k n) : (m.forget k).symbolAt n.id = m.symbolAt n.id := by
  rw [Model.symbolAt_forget, if_neg (h n (Node.self_mem_preorder n))]

/-! ## Symbols and operands -/

/-- Forgetting the node `k` does not change which of the nodes below `n` name `x`. -/
def Keeps (m : Model) (k x : Nat) (n : Placed) : Prop := m.symbolAt k = some x → Free k n

theorem Keeps.of_mem {e : Placed} (h : Keeps m k x n) (he : e ∈ n.preorder) : Keeps m k x e :=
  fun hk => (h hk).of_mem he

theorem symbolAt_forget_eq_some (h : m.symbolAt k = some x → n.id ≠ k) :
    ((m.forget k).symbolAt n.id == some x) = (m.symbolAt n.id == some x) := by
  rw [symbolAt_forget]
  by_cases hn : n.id = k
  · have hx : m.symbolAt k ≠ some x := fun hk => h hk hn
    simp [hn, hx]
  · simp [hn]

theorem refersTo_forget (h : m.symbolAt k = some x → n.unparenthesized.id ≠ k) :
    (m.forget k).refersTo x n = m.refersTo x n := by
  simp only [refersTo]
  rw [symbolAt_forget_eq_some h]

theorem Keeps.refersTo_forget (h : Keeps m k x n) :
    (m.forget k).refersTo x n = m.refersTo x n :=
  Model.refersTo_forget fun hk => h hk _ n.unparenthesized_mem_preorder

theorem Keeps.assigns_forget (h : Keeps m k x n) : (m.forget k).assigns n x = m.assigns n x := by
  rw [assigns, assigns, Bool.eq_iff_iff, List.any_eq_true, List.any_eq_true]
  refine exists_congr fun e => and_congr_right fun he => ?_
  cases hv : e.binary? with
  | none => exact Iff.rfl
  | some v =>
    obtain ⟨-, rest, hc⟩ := Node.binary?_eq_some hv
    have hleft : v.left ∈ n.preorder :=
      Node.mem_preorder_trans (Node.mem_preorder_of_mem_children (by simp [hc])) he
    simp [(h.of_mem hleft).refersTo_forget]

theorem Keeps.chainedValue?_forget (h : Keeps m k x n) :
    (m.forget k).chainedValue? x n = m.chainedValue? x n := by
  induction hsize : n.size using Nat.strongRecOn generalizing n with
  | ind size ih =>
    subst hsize
    rw [chainedValue?.eq_def, chainedValue?.eq_def m]
    cases hk : n.kind
    case assignmentExpression =>
      cases hv : n.binary? with
      | none => simp
      | some v =>
        obtain ⟨-, rest, hc⟩ := Node.binary?_eq_some hv
        have hleft : v.left ∈ n.preorder := Node.mem_preorder_of_mem_children (by simp [hc])
        have hright : v.right ∈ n.preorder := Node.mem_preorder_of_mem_children (by simp [hc])
        simp [(h.of_mem hleft).refersTo_forget,
          ih v.right.size (Node.size_lt_of_binary? hv).2 (h.of_mem hright) rfl]
    case parenthesizedExpression =>
      cases hi : n.inner? with
      | none => simp
      | some e =>
        obtain ⟨-, -, opening, rest, hc⟩ := Node.inner?_eq_some hi
        have he : e ∈ n.preorder := Node.mem_preorder_of_mem_children (by simp [hc])
        simp [ih e.size (Node.size_lt_of_inner? hi) (h.of_mem he) rfl]
    all_goals simp

theorem Keeps.assignment?_forget (h : Keeps m k x n) :
    (m.forget k).assignment? n x = m.assignment? n x := by
  simp only [assignment?]
  cases hk : n.kind
  case localDeclarationStatement =>
    cases hv : n.variableDeclaration? with
    | none => rfl
    | some v =>
      have hfind : (v.declarators.find? fun d => (m.forget k).symbolAt d.id == some x) =
          v.declarators.find? fun d => m.symbolAt d.id == some x := by
        refine List.find?_congr fun d hd => ?_
        have hmem := Node.mem_preorder_of_mem_children (Node.mem_declarators hv hd).1
        exact symbolAt_forget_eq_some fun hk => h hk d hmem
      simp [hfind]
  case expressionStatement =>
    cases he : n.value? with
    | none => rfl
    | some e =>
      obtain ⟨-, -, hc⟩ := Node.value?_eq_some he
      simp [(h.of_mem (Node.mem_preorder_of_mem_children hc)).chainedValue?_forget]
  all_goals rfl

/-! ## Conditions -/

/-- The node numbered `k` is no operand of a binary operator, in parentheses or not. -/
def NoOperand (k : Nat) (root : Placed) : Prop :=
  ∀ e ∈ root.preorder, ∀ v, e.kind = .binaryExpression → e.binary? = some v →
    v.left.unparenthesized.id ≠ k ∧ v.right.unparenthesized.id ≠ k

theorem anyImplies_forget (hk : NoOperand k root) (notNull : Bool) (steps : Nat)
    (conditions : List (Placed × Bool)) (hmem : ∀ c ∈ conditions, c.1 ∈ root.preorder) :
    (m.forget k).anyImplies x notNull steps conditions =
      m.anyImplies x notNull steps conditions := by
  induction steps generalizing conditions with
  | zero => cases conditions <;> rfl
  | succ steps ih =>
    cases conditions with
    | nil => rfl
    | cons c rest =>
      obtain ⟨condition, outcome⟩ := c
      have hn : condition.unparenthesized ∈ root.preorder :=
        Node.mem_preorder_trans condition.unparenthesized_mem_preorder
          (hmem (condition, outcome) (by simp))
      have hrest : ∀ c ∈ rest, c.1 ∈ root.preorder := fun c hc => hmem c (by simp [hc])
      simp only [anyImplies]
      cases hkind : condition.unparenthesized.kind
      case prefixUnaryExpression =>
        cases hv : condition.unparenthesized.unary? with
        | none => exact ih rest hrest
        | some v =>
          have hoperand : v.operand ∈ root.preorder :=
            Node.mem_preorder_trans
              (Node.mem_preorder_of_mem_children (Node.operand_mem_children hv)) hn
          simp only
          rw [ih rest hrest, ih _ (List.forall_mem_cons.2 ⟨hoperand, hrest⟩)]
      case binaryExpression =>
        cases hv : condition.unparenthesized.binary? with
        | none => exact ih rest hrest
        | some v =>
          obtain ⟨-, _, hc⟩ := Node.binary?_eq_some hv
          have hleft : v.left ∈ root.preorder :=
            Node.mem_preorder_trans (Node.mem_preorder_of_mem_children (by simp [hc])) hn
          have hright : v.right ∈ root.preorder :=
            Node.mem_preorder_trans (Node.mem_preorder_of_mem_children (by simp [hc])) hn
          obtain ⟨hnl, hnr⟩ := hk _ hn v hkind hv
          have hcompares : (m.forget k).comparesWithNull x v.left v.right =
              m.comparesWithNull x v.left v.right := by
            rw [comparesWithNull, comparesWithNull, refersTo_forget fun _ => hnl,
              refersTo_forget fun _ => hnr]
          simp only [hcompares, ih rest hrest, ih ((v.right, outcome) :: (v.left, outcome) :: rest)
            (List.forall_mem_cons.2 ⟨hright, List.forall_mem_cons.2 ⟨hleft, hrest⟩⟩)]
      all_goals exact ih rest hrest

theorem conditionImplies_forget (hk : NoOperand k root) (hn : n ∈ root.preorder)
    (outcome notNull : Bool) :
    (m.forget k).conditionImplies n x outcome notNull =
      m.conditionImplies n x outcome notNull := by
  unfold conditionImplies
  exact anyImplies_forget hk notNull maxFlowSteps _ (List.forall_mem_singleton.2 hn)

theorem isNullGuard_forget (hk : NoOperand k root) (hn : n ∈ root.preorder) :
    (m.forget k).isNullGuard n x = m.isNullGuard n x := by
  simp only [isNullGuard]
  cases hv : n.ifStatement? with
  | none => simp
  | some v =>
    obtain ⟨-, -, _, _, _, _, hc⟩ := Node.ifStatement?_eq_some hv
    have hcondition : v.condition ∈ root.preorder :=
      Node.mem_preorder_trans (Node.mem_preorder_of_mem_children (by simp [hc])) hn
    simp [conditionImplies_forget hk hcondition]

/-! ## One step outward -/

theorem declaredVerdict_forget : (m.forget k).declaredVerdict x = m.declaredVerdict x := rfl

theorem lookBack_forget (hk : NoOperand k root) (steps : Nat) {ss : List Placed}
    (hmem : ∀ s ∈ ss, s ∈ root.preorder) (hkeeps : ∀ s ∈ ss, Keeps m k x s) :
    (m.forget k).lookBack x steps ss = m.lookBack x steps ss := by
  induction ss generalizing steps with
  | nil => cases steps <;> rfl
  | cons s ss ih =>
    cases steps with
    | zero => rfl
    | succ steps =>
      have hs := hkeeps s (by simp)
      simp only [lookBack]
      rw [hs.assignment?_forget, isNullGuard_forget hk (hmem s (by simp)), hs.assigns_forget,
        declaredVerdict_forget,
        ih steps (fun s hs => hmem s (by simp [hs])) fun s hs => hkeeps s (by simp [hs])]

/-- A step outward is the same unless it comes to a loop or to statements that hold the node. -/
theorem stepOut_forget (hk : NoOperand k root) (steps : Nat) {child parent : Placed}
    (hparent : parent ∈ root.preorder) (hnum : root.Numbered) (hchild : child ∈ parent.children)
    (hlist : ∀ s ∈ statementsBefore parent child, Keeps m k x s)
    (hloop : parent.kind = .whileStatement → Keeps m k x parent) :
    (m.forget k).stepOut x steps child parent = m.stepOut x steps child parent := by
  have hbefore : ∀ s ∈ statementsBefore parent child, s ∈ root.preorder := fun s hs =>
    have hs := (of_mem_statementsBefore (hnum.of_mem hparent) hchild hs).2.1
    Node.mem_preorder_trans (Node.mem_preorder_of_mem_children hs) hparent
  have below : ∀ e ∈ parent.children, e ∈ root.preorder := fun e he =>
    Node.mem_preorder_trans (Node.mem_preorder_of_mem_children he) hparent
  simp only [stepOut]
  cases hkind : parent.kind
  case binaryExpression =>
    cases hv : parent.binary? with
    | none => rfl
    | some v =>
      obtain ⟨-, _, hc⟩ := Node.binary?_eq_some hv
      simp only [conditionImplies_forget hk (below v.left (by simp [hc]))]
  case ifStatement =>
    cases hv : parent.ifStatement? with
    | none => rfl
    | some v =>
      obtain ⟨-, -, _, _, _, _, hc⟩ := Node.ifStatement?_eq_some hv
      simp only [conditionImplies_forget hk (below v.condition (by simp [hc]))]
  case whileStatement =>
    rw [(hloop hkind).assigns_forget]
    cases hv : parent.whileStatement? with
    | none => rfl
    | some v =>
      obtain ⟨-, _, _, _, _, hc⟩ := Node.whileStatement?_eq_some hv
      simp only [conditionImplies_forget hk (below v.condition (by simp [hc]))]
  case block => exact lookBack_forget hk steps hbefore hlist
  case compilationUnit => exact lookBack_forget hk steps hbefore hlist
  all_goals rfl

/-! ## Expressions -/

theorem Free.invocationType_forget (h : Free k n) :
    (m.forget k).invocationType n = m.invocationType n := by
  simp only [invocationType]
  cases hv : n.invocation? with
  | none => rfl
  | some v =>
    obtain ⟨-, _, _, hc, -⟩ := Node.invocation?_eq_some hv
    have hcallee : v.expression.unparenthesized ∈ n.preorder :=
      Node.mem_preorder_trans v.expression.unparenthesized_mem_preorder
        (Node.mem_preorder_of_mem_children (by simp [hc]))
    simp only [Option.bind_eq_bind, Option.bind_some, (h.of_mem hcallee).symbolAt_forget]
    rfl

theorem Free.typeOf_forget (h : Free k n) : (m.forget k).typeOf n = m.typeOf n := by
  induction hsize : n.size using Nat.strongRecOn generalizing n with
  | ind size ih =>
    subst hsize
    rw [typeOf.eq_def, typeOf.eq_def m]
    cases hk : n.kind
    case parenthesizedExpression =>
      cases hi : n.inner? with
      | none => simp
      | some e =>
        obtain ⟨-, -, _, _, hc⟩ := Node.inner?_eq_some hi
        have he : e ∈ n.preorder := Node.mem_preorder_of_mem_children (by simp [hc])
        simp [ih e.size (Node.size_lt_of_inner? hi) (h.of_mem he) rfl]
    case suppressNullableWarningExpression =>
      cases hc : n.children with
      | nil => simp
      | cons e rest =>
        have he : e ∈ n.children := by simp [hc]
        simp [ih e.size (Node.size_lt_of_mem_children he)
          (h.of_mem (Node.mem_preorder_of_mem_children he)) rfl]
    case identifierName =>
      simp only [nameType, h.symbolAt_forget]
      rfl
    case invocationExpression => exact h.invocationType_forget
    all_goals rfl

theorem Free.reading_forget (h : Free k n) : (m.forget k).reading n = m.reading n := by
  have hn := h.of_mem n.unparenthesized_mem_preorder
  simp only [reading, hn.typeOf_forget, hn.symbolAt_forget]
  rfl

/-- Any other name is read as before. -/
theorem reading_forget_of_name (hn : n.kind = .identifierName) (hne : n.id ≠ k) :
    (m.forget k).reading n = m.reading n := by
  have hself : n.unparenthesized = n := Node.unparenthesized_of_kind_ne (by simp [hn])
  simp only [reading, hself, hn, symbolAt_forget, if_neg hne]
  rfl

/-! ## Climbing -/

/-- The nodes that climbing from `child` comes to. -/
def climbed (m : Model) (symbol : Nat) : Nat → Placed → List Placed → List Placed
  | _, _, [] => []
  | 0, _, _ :: _ => []
  | steps + 1, child, parent :: above =>
    parent ::
      match m.stepOut symbol steps child parent with
      | (some _, _) => []
      | (none, left) => climbed m symbol left parent above

theorem mem_of_mem_climbed {steps : Nat} {child w : Placed} {above : List Placed}
    (hw : w ∈ m.climbed x steps child above) : w ∈ above := by
  induction above generalizing steps child with
  | nil => simp [climbed] at hw
  | cons parent above ih =>
    cases steps with
    | zero => simp [climbed] at hw
    | succ steps =>
      simp only [climbed, List.mem_cons] at hw ⊢
      refine hw.imp_right fun hw => ?_
      split at hw
      · simp at hw
      · exact ih hw

/-- On its way to the state of a node, in so many steps, the walk comes to `w` for `x`. -/
inductive ComesTo (m : Model) (x : Nat) (w : Placed) : Nat → Placed → Prop where
  | climbing {steps : Nat} {n r : Placed} (h : m.reading n = .variable x r)
      (hw : w ∈ m.climbed x steps r (m.ancestors r)) : ComesTo m x w (steps + 1) n
  | part {steps : Nat} {n e : Placed} (h : m.reading n = .part e)
      (rest : ComesTo m x w steps e) : ComesTo m x w (steps + 1) n
  | value {steps left y : Nat} {n r e : Placed} (h : m.reading n = .variable y r)
      (hvalue : m.climb y steps r (m.ancestors r) = (.value e, left))
      (rest : ComesTo m x w (min left steps) e) : ComesTo m x w (steps + 1) n

/-- Climbing ends at a loop that assigns the variable. -/
theorem climb_of_loop {steps : Nat} {child w : Placed} {above : List Placed}
    (hw : w ∈ m.climbed x steps child above) (hk : w.kind = .whileStatement)
    (hassigns : m.assigns w x = true) :
    (m.climb x steps child above).1 = .verdict .maybeNull := by
  induction above generalizing steps child with
  | nil => simp [climbed] at hw
  | cons parent above ih =>
    cases steps with
    | zero => simp [climbed] at hw
    | succ steps =>
      simp only [climbed, List.mem_cons] at hw
      simp only [climb]
      rcases hw with rfl | hw
      · have hstep : m.stepOut x steps child w = (some (.verdict .maybeNull), steps) := by
          simp [stepOut, hk, hassigns]
        rw [hstep]
      · rcases hstep : m.stepOut x steps child parent with ⟨_ | source, left⟩
        · simp only [hstep] at hw ⊢
          exact ih hw
        · simp [hstep] at hw

/-- A walk that comes to a loop that assigns the variable finds that it may be null. -/
theorem ComesTo.nullStateWithin {steps : Nat} {w : Placed} (h : m.ComesTo x w steps n)
    (hk : w.kind = .whileStatement) (hassigns : m.assigns w x = true) :
    m.nullStateWithin steps n = .maybeNull := by
  induction h with
  | @climbing steps n r h hw =>
    rw [Model.nullStateWithin.eq_def]
    have hfound := climb_of_loop hw hk hassigns
    rcases hclimb : m.climb x steps r (m.ancestors r) with ⟨source, left⟩
    rw [hclimb] at hfound
    obtain rfl : source = .verdict .maybeNull := hfound
    simp only [h, hclimb]
  | part h rest ih =>
    rw [Model.nullStateWithin.eq_def]
    simp only [h, ih]
  | value h hvalue rest ih =>
    rw [Model.nullStateWithin.eq_def]
    simp only [h, hvalue, ih]

/-- Every statement that precedes the path in a statement list is free of the node. -/
def Hidden (k : Nat) (path : List Placed) : Prop :=
  ∀ c p, [c, p] <:+: path → ∀ s ∈ statementsBefore p c, Free k s

theorem Hidden.of_suffix {path outer : List Placed} (h : Hidden k path) (hsuffix : outer <:+ path) :
    Hidden k outer := fun c p hin => h c p (hin.trans hsuffix.isInfix)

theorem climb_forget (hk : NoOperand k root) (hnum : root.Numbered) {steps : Nat}
    {child : Placed} {above : List Placed} (hpath : Node.Descends root [] (child :: above))
    (hidden : Hidden k (child :: above))
    (hloops : ∀ w ∈ m.climbed x steps child above, w.kind = .whileStatement → Keeps m k x w) :
    (m.forget k).climb x steps child above = m.climb x steps child above := by
  induction above generalizing steps child with
  | nil => cases steps <;> rfl
  | cons parent above ih =>
    cases steps with
    | zero => rfl
    | succ steps =>
      have hin : [child, parent] <:+: child :: parent :: above :=
        (List.prefix_append [child, parent] above).isInfix
      obtain ⟨hchild, hparent, -⟩ := hpath.step_of_infix hin
      have hstep : (m.forget k).stepOut x steps child parent = m.stepOut x steps child parent := by
        refine stepOut_forget hk steps hparent hnum hchild (fun s hs _ => ?_) fun hw => ?_
        · exact hidden child parent hin s hs
        · exact hloops parent (by simp [climbed]) hw
      simp only [climb, hstep]
      split
      · rfl
      · rename_i left heq
        have hsuffix := List.suffix_cons child (parent :: above)
        refine ih (hpath.of_suffix_root hsuffix) (hidden.of_suffix hsuffix) fun w hw => ?_
        exact hloops w (by simp [climbed, heq, hw])

section Paths

variable {above path : List Placed} {c p s e : Placed}

/-- What is free of the node hides it for everything below. -/
theorem Hidden.below (hnum : root.Numbered) (hn : n ∈ root.preorder) (hfree : Free k n)
    (h : Hidden k (n :: above)) (hpath : Node.Descends n above path) : Hidden k path := by
  intro c p hin s hs
  rcases hpath.of_infix hin with hin | ⟨hc, hp, -⟩
  · exact h c p hin s hs
  · have hp' := Node.mem_preorder_trans hp hn
    have hsp := (of_mem_statementsBefore (hnum.of_mem hp') hc hs).2.1
    exact hfree.of_mem (Node.mem_preorder_trans (Node.mem_preorder_of_mem_children hsp) hp)

/-- Seen from a statement before, the node is hidden as well. -/
theorem Hidden.before {outer : List Placed} (hnum : root.Numbered) (h : Hidden k path)
    (hpath : Node.Descends root [] path) (hsuffix : (c :: p :: outer) <:+ path)
    (hs : s ∈ statementsBefore p c) :
    Free k s ∧ Node.Descends root [] (s :: p :: outer) ∧ Hidden k (s :: p :: outer) := by
  have hin : [c, p] <:+: path :=
    (List.prefix_append [c, p] outer).isInfix.trans hsuffix.isInfix
  obtain ⟨hc, hp, -⟩ := hpath.step_of_infix hin
  have hsp := (of_mem_statementsBefore (hnum.of_mem hp) hc hs).2.1
  have hsuffix' : (p :: outer) <:+ path := (List.suffix_cons c (p :: outer)).trans hsuffix
  refine ⟨h c p hin s hs, (hpath.of_suffix_root hsuffix').step hsp, fun c' p' hin' => ?_⟩
  rcases List.infix_cons_iff.1 hin' with hpre | hin'
  · obtain ⟨rfl, hpre'⟩ := List.cons_prefix_cons.1 hpre
    obtain ⟨rfl, -⟩ := List.cons_prefix_cons.1 hpre'
    exact fun s' hs' => h c p' hin s' (statementsBefore_trans hs hs')
  · exact h c' p' (hin'.trans hsuffix'.isInfix)

end Paths

/-- Within fewer steps than `bound`, forgetting the node `k` does not change the state of
expressions it is hidden from, unless the walk comes to a loop around the node. -/
def UnchangedBelow (m : Model) (root : Placed) (k x bound : Nat) : Prop :=
  ∀ steps < bound, ∀ {n above}, Node.Descends root [] (n :: above) → Free k n →
    Hidden k (n :: above) →
    (∀ w ∈ root.preorder, w.kind = .whileStatement → m.ComesTo x w steps n → Free k w) →
    (m.forget k).nullStateWithin steps n = m.nullStateWithin steps n

/-- Climbing from a reference that the node is hidden from ends with the same state. -/
theorem nullStateWithin_forget_of_variable {bound y : Nat} {r : Placed} {above : List Placed}
    (hroot : m.root = some root) (hnum : root.Numbered) (hk : NoOperand k root)
    (hx : m.symbolAt k = some x) (unchanged : UnchangedBelow m root k x (bound + 1))
    (hread : m.reading n = .variable y r) (hread' : (m.forget k).reading n = .variable y r)
    (hpath : Node.Descends root [] (r :: above)) (hidden : Hidden k (r :: above))
    (hloops : ∀ w ∈ root.preorder, w.kind = .whileStatement → m.ComesTo x w (bound + 1) n →
      Free k w) :
    (m.forget k).nullStateWithin (bound + 1) n = m.nullStateWithin (bound + 1) n := by
  have hancestors : m.ancestors r = above := by
    simp [ancestors, hroot, Node.path?_of_descends hnum hpath]
  have hclimb : (m.forget k).climb y bound r above = m.climb y bound r above := by
    refine climb_forget hk hnum hpath hidden fun w hw hkind hky => ?_
    obtain rfl : x = y := Option.some.inj (hx.symm.trans hky)
    have hw' : w ∈ r :: above := List.mem_cons_of_mem r (mem_of_mem_climbed hw)
    obtain ⟨hwroot, -⟩ := (hpath.mem_preorder_of_mem hw').resolve_left (by simp)
    exact hloops w hwroot hkind (.climbing hread (hancestors.symm ▸ hw))
  rw [nullStateWithin.eq_def, nullStateWithin.eq_def m]
  simp only [hread, hread', hancestors, show (m.forget k).ancestors r = above from hancestors,
    hclimb]
  split
  · rfl
  · rename_i e left hvalue
    obtain ⟨c, p, outer, hsuffix, s, hs, he⟩ := climb_eq_value hvalue
    obtain ⟨hfree, hpath', hidden'⟩ := hidden.before hnum hpath hsuffix hs
    obtain ⟨path, hdown⟩ := Node.exists_descends he (p :: outer)
    have hsroot := hpath'.head_mem s (by simp)
    refine unchanged _ (Nat.lt_succ_of_le (Nat.min_le_right left bound)) (hpath'.trans hdown)
      (hfree.of_mem he) (hidden'.below hnum hsroot hfree hdown) fun w hwroot hkind hw => ?_
    exact hloops w hwroot hkind (.value hread (hancestors.symm ▸ hvalue) hw)

theorem unchangedBelow (hroot : m.root = some root) (hnum : root.Numbered)
    (hk : NoOperand k root) (hx : m.symbolAt k = some x) (bound : Nat) :
    UnchangedBelow m root k x bound := by
  induction bound with
  | zero => exact fun steps hlt => absurd hlt (Nat.not_lt_zero _)
  | succ bound ih =>
    intro steps hlt n above hpath hfree hidden hloops
    rcases Nat.lt_succ_iff_lt_or_eq.1 hlt with hlt | rfl
    · exact ih steps hlt hpath hfree hidden hloops
    cases steps with
    | zero => simp [nullStateWithin]
    | succ steps =>
      have hn := hpath.head_mem n (by simp)
      rcases hread : m.reading n with v | e | ⟨y, r⟩
      · rw [nullStateWithin.eq_def, nullStateWithin.eq_def m]
        simp only [hfree.reading_forget, hread]
      · have he := mem_preorder_of_reading hread
        obtain ⟨path, hdown⟩ := Node.exists_descends he above
        rw [nullStateWithin.eq_def, nullStateWithin.eq_def m]
        simp only [hfree.reading_forget, hread]
        refine ih steps (Nat.lt_succ_self steps) (hpath.trans hdown) (hfree.of_mem he)
          (hidden.below hnum hn hfree hdown) fun w hwroot hkind hw => ?_
        exact hloops w hwroot hkind (.part hread hw)
      · have hr : r ∈ n.preorder := (reading_eq_variable hread).1 ▸ n.unparenthesized_mem_preorder
        obtain ⟨path, hdown⟩ := Node.exists_descends hr above
        exact nullStateWithin_forget_of_variable hroot hnum hk hx ih hread
          (hfree.reading_forget.trans hread) (hpath.trans hdown)
          (hidden.below hnum hn hfree hdown) hloops

/-! ## Where an assignment is hidden -/

section Positions

variable {above : List Placed} {a r s : Placed}

/-- Seen from the nodes above it, a node is in none of the statements before. -/
theorem hidden_of_mem (hnum : root.Numbered) (hpath : Node.Descends root [] (s :: above))
    {t : Placed} (ht : t ∈ s.preorder) : Hidden t.id (s :: above) := by
  intro c p hin s' hs' e he heq
  obtain ⟨hc, hp, hs⟩ := hpath.step_of_infix hin
  have hpnum := hnum.of_mem hp
  obtain ⟨-, hs'p, hne⟩ := of_mem_statementsBefore hpnum hc hs'
  have htc := Node.mem_preorder_trans ht (hs s (by simp))
  exact hne (congrArg Node.id (hpnum.child_eq hs'p hc he htc heq))

theorem infix_append_cons {c p : Placed} {inner outer : List Placed}
    (h : [c, p] <:+: inner ++ s :: outer) : p ∈ inner ++ [s] ∨ [c, p] <:+: s :: outer := by
  induction inner with
  | nil => exact .inr h
  | cons q inner ih =>
    rcases List.infix_cons_iff.1 h with hpre | hin
    · obtain ⟨-, hpre'⟩ := List.cons_prefix_cons.1 hpre
      refine .inl ?_
      cases inner <;> simp_all
    · exact (ih hin).imp_left (List.mem_cons_of_mem q)

/-- An assignment stands in the same statement as a reference with these ancestors, or in the
condition of an `if` that has the reference in a branch. -/
inductive Beside (a r : Placed) (above : List Placed) : Prop where
  | statement {s : Placed}
      (nearest : (r :: above).find? (fun p => p.kind.isStatement || p.kind.isList) = some s)
      (hs : s.kind.isList = false) (ha : a ∈ s.preorder)
  | condition {s : Placed} {v : Node.IfView Place} (hs : s ∈ above)
      (hv : s.ifStatement? = some v) (ha : a ∈ v.condition.preorder)
      (hr : r ∉ v.condition.preorder)

theorem Beside.hidden {t : Placed} (hnum : root.Numbered)
    (hpath : Node.Descends root [] (r :: above)) (h : Beside a r above) (ht : t ∈ a.preorder) :
    Hidden t.id (r :: above) := by
  cases h with
  | @statement s nearest hs ha =>
    obtain ⟨-, inner, outer, heq, hinner⟩ := List.find?_eq_some_iff_append.1 nearest
    rw [heq] at hpath ⊢
    have hupper := hidden_of_mem hnum (hpath.of_suffix_root (List.suffix_append _ _))
      (Node.mem_preorder_trans ht ha)
    intro c p hin
    rcases infix_append_cons hin with hp | hin'
    · -- nothing between the reference and its statement is a statement list
      have hlist : p.kind.isList = false := by
        rcases List.mem_append.1 hp with hp | hp
        · have := hinner p hp
          simp_all
        · simp_all
      obtain ⟨hc, hproot, -⟩ := hpath.step_of_infix hin
      simp [statementsBefore_eq_nil (hnum.of_mem hproot) hlist hc]
    · exact hupper c p hin'
  | @condition s v hs hv ha hr =>
    obtain ⟨hif, -, _, _, _, _, hchildren⟩ := Node.ifStatement?_eq_some hv
    have hcondition : v.condition ∈ s.children := by simp [hchildren]
    have htc := Node.mem_preorder_trans ht ha
    have hts := Node.mem_preorder_trans htc (Node.mem_preorder_of_mem_children hcondition)
    obtain ⟨hsroot, hrs⟩ :=
      (hpath.mem_preorder_of_mem (List.mem_cons_of_mem r hs)).resolve_left (by simp)
    have hsnum := hnum.of_mem hsroot
    obtain ⟨outer, hdown⟩ := hpath.through hnum hsroot (hrs r (by simp))
    intro c p hin
    rcases hdown.of_infix hin with hin' | ⟨hc, hps, hrc⟩
    · exact hidden_of_mem hnum (hpath.of_suffix_root hdown.suffix) hts c p hin'
    · intro s' hs' e he heq
      obtain ⟨hlist, hs'p, -⟩ := of_mem_statementsBefore (hsnum.of_mem hps) hc hs'
      rcases Node.eq_or_mem_child_of_mem_preorder hps with rfl | ⟨d, hd, hpd⟩
      · simp [hif, Kind.isList] at hlist
      -- the list lies in the branch around the reference, and the assignment does not
      have hsp := Node.mem_preorder_of_mem_children hs'p
      have hed := Node.mem_preorder_trans (Node.mem_preorder_trans he hsp) hpd
      obtain rfl := hsnum.child_eq hd hcondition hed htc heq
      have hcp := Node.mem_preorder_of_mem_children hc
      exact hr (Node.mem_preorder_trans (Node.mem_preorder_trans (hrc r (by simp)) hcp) hpd)

/-! ## The operand an assignment assigns -/

/-- Parentheses around a node are all that stands on the path from it to the node inside. -/
theorem descends_unparenthesized {c : Placed} {path : List Placed}
    (h : Node.Descends root [] (c :: path)) :
    ∃ chain, Node.Descends root [] (c.unparenthesized :: chain ++ path) ∧
      ∀ p ∈ chain, p.kind = .parenthesizedExpression := by
  induction c using Node.inner_induction generalizing path with
  | stop c hi => exact ⟨[], by simpa [Node.unparenthesized_of_inner?_eq_none hi] using h, by simp⟩
  | inner c e hi ih =>
    obtain ⟨hk, -, _, _, hc⟩ := Node.inner?_eq_some hi
    obtain ⟨chain, hchain, hparens⟩ := ih (h.step (c := e) (by simp [hc]))
    refine ⟨chain ++ [c], ?_, ?_⟩
    · simpa [Node.unparenthesized_of_inner? hi] using hchain
    · simpa [or_imp, forall_and, hk] using hparens

/-- The first node around an operand that is no parenthesis is the node the operand belongs to. -/
theorem parent_of_unparenthesized (hnum : root.Numbered) {c n : Placed} (hn : n ∈ root.preorder)
    (hc : c ∈ n.children) (hk : n.kind ≠ .parenthesizedExpression) :
    ((root.path? c.unparenthesized.id).getD []).tail.find?
      (fun p => p.kind != .parenthesizedExpression) = some n := by
  obtain ⟨path, hpath⟩ := Node.exists_descends hn []
  obtain ⟨chain, hchain, hparens⟩ := descends_unparenthesized (hpath.step hc)
  have hnone : chain.find? (fun p => p.kind != .parenthesizedExpression) = none := by
    simpa using hparens
  rw [List.cons_append] at hchain
  rw [Node.path?_of_descends hnum hchain, Option.getD_some, List.tail_cons, List.find?_append,
    hnone, Option.none_or, List.find?_cons_of_pos (by simpa using hk)]

theorem noOperand_of_assignment (hnum : root.Numbered) {a : Placed} {v : Node.Binary Place}
    (ha : a ∈ root.preorder) (hk : a.kind = .assignmentExpression) (hv : a.binary? = some v) :
    NoOperand v.left.unparenthesized.id root := by
  obtain ⟨-, _, hchildren⟩ := Node.binary?_eq_some hv
  have hparent := parent_of_unparenthesized hnum ha (c := v.left) (by simp [hchildren])
    (by simp [hk])
  intro e he w hke hw
  obtain ⟨-, _, hchildren'⟩ := Node.binary?_eq_some hw
  have hother : ∀ c ∈ e.children, c.unparenthesized.id ≠ v.left.unparenthesized.id := by
    intro c hc heq
    have hparent' := parent_of_unparenthesized hnum he hc (by simp [hke])
    rw [heq, hparent] at hparent'
    obtain rfl := Option.some.inj hparent'
    simp [hk] at hke
  exact ⟨hother w.left (by simp [hchildren']), hother w.right (by simp [hchildren'])⟩

/-- A loop around the left side of an assignment is around the assignment. -/
theorem mem_preorder_of_loop (hnum : root.Numbered) {a w : Placed} {v : Node.Binary Place}
    (ha : a ∈ root.preorder) (hv : a.binary? = some v)
    (hleft : v.left.unparenthesized.kind = .identifierName) (hw : w ∈ root.preorder)
    (hk : w.kind = .whileStatement) (hmem : v.left.unparenthesized ∈ w.preorder) :
    a ∈ w.preorder := by
  obtain ⟨-, _, hchildren⟩ := Node.binary?_eq_some hv
  obtain ⟨path, hpath⟩ := Node.exists_descends ha []
  obtain ⟨chain, hchain, hparens⟩ :=
    descends_unparenthesized (hpath.step (c := v.left) (by simp [hchildren]))
  obtain ⟨outer, hthrough⟩ := hchain.through hnum hw hmem
  have hwpath := hthrough.suffix.subset List.mem_cons_self
  rcases List.mem_cons.1 hwpath with rfl | hwpath
  · simp [hk] at hleft
  rcases List.mem_append.1 hwpath with hwchain | hwpath
  · have := hparens w hwchain
    simp [hk] at this
  · exact ((hpath.mem_preorder_of_mem hwpath).resolve_left (by simp)).2 a (by simp)

end Positions

end Model

open Model in
/-- The null state at a reference does not take in an assignment beside it. It says not null
exactly when it would without the assignment and the walk comes to no loop around it. -/
theorem nullState_notNull_iff_forget {file text : String} {root a r : Placed} {m : Model}
    {nullableContext : Bool} {v : Node.Binary Place} {x : Nat}
    (hroot : (parse file text).tree.placed = some root)
    (hm : m = Model.build (some root) nullableContext)
    (ha : a ∈ root.preorder) (hk : a.kind = .assignmentExpression) (hv : a.binary? = some v)
    (hx : m.refersTo x v.left = true) (hr : r ∈ root.preorder) (hkr : r.kind = .identifierName)
    (hrx : m.symbolAt r.id = some x) (hra : r ∉ a.preorder)
    (beside : Beside a r (m.ancestors r)) :
    m.nullState r = .notNull ↔
      (m.forget v.left.unparenthesized.id).nullState r = .notNull ∧
        ∀ w ∈ root.preorder, w.kind = .whileStatement → a ∈ w.preorder →
          ¬ m.ComesTo x w maxFlowSteps r := by
  obtain ⟨g, -, rfl⟩ := Option.map_eq_some_iff.1 hroot
  have hnum := Node.numbered_placed g
  have hmroot : m.root = some g.placed := by rw [hm, root_build]
  obtain ⟨-, _, hchildren⟩ := Node.binary?_eq_some hv
  have hleft : v.left.unparenthesized ∈ a.preorder :=
    Node.mem_preorder_trans v.left.unparenthesized_mem_preorder
      (Node.mem_preorder_of_mem_children (by simp [hchildren]))
  obtain ⟨hkl, hxl⟩ : v.left.unparenthesized.kind = .identifierName ∧
      m.symbolAt v.left.unparenthesized.id = some x := by simpa [refersTo] using hx
  obtain ⟨above, hpath⟩ := Node.exists_descends hr []
  have hancestors : m.ancestors r = above := by
    simp [ancestors, hmroot, Node.path?_of_descends hnum hpath]
  -- a walk that comes to a loop around the assignment ends there
  have hstops : m.nullState r = .notNull → ∀ w ∈ g.placed.preorder, w.kind = .whileStatement →
      a ∈ w.preorder → ¬ m.ComesTo x w maxFlowSteps r := by
    intro hstate w _ hkw haw hcomes
    have hassigns : m.assigns w x = true :=
      List.any_eq_true.2 ⟨a, haw, by simp [hk, hv, hx]⟩
    have hmaybe : m.nullState r = .maybeNull := hcomes.nullStateWithin hkw hassigns
    rw [hmaybe] at hstate
    cases hstate
  -- any other walk is the same without the assignment
  have hsame : (∀ w ∈ g.placed.preorder, w.kind = .whileStatement → a ∈ w.preorder →
      ¬ m.ComesTo x w maxFlowSteps r) →
      (m.forget v.left.unparenthesized.id).nullState r = m.nullState r := by
    intro hloops
    have hne : r.id ≠ v.left.unparenthesized.id := fun heq =>
      hra (hnum.eq_of_id_eq hr (Node.mem_preorder_trans hleft ha) heq ▸ hleft)
    have hread' := reading_forget_of_name (m := m) hkr hne
    have hself : r.unparenthesized = r := Node.unparenthesized_of_kind_ne (by simp [hkr])
    have hfree : ∀ w ∈ g.placed.preorder, w.kind = .whileStatement →
        m.ComesTo x w maxFlowSteps r → Free v.left.unparenthesized.id w := by
      intro w hw hkw hcomes e he heq
      obtain rfl := hnum.eq_of_id_eq (Node.mem_preorder_trans he hw)
        (Node.mem_preorder_trans hleft ha) heq
      exact hloops w hw hkw (mem_preorder_of_loop hnum ha hv hkl hw hkw he) hcomes
    obtain ⟨bound, hbound⟩ : ∃ bound, maxFlowSteps = bound + 1 := ⟨9999, rfl⟩
    rw [nullState, nullState, hbound]
    rw [hbound] at hfree
    rcases hread : m.reading r with w | e | ⟨y, r'⟩
    · rw [nullStateWithin.eq_def, nullStateWithin.eq_def m]
      simp only [hread', hread]
    · obtain ⟨_, -, -, hkind⟩ := reading_eq_part hread
      simp [hself, hkr] at hkind
    · obtain rfl : r' = r := (reading_eq_variable hread).1.trans hself
      have hnone := noOperand_of_assignment hnum ha hk hv
      exact nullStateWithin_forget_of_variable hmroot hnum hnone hxl
        (unchangedBelow hmroot hnum hnone hxl (bound + 1)) hread (hread'.trans hread) hpath
        (Beside.hidden hnum hpath (hancestors ▸ beside) hleft) hfree
  constructor
  · intro hstate
    exact ⟨(hsame (hstops hstate)).trans hstate, hstops hstate⟩
  · rintro ⟨hstate, hloops⟩
    rw [← hsame hloops, hstate]

/-- In `string x = "a"; f(x = null, x?.Length);` the last `x` is said to be not null, as it would
be without the assignment. -/
theorem nullState_notNull_iff_forget_argument :
    let tree := (parse "" "string x = \"a\"; f(x = null, x?.Length);").tree
    let m := Model.build tree.placed true
    ∃ root a r, tree.placed = some root ∧ tree.node? 17 = some a ∧ tree.node? 26 = some r ∧
      a.kind = .assignmentExpression ∧ m.nullState r = .notNull ∧
        (m.forget 18).nullState r = .notNull ∧
        ∀ w ∈ root.preorder, w.kind = .whileStatement → a ∈ w.preorder →
          ¬ m.ComesTo 0 w maxFlowSteps r := by
  intro tree m
  let n (k : Nat) : Placed := (tree.node? k).getD default
  have hroot : tree.placed = some (n 0) := by decide +kernel
  have ha : tree.node? 17 = some (n 17) := by decide +kernel
  have hr : tree.node? 26 = some (n 26) := by decide +kernel
  have hk : (n 17).kind = .assignmentExpression := by decide +kernel
  have hstate : m.nullState (n 26) = .notNull := by decide +kernel
  have hleft : (n 17).binary?.map (·.left) = some (n 18) := by decide +kernel
  obtain ⟨v, hv, hleft⟩ := Option.map_eq_some_iff.1 hleft
  have hname : (n 18).unparenthesized.id = 18 := by decide +kernel
  have hx : m.refersTo 0 v.left = true := by
    rw [hleft]
    decide +kernel
  have hnearest : (n 26 :: m.ancestors (n 26)).find?
      (fun p => p.kind.isStatement || p.kind.isList) = some (n 11) := by decide +kernel
  have beside : Model.Beside (n 17) (n 26) (m.ancestors (n 26)) :=
    .statement hnearest (by decide +kernel) (by decide +kernel)
  have hiff := nullState_notNull_iff_forget hroot (congrArg (Model.build · true) hroot)
    (by decide +kernel) hk hv hx (by decide +kernel) (by decide +kernel) (by decide +kernel)
    (by decide +kernel) beside
  rw [hleft, hname] at hiff
  exact ⟨n 0, n 17, n 26, hroot, ha, hr, hk, hstate, hiff.1 hstate⟩

end NullLint
