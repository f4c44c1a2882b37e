import NullLint.Proofs.Semantics.EmbeddedTypes
import NullLint.Proofs.Semantics.Walk

/-!
# Null states in an embedded model

For a node that stands in both files in the same surroundings the walk takes the same steps in both
models. Its verdict is the same, or it is that of a type whose marks were changed.
-/

namespace NullLint

/-! ## Sources -/

/-- The first verdict is the second one, or what a type with its facts changed says in place of the
type. -/
inductive Verdict.Coarser (u : TypeFacts → TypeFacts) : Verdict → Verdict → Prop where
  | same (v : Verdict) : Coarser u v v
  | ofType (t : Option TypeFacts) : Coarser u (.ofType (t.map u)) (.ofType t)

namespace Model

/-- The nodes that stand around a node of the region `D`: nodes of `D`, or the file, a namespace or
a type, which may hold other things in the other file. -/
inductive Outer (e : Embedding) (D : Placed → Prop) : Placed → Placed → Prop where
  | same {n : Placed} (h : D n) : Outer e D n (n.map e.place)
  | file {n n' : Placed} (kind : n.kind = .compilationUnit) (kind' : n'.kind = .compilationUnit)
      (id : n'.id = e.node n.id) (statements : n'.statements = n.statements.map (Node.map e.place))
      (inside : ∀ s ∈ n.statements, D s) : Outer e D n n'
  | holder {n n' : Placed} (kind : n.kind = .namespaceDeclaration ∨ n.kind = .classDeclaration ∨
      n.kind = .structDeclaration) (kind' : n'.kind = n.kind) (id : n'.id = e.node n.id) :
      Outer e D n n'

/-- The nodes `D` of one file stand in the other file as they stand in the first. -/
structure Covers (e : Embedding) (D : Placed → Prop) (m m' : Model) : Prop where
  below : ∀ {n c : Placed}, D n → c ∈ n.preorder → D c
  ancestors : ∀ {n : Placed}, D n →
    List.Forall₂ (Outer e D) (m.ancestors n) (m'.ancestors (n.map e.place))

/-- The same source, with a verdict that may be coarser. -/
inductive Source.Embeds (e : Embedding) (D : Placed → Prop) (u : TypeFacts → TypeFacts) :
    Source → Source → Prop where
  | verdict {v v' : Verdict} (h : v.Coarser u v') : Source.Embeds e D u (.verdict v) (.verdict v')
  | value {n : Placed} (h : D n) : Source.Embeds e D u (.value n) (.value (n.map e.place))

/-- The same find after the same steps. -/
def Found (e : Embedding) (D : Placed → Prop) (u : TypeFacts → TypeFacts)
    (p p' : Option Source × Nat) : Prop :=
  Option.Rel (Source.Embeds e D u) p.1 p'.1 ∧ p'.2 = p.2

namespace Outer

variable {e : Embedding} {D : Placed → Prop} {n n' : Placed}

theorem kind_eq (h : Outer e D n n') : n'.kind = n.kind := by
  cases h with
  | same h => simp
  | file kind kind' => rw [kind, kind']
  | holder kind kind' => exact kind'

theorem id_eq (h : Outer e D n n') : n'.id = e.node n.id := by
  cases h with
  | same h => exact e.id_map n
  | file kind kind' id => exact id
  | holder kind kind' id => exact id

end Outer

namespace Embeds

variable {e : Embedding} {D : Placed → Prop} {u : TypeFacts → TypeFacts} {m m' : Model}
  (h : m.Embeds e u m') (x : Nat)

include h

theorem coarser_declaredVerdict :
    (m.declaredVerdict x).Coarser u (m'.declaredVerdict (e.symbol x)) := by
  rw [declaredVerdict, h.symbolType]
  exact .ofType _

theorem found_declared (steps : Nat) :
    Found e D u (some (.verdict (m.declaredVerdict x)), steps)
      (some (.verdict (m'.declaredVerdict (e.symbol x))), steps) :=
  ⟨.some (.verdict (h.coarser_declaredVerdict x)), rfl⟩

variable (hbelow : ∀ {n c : Placed}, D n → c ∈ n.preorder → D c)
include hbelow

theorem lookBack_map (steps : Nat) {ss : List Placed} (hss : ∀ s ∈ ss, D s) :
    Found e D u (m.lookBack x steps ss)
      (m'.lookBack (e.symbol x) steps (ss.map (Node.map e.place))) := by
  induction ss generalizing steps with
  | nil => cases steps <;> exact ⟨.none, rfl⟩
  | cons s ss ih =>
    cases steps with
    | zero => exact ⟨.some (.verdict (.same _)), rfl⟩
    | succ steps =>
      simp only [List.map_cons, lookBack, h.assignment?_map, h.isNullGuard_map, h.assigns_map]
      rcases hvalue : m.assignment? s x with _ | _ | value
      · simp only [Option.map_none]
        split
        · exact ⟨.some (.verdict (.same _)), rfl⟩
        split
        · exact ⟨.some (.verdict (.same _)), rfl⟩
        · exact ih steps fun t ht => hss t (by simp [ht])
      · exact h.found_declared x steps
      · exact ⟨.some (.value (hbelow (hss s (by simp)) (mem_preorder_of_assignment? hvalue))), rfl⟩

omit h hbelow in
theorem mem_of_mem_statementsBefore {list child s : Placed} (hs : s ∈ statementsBefore list child) :
    s ∈ list.statements := by
  unfold statementsBefore at hs
  split at hs
  · exact (List.takeWhile_sublist _).subset (List.mem_reverse.1 hs)
  · cases hs

omit h hbelow in
theorem statementsBefore_map {list list' child child' : Placed}
    (hstatements : list'.statements = list.statements.map (Node.map e.place))
    (hid : child'.id = e.node child.id) :
    statementsBefore list' child' = (statementsBefore list child).map (Node.map e.place) := by
  have hsame (s : Placed) : ((s.map e.place).id == child'.id) = (s.id == child.id) := by
    rw [hid, e.id_map, Bool.eq_iff_iff, beq_iff_eq, beq_iff_eq, e.node_injective.eq_iff]
  simp only [statementsBefore, hstatements, List.any_map, Function.comp_def, hsame,
    List.takeWhile_map, bne, ← List.map_reverse]
  split <;> rfl

theorem stepOut_map (steps : Nat) {child child' parent parent' : Placed}
    (hkind : child'.kind = child.kind) (hid : child'.id = e.node child.id)
    (hparent : Outer e D parent parent') :
    Found e D u (m.stepOut x steps child parent)
      (m'.stepOut (e.symbol x) steps child' parent') := by
  have hlist {list' : Placed} (hstatements : list'.statements = parent.statements.map (Node.map e.place))
      (hinside : ∀ s ∈ parent.statements, D s) :
      Found e D u (m.lookBack x steps (statementsBefore parent child))
        (m'.lookBack (e.symbol x) steps (statementsBefore list' child')) := by
    rw [statementsBefore_map hstatements hid]
    exact h.lookBack_map x hbelow steps fun s hs => hinside s (mem_of_mem_statementsBefore hs)
  cases hparent with
  | file kind kind' id statements inside =>
    simp only [stepOut, kind, kind']
    exact hlist statements inside
  | holder kind kind' id =>
    rcases kind with kind | kind | kind <;> simp only [stepOut, kind'.trans kind, kind]
    · exact ⟨.none, rfl⟩
    · exact h.found_declared x steps
    · exact h.found_declared x steps
  | same hD =>
    have hsame (s : Placed) : ((s.map e.place).id == child'.id) = (s.id == child.id) := by
      rw [hid, e.id_map, Bool.eq_iff_iff, beq_iff_eq, beq_iff_eq, e.node_injective.eq_iff]
    unfold stepOut
    rw [Node.kind_map]
    split
    · rw [Node.binary?_map]
      cases parent.binary? with
      | none => exact ⟨.none, rfl⟩
      | some v =>
        simp only [Option.map_some, Node.Binary.map_right, Node.Binary.map_left, hsame,
          Node.Binary.map_operator, Node.kind_map, h.conditionImplies_map]
        split
        · exact ⟨.some (.verdict (.same _)), rfl⟩
        · exact ⟨.none, rfl⟩
    · rw [Node.ifStatement?_map]
      cases parent.ifStatement? with
      | none => exact ⟨.none, rfl⟩
      | some v =>
        have hbranch : child'.id = (v.thenBranch.map e.place).id ↔ child.id = v.thenBranch.id := by
          rw [hid, e.id_map, e.node_injective.eq_iff]
        simp only [Option.map_some, Node.IfView.map_thenBranch, Node.IfView.map_condition,
          h.conditionImplies_map, hbranch, hkind]
        split
        · split
          · exact ⟨.some (.verdict (.same _)), rfl⟩
          split
          · exact ⟨.some (.verdict (.same _)), rfl⟩
          · exact ⟨.none, rfl⟩
        · exact ⟨.none, rfl⟩
    · rw [h.assigns_map]
      split
      · exact ⟨.some (.verdict (.same _)), rfl⟩
      rw [Node.whileStatement?_map]
      cases parent.whileStatement? with
      | none => exact ⟨.none, rfl⟩
      | some v =>
        have hbody : child'.id = (v.body.map e.place).id ↔ child.id = v.body.id := by
          rw [hid, e.id_map, e.node_injective.eq_iff]
        simp only [Option.map_some, Node.WhileView.map_body, Node.WhileView.map_condition,
          h.conditionImplies_map, hbody]
        split
        · exact ⟨.some (.verdict (.same _)), rfl⟩
        · exact ⟨.none, rfl⟩
    · exact hlist (Node.statements_map _ _) fun s hs =>
        hbelow hD (Node.mem_preorder_of_mem_statements hs)
    · exact hlist (Node.statements_map _ _) fun s hs =>
        hbelow hD (Node.mem_preorder_of_mem_statements hs)
    all_goals first
      | exact h.found_declared x steps
      | exact ⟨.none, rfl⟩

/-- Climbing comes to the same source in the same number of steps. -/
theorem climb_map (steps : Nat) {child child' : Placed} {above above' : List Placed}
    (hkind : child'.kind = child.kind) (hid : child'.id = e.node child.id)
    (habove : List.Forall₂ (Outer e D) above above') :
    Source.Embeds e D u (m.climb x steps child above).1
        (m'.climb (e.symbol x) steps child' above').1 ∧
      (m'.climb (e.symbol x) steps child' above').2 = (m.climb x steps child above).2 := by
  induction habove generalizing steps child child' with
  | nil => cases steps <;> exact ⟨.verdict (h.coarser_declaredVerdict x), rfl⟩
  | @cons parent parent' above above' hparent habove ih =>
    cases steps with
    | zero => exact ⟨.verdict (.same _), rfl⟩
    | succ steps =>
      have hstep := h.stepOut_map x hbelow steps hkind hid hparent
      simp only [climb]
      rcases hfound : m.stepOut x steps child parent with ⟨found, left⟩
      rcases hfound' : m'.stepOut (e.symbol x) steps child' parent' with ⟨found', left'⟩
      rw [hfound, hfound'] at hstep
      obtain ⟨hsource, rfl⟩ : Option.Rel (Source.Embeds e D u) found found' ∧ left' = left := hstep
      cases hsource with
      | some hsource => exact ⟨hsource, rfl⟩
      | none => exact ih left' hparent.kind_eq hparent.id_eq

end Embeds

/-- The same way to find a state, with a verdict that may be coarser. -/
inductive Reading.Embeds (e : Embedding) (u : TypeFacts → TypeFacts) :
    Reading → Reading → Prop where
  | verdict {v v' : Verdict} (h : v.Coarser u v') : Reading.Embeds e u (.verdict v) (.verdict v')
  | part (n : Placed) : Reading.Embeds e u (.part n) (.part (n.map e.place))
  | variable (x : Nat) (n : Placed) :
    Reading.Embeds e u (.variable x n) (.variable (e.symbol x) (n.map e.place))

namespace Embeds

variable {e : Embedding} {D : Placed → Prop} {u : TypeFacts → TypeFacts} {m m' : Model}
  (h : m.Embeds e u m')
include h

theorem coarser_ofType (n : Placed) :
    (Verdict.ofType (m.typeOf n)).Coarser u (.ofType (m'.typeOf (n.map e.place))) := by
  rw [h.typeOf_map]
  exact .ofType _

theorem reading_map (n : Placed) :
    Reading.Embeds e u (m.reading n) (m'.reading (n.map e.place)) := by
  simp only [reading, Node.unparenthesized_map, Node.kind_map]
  generalize n.unparenthesized = n
  split
  · rw [Node.literal?_map, Option.any_map]
    simp only [Node.kind_map]
    exact .verdict (.same _)
  · exact .verdict (.same _)
  · exact .verdict (.same _)
  · exact .verdict (.same _)
  · rw [e.id_map, h.symbolAt]
    cases m.symbolAt n.id with
    | none => exact .verdict (.same _)
    | some x =>
      simp only [Option.map_some, h.symbolIs_map]
      split
      · exact .variable x n
      · exact .verdict (.same _)
  · rw [Node.binary?_map]
    cases n.binary? with
    | none => exact .verdict (.same _)
    | some v => exact .part v.right
  · rw [Node.binary?_map]
    cases n.binary? with
    | none => exact .verdict (h.coarser_ofType n)
    | some v =>
      simp only [Option.map_some, Node.Binary.map_operator, Node.kind_map]
      split
      · exact .part v.right
      · exact .verdict (h.coarser_ofType n)
  · exact .verdict (h.coarser_ofType n)

/-- The null state of a node is the same in both files, or comes from a coarser type. -/
theorem nullStateWithin_map (hcovers : m.Covers e D m') (steps : Nat) {n : Placed} (hn : D n) :
    (m.nullStateWithin steps n).Coarser u (m'.nullStateWithin steps (n.map e.place)) := by
  induction steps using Nat.strongRecOn generalizing n with
  | ind steps ih =>
    cases steps with
    | zero =>
      rw [nullStateWithin.eq_def, nullStateWithin.eq_def m']
      exact .same _
    | succ steps =>
      rw [nullStateWithin.eq_def, nullStateWithin.eq_def m']
      have hreading := h.reading_map n
      rcases hr : m.reading n with v | p | ⟨x, r⟩ <;>
        rcases hr' : m'.reading (n.map e.place) with v' | p' | ⟨x', r'⟩ <;>
        rw [hr, hr'] at hreading <;> cases hreading <;> simp only
      · assumption
      · exact ih steps (by omega) (hcovers.below hn (mem_preorder_of_reading hr))
      · obtain rfl := (reading_eq_variable hr).1
        have hr : D n.unparenthesized := hcovers.below hn n.unparenthesized_mem_preorder
        have hclimb := h.climb_map x hcovers.below steps (Node.kind_map e.place n.unparenthesized)
          (e.id_map _) (hcovers.ancestors hr)
        rcases hc : m.climb x steps n.unparenthesized (m.ancestors n.unparenthesized) with
          ⟨source, left⟩
        rcases hc' : m'.climb (e.symbol x) steps (n.unparenthesized.map e.place)
          (m'.ancestors (n.unparenthesized.map e.place)) with ⟨source', left'⟩
        rw [hc, hc'] at hclimb
        obtain ⟨hsource, rfl⟩ : Source.Embeds e D u source source' ∧ left' = left := hclimb
        cases hsource with
        | verdict hv => exact hv
        | value hvalue => exact ih (min left' steps) (by omega) hvalue

theorem nullState_map (hcovers : m.Covers e D m') {n : Placed} (hn : D n) :
    (m.nullState n).Coarser u (m'.nullState (n.map e.place)) := by
  unfold nullState
  exact h.nullStateWithin_map hcovers maxFlowSteps hn

end Embeds

end Model

end NullLint
