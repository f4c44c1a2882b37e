import NullLint.Proofs.Syntax.Relabeling
import NullLint.Semantics.DefiniteAssignment
import NullLint.Semantics.Flow

/-!
# A model inside another

The names of one file may be found again, under other numbers, among those of a second file. Then
every question about a node that only depends on names has the same answer in both models.
-/

namespace NullLint

/-- Where the places, nodes and symbols of one file are found in another. -/
structure Embedding where
  place : Place → Place
  node : Nat → Nat
  symbol : Nat → Nat
  id_place : ∀ p, (place p).id = node p.id
  node_injective : Function.Injective node
  symbol_injective : Function.Injective symbol

namespace Embedding

/-- The symbol as the other file declares it. -/
def onSymbol (e : Embedding) (s : Symbol) : Symbol where
  name := s.name
  kind := s.kind
  declaration := e.node s.declaration
  typeNode := s.typeNode.map (Node.map e.place)
  initializer := s.initializer.map (Node.map e.place)

/-- Symbols assigned and symbols read, as numbered in the other file. -/
def onState (e : Embedding) (state : List Nat × List Nat) : List Nat × List Nat :=
  (state.1.map e.symbol, state.2.map e.symbol)

/-- The flow of a region, as numbered in the other file. -/
def onRegion (e : Embedding) (flow : RegionFlow) : RegionFlow :=
  ⟨flow.alwaysAssigned.map e.symbol, flow.flowsIn.map e.symbol⟩

variable (e : Embedding) (n : Placed)

@[simp] theorem id_map : (n.map e.place).id = e.node n.id := by
  rw [Node.id, Node.tag_map, e.id_place]

end Embedding

/-- The names of the model `m` are those of `m'`, under other numbers. -/
structure Model.Names (e : Embedding) (m m' : Model) : Prop where
  symbolAt : ∀ i, m'.symbolAt (e.node i) = (m.symbolAt i).map e.symbol
  symbol? : ∀ x, m'.symbol? (e.symbol x) = (m.symbol? x).map e.onSymbol

namespace Model

/-- The value of a chain of assignments, read off its parts. -/
theorem chainedValue?_eq (m : Model) (x : Nat) (n : Placed) : m.chainedValue? x n =
    match n.kind with
    | .assignmentExpression => n.binary?.bind fun v =>
      if m.refersTo x v.left then some v.right else m.chainedValue? x v.right
    | .parenthesizedExpression => n.inner?.bind (m.chainedValue? x)
    | _ => none := by
  rw [chainedValue?.eq_def]
  split
  · split <;> simp [*]
  · split <;> simp [*]
  · simp [*]

/-- Whether a statement exits does not depend on where it stands. -/
theorem alwaysExits_map (f : Place → Place) (n : Placed) : alwaysExits (n.map f) = alwaysExits n := by
  have hlast (cs : List Placed) (h : ∀ c ∈ cs, alwaysExits (c.map f) = alwaysExits c) (before : Bool) :
      lastExits before (cs.map (Node.map f)) = lastExits before cs := by
    induction cs generalizing before with
    | nil => rfl
    | cons c cs ih =>
      simp only [List.map_cons, lastExits, Node.kind_map, h c (by simp)]
      exact ih (fun d hd => h d (by simp [hd])) _
  induction n using Node.induction with
  | token a t => rfl
  | branch a k cs ih => simp [Node.map_branch, alwaysExits, hlast cs ih]

theorem isNullLiteral_map (f : Place → Place) (n : Placed) :
    isNullLiteral (n.map f) = isNullLiteral n := by
  simp [isNullLiteral, Option.any_map]

namespace Names

variable {e : Embedding} {m m' : Model} (h : m.Names e m') (x : Nat) (n : Placed)
include h

theorem symbolIs_map (p : SymbolKind → Bool) : m'.symbolIs (e.symbol x) p = m.symbolIs x p := by
  simp [symbolIs, h.symbol?, Option.any_map, Embedding.onSymbol]

theorem symbolAt_map : m'.symbolAt (n.map e.place).id = (m.symbolAt n.id).map e.symbol := by
  rw [e.id_map, h.symbolAt]

theorem symbolAt_beq (i : Nat) :
    (m'.symbolAt (e.node i) == some (e.symbol x)) = (m.symbolAt i == some x) := by
  rw [h.symbolAt]
  cases m.symbolAt i <;> simp [e.symbol_injective.eq_iff]

@[simp]
theorem refersTo_map : m'.refersTo (e.symbol x) (n.map e.place) = m.refersTo x n := by
  simp [refersTo, h.symbolAt_beq]

/-! ## Conditions -/

theorem comparesWithNull_map (left right : Placed) :
    m'.comparesWithNull (e.symbol x) (left.map e.place) (right.map e.place) =
      m.comparesWithNull x left right := by
  simp [comparesWithNull, h.refersTo_map, isNullLiteral_map]

theorem anyImplies_map (notNull : Bool) (steps : Nat) (conditions : List (Placed × Bool)) :
    m'.anyImplies (e.symbol x) notNull steps (conditions.map fun c => (c.1.map e.place, c.2)) =
      m.anyImplies x notNull steps conditions := by
  induction steps generalizing conditions with
  | zero => cases conditions <;> rfl
  | succ steps ih =>
    rcases conditions with _ | ⟨⟨condition, outcome⟩, rest⟩
    · rfl
    simp only [List.map_cons, anyImplies, Node.unparenthesized_map, Node.kind_map]
    generalize condition.unparenthesized = n
    split
    · rw [Node.unary?_map]
      cases n.unary? with
      | none => exact ih rest
      | some v =>
        simp only [Option.map_some, Node.Unary.map_operator, Node.kind_map]
        split
        · exact ih ((v.operand, !outcome) :: rest)
        · exact ih rest
    · rw [Node.binary?_map]
      cases n.binary? with
      | none => exact ih rest
      | some v =>
        simp only [Option.map_some, Node.Binary.map_operator, Node.kind_map, Node.Binary.map_left,
          Node.Binary.map_right, h.comparesWithNull_map]
        split
        · exact ih ((v.right, outcome) :: (v.left, outcome) :: rest)
        · split
          · rfl
          · exact ih rest
    · exact ih rest

theorem conditionImplies_map (condition : Placed) (outcome notNull : Bool) :
    m'.conditionImplies (condition.map e.place) (e.symbol x) outcome notNull =
      m.conditionImplies condition x outcome notNull :=
  h.anyImplies_map x notNull maxFlowSteps [(condition, outcome)]

/-! ## Statements -/

theorem assigns_map : m'.assigns (n.map e.place) (e.symbol x) = m.assigns n x := by
  simp only [assigns, Node.preorder_map, List.any_map, Function.comp_def, Node.kind_map,
    Node.binary?_map, Option.any_map, Node.Binary.map_left, h.refersTo_map]

theorem chainedValue?_map : m'.chainedValue? (e.symbol x) (n.map e.place) =
    (m.chainedValue? x n).map (Node.map e.place) := by
  induction hsize : n.size using Nat.strongRecOn generalizing n with
  | ind size ih =>
    subst hsize
    rw [chainedValue?_eq, chainedValue?_eq m, Node.kind_map]
    split
    · rw [Node.binary?_map]
      cases hv : n.binary? with
      | none => rfl
      | some v =>
        simp only [Option.map_some, Option.bind_some, Node.Binary.map_left, h.refersTo_map,
          Node.Binary.map_right, ih _ (Node.size_lt_of_binary? hv).2 v.right rfl]
        split <;> rfl
    · rw [Node.inner?_map]
      cases hi : n.inner? with
      | none => rfl
      | some e' => exact ih _ (Node.size_lt_of_inner? hi) e' rfl
    · rfl

theorem assignment?_map : m'.assignment? (n.map e.place) (e.symbol x) =
    (m.assignment? n x).map (Option.map (Node.map e.place)) := by
  unfold assignment?
  rw [Node.kind_map]
  split
  · rw [Node.variableDeclaration?_map]
    cases n.variableDeclaration? with
    | none => rfl
    | some v =>
      simp only [Option.map_some, Option.bind_eq_bind, Option.bind_some,
        Node.VariableDeclaration.map_declarators, List.find?_map, Function.comp_def, e.id_map,
        h.symbolAt_beq]
      cases v.declarators.find? fun d => m.symbolAt d.id == some x with
      | none => rfl
      | some d =>
        simp only [Option.map_some, Option.bind_some, Node.declarator?_map]
        cases d.declarator? <;> rfl
  · rw [Node.value?_map]
    cases n.value? with
    | none => rfl
    | some e' =>
      simp only [Option.map_some, Option.bind_eq_bind, Option.bind_some, h.chainedValue?_map]
      cases m.chainedValue? x e' <;> rfl
  · rfl

theorem isNullGuard_map : m'.isNullGuard (n.map e.place) (e.symbol x) = m.isNullGuard n x := by
  simp [isNullGuard, Option.any_map, alwaysExits_map, h.conditionImplies_map]

end Names

end Model

end NullLint
