import NullLint.Proofs.Semantics.AlwaysAssigned
import NullLint.Proofs.Semantics.Embedding

/-!
# Definite assignment in an embedded model

What a region of one file assigns and reads, the same region of the other file assigns and reads,
under the other numbers.
-/

namespace NullLint

namespace Model

/-! ## Nodes without parts -/

/-- An assignment, operation or member access whose parts cannot be read does nothing. -/
theorem flowThrough_of_no_parts {m : Model} {declared : List Nat} {n : Placed}
    (h : (n.kind = .assignmentExpression ∨ n.kind = .binaryExpression) ∧ n.binary? = none ∨
      n.kind = .memberAccessExpression ∧ n.memberAccess? = none) :
    m.flowThrough declared n = fun state => state := by
  funext state
  rw [flowThrough.eq_def]
  rcases h with ⟨hk | hk, hv⟩ | ⟨hk, hv⟩
  all_goals
    simp only [hk]
    split
    · rename_i hv'
      simp [hv] at hv'
    · rfl

/-- An `if` or `while` whose parts cannot be read does nothing. -/
theorem statementFlow_of_no_parts {m : Model} {declared : List Nat} {n : Placed}
    {state : List Nat × List Nat}
    (h : n.kind = .ifStatement ∧ n.ifStatement? = none ∨
      n.kind = .whileStatement ∧ n.whileStatement? = none) :
    m.statementFlow declared n state = (false, state) := by
  rw [statementFlow.eq_def]
  rcases h with ⟨hk, hv⟩ | ⟨hk, hv⟩
  all_goals
    simp only [hk]
    split
    · rename_i hv'
      simp [hv] at hv'
    · rfl

namespace Names

variable {e : Embedding} {m m' : Model} (h : m.Names e m') {declared declared' : List Nat}
  (hdeclared : ∀ x, e.symbol x ∈ declared' ↔ x ∈ declared)

theorem contains_map (xs : List Nat) (x : Nat) :
    (xs.map e.symbol).contains (e.symbol x) = xs.contains x := by
  simp [List.contains_eq_mem, List.mem_map_of_injective e.symbol_injective]

theorem insert_map (xs : List Nat) (x : Nat) :
    (xs.map e.symbol).insert (e.symbol x) = (xs.insert x).map e.symbol := by
  simp only [List.insert, contains_map]
  split <;> rfl

theorem holds_map (layers : Layers) (x : Nat) :
    Layers.holds (layers.map (List.map e.symbol)) (e.symbol x) = layers.holds x := by
  simp only [Layers.holds, List.any_map, Function.comp_def, contains_map]

theorem assign_map (layers : Layers) (x : Nat) :
    Layers.assign (layers.map (List.map e.symbol)) (e.symbol x) =
      (layers.assign x).map (List.map e.symbol) := by
  cases layers <;> simp [Layers.assign, insert_map]

include h

theorem assignedSymbol?_map (n : Placed) :
    m'.assignedSymbol? (n.map e.place) = (m.assignedSymbol? n).map e.symbol := by
  unfold assignedSymbol?
  rw [Node.kind_map, e.id_map, h.symbolAt]
  split <;> rfl

theorem refersTo_map_eq_false {n : Placed} (hn : ∀ x, m.refersTo x n = false) (y : Nat) :
    m'.refersTo y (n.map e.place) = false := by
  rw [Bool.eq_false_iff, Ne, refersTo_iff, Node.unparenthesized_map, h.assignedSymbol?_map,
    assignedSymbol?_eq_none hn]
  simp

include hdeclared

theorem noteRead_map (layers : Layers) (flowsIn : List Nat) (x : Nat) :
    m'.noteRead declared' (layers.map (List.map e.symbol)) (flowsIn.map e.symbol) (e.symbol x) =
      (m.noteRead declared layers flowsIn x).map e.symbol := by
  unfold noteRead
  have hsame : declared'.contains (e.symbol x) = declared.contains x := by
    rw [Bool.eq_iff_iff, List.contains_iff_mem, List.contains_iff_mem, hdeclared]
  rw [h.symbolIs_map, holds_map, hsame]
  split
  · exact insert_map _ _
  · rfl

/-- What an expression does to the symbols assigned and read, under their other numbers. -/
theorem flowThrough_map (n : Placed) (layers : Layers) (flowsIn : List Nat) :
    m'.flowThrough declared' (n.map e.place) (layers.map (List.map e.symbol), flowsIn.map e.symbol) =
      ((m.flowThrough declared n (layers, flowsIn)).1.map (List.map e.symbol),
        (m.flowThrough declared n (layers, flowsIn)).2.map e.symbol) := by
  induction hsize : n.size using Nat.strongRecOn generalizing n layers flowsIn with
  | ind size ih =>
    subst hsize
    by_cases hruns : n.kind.runs = true
    swap
    · rw [flowThrough_of_not_runs (by simpa using hruns),
        flowThrough_of_not_runs (by simpa using hruns)]
    by_cases hname : n.kind = .identifierName
    · have hsymbol := h.symbolAt_map n
      cases hx : m.symbolAt n.id with
      | none =>
        rw [hx] at hsymbol
        rw [flowThrough_unbound hname hx, flowThrough_unbound (by simpa using hname) hsymbol]
      | some x =>
        rw [hx] at hsymbol
        rw [flowThrough_name hname hx, flowThrough_name (by simpa using hname) hsymbol]
        simp only [h.noteRead_map hdeclared]
    by_cases hassign : n.kind = .assignmentExpression
    · cases hv : n.binary? with
      | none =>
        rw [flowThrough_of_no_parts (.inl ⟨.inl hassign, hv⟩),
          flowThrough_of_no_parts (.inl ⟨.inl (by simpa using hassign), by simp [hv]⟩)]
      | some v =>
        have hv' : (n.map e.place).binary? = some (v.map e.place) := by simp [hv]
        obtain ⟨hleft, hright⟩ := Node.size_lt_of_binary? hv
        by_cases hx : ∃ x, m.refersTo x v.left = true
        · obtain ⟨x, hx⟩ := hx
          rw [flowThrough_assign hassign hv hx, flowThrough_assign (by simpa using hassign) hv'
            (x := e.symbol x) (by simpa [h.refersTo_map] using hx)]
          simp only [Node.Binary.map_right, ih _ hright v.right _ _ rfl, assign_map]
        · simp only [not_exists, Bool.not_eq_true] at hx
          rw [flowThrough_assignTarget hassign hv hx]
          rw [flowThrough_assignTarget (by simpa using hassign) hv' (h.refersTo_map_eq_false hx)]
          simp only [Node.Binary.map_right, Node.Binary.map_left, Node.unparenthesized_map,
            ih _ hright v.right _ _ rfl,
            ih _ (Nat.lt_of_le_of_lt v.left.size_unparenthesized_le hleft) _ _ _ rfl]
    by_cases hbinary : n.kind = .binaryExpression
    · cases hv : n.binary? with
      | none =>
        rw [flowThrough_of_no_parts (.inl ⟨.inr hbinary, hv⟩),
          flowThrough_of_no_parts (.inl ⟨.inr (by simpa using hbinary), by simp [hv]⟩)]
      | some v =>
        have hv' : (n.map e.place).binary? = some (v.map e.place) := by simp [hv]
        obtain ⟨hleft, hright⟩ := Node.size_lt_of_binary? hv
        cases hop : mayShortCut v.operator.kind with
        | true =>
          rw [flowThrough_shortCircuit hbinary hv hop,
            flowThrough_shortCircuit (by simpa using hbinary) hv' (by simpa using hop)]
          have hinner := ih _ hright v.right ([] :: (m.flowThrough declared v.left (layers, flowsIn)).1)
            (m.flowThrough declared v.left (layers, flowsIn)).2 rfl
          rw [List.map_cons, List.map_nil] at hinner
          simp only [Node.Binary.map_left, Node.Binary.map_right, ih _ hleft v.left _ _ rfl, hinner]
        | false =>
          rw [flowThrough_binary hbinary hv hop,
            flowThrough_binary (by simpa using hbinary) hv' (by simpa using hop)]
          simp only [Node.Binary.map_left, Node.Binary.map_right, ih _ hleft v.left _ _ rfl,
            ih _ hright v.right _ _ rfl]
    by_cases hmember : n.kind = .memberAccessExpression
    · cases hv : n.memberAccess? with
      | none =>
        rw [flowThrough_of_no_parts (.inr ⟨hmember, hv⟩),
          flowThrough_of_no_parts (.inr ⟨by simpa using hmember, by simp [hv]⟩)]
      | some v =>
        have hv' : (n.map e.place).memberAccess? = some (v.map e.place) := by simp [hv]
        rw [flowThrough_memberAccess hv, flowThrough_memberAccess hv']
        exact ih _ (Node.size_lt_of_memberAccess? hv) v.expression _ _ rfl
    · have hplain : isPlain n.kind = true := by simp [isPlain, *]
      rw [flowThrough_plain hplain, flowThrough_plain (by simpa using hplain)]
      have hparts : (n.map e.place).parts = n.parts.map (Node.map e.place) := by
        simp [Node.parts, List.filter_map, Function.comp_def]
      have hbelow : ∀ c ∈ n.parts, c.size < n.size := fun c hc =>
        Node.size_lt_of_mem_children (Node.mem_parts.1 hc).1
      simp only [hparts]
      clear hparts hplain
      generalize n.parts = cs at hbelow
      induction cs generalizing layers flowsIn with
      | nil => rfl
      | cons c cs ihcs =>
        simp only [List.map_cons, List.foldl_cons, ih _ (hbelow c (by simp)) c _ _ rfl]
        exact ihcs _ _ fun d hd => hbelow d (by simp [hd])

theorem expressionFlow_map (n : Placed) (state : List Nat × List Nat) :
    m'.expressionFlow declared' (n.map e.place) (e.onState state) =
      e.onState (m.expressionFlow declared n state) := by
  have hflow := h.flowThrough_map hdeclared n [state.1] state.2
  rw [List.map_cons, List.map_nil] at hflow
  simp only [expressionFlow, Embedding.onState, hflow]
  cases (m.flowThrough declared n ([state.1], state.2)).1 <;> rfl

theorem valueFlow_map (n : Option Placed) (state : List Nat × List Nat) :
    m'.valueFlow declared' (n.map (Node.map e.place)) (e.onState state) =
      e.onState (m.valueFlow declared n state) := by
  cases n with
  | none => rfl
  | some n => exact h.expressionFlow_map hdeclared n state

theorem declaratorFlow_map (d : Placed) (state : List Nat × List Nat) :
    m'.declaratorFlow declared' (e.onState state) (d.map e.place) =
      e.onState (m.declaratorFlow declared state d) := by
  unfold declaratorFlow
  rw [Node.initializer?_map]
  cases d.initializer? with
  | none => rfl
  | some value =>
    simp only [Option.map_some, h.expressionFlow_map hdeclared value state, h.symbolAt_map]
    cases m.symbolAt d.id with
    | none => rfl
    | some x => simp only [Option.map_some, Embedding.onState, insert_map]

theorem declarators_map (ds : List Placed) (state : List Nat × List Nat) :
    (ds.map (Node.map e.place)).foldl (m'.declaratorFlow declared') (e.onState state) =
      e.onState (ds.foldl (m.declaratorFlow declared) state) := by
  induction ds generalizing state with
  | nil => rfl
  | cons d ds ih =>
    rw [List.map_cons, List.foldl_cons, List.foldl_cons, h.declaratorFlow_map hdeclared, ih]

omit h hdeclared in
theorem joinBranches_map (before assigned assigned' : List Nat) (exits exits' : Bool) :
    joinBranches (before.map e.symbol) (exits, assigned.map e.symbol)
        (exits', assigned'.map e.symbol) =
      ((joinBranches before (exits, assigned) (exits', assigned')).1,
        (joinBranches before (exits, assigned) (exits', assigned')).2.map e.symbol) := by
  cases exits <;> cases exits' <;>
    simp only [joinBranches, List.filter_map, Function.comp_def, contains_map]

theorem statementFlow_map (n : Placed) (state : List Nat × List Nat) :
    m'.statementFlow declared' (n.map e.place) (e.onState state) =
      ((m.statementFlow declared n state).1, e.onState (m.statementFlow declared n state).2) := by
  induction hsize : n.size using Nat.strongRecOn generalizing n state with
  | ind size ih =>
    subst hsize
    by_cases hif : n.kind = .ifStatement
    · cases hv : n.ifStatement? with
      | none =>
        rw [statementFlow_of_no_parts (.inl ⟨hif, hv⟩),
          statementFlow_of_no_parts (.inl ⟨by simpa using hif, by simp [hv]⟩)]
      | some v =>
        have hv' : (n.map e.place).ifStatement? = some (v.map e.place) := by simp [hv]
        obtain ⟨-, hthen, helse⟩ := Node.size_lt_of_ifStatement? hv
        cases hother : v.elseBranch with
        | none =>
          rw [statementFlow_if declared state hif hv hother,
            statementFlow_if declared' _ (by simpa using hif) hv' (by simp [hother])]
          simp only [Node.IfView.map_condition, Node.IfView.map_thenBranch,
            h.expressionFlow_map hdeclared, ih _ hthen v.thenBranch _ rfl]
          rfl
        | some other =>
          have hother' : (v.map e.place).elseBranch = some (other.map e.place) := by simp [hother]
          rw [statementFlow_ifElse declared state hif hv hother,
            statementFlow_ifElse declared' _ (by simpa using hif) hv' hother']
          have hsecond (before : List Nat × List Nat) (first : Bool × List Nat × List Nat) :
              m'.statementFlow declared' (other.map e.place)
                  ((e.onState before).1, (e.onState first.2).2) =
                ((m.statementFlow declared other (before.1, first.2.2)).1,
                  e.onState (m.statementFlow declared other (before.1, first.2.2)).2) :=
            ih _ (helse other hother) other (before.1, first.2.2) rfl
          simp only [Node.IfView.map_condition, Node.IfView.map_thenBranch,
            h.expressionFlow_map hdeclared, ih _ hthen v.thenBranch _ rfl, hsecond]
          simp only [Embedding.onState, joinBranches_map]
    by_cases hwhile : n.kind = .whileStatement
    · cases hv : n.whileStatement? with
      | none =>
        rw [statementFlow_of_no_parts (.inr ⟨hwhile, hv⟩),
          statementFlow_of_no_parts (.inr ⟨by simpa using hwhile, by simp [hv]⟩)]
      | some v =>
        have hv' : (n.map e.place).whileStatement? = some (v.map e.place) := by simp [hv]
        rw [statementFlow_while declared state hwhile hv,
          statementFlow_while declared' _ (by simpa using hwhile) hv']
        simp only [Node.WhileView.map_condition, Node.WhileView.map_body,
          h.expressionFlow_map hdeclared,
          ih _ (Node.size_lt_of_whileStatement? hv).2 v.body _ rfl]
        rfl
    by_cases hblock : n.kind = .block
    · rw [statementFlow_block declared state hblock,
        statementFlow_block declared' _ (by simpa using hblock), Node.statements_map]
      have hbelow : ∀ c ∈ n.statements, c.size < n.size := fun c hc =>
        Node.size_lt_of_mem_children ((Node.mem_statements_of_list (.inl hblock)).1 hc).1
      generalize n.statements = cs at hbelow
      generalize false = exits
      induction cs generalizing exits state with
      | nil => rfl
      | cons c cs ihcs =>
        simp only [List.map_cons, List.foldl_cons, ih _ (hbelow c (by simp)) c _ rfl]
        exact ihcs _ (fun d hd => hbelow d (by simp [hd])) _
    · rw [statementFlow.eq_def, statementFlow.eq_def m, Node.kind_map]
      split
      · rw [Node.variableDeclaration?_map]
        cases n.variableDeclaration? with
        | none => rfl
        | some v => simp [h.declarators_map hdeclared]
      · simp [h.valueFlow_map hdeclared]
      · simp [h.valueFlow_map hdeclared]
      · simp [h.valueFlow_map hdeclared]
      · contradiction
      · contradiction
      · contradiction
      · rfl

omit hdeclared in
/-- The symbols that a region declares. -/
theorem declaredIn_map (region : Placed) :
    m'.declaredIn (region.map e.place) = (m.declaredIn region).map e.symbol := by
  simp only [declaredIn, Node.preorder_map, List.filter_map, Function.comp_def, Node.kind_map,
    List.filterMap_map, e.id_map, h.symbolAt, List.map_filterMap]

theorem statements_map (ss : List Placed) (state : List Nat × List Nat) :
    (ss.map (Node.map e.place)).foldl (fun state s => (m'.statementFlow declared' s state).2)
        (e.onState state) =
      e.onState (ss.foldl (fun state s => (m.statementFlow declared s state).2) state) := by
  induction ss generalizing state with
  | nil => rfl
  | cons s ss ih => simp only [List.map_cons, List.foldl_cons, h.statementFlow_map hdeclared, ih]

omit hdeclared in
theorem filter_isLocal_map (xs : List Nat) :
    (xs.map e.symbol).filter (fun s => m'.symbolIs s SymbolKind.isLocal) =
      (xs.filter fun s => m.symbolIs s SymbolKind.isLocal).map e.symbol := by
  simp only [List.filter_map, Function.comp_def, h.symbolIs_map]

omit hdeclared in
/-- Two files with the same statements have the same flow if they declare the same symbols, others
apart. -/
theorem regionFlow?_of_statements {region region' : Placed}
    (hkind : region.kind = .compilationUnit) (hkind' : region'.kind = .compilationUnit)
    (hstatements : region'.statements = region.statements.map (Node.map e.place))
    (hdeclared : ∀ x, e.symbol x ∈ m'.declaredIn region' ↔ x ∈ m.declaredIn region) :
    m'.regionFlow? region' = (m.regionFlow? region).map e.onRegion := by
  have hflow := h.statements_map hdeclared region.statements ([], [])
  rw [show e.onState ([], []) = ([], []) from rfl] at hflow
  rw [regionFlow?_statements (.inr hkind), regionFlow?_statements (.inr hkind'), hstatements, hflow]
  simp only [Embedding.onState, h.filter_isLocal_map]
  rfl

omit hdeclared in
theorem regionFlow?_map (region : Placed) :
    m'.regionFlow? (region.map e.place) = (m.regionFlow? region).map e.onRegion := by
  have hdeclared (x : Nat) :
      e.symbol x ∈ m'.declaredIn (region.map e.place) ↔ x ∈ m.declaredIn region := by
    rw [h.declaredIn_map, List.mem_map_of_injective e.symbol_injective]
  unfold regionFlow?
  simp only [Node.kind_map, Node.statements_map]
  split
  · have hflow := h.statements_map hdeclared region.statements ([], [])
    rw [show e.onState ([], []) = ([], []) from rfl] at hflow
    simp only [hflow, Option.map_some, Embedding.onState, h.filter_isLocal_map]
    rfl
  · split
    · have hflow := h.expressionFlow_map hdeclared region ([], [])
      rw [show e.onState ([], []) = ([], []) from rfl] at hflow
      simp only [hflow, Option.map_some, Embedding.onState, h.filter_isLocal_map]
      rfl
    · rfl

end Names
end Model
end NullLint
