import NullLint.Semantics.Model

/-!
# Definite assignment

For a region of code: the locals and parameters assigned on every path through it, and those
read before the region assigns them. Both branches of an `if` have to assign, unless one of them
leaves the region; loop bodies count for nothing. The right operand of `&&`, `||` and `??` may
not run, so what it assigns goes into a layer of its own that only this operand sees.
-/

namespace NullLint

/-- What is assigned in a region and what flows into it, as symbol numbers. -/
structure RegionFlow where
  alwaysAssigned : List Nat
  flowsIn : List Nat
  deriving Repr

namespace Model

/-- Assigned symbols, innermost layer first. -/
abbrev Layers := List (List Nat)

/-- Whether some layer holds the symbol. -/
def Layers.holds (layers : Layers) (symbol : Nat) : Bool :=
  layers.any fun layer => layer.contains symbol

/-- Puts a symbol into the innermost layer. -/
def Layers.assign (layers : Layers) (symbol : Nat) : Layers :=
  match layers with
  | [] => [[symbol]]
  | layer :: below => layer.insert symbol :: below

/-- Whether the right operand of a binary operator may not run. -/
def mayShortCut : Kind → Bool
  | .ampersandAmpersand | .barBar | .questionQuestion => true
  | _ => false

/-- Notes a read of a symbol that nothing in the region has given a value. -/
def noteRead (m : Model) (declared : List Nat) (layers : Layers) (flowsIn : List Nat)
    (symbol : Nat) : List Nat :=
  if m.symbolIs symbol SymbolKind.isLocal && !layers.holds symbol &&
      !declared.contains symbol then
    flowsIn.insert symbol
  else
    flowsIn

/-- The symbol assigned when `target` stands on the left of `=`. -/
def assignedSymbol? (m : Model) (target : Placed) : Option Nat :=
  if target.kind = .identifierName then m.symbolAt target.id else none

/-- Reads and assignments of an expression in order of evaluation. `declared` are the symbols
that the region declares itself. -/
def flowThrough (m : Model) (declared : List Nat) (n : Placed)
    (state : Layers × List Nat) : Layers × List Nat :=
  match n.kind with
  | .identifierName =>
    match m.symbolAt n.id with
    | some symbol => (state.1, m.noteRead declared state.1 state.2 symbol)
    | none => state
  | .assignmentExpression =>
    match _h : n.binary? with
    | some v =>
      let (layers, flowsIn) := flowThrough m declared v.right state
      match m.assignedSymbol? v.left.unparenthesized with
      | some symbol => (layers.assign symbol, flowsIn)
      | none => flowThrough m declared v.left.unparenthesized (layers, flowsIn)
    | none => state
  | .binaryExpression =>
    match _h : n.binary? with
    | some v =>
      let (layers, flowsIn) := flowThrough m declared v.left state
      if mayShortCut v.operator.kind then
        (layers, (flowThrough m declared v.right ([] :: layers, flowsIn)).2)
      else
        flowThrough m declared v.right (layers, flowsIn)
    | none => state
  | .memberAccessExpression =>
    match _h : n.memberAccess? with
    | some v => flowThrough m declared v.expression state
    | none => state
  | k =>
    if k.isToken || k.isType then state
    else n.children.attach.foldl (fun state c => flowThrough m declared c.1 state) state
termination_by n.size
decreasing_by
  · exact (Node.size_lt_of_binary? _h).2
  · exact Nat.lt_of_le_of_lt (Node.size_unparenthesized_le _) (Node.size_lt_of_binary? _h).1
  · exact (Node.size_lt_of_binary? _h).1
  · exact (Node.size_lt_of_binary? _h).2
  · exact (Node.size_lt_of_binary? _h).2
  · exact Node.size_lt_of_memberAccess? _h
  · exact Node.size_lt_of_mem_children c.2

/-- Reads and assignments of an expression, from the symbols assigned before it. -/
def expressionFlow (m : Model) (declared : List Nat) (n : Placed)
    (state : List Nat × List Nat) : List Nat × List Nat :=
  let (layers, flowsIn) := m.flowThrough declared n ([state.1], state.2)
  (layers.headD [], flowsIn)

/-- Reads and assignments of an optional expression. -/
def valueFlow (m : Model) (declared : List Nat) (n : Option Placed)
    (state : List Nat × List Nat) : List Nat × List Nat :=
  match n with
  | some e => m.expressionFlow declared e state
  | none => state

/-- Reads and assignments of a declarator. -/
def declaratorFlow (m : Model) (declared : List Nat) (state : List Nat × List Nat)
    (d : Placed) : List Nat × List Nat :=
  match d.initializer? with
  | some e =>
    let (assigned, flowsIn) := m.expressionFlow declared e state
    match m.symbolAt d.id with
    | some symbol => (assigned.insert symbol, flowsIn)
    | none => (assigned, flowsIn)
  | none => state

/-- What is assigned behind an `if` with two branches, each with what it assigns and whether it
leaves the region. -/
def joinBranches (before : List Nat) (first second : Bool × List Nat) : Bool × List Nat :=
  match first.1, second.1 with
  | true, true => (true, before)
  | true, false => (false, second.2)
  | false, true => (false, first.2)
  | false, false => (false, first.2.filter fun s => second.2.contains s)

/-- Reads and assignments of a statement, and whether it never ends normally. -/
def statementFlow (m : Model) (declared : List Nat) (n : Placed)
    (state : List Nat × List Nat) : Bool × List Nat × List Nat :=
  match n.kind with
  | .localDeclarationStatement =>
    match n.variableDeclaration? with
    | some v => (false, v.declarators.foldl (m.declaratorFlow declared) state)
    | none => (false, state)
  | .expressionStatement => (false, m.valueFlow declared n.value? state)
  | .returnStatement | .throwStatement => (true, m.valueFlow declared n.value? state)
  | .ifStatement =>
    match _h : n.ifStatement? with
    | some v =>
      let (assigned, flowsIn) := m.expressionFlow declared v.condition state
      let (exits₁, assigned₁, flowsIn) := statementFlow m declared v.thenBranch (assigned, flowsIn)
      match _h' : v.elseBranch with
      | some other =>
        let (exits₂, assigned₂, flowsIn) := statementFlow m declared other (assigned, flowsIn)
        let (exits, assigned) := joinBranches assigned (exits₁, assigned₁) (exits₂, assigned₂)
        (exits, assigned, flowsIn)
      | none => (false, assigned, flowsIn)
    | none => (false, state)
  | .whileStatement =>
    match _h : n.whileStatement? with
    | some v =>
      let (assigned, flowsIn) := m.expressionFlow declared v.condition state
      let (_, _, flowsIn) := statementFlow m declared v.body (assigned, flowsIn)
      (false, assigned, flowsIn)
    | none => (false, state)
  | .block =>
    n.children.attach.foldl (fun (exits, state) c =>
      if c.1.kind.isStatement then
        let (exits', state) := statementFlow m declared c.1 state
        (exits || exits', state)
      else (exits, state)) (false, state)
  | _ => (false, state)
termination_by n.size
decreasing_by
  · exact (Node.size_lt_of_ifStatement? _h).2.1
  · exact (Node.size_lt_of_ifStatement? _h).2.2 _ _h'
  · exact (Node.size_lt_of_whileStatement? _h).2
  · exact Node.size_lt_of_mem_children c.2

/-- The symbols declared by declarators in a region. -/
def declaredIn (m : Model) (region : Placed) : List Nat :=
  (region.preorder.filter fun n => n.kind == .variableDeclarator).filterMap fun n =>
    m.symbolAt n.id

/-- The flow of a region: a block, a file, a statement or an expression. -/
def regionFlow? (m : Model) (region : Placed) : Option RegionFlow :=
  let declared := m.declaredIn region
  let result : Option (List Nat × List Nat) :=
    if region.kind = .compilationUnit ∨ region.kind.isStatement = true then
      some (region.statements.foldl (fun state s => (m.statementFlow declared s state).2) ([], []))
    else if region.kind.isExpression then
      some (m.expressionFlow declared region ([], []))
    else
      none
  result.map fun (assigned, flowsIn) =>
    ⟨assigned.filter fun s => m.symbolIs s SymbolKind.isLocal, flowsIn⟩

end Model

end NullLint
