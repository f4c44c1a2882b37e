import NullLint.Proofs.CleanParsing
import NullLint.Proofs.Fix.Removal

/-!
# What a run reports

A run over a parsed tree that nobody stops reports a null operator just if the answers of the host
prove its operand not null, whatever these answers are (`Checker.Proves`). The findings stand in
the order of the marks, of which no two begin at the same place, and every mark lies in the span
reported for it.
-/

namespace NullLint

/-! ## Steps of a run -/

namespace Checking

variable {α β : Type}

theorem bind_apply (x : Checking α) (g : α → Checking β) (history : History) :
    (x >>= g) history = g (x history).1 (x history).2 := rfl

theorem pure_apply (a : α) (history : History) :
    (pure a : Checking α) history = (a, history) := rfl

theorem note_apply (event : Event) (reply : α) (history : History) :
    note event reply history = (reply, event :: history) := rfl

theorem poll_never (history : History) :
    poll .never history = (false, .polled :: history) := rfl

end Checking

/-! ## What is to be reported -/

/-- The node is a null operator with this operand and this mark. -/
inductive IsOperation (n operand mark : Placed) : NullOperator → Prop where
  | conditionalAccess (kind : n.kind = .conditionalAccessExpression)
      (parts : n.children = [operand, mark]) (expression : operand.isExpression = true)
      (question : mark.kind = .question) : IsOperation n operand mark .conditionalAccess
  | nullAssertion (kind : n.kind = .suppressNullableWarningExpression)
      (parts : n.children = [operand, mark]) (expression : operand.isExpression = true)
      (exclamation : mark.kind = .exclamation) : IsOperation n operand mark .nullAssertion

/-- The nearest statement list around a node of a tree. -/
def IsScopeOf (root n scope : Placed) : Prop :=
  ∃ above, Node.Descends root [] (n :: above) ∧ Path.scope? (n :: above) = some scope

/-- The place of a reason in the order in which reasons are looked for. -/
def Reason.rank : Reason → Nat
  | .valueType => 0
  | .flow => 1
  | .localAssignment => 2

namespace Checker

/-- By the answers of the host, the operand of a null operator in this scope is not null for this
reason. -/
inductive Proves (c : Checker) (operand scope : Placed) : Reason → Prop where
  | valueType (type : c.host.typeOf operand.id = some .value) : Proves c operand scope .valueType
  | flow {mark : NullMark} (type : c.host.typeOf operand.id = some (.reference mark))
      (state : c.host.nullState operand.id (some scope.id) = .notNull) :
      Proves c operand scope .flow
  | localAssignment {mark : NullMark} {name : String} {x : Nat} {flow : RegionFlow}
      (type : c.host.typeOf operand.id = some (.reference mark)) (option : c.localDataflow = true)
      (bare : operand.expression? = some (.identifier name))
      (symbol : c.host.symbolOf operand.id = some x)
      (region : c.host.regionFlow scope.id = some flow) (assigned : x ∈ flow.alwaysAssigned)
      (inside : x ∉ flow.flowsIn) : Proves c operand scope .localAssignment

/-- The reason is the first one that holds. -/
def ProvesFirst (c : Checker) (operand scope : Placed) (reason : Reason) : Prop :=
  c.Proves operand scope reason ∧
    ∀ earlier : Reason, earlier.rank < reason.rank → ¬ c.Proves operand scope earlier

/-- A reason that holds leads to a first one. -/
theorem Proves.exists_first {c : Checker} {operand scope : Placed} {reason : Reason}
    (h : c.Proves operand scope reason) : ∃ first, c.ProvesFirst operand scope first := by
  induction hrank : reason.rank using Nat.strongRecOn generalizing reason with
  | ind rank ih =>
    subst hrank
    by_cases hfirst : ∀ earlier : Reason, earlier.rank < reason.rank →
        ¬ c.Proves operand scope earlier
    · exact ⟨reason, h, hfirst⟩
    · push Not at hfirst
      obtain ⟨earlier, hlt, hearlier⟩ := hfirst
      exact ih earlier.rank hlt hearlier rfl

/-- The first reason for an operand that has no value type. -/
theorem provesFirst_iff {c : Checker} {operand scope : Placed}
    (hvalue : ¬ c.Proves operand scope .valueType) {reason : Reason} :
    c.ProvesFirst operand scope reason ↔
      reason = .flow ∧ c.Proves operand scope .flow ∨
        reason = .localAssignment ∧ ¬ c.Proves operand scope .flow ∧
          c.Proves operand scope .localAssignment := by
  constructor
  · rintro ⟨hproves, hfirst⟩
    cases reason with
    | valueType => exact absurd hproves hvalue
    | flow => exact .inl ⟨rfl, hproves⟩
    | localAssignment => exact .inr ⟨rfl, hfirst .flow (by decide), hproves⟩
  · rintro (⟨rfl, hproves⟩ | ⟨rfl, hflow, hproves⟩)
    · refine ⟨hproves, fun earlier hlt => ?_⟩
      cases earlier with
      | valueType => exact hvalue
      | flow | localAssignment => exact absurd hlt (by decide)
    · refine ⟨hproves, fun earlier hlt => ?_⟩
      cases earlier with
      | valueType => exact hvalue
      | flow => exact hflow
      | localAssignment => exact absurd hlt (by decide)

/-! ## Judging one node -/

variable {c : Checker} {n operand mark scope : Placed} {above : List Placed} {history : History}
  {f : Finding}

theorem operation?_eq_some_iff {operator : NullOperator} :
    operation? n = some ⟨operator, operand, mark⟩ ↔ IsOperation n operand mark operator := by
  constructor
  · intro h
    unfold operation? at h
    split at h
    · rename_i hexpr
      cases h
      obtain ⟨hkind, hshape⟩ := expression?_eq_conditionalAccess hexpr
      obtain ⟨hchildren, hmark⟩ := operatorShape?_eq_some hshape
      refine .conditionalAccess hkind hchildren ?_ hmark
      simp only [Node.operatorShape?, hchildren] at hshape
      split at hshape
      · simp_all
      · cases hshape
    · rename_i hexpr
      cases h
      obtain ⟨hkind, hshape⟩ := expression?_eq_nullAssertion hexpr
      obtain ⟨hchildren, hmark⟩ := operatorShape?_eq_some hshape
      refine .nullAssertion hkind hchildren ?_ hmark
      simp only [Node.operatorShape?, hchildren] at hshape
      split at hshape
      · simp_all
      · cases hshape
    · cases h
  · intro h
    cases h with
    | conditionalAccess kind parts expression question =>
      simp [operation?, Node.expression?, kind, Node.operatorShape?, parts, expression, question]
    | nullAssertion kind parts expression exclamation =>
      simp [operation?, Node.expression?, kind, Node.operatorShape?, parts, expression, exclamation]

/-- Whether the scope of a name assigns it, as far as the host knows. -/
theorem assignedLocally_eq_true_iff (c : Checker) (operand scope : Placed) (history : History) :
    (c.assignedLocally operand.id (some scope.id) history).1 = true ↔
      ∃ x flow, c.host.symbolOf operand.id = some x ∧ c.host.regionFlow scope.id = some flow ∧
        x ∈ flow.alwaysAssigned ∧ x ∉ flow.flowsIn := by
  simp only [assignedLocally, Checking.bind_apply, Host.askSymbol, Checking.note_apply]
  cases hx : c.host.symbolOf operand.id with
  | none => simp [Checking.pure_apply]
  | some x =>
    simp only [Checking.bind_apply, Host.askRegion, Checking.note_apply, Option.getD_some,
      Checking.pure_apply]
    cases hflow : c.host.regionFlow scope.id with
    | none => simp
    | some flow => simp [assignedIn]

/-- A reference is classified as not null just if it is a name that its scope assigns. -/
theorem classify_eq_notNull_iff (hsignal : c.signal = .never)
    (hpath : (c.path operand.id).head? = some operand) {nullMark : NullMark}
    (htype : c.host.typeOf operand.id = some (.reference nullMark)) :
    (c.classify operand.id (some scope.id) history).1 = .notNull ↔
      ∃ name x flow, operand.expression? = some (.identifier name) ∧
        c.host.symbolOf operand.id = some x ∧ c.host.regionFlow scope.id = some flow ∧
        x ∈ flow.alwaysAssigned ∧ x ∉ flow.flowsIn := by
  have hasked : (c.host.askType operand.id history).1 = some (.reference nullMark) := htype
  unfold classify
  rw [hpath, Option.bind_some]
  cases hexpr : operand.expression? with
  | none => simp [Checking.pure_apply]
  | some e =>
    simp only [Checking.bind_apply]
    rw [if_neg (by simp [hasked]), hasked]
    cases e with
    | identifier name =>
      have hassigned := c.assignedLocally_eq_true_iff operand scope
        (Checking.poll c.signal (c.host.askType operand.id history).2).2
      simp only [Checking.bind_apply, Node.Expression.identifier.injEq, exists_and_left,
        exists_eq_left', Option.some.injEq]
      rw [if_neg (by simp [hsignal, Checking.poll_never]), Checking.bind_apply]
      split
      · rename_i h
        simpa [Checking.pure_apply] using hassigned.1 h
      · rename_i h
        rw [hassigned] at h
        simpa [presumption, Checking.pure_apply] using h
    | conditionalAccess => simp [presumption, Checking.pure_apply]
    | nullAssertion => simp [presumption, Checking.pure_apply]
    | other => simp [presumption, Checking.pure_apply]

/-- The reason that a run finds is the first one that holds. -/
theorem reason?_eq_some_iff (hsignal : c.signal = .never)
    (hpath : (c.path operand.id).head? = some operand) {reason : Reason} :
    (c.reason? operand.id (some scope.id) (c.host.typeOf operand.id) history).1 = some reason ↔
      c.ProvesFirst operand scope reason := by
  rcases htype : c.host.typeOf operand.id with _ | (_ | _ | nullMark)
  · have hnone : ∀ r, ¬ c.Proves operand scope r := by
      rintro r (type | ⟨type, -⟩ | ⟨type, -⟩) <;> simp [htype] at type
    simp [reason?, Checking.pure_apply, ProvesFirst, hnone]
  · have hrun : (c.reason? operand.id (some scope.id) (some .value) history).1 =
        some .valueType := rfl
    rw [hrun, Option.some.injEq]
    constructor
    · rintro rfl
      exact ⟨.valueType htype, fun _ hlt => absurd hlt (Nat.not_lt_zero _)⟩
    · rintro ⟨type | ⟨type, -⟩ | ⟨type, -⟩, -⟩
      · rfl
      · simp [htype] at type
      · simp [htype] at type
  · have hnone : ∀ r, ¬ c.Proves operand scope r := by
      rintro r (type | ⟨type, -⟩ | ⟨type, -⟩) <;> simp [htype] at type
    simp [reason?, Checking.pure_apply, ProvesFirst, hnone]
  · have hvalue : ¬ c.Proves operand scope .valueType := by
      rintro ⟨type⟩
      simp [htype] at type
    have hflow : (c.host.askFlow operand.id (some scope.id) history).1 = .notNull ↔
        c.Proves operand scope .flow :=
      ⟨fun state => .flow htype state, fun | .flow _ state => state⟩
    have hlocal (history : History) : c.localDataflow = true ∧
        (c.classify operand.id (some scope.id) history).1 = .notNull ↔
          c.Proves operand scope .localAssignment := by
      rw [classify_eq_notNull_iff hsignal hpath htype]
      constructor
      · rintro ⟨option, name, x, flow, bare, symbol, region, assigned, inside⟩
        exact .localAssignment htype option bare symbol region assigned inside
      · rintro ⟨⟩
        exact ⟨‹_›, _, _, _, ‹_›, ‹_›, ‹_›, ‹_›, ‹_›⟩
    rw [provesFirst_iff hvalue]
    simp only [reason?, Checking.bind_apply]
    split
    · rename_i hstate
      simp [Checking.pure_apply, hflow.1 hstate, eq_comm]
    · rename_i hstate
      have hnot : ¬ c.Proves operand scope .flow := fun h => hstate (hflow.2 h)
      split
      · rename_i hoption
        simp only [hoption, true_and] at hlocal
        rw [Checking.bind_apply]
        split
        · rename_i hclass
          simp [Checking.pure_apply, hnot, (hlocal _).1 hclass, eq_comm]
        · rename_i hclass
          rw [hlocal] at hclass
          simp [Checking.pure_apply, hnot, hclass]
      · rename_i hoption
        have hnone : ¬ c.Proves operand scope .localAssignment := fun h =>
          hoption ((hlocal []).2 h).1
        simp [Checking.pure_apply, hnot, hnone]

/-- The finding at a null operator, with the operator's parent at the head of `above`. -/
def report (c : Checker) (n operand mark : Placed) (above : List Placed) (operator : NullOperator)
    (reason : Reason) : Finding where
  ruleId := c.rule.id
  operator := operator
  node := n.id
  operand := operand.id
  span := reportedSpan operator n above[0]?
  operatorSpan := mark.span
  reason := reason

/-- What the run finds at a node inside a statement list. -/
theorem judge_eq_some_iff (hsignal : c.signal = .never)
    (hpath : ∀ e ∈ n.children, (c.path e.id).head? = some e)
    (hscope : Path.scope? (n :: above) = some scope) :
    (c.judge (n :: above) history).1 = some f ↔
      ∃ operand mark operator reason, IsOperation n operand mark operator ∧
        c.ProvesFirst operand scope reason ∧
        f = c.report n operand mark above operator reason := by
  unfold judge
  rw [List.head?_cons, Option.bind_some]
  cases hop : operation? n with
  | none =>
    have hnot (operand mark operator) : ¬ IsOperation n operand mark operator := by
      rw [← operation?_eq_some_iff, hop]
      simp
    simp [Checking.pure_apply, hnot]
  | some op =>
    have hunique {operand mark operator} (h : IsOperation n operand mark operator) :
        op = ⟨operator, operand, mark⟩ :=
      Option.some.inj (hop.symm.trans (operation?_eq_some_iff.2 h))
    have hoperand : (c.path op.operand.id).head? = some op.operand :=
      hpath _ (by simp [(operation?_eq_some hop).2.1])
    have hreason {reason : Reason} {history : History} :
        (c.reason? op.operand.id (some scope.id) (c.host.typeOf op.operand.id) history).1 =
          some reason ↔ c.ProvesFirst op.operand scope reason :=
      reason?_eq_some_iff hsignal hoperand
    simp only [Option.map_some, Checking.bind_apply, hscope, Checking.pure_apply,
      Option.map_eq_some_iff]
    constructor
    · rintro ⟨reason, hr, rfl⟩
      exact ⟨op.operand, op.token, op.operator, reason, operation?_eq_some_iff.1 hop, hreason.1 hr,
        rfl⟩
    · rintro ⟨operand, mark, operator, reason, hoperation, hfirst, rfl⟩
      obtain rfl := hunique hoperation
      exact ⟨reason, hreason.2 hfirst, rfl⟩

/-- The finding that a run makes at a node of the tree. -/
def Finds (c : Checker) (root n : Placed) (f : Finding) : Prop :=
  ∃ above scope operand mark operator reason, Node.Descends root [] (n :: above) ∧
    Path.scope? (n :: above) = some scope ∧ IsOperation n operand mark operator ∧
    c.ProvesFirst operand scope reason ∧ f = c.report n operand mark above operator reason

end Checker

/-! ## Places of marks -/

namespace IsOperation

variable {n operand mark : Placed} {operator : NullOperator}

theorem operation? (h : IsOperation n operand mark operator) :
    Checker.operation? n = some ⟨operator, operand, mark⟩ := Checker.operation?_eq_some_iff.2 h

theorem children_eq (h : IsOperation n operand mark operator) : n.children = [operand, mark] := by
  cases h with
  | conditionalAccess _ parts => exact parts
  | nullAssertion _ parts => exact parts

theorem isOperatorKind (h : IsOperation n operand mark operator) :
    Checker.isOperatorKind n.kind = true := (Checker.operation?_eq_some h.operation?).1

end IsOperation

namespace Node

variable {root n c m m' : Placed}

/-- A node that is not the root has one parent. -/
theorem Numbered.parent_eq (h : root.Numbered) (hm : m ∈ root.preorder) (hn : n ∈ root.preorder)
    (hc : c ∈ m.children) (hc' : c ∈ n.children) : m = n := by
  obtain ⟨above, hpath⟩ := exists_descends hm []
  obtain ⟨above', hpath'⟩ := exists_descends hn []
  have hfound := path?_of_descends h (hpath.step hc)
  rw [path?_of_descends h (hpath'.step hc')] at hfound
  simp only [Option.some.injEq, List.cons.injEq, true_and] at hfound
  exact hfound.1.symm

/-- Two tokens that are not empty do not begin at the same place. -/
theorem LaidOut.token_eq {t t' : Token} (h : root.LaidOut) (hm : m ∈ root.preorder)
    (hm' : m' ∈ root.preorder) (ht : m.token? = some t) (ht' : m'.token? = some t')
    (hne : m.span.start < m.span.stop) (hne' : m'.span.start < m'.span.stop)
    (hstart : m.span.start = m'.span.start) : m = m' := by
  obtain ⟨hlo, -, hhi⟩ := (h.of_mem hm).within_span
  obtain ⟨hlo', -, hhi'⟩ := (h.of_mem hm').within_span
  rcases h.nested_or_apart hm hm' with hin | hin | hapart
  · cases m' with
    | token => simpa using hin
    | branch => cases ht'
  · cases m with
    | token => exact (List.mem_singleton.1 hin).symm
    | branch => cases ht
  · omega

end Node

namespace IsOperation

variable {root n n' operand operand' mark mark' : Placed} {operator operator' : NullOperator}

/-- The mark is a token that takes up some bytes. -/
theorem mark_token (h : IsOperation n operand mark operator) (hwf : n.WellFormed)
    (hlaid : n.LaidOut) :
    (∃ t, mark.token? = some t) ∧ mark.span.start < mark.span.stop := by
  obtain ⟨a, k, b, t, heq, -, htext, -⟩ := Node.eq_branch_of_operation hwf h.operation?
  obtain rfl : mark = .token b t := by
    have hchildren := h.children_eq
    rw [heq] at hchildren
    simpa using hchildren.symm
  have hpos : t.text.utf8ByteSize ≠ 0 := by simpa using htext
  refine ⟨⟨t, rfl⟩, ?_⟩
  have hmem : Node.token b t ∈ n.preorder :=
    Node.mem_preorder_of_mem_children (by simp [h.children_eq])
  cases hlaid.of_mem hmem with
  | token =>
    simp only [Node.span, Node.tag, Node.tokenPlace]
    omega

/-- The marks of two null operators do not begin at the same place. -/
theorem eq_of_mark_start (hwf : root.WellFormed) (hlaid : root.LaidOut) (hnum : root.Numbered)
    (hn : n ∈ root.preorder) (hn' : n' ∈ root.preorder) (h : IsOperation n operand mark operator)
    (h' : IsOperation n' operand' mark' operator') (hstart : mark.span.start = mark'.span.start) :
    n = n' := by
  have hc : mark ∈ n.children := by simp [h.children_eq]
  have hc' : mark' ∈ n'.children := by simp [h'.children_eq]
  obtain ⟨⟨t, ht⟩, hne⟩ := h.mark_token (hwf.of_mem hn) (hlaid.of_mem hn)
  obtain ⟨⟨t', ht'⟩, hne'⟩ := h'.mark_token (hwf.of_mem hn') (hlaid.of_mem hn')
  have hmem := Node.mem_preorder_trans (Node.mem_preorder_of_mem_children hc) hn
  have hmem' := Node.mem_preorder_trans (Node.mem_preorder_of_mem_children hc') hn'
  obtain rfl := hlaid.token_eq hmem hmem' ht ht' hne hne' hstart
  exact hnum.parent_eq hn hn' hc hc'

/-- The mark lies in the span reported for it. -/
theorem covers_reportedSpan {above : List Placed} (h : IsOperation n operand mark operator)
    (hwf : root.WellFormed) (hlaid : root.LaidOut)
    (hpath : Node.Descends root [] (n :: above)) :
    (Checker.reportedSpan operator n above[0]?).covers mark.span = true := by
  have hn : n ∈ root.preorder := hpath.head_mem n (by simp)
  obtain ⟨-, hne⟩ := h.mark_token (hwf.of_mem hn) (hlaid.of_mem hn)
  have hown : n.span.covers mark.span = true :=
    (hlaid.of_mem hn).covers_child (by simp [h.children_eq]) hne
  unfold Checker.reportedSpan
  split
  · rename_i p hp
    split
    · -- The parent covers the operator, and with it the mark.
      obtain ⟨above', rfl⟩ : ∃ above', above = p :: above' := by
        cases above with
        | nil => simp at hp
        | cons q above' => exact ⟨above', by simpa using hp⟩
      obtain ⟨hchild, hparent, -⟩ := hpath.step_of_infix (c := n) (p := p) ⟨[], above', rfl⟩
      simp only [Span.covers, Bool.and_eq_true, decide_eq_true_eq] at hown ⊢
      have houter := (hlaid.of_mem hparent).covers_child hchild (by omega)
      simp only [Span.covers, Bool.and_eq_true, decide_eq_true_eq] at houter
      omega
    · exact hown
  · exact hown

end IsOperation

/-! ## A whole run -/

/-- Findings whose marks begin at different places are sorted strictly. -/
theorem pairwise_mergeSort_findings {fs : List Finding}
    (h : fs.Pairwise fun f g => f.operatorSpan.start ≠ g.operatorSpan.start) :
    (fs.mergeSort fun f g => f.operatorSpan.start ≤ g.operatorSpan.start).Pairwise
      fun f g => f.operatorSpan.start < g.operatorSpan.start := by
  have hsorted : (fs.mergeSort fun f g => f.operatorSpan.start ≤ g.operatorSpan.start).Pairwise
      fun f g => decide (f.operatorSpan.start ≤ g.operatorSpan.start) = true :=
    List.pairwise_mergeSort (fun _ _ _ => by simp only [decide_eq_true_eq]; omega)
      (fun _ _ => by simp only [Bool.or_eq_true, decide_eq_true_eq]; omega) fs
  have hne : (fs.mergeSort fun f g => f.operatorSpan.start ≤ g.operatorSpan.start).Pairwise
      fun f g => f.operatorSpan.start ≠ g.operatorSpan.start :=
    (List.mergeSort_perm fs _).symm.pairwise h fun hne => hne.symm
  exact (hsorted.and hne).imp fun ⟨hle, hne⟩ => Nat.lt_of_le_of_ne (by simpa using hle) hne

namespace Checker

variable {c : Checker} {root n : Placed} {history : History} {f : Finding}

theorem Finds.node_eq (h : c.Finds root n f) : f.node = n.id := by
  obtain ⟨_, _, _, _, _, _, -, -, -, -, rfl⟩ := h
  rfl

theorem Finds.isOperatorKind (h : c.Finds root n f) : isOperatorKind n.kind = true := by
  obtain ⟨_, _, _, _, _, _, -, -, hop, -⟩ := h
  exact hop.isOperatorKind

/-- A parsed tree with the facts about it that a run depends on. -/
structure OnTree (c : Checker) (root : Placed) : Prop where
  root_eq : c.root = some root
  kind : root.kind = .compilationUnit
  wellFormed : root.WellFormed
  laidOut : root.LaidOut
  numbered : root.Numbered
  enabled : c.rule.enabled = true
  never : c.signal = .never

namespace OnTree

variable (h : c.OnTree root)
include h

theorem path_eq {above : List Placed} (hpath : Node.Descends root [] (n :: above)) :
    c.path n.id = n :: above := by
  rw [path, h.root_eq, Option.bind_some, Node.path?_of_descends h.numbered hpath, Option.getD_some]

theorem head?_path (hn : n ∈ root.preorder) : (c.path n.id).head? = some n := by
  obtain ⟨above, hpath⟩ := Node.exists_descends hn []
  rw [h.path_eq hpath, List.head?_cons]

/-- Every node but the root stands in a statement list, the file if there is no other. -/
theorem exists_scope {above : List Placed} (hpath : Node.Descends root [] (n :: above))
    (hne : n.kind ≠ .compilationUnit) : ∃ scope, Path.scope? (n :: above) = some scope := by
  rw [← Option.isSome_iff_exists, Path.scope?, List.tail_cons, List.find?_isSome]
  have hroot : root ∈ n :: above := hpath.suffix.subset List.mem_cons_self
  rcases List.mem_cons.1 hroot with rfl | hroot
  · exact absurd h.kind hne
  · exact ⟨root, hroot, by simp [h.kind]⟩

/-- A node is judged in the same way whenever the run comes to it. -/
theorem analyze_eq_some_iff (hn : n ∈ root.preorder) (hkind : isOperatorKind n.kind = true) :
    (c.analyze n.id history).1 = some f ↔ c.Finds root n f := by
  obtain ⟨above, hpath⟩ := Node.exists_descends hn []
  obtain ⟨scope, hscope⟩ := h.exists_scope hpath (by rintro hk; simp [hk, isOperatorKind] at hkind)
  have hrun : (c.analyze n.id history).1 = (c.judge (n :: above) (.polled :: history)).1 := by
    simp [analyze, h.enabled, h.never, Checking.bind_apply, Checking.poll_never, h.path_eq hpath]
  have hchildren : ∀ e ∈ n.children, (c.path e.id).head? = some e := fun e he =>
    h.head?_path (Node.mem_preorder_trans (Node.mem_preorder_of_mem_children he) hn)
  rw [hrun, judge_eq_some_iff h.never hchildren hscope]
  constructor
  · rintro ⟨operand, mark, operator, reason, hop, hfirst, rfl⟩
    exact ⟨above, scope, operand, mark, operator, reason, hpath, hscope, hop, hfirst, rfl⟩
  · rintro ⟨above', scope', operand, mark, operator, reason, hpath', hscope', hop, hfirst, rfl⟩
    obtain rfl : above = above' := by simpa using (h.path_eq hpath).symm.trans (h.path_eq hpath')
    obtain rfl : scope = scope' := Option.some.inj (hscope.symm.trans hscope')
    exact ⟨operand, mark, operator, reason, hop, hfirst, rfl⟩

/-- The run looks at the operators one by one, and what it finds at one does not depend on what it
did before. -/
theorem visit_eq_filterMap {ns : List Placed}
    (hns : ∀ n ∈ ns, n ∈ root.preorder ∧ isOperatorKind n.kind = true) :
    (c.visit (ns.map Node.id) history).1 = ns.filterMap fun n => (c.analyze n.id []).1 := by
  induction ns generalizing history with
  | nil => rfl
  | cons n ns ih =>
    obtain ⟨hn, hkind⟩ := hns n (by simp)
    have hrest (history : History) : (c.visit (ns.map Node.id) history).1 =
        ns.filterMap fun n => (c.analyze n.id []).1 := ih fun m hm => hns m (by simp [hm])
    have hsame (history : History) : (c.analyze n.id history).1 = (c.analyze n.id []).1 :=
      Option.ext fun f => by
        simp only [h.analyze_eq_some_iff hn hkind]
    simp only [List.map_cons, visit, Checking.bind_apply]
    rw [if_neg (by simp [h.never, Checking.poll_never])]
    simp only [Checking.bind_apply, Checking.pure_apply, hrest, hsame, List.filterMap_cons]
    cases (c.analyze n.id []).1 <;> rfl

/-- The findings of a run are those at the operators of the tree, sorted by their marks. -/
theorem checkTree_eq_mergeSort : c.checkTree.result =
    ((root.preorder.filter fun n => isOperatorKind n.kind).filterMap fun n =>
      (c.analyze n.id []).1).mergeSort fun f g => f.operatorSpan.start ≤ g.operatorSpan.start := by
  have hvisit : (c.visit ((root.preorder.filter fun n => isOperatorKind n.kind).map Node.id) []).1 =
      (root.preorder.filter fun n => isOperatorKind n.kind).filterMap fun n =>
        (c.analyze n.id []).1 := h.visit_eq_filterMap fun n hn => by simpa using hn
  have hnodes : c.operatorNodes =
      (root.preorder.filter fun n => isOperatorKind n.kind).map Node.id := by
    simp [operatorNodes, h.root_eq]
  rw [← hvisit, ← hnodes]
  simp only [Checking.result, checkTree, h.enabled, if_true]
  rfl

theorem mem_checkTree_iff : f ∈ c.checkTree.result ↔ ∃ n ∈ root.preorder, c.Finds root n f := by
  rw [h.checkTree_eq_mergeSort, List.mem_mergeSort, List.mem_filterMap]
  constructor
  · rintro ⟨n, hn, hf⟩
    obtain ⟨hn, hkind⟩ := List.mem_filter.1 hn
    exact ⟨n, hn, (h.analyze_eq_some_iff hn hkind).1 hf⟩
  · rintro ⟨n, hn, hf⟩
    have hkind := hf.isOperatorKind
    exact ⟨n, List.mem_filter.2 ⟨hn, hkind⟩, (h.analyze_eq_some_iff hn hkind).2 hf⟩

/-- There is at most one finding at a node. -/
theorem finds_unique {g : Finding} (hn : n ∈ root.preorder) (hf : c.Finds root n f)
    (hg : c.Finds root n g) : f = g := by
  have hfound {f : Finding} (hf : c.Finds root n f) : (c.analyze n.id []).1 = some f :=
    (h.analyze_eq_some_iff hn hf.isOperatorKind).2 hf
  exact Option.some.inj ((hfound hf).symm.trans (hfound hg))

/-- Findings at different nodes have marks that begin at different places. -/
theorem start_ne_of_finds {n' : Placed} {g : Finding} (hn : n ∈ root.preorder)
    (hn' : n' ∈ root.preorder) (hne : n ≠ n') (hf : c.Finds root n f) (hg : c.Finds root n' g) :
    f.operatorSpan.start ≠ g.operatorSpan.start := by
  obtain ⟨_, _, _, _, _, _, -, -, hop, -, rfl⟩ := hf
  obtain ⟨_, _, _, _, _, _, -, -, hop', -, rfl⟩ := hg
  intro hstart
  exact hne (hop.eq_of_mark_start h.wellFormed h.laidOut h.numbered hn hn' hop' hstart)

/-- The marks of the findings stand one behind the other. -/
theorem pairwise_checkTree : c.checkTree.result.Pairwise fun f g =>
    f.operatorSpan.start < g.operatorSpan.start := by
  have hnodup : (root.preorder.filter fun n => isOperatorKind n.kind).Nodup :=
    (List.Nodup.of_map Node.id h.numbered).filter _
  have hdistinct : ((root.preorder.filter fun n => isOperatorKind n.kind).filterMap fun n =>
      (c.analyze n.id []).1).Pairwise fun f g =>
        f.operatorSpan.start ≠ g.operatorSpan.start := by
    rw [List.pairwise_filterMap]
    refine hnodup.imp_of_mem fun {n n'} hn hn' hne f hf g hg => ?_
    obtain ⟨hn, hkind⟩ := List.mem_filter.1 hn
    obtain ⟨hn', hkind'⟩ := List.mem_filter.1 hn'
    exact h.start_ne_of_finds hn hn' hne ((h.analyze_eq_some_iff hn hkind).1 hf)
      ((h.analyze_eq_some_iff hn' hkind').1 hg)
  rw [h.checkTree_eq_mergeSort]
  exact pairwise_mergeSort_findings hdistinct

theorem nodup_checkTree : (c.checkTree.result.map Finding.node).Nodup := by
  refine List.pairwise_map.2 (h.pairwise_checkTree.imp_of_mem fun {f g} hf hg hlt heq => ?_)
  obtain ⟨n, hn, hfinds⟩ := h.mem_checkTree_iff.1 hf
  obtain ⟨n', hn', hfinds'⟩ := h.mem_checkTree_iff.1 hg
  obtain rfl := h.numbered.eq_of_id_eq hn hn'
    (hfinds.node_eq.symm.trans (heq.trans hfinds'.node_eq))
  obtain rfl := h.finds_unique hn hfinds hfinds'
  exact Nat.lt_irrefl _ hlt

end OnTree

theorem onTree_of_parse {file text : String} (hroot : (parse file text).tree.placed = some root)
    (hc : c.root = some root) (henabled : c.rule.enabled = true) (hnever : c.signal = .never) :
    c.OnTree root := by
  obtain ⟨g, hg, rfl⟩ := Option.map_eq_some_iff.1 hroot
  obtain rfl : _ = g := Option.some.inj ((root_parse file text).symm.trans hg)
  have hwf := Tree.wellFormed_compilationUnit text
  refine ⟨hc, ?_, (Node.wellFormed_placed _).2 hwf, (Node.laidOut_placed hwf).1,
    Node.numbered_placed _, henabled, hnever⟩
  obtain ⟨items, l, s, hparts, -⟩ := parse_parts file text
  rw [root_parse, Option.some.injEq] at hparts
  rw [hparts]
  rfl

end Checker

/-- What a check gives out is what a run finds where the code parses. -/
theorem Tree.mem_check_iff (t : Tree) (options : AnalysisOptions)
    (henabled : options.rule.enabled = true) {f : Finding} : f ∈ t.check options ↔
      f ∈ t.rawFindings options .never ∧ t.isSoundAt f.node = true := by
  simp [check, henabled, Signal.never]

/-- A run over a parsed tree reports a null operator, once, just if the answers of the host prove
its operand not null, and gives the first reason that holds. The findings stand in the strict order
of their marks, and each mark lies in the span reported. -/
theorem checkTree_reports {file text : String} {root : Placed} {c : Checker}
    (hroot : (parse file text).tree.placed = some root) (hc : c.root = some root)
    (henabled : c.rule.enabled = true) (hnever : c.signal = .never) :
    (c.checkTree.result.Pairwise fun f g => f.operatorSpan.start < g.operatorSpan.start) ∧
      (c.checkTree.result.map Finding.node).Nodup ∧
      (∀ n ∈ root.preorder, (∃ f ∈ c.checkTree.result, f.node = n.id) ↔
        ∃ operator operand mark scope reason, IsOperation n operand mark operator ∧
          IsScopeOf root n scope ∧ c.Proves operand scope reason) ∧
      ∀ f ∈ c.checkTree.result, ∃ n ∈ root.preorder, ∃ operand mark scope, f.node = n.id ∧
        f.operand = operand.id ∧ f.operatorSpan = mark.span ∧
        IsOperation n operand mark f.operator ∧ IsScopeOf root n scope ∧
        c.ProvesFirst operand scope f.reason ∧ f.span.covers f.operatorSpan = true := by
  have h := Checker.onTree_of_parse hroot hc henabled hnever
  refine ⟨h.pairwise_checkTree, h.nodup_checkTree, fun n hn => ⟨?_, ?_⟩, fun f hf => ?_⟩
  · rintro ⟨f, hf, hnode⟩
    obtain ⟨n', hn', hfinds⟩ := h.mem_checkTree_iff.1 hf
    obtain rfl := h.numbered.eq_of_id_eq hn hn' (hnode.symm.trans hfinds.node_eq)
    obtain ⟨above, scope, operand, mark, operator, reason, hpath, hscope, hop, hfirst, -⟩ := hfinds
    exact ⟨operator, operand, mark, scope, reason, hop, ⟨above, hpath, hscope⟩, hfirst.1⟩
  · rintro ⟨operator, operand, mark, scope, reason, hop, ⟨above, hpath, hscope⟩, hproves⟩
    obtain ⟨first, hfirst⟩ := hproves.exists_first
    have hfinds : c.Finds root n (c.report n operand mark above operator first) :=
      ⟨above, scope, operand, mark, operator, first, hpath, hscope, hop, hfirst, rfl⟩
    exact ⟨_, h.mem_checkTree_iff.2 ⟨n, hn, hfinds⟩, rfl⟩
  · obtain ⟨n, hn, hfinds⟩ := h.mem_checkTree_iff.1 hf
    obtain ⟨above, scope, operand, mark, operator, reason, hpath, hscope, hop, hfirst, rfl⟩ := hfinds
    exact ⟨n, hn, operand, mark, scope, rfl, rfl, rfl, hop, ⟨above, hpath, hscope⟩, hfirst,
      hop.covers_reportedSpan h.wellFormed h.laidOut hpath⟩

/-- In the unfinished `a!.b!.c(`, with a host that knows `a` to be assigned in the file, the first
mark is reported for that reason. -/
theorem checkTree_reports_bare_name :
    let t := (parse "" "a!.b!.c(").tree
    let host : Host := ⟨fun _ => some (.reference .annotated), fun _ => some 0,
      fun _ _ => .maybeNull, fun _ => some ⟨[0], []⟩⟩
    let c : Checker := { root := t.placed, host := host, localDataflow := true }
    ∃ f ∈ c.checkTree.result, f.node = 6 ∧ f.reason = .localAssignment ∧
      f.span.covers f.operatorSpan = true := by
  intro t host c
  let n (k : Nat) : Placed := (t.node? k).getD default
  have hroot : t.placed = some (n 0) := by decide +kernel
  obtain ⟨-, -, hiff, hall⟩ := checkTree_reports hroot (c := c) hroot rfl rfl
  have hmem : n 6 ∈ (n 0).preorder := by decide +kernel
  have hop : IsOperation (n 6) (n 7) (n 9) .nullAssertion :=
    .nullAssertion (by decide +kernel) (by decide +kernel) (by decide +kernel) (by decide +kernel)
  have hscope : IsScopeOf (n 0) (n 6) (n 0) := by
    obtain ⟨above, hpath⟩ := Node.exists_descends hmem []
    have hnumbered : (n 0).Numbered := by
      unfold Node.Numbered
      decide +kernel
    have hread : ((n 0).path? (n 6).id).bind Path.scope? = some (n 0) := by decide +kernel
    rw [Node.path?_of_descends hnumbered hpath] at hread
    exact ⟨above, hpath, hread⟩
  have hbare : (n 7).expression? = some (.identifier "a") := by
    have hname : (n 7).identifier? = some "a" := by decide +kernel
    have hkind : (n 7).kind = .identifierName := by decide +kernel
    simp [Node.expression?, hkind, hname]
  have hproves : c.Proves (n 7) (n 0) .localAssignment :=
    .localAssignment rfl rfl hbare rfl rfl (List.mem_singleton_self 0) (List.not_mem_nil)
  obtain ⟨f, hf, hnode⟩ := (hiff (n 6) hmem).2 ⟨_, _, _, _, _, hop, hscope, hproves⟩
  obtain ⟨-, -, operand, -, scope, -, -, -, -, -, hfirst, hcovers⟩ := hall f hf
  refine ⟨f, hf, hnode.trans (by decide +kernel), ?_, hcovers⟩
  cases hreason : f.reason with
  | valueType => exact absurd (hreason ▸ hfirst.1) (by rintro ⟨type⟩; cases type)
  | flow => exact absurd (hreason ▸ hfirst.1) (by rintro (_ | ⟨-, state⟩); cases state)
  | localAssignment => rfl

end NullLint
