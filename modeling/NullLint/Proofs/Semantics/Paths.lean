import NullLint.Proofs.Semantics.Execution
import NullLint.Proofs.CleanParsing

/-!
# Paths

The ways through a node, whatever values are met: operands run from left to right, the parts of a
target before the value assigned to it, and the right operand of `&&`, `||` and `??` runs or not.
Either branch of an `if` can be taken, and a loop goes any number of rounds. Each `?.` and `?[` can
meet null, and then the rest of its access chain is passed over, arguments included; parentheses
close a chain. A path is known by the variables read and assigned on it.

Where the tree has errors there need be no path. In a tree without errors there is one through
every expression and every statement.
-/

open Computability

namespace NullLint

/-- What a path does with variables. -/
inductive Access where
  | read (x : Nat)
  | assign (x : Nat)
  /-- A `?.` or `?[` met null, and these arguments behind it are passed over. -/
  | skip (arguments : Placed)

/-- How a path through a node ends. -/
inductive Ending where
  /-- The node is through. -/
  | through
  /-- The rest of the access chain is passed over. -/
  | cut
  /-- A `return` or `throw` was met. -/
  | left
  deriving DecidableEq

mutual

/-- There is such a path through the node. -/
inductive Takes (m : Model) : Placed → List Access → Ending → Prop where
  | read {n : Placed} {x : Nat} (h : n.kind = .identifierName) (hx : m.symbolAt n.id = some x) :
      Takes m n [.read x] .through
  | unbound {n : Placed} (h : n.kind = .identifierName) (hx : m.symbolAt n.id = none) :
      Takes m n [] .through
  | constant {n : Placed} (h : n.kind = .literalExpression ∨ n.kind = .thisExpression) :
      Takes m n [] .through
  | parenthesized {n e : Placed} {p : List Access} (h : n.kind = .parenthesizedExpression)
      (he : n.inner? = some e) (inside : TakesAll m [e] p .through) : Takes m n p .through
  | member {n : Placed} {v : Node.MemberAccess Place} {p : List Access} {ending : Ending}
      (h : n.kind = .memberAccessExpression) (hv : n.memberAccess? = some v)
      (chain : Takes m v.expression p ending) : Takes m n p ending
  | access {n e : Placed} {rest : List Placed} {p : List Access} {ending : Ending}
      (h : n.kind = .conditionalAccessExpression) (parts : n.children = e :: rest)
      (chain : Takes m e p ending) : Takes m n p ending
  | accessNull {n e : Placed} {rest : List Placed} {p : List Access}
      (h : n.kind = .conditionalAccessExpression) (parts : n.children = e :: rest)
      (chain : Takes m e p .through) : Takes m n p .cut
  | assertion {n e : Placed} {rest : List Placed} {p : List Access} {ending : Ending}
      (h : n.kind = .suppressNullableWarningExpression) (parts : n.children = e :: rest)
      (chain : Takes m e p ending) : Takes m n p ending
  | call {n e list : Placed} {rest : List Placed} {p q : List Access}
      (h : n.kind = .invocationExpression ∨ n.kind = .elementAccessExpression)
      (parts : n.children = e :: list :: rest) (chain : Takes m e p .through)
      (arguments : TakesAll m list.arguments q .through) : Takes m n (p ++ q) .through
  | skippedCall {n e list : Placed} {rest : List Placed} {p : List Access}
      (h : n.kind = .invocationExpression ∨ n.kind = .elementAccessExpression)
      (parts : n.children = e :: list :: rest) (chain : Takes m e p .cut) :
      Takes m n (p ++ [.skip list]) .cut
  | creation {n list : Placed} {p : List Access} (h : n.kind = .objectCreationExpression)
      (hl : n.childOfKind? .argumentList = some list)
      (arguments : TakesAll m list.arguments p .through) : Takes m n p .through
  /-- `x++` and the like give the variable a new value. -/
  | step {n : Placed} {u : Node.Unary Place} {x : Nat} {p : List Access}
      (h : n.kind = .prefixUnaryExpression ∨ n.kind = .postfixUnaryExpression)
      (hu : n.unary? = some u) (hop : u.operator.kind.isStep = true)
      (hx : m.refersTo x u.operand = true)
      (operand : TakesAll m [u.operand] p .through) : Takes m n (p ++ [.assign x]) .through
  | operand {n : Placed} {u : Node.Unary Place} {p : List Access}
      (h : n.kind = .prefixUnaryExpression ∨ n.kind = .postfixUnaryExpression)
      (hu : n.unary? = some u)
      (hx : u.operator.kind.isStep = true → ∀ x, m.refersTo x u.operand = false)
      (operand : TakesAll m [u.operand] p .through) : Takes m n p .through
  | binary {n : Placed} {b : Node.Binary Place} {p : List Access} (h : n.kind = .binaryExpression)
      (hb : n.binary? = some b) (operands : TakesAll m [b.left, b.right] p .through) :
      Takes m n p .through
  | shortCircuit {n : Placed} {b : Node.Binary Place} {p : List Access}
      (h : n.kind = .binaryExpression) (hb : n.binary? = some b)
      (hop : b.operator.kind = .ampersandAmpersand ∨ b.operator.kind = .barBar ∨
        b.operator.kind = .questionQuestion)
      (left : TakesAll m [b.left] p .through) : Takes m n p .through
  | assign {n : Placed} {b : Node.Binary Place} {x : Nat} {p : List Access}
      (h : n.kind = .assignmentExpression) (hb : n.binary? = some b)
      (hx : m.refersTo x b.left = true) (value : TakesAll m [b.right] p .through) :
      Takes m n (p ++ [.assign x]) .through
  | assignTarget {n : Placed} {b : Node.Binary Place} {p : List Access}
      (h : n.kind = .assignmentExpression) (hb : n.binary? = some b)
      (hx : ∀ x, m.refersTo x b.left = false)
      (parts : TakesAll m [b.left, b.right] p .through) : Takes m n p .through
  | list {n : Placed} {p : List Access} {ending : Ending}
      (h : n.kind = .block ∨ n.kind = .compilationUnit)
      (statements : TakesAll m n.statements p ending) : Takes m n p ending
  | declaration {n : Placed} {v : Node.VariableDeclaration Place} {p : List Access}
      (h : n.kind = .localDeclarationStatement) (hv : n.variableDeclaration? = some v)
      (declarators : TakesAll m v.declarators p .through) : Takes m n p .through
  | initialized {n e : Placed} {p : List Access} (h : n.kind = .variableDeclarator)
      (he : n.initializer? = some e) (value : TakesAll m [e] p .through) :
      Takes m n (p ++ (m.symbolAt n.id).toList.map .assign) .through
  | uninitialized {n : Placed} (h : n.kind = .variableDeclarator) (he : n.initializer? = none) :
      Takes m n [] .through
  | effect {n : Placed} {p : List Access} (h : n.kind = .expressionStatement)
      (value : TakesAll m n.value?.toList p .through) : Takes m n p .through
  | exit {n : Placed} {p : List Access} (h : n.kind = .returnStatement ∨ n.kind = .throwStatement)
      (value : TakesAll m n.value?.toList p .through) : Takes m n p .left
  | empty {n : Placed} (h : n.kind = .emptyStatement) : Takes m n [] .through
  | thenBranch {n : Placed} {v : Node.IfView Place} {p : List Access} {ending : Ending}
      (h : n.kind = .ifStatement) (hv : n.ifStatement? = some v)
      (parts : TakesAll m [v.condition, v.thenBranch] p ending) : Takes m n p ending
  | elseBranch {n : Placed} {v : Node.IfView Place} {p : List Access} {ending : Ending}
      (h : n.kind = .ifStatement) (hv : n.ifStatement? = some v)
      (parts : TakesAll m (v.condition :: v.elseBranch.toList) p ending) : Takes m n p ending
  /-- Condition and body take turns, the condition comes last. -/
  | loop {n : Placed} {v : Node.WhileView Place} {p : List Access} {ending : Ending}
      (h : n.kind = .whileStatement) (hv : n.whileStatement? = some v) (rounds : Nat)
      (turns : TakesAll m
        ((List.replicate rounds [v.condition, v.body]).flatten ++ [v.condition]) p ending) :
      Takes m n p ending

/-- There is such a path through the nodes, one after the other. A chain that was cut ends where
its node ends. -/
inductive TakesAll (m : Model) : List Placed → List Access → Ending → Prop where
  | nil : TakesAll m [] [] .through
  | cons {n : Placed} {ns : List Placed} {p q : List Access} {ending last : Ending}
      (first : Takes m n p ending) (goesOn : ending ≠ .left) (rest : TakesAll m ns q last) :
      TakesAll m (n :: ns) (p ++ q) last
  | left {n : Placed} {ns : List Placed} {p : List Access} (first : Takes m n p .left) :
      TakesAll m (n :: ns) p .left

end

/-- What was cut goes on behind the node. -/
theorem TakesAll.ne_cut {m : Model} {ns : List Placed} {p : List Access} {ending : Ending}
    (h : TakesAll m ns p ending) : ending ≠ .cut := by
  induction ns generalizing p with
  | nil =>
    cases h
    decide
  | cons n ns ih =>
    cases h with
    | cons first goesOn rest => exact ih rest
    | left first => decide

theorem Node.not_isExpression_of_isStatement {α : Type} {n : Node α}
    (h : n.kind.isStatement = true ∨ n.kind = .compilationUnit) : n.isExpression = false := by
  revert h
  unfold isExpression
  cases n.kind <;> decide

/-- Only expressions are cut. -/
theorem Takes.ending_eq {m : Model} {n : Placed} {p : List Access} {ending : Ending}
    (h : Takes m n p ending) (hn : n.kind.isStatement = true ∨ n.kind = .compilationUnit)
    (hleft : ending ≠ .left) : ending = .through := by
  have hn := Node.not_isExpression_of_isStatement hn
  suffices hcut : ending ≠ .cut by
    cases ending with
    | through => rfl
    | cut => exact absurd rfl hcut
    | left => exact absurd rfl hleft
  cases h with
  | member hk | access hk | accessNull hk | assertion hk =>
    simp [Node.isExpression, hk, Kind.isExpression] at hn
  | skippedCall hk =>
    rcases hk with hk | hk <;> simp [Node.isExpression, hk, Kind.isExpression] at hn
  | list _ parts | thenBranch _ _ parts | elseBranch _ _ parts | loop _ _ _ parts =>
    exact parts.ne_cut
  | _ => decide

/-- An expression and then a statement. -/
theorem TakesAll.of_pair {m : Model} {e s : Placed} {p : List Access}
    (h : TakesAll m [e, s] p .through) (hs : s.kind.isStatement = true) :
    ∃ q r ending, p = q ++ r ∧ Takes m e q ending ∧ Takes m s r .through := by
  cases h with
  | cons first _ rest =>
    cases rest with
    | cons second goesOn rest =>
      cases rest
      obtain rfl := second.ending_eq (.inl hs) goesOn
      exact ⟨_, _, _, by rw [List.append_nil], first, second⟩

/-! ## Parts that run -/

theorem Kind.isExpression_cases {k : Kind} (h : k.isExpression = true) :
    k = .identifierName ∨ (k = .literalExpression ∨ k = .thisExpression) ∨
      k = .parenthesizedExpression ∨ k = .memberAccessExpression ∨
      k = .conditionalAccessExpression ∨ k = .suppressNullableWarningExpression ∨
      (k = .invocationExpression ∨ k = .elementAccessExpression) ∨
      k = .objectCreationExpression ∨ (k = .prefixUnaryExpression ∨ k = .postfixUnaryExpression) ∨
      k = .binaryExpression ∨ k = .assignmentExpression := by
  revert h
  cases k <;> decide

theorem Kind.isStatement_cases {k : Kind} (h : k.isStatement = true) :
    k = .block ∨ k = .localDeclarationStatement ∨ k = .expressionStatement ∨ k = .ifStatement ∨
      k = .whileStatement ∨ (k = .returnStatement ∨ k = .throwStatement) ∨
      k = .emptyStatement := by
  revert h
  cases k <;> decide

/-- Neither tokens nor types. -/
def Kind.runs (k : Kind) : Bool := !(k.isToken || k.isType)

theorem Kind.runs_of_isExpression {k : Kind} (h : k.isExpression = true) : k.runs = true := by
  revert h
  cases k <;> decide

theorem Kind.runs_of_isArguments {k : Kind} (h : k.isArguments = true) : k.runs = true := by
  revert h
  cases k <;> decide

theorem Kind.not_runs_of_isType {k : Kind} (h : k.isType = true) : k.runs = false := by
  simp [runs, h]

namespace Node

open Grammar

variable {α : Type} {n e list : Node α}

/-- The children that run. -/
def parts (n : Node α) : List (Node α) := n.children.filter fun c => c.kind.runs

theorem mem_parts {c : Node α} : c ∈ n.parts ↔ c ∈ n.children ∧ c.kind.runs = true :=
  List.mem_filter

namespace Readable

variable (h : n.Readable)
include h

theorem parts_of_inner? (he : n.inner? = some e) : n.parts = [e] := by
  obtain ⟨hk, hexpr, opening, rest, hc⟩ := inner?_eq_some he
  obtain ⟨o, rest', hc', ho, hrest⟩ := map_mem_just_mul.1 (h.word hk rfl)
  obtain ⟨e', rest'', rfl, -, hrest⟩ := map_mem_oneOf_mul.1 hrest
  obtain ⟨c, rfl, hclosing⟩ := map_mem_just.1 hrest
  obtain ⟨-, rfl, -⟩ : opening = o ∧ e = e' ∧ rest = [c] := by simpa [hc] using hc'
  have hruns : e.kind.runs = true := Kind.runs_of_isExpression hexpr
  simp [parts, hc', ho, hclosing, hruns, show Kind.runs .openParen = false from rfl,
    show Kind.runs .closeParen = false from rfl]

/-- A null operator is its operand and the mark. -/
theorem parts_of_operator (hk : n.kind = .conditionalAccessExpression ∨
    n.kind = .suppressNullableWarningExpression) :
    ∃ e mark, n.children = [e, mark] ∧ e.isExpression = true ∧ n.parts = [e] := by
  obtain ⟨mark, hmark, hword⟩ : ∃ mark : Kind, mark.runs = false ∧
      n.children.map kind ∈ operand * just mark := by
    rcases hk with hk | hk
    · exact ⟨_, rfl, h.word hk rfl⟩
    · exact ⟨_, rfl, h.word hk rfl⟩
  obtain ⟨e, rest, hc, he, hrest⟩ := map_mem_oneOf_mul.1 hword
  obtain ⟨token, rfl, rfl⟩ := map_mem_just.1 hrest
  have he := isExpression_of_standsAlone he
  have hruns : e.kind.runs = true := Kind.runs_of_isExpression he
  exact ⟨e, token, hc, he, by simp [parts, hc, hmark, hruns]⟩

/-- A call is what is called and the arguments, an access to an element likewise. -/
theorem parts_of_call
    (hk : n.kind = .invocationExpression ∨ n.kind = .elementAccessExpression) :
    ∃ e list, n.children = [e, list] ∧ e.isExpression = true ∧ list.kind.isArguments = true ∧
      n.parts = [e, list] := by
  obtain ⟨p, mark, hp, hmark, hword⟩ : ∃ (p : Kind → Bool) (mark : Kind),
      (∀ k, p k = true → k.isExpression = true) ∧ mark.isArguments = true ∧
      n.children.map kind ∈ oneOf p * just mark := by
    rcases hk with hk | hk
    · exact ⟨_, _, fun k hk => (Bool.and_eq_true_iff.1 hk).1, rfl, h.word hk rfl⟩
    · exact ⟨_, _, fun k hk => hk, rfl, h.word hk rfl⟩
  obtain ⟨e, rest, hc, he, hrest⟩ := map_mem_oneOf_mul.1 hword
  obtain ⟨list, rfl, rfl⟩ := map_mem_just.1 hrest
  have hruns : e.kind.runs = true := Kind.runs_of_isExpression (hp _ he)
  have hlist : list.kind.runs = true := Kind.runs_of_isArguments hmark
  exact ⟨e, list, hc, hp _ he, hmark, by simp [parts, hc, hruns, hlist]⟩

theorem parts_of_creation (hk : n.kind = .objectCreationExpression) :
    ∃ list, n.childOfKind? .argumentList = some list ∧ n.parts = [list] := by
  obtain ⟨keyword, rest, hc, hkeyword, hrest⟩ := map_mem_just_mul.1 (h.word hk rfl)
  obtain ⟨type, rest, rfl, htype, hrest⟩ := map_mem_oneOf_mul.1 hrest
  obtain ⟨list, rfl, hlist⟩ := map_mem_just.1 hrest
  have htypeNe : type.kind ≠ .argumentList := by
    intro heq
    simp [heq, Kind.isType] at htype
  have htypeRuns : type.kind.runs = false := Kind.not_runs_of_isType htype
  refine ⟨list, by simp [childOfKind?, hc, hkeyword, htypeNe, hlist], ?_⟩
  simp [parts, hc, hkeyword, hlist, htypeRuns, show Kind.runs .newKeyword = false from rfl,
    show Kind.runs .argumentList = true from rfl]

theorem parts_of_unary? {u : Unary α} (hu : n.unary? = some u) :
    u.operand.isExpression = true ∧ n.parts = [u.operand] := by
  rcases unary?_eq_some hu with ⟨hk, rest, hc⟩ | ⟨hk, rest, hc⟩
  · obtain ⟨operator, rest', hc', hoperator, hrest⟩ := map_mem_oneOf_mul.1 (h.word hk rfl)
    obtain ⟨operand, rfl, hoperand⟩ := map_mem_oneOf.1 hrest
    obtain ⟨rfl, rfl, rfl⟩ : u.operator = operator ∧ u.operand = operand ∧ rest = [] := by
      simpa [hc] using hc'
    have hexpr := isExpression_of_standsAlone hoperand
    have hruns : u.operand.kind.runs = true := Kind.runs_of_isExpression hexpr
    have htoken : u.operator.kind.runs = false := by
      revert hoperator
      cases u.operator.kind <;> decide
    exact ⟨hexpr, by simp [parts, hc, hruns, htoken]⟩
  · obtain ⟨operand, rest', hc', hoperand, hrest⟩ := map_mem_oneOf_mul.1 (h.word hk rfl)
    obtain ⟨operator, rfl, hoperator⟩ := map_mem_oneOf.1 hrest
    obtain ⟨rfl, rfl, rfl⟩ : u.operand = operand ∧ u.operator = operator ∧ rest = [] := by
      simpa [hc] using hc'
    have hexpr := isExpression_of_standsAlone hoperand
    have hruns : u.operand.kind.runs = true := Kind.runs_of_isExpression hexpr
    have htoken : u.operator.kind.runs = false := by
      revert hoperator
      cases u.operator.kind <;> decide
    exact ⟨hexpr, by simp [parts, hc, hruns, htoken]⟩

theorem parts_of_constant (hk : n.kind = .literalExpression ∨ n.kind = .thisExpression) :
    n.parts = [] := by
  obtain ⟨c, hc, hruns⟩ : ∃ c, n.children = [c] ∧ c.kind.runs = false := by
    rcases hk with hk | hk
    · obtain ⟨leaf, hc, hleaf⟩ := map_mem_oneOf.1 (h.word hk rfl)
      refine ⟨leaf, hc, ?_⟩
      revert hleaf
      cases leaf.kind <;> decide
    · obtain ⟨keyword, hc, hkeyword⟩ := map_mem_just.1 (h.word hk rfl)
      exact ⟨keyword, hc, by rw [hkeyword]; rfl⟩
  simp [parts, hc, hruns]

theorem parts_of_arguments (hk : n.kind.isArguments = true) : n.parts = n.arguments := by
  obtain ⟨l, r, hl, hr, hword⟩ : ∃ l r : Kind, l.runs = l.isExpression ∧
      r.runs = r.isExpression ∧ n.children.map kind ∈ Grammar.arguments l r := by
    rcases (by simpa [Kind.isArguments] using hk :
      n.kind = .argumentList ∨ n.kind = .bracketedArgumentList) with hk | hk
    · exact ⟨_, _, rfl, rfl, h.word hk rfl⟩
    · exact ⟨_, _, rfl, rfl, h.word hk rfl⟩
  obtain ⟨opening, rest, hc, rfl, hrest⟩ := map_mem_just_mul.1 hword
  obtain ⟨middle, rest, rfl, hmiddle, hrest⟩ := map_mem_mul.1 hrest
  obtain ⟨closing, rfl, rfl⟩ := map_mem_just.1 hrest
  refine List.filter_congr fun c hcn => ?_
  rw [hc] at hcn
  rcases List.mem_cons.1 hcn with rfl | hcn
  · exact hl
  rcases List.mem_append.1 hcn with hcn | hcn
  · -- Between the marks stand operands and commas.
    rcases map_mem_maybe.1 hmiddle with rfl | hmiddle
    · simp at hcn
    · rcases eq_comma_or_of_mem_separated hmiddle c.kind (List.mem_map_of_mem hcn) with hc | hc
      · rw [isExpression, hc]
        rfl
      · have hexpr := isExpression_of_standsAlone hc
        exact (Kind.runs_of_isExpression hexpr).trans hexpr.symm
  · obtain rfl := List.mem_singleton.1 hcn
    exact hr

theorem sides_of_binary? {b : Binary α} (hb : n.binary? = some b) :
    (b.left ∈ n.children ∧ b.left.isExpression = true) ∧
      b.right ∈ n.children ∧ b.right.isExpression = true := by
  obtain ⟨hk, _, hc⟩ := binary?_eq_some hb
  obtain ⟨b', hb', hleft, hright⟩ := h.binary hk
  obtain rfl := Option.some.inj (hb.symm.trans hb')
  exact ⟨⟨by simp [hc], hleft⟩, by simp [hc], hright⟩

/-- Condition and branches of an `if`. -/
theorem parts_of_ifStatement? {v : IfView α} (hv : n.ifStatement? = some v) :
    (v.condition ∈ n.children ∧ v.condition.isExpression = true) ∧
      (v.thenBranch ∈ n.children ∧ v.thenBranch.kind.isStatement = true) ∧
      ∀ other, v.elseBranch = some other →
        other ∈ n.preorder ∧ other.kind.isStatement = true := by
  obtain ⟨hk, helse, _, _, _, _, hc⟩ := ifStatement?_eq_some hv
  obtain ⟨v', hv', hcondition, hbranch, hclause⟩ := h.ifStatement hk
  obtain rfl := Option.some.inj (hv.symm.trans hv')
  refine ⟨⟨by simp [hc], hcondition⟩, ⟨by simp [hc], hbranch⟩, fun other hother => ?_⟩
  refine ⟨?_, hclause.1 other hother⟩
  rw [helse] at hother
  obtain ⟨c, hc, hother⟩ := Option.bind_eq_some_iff.1 hother
  exact mem_preorder_trans (mem_preorder_of_mem_children (List.mem_of_getElem? hother))
    (mem_preorder_of_mem_children (childOfKind?_eq_some hc).1)

end Readable

/-- The statements in a list are among its children. -/
theorem mem_statements_of_list (hk : n.kind = .block ∨ n.kind = .compilationUnit) :
    e ∈ n.statements ↔ e ∈ n.children ∧ e.kind.isStatement = true := by
  rcases hk with hk | hk <;> simp [statements, hk]

end Node

/-! ## Paths through every node -/

/-- Where each of some nodes can be gone through, so can all of them. -/
theorem TakesAll.of_forall {m : Model} {ns : List Placed}
    (h : ∀ n ∈ ns, ∃ p, Takes m n p .through) : ∃ p, TakesAll m ns p .through := by
  induction ns with
  | nil => exact ⟨[], .nil⟩
  | cons n ns ih =>
    obtain ⟨p, hp⟩ := h n (by simp)
    obtain ⟨q, hq⟩ := ih fun c hc => h c (by simp [hc])
    exact ⟨p ++ q, .cons hp (by decide) hq⟩

theorem TakesAll.exists_of_forall {m : Model} {ns : List Placed}
    (h : ∀ n ∈ ns, ∃ p ending, Takes m n p ending) : ∃ p ending, TakesAll m ns p ending := by
  induction ns with
  | nil => exact ⟨[], _, .nil⟩
  | cons n ns ih =>
    obtain ⟨p, ending, hp⟩ := h n (by simp)
    obtain ⟨q, last, hq⟩ := ih fun c hc => h c (by simp [hc])
    by_cases hleft : ending = .left
    · subst hleft
      exact ⟨p, _, .left hp⟩
    · exact ⟨p ++ q, last, .cons hp hleft hq⟩

theorem TakesAll.singleton {m : Model} {n : Placed} {p : List Access} {ending : Ending}
    (h : Takes m n p ending) (hne : ending ≠ .left) : TakesAll m [n] p .through := by
  simpa using TakesAll.cons h hne .nil

namespace Node.Readable

variable {m : Model} {n e : Placed}

/-- No `?.` and no `?[` need cut an expression short. -/
theorem exists_takes_expression (h : n.Readable) (hn : n.isExpression = true) :
    ∃ p, Takes m n p .through := by
  induction hsize : n.size using Nat.strongRecOn generalizing n with
  | ind size ih =>
    subst hsize
    have hchild {c : Placed} (hc : c ∈ n.children) (hexpr : c.isExpression = true) :
        ∃ p, Takes m c p .through :=
      ih c.size (size_lt_of_mem_children hc) (h.child hc) hexpr rfl
    have hlist {list : Placed} (hlist : list ∈ n.children) :
        ∃ p, TakesAll m list.arguments p .through := by
      refine TakesAll.of_forall fun e he => ?_
      obtain ⟨hmem, hexpr⟩ := List.mem_filter.1 he
      exact ih e.size (Nat.lt_trans (size_lt_of_mem_children hmem) (size_lt_of_mem_children hlist))
        ((h.child hlist).child hmem) hexpr rfl
    rcases Kind.isExpression_cases hn with hk | hk | hk | hk | hk | hk | hk | hk | hk | hk | hk
    · cases hx : m.symbolAt n.id with
      | none => exact ⟨_, .unbound hk hx⟩
      | some x => exact ⟨_, .read hk hx⟩
    · exact ⟨_, .constant hk⟩
    · obtain ⟨e, he, hexpr⟩ := h.inner hk
      obtain ⟨-, -, _, _, hc⟩ := inner?_eq_some he
      obtain ⟨p, hp⟩ := hchild (c := e) (by simp [hc]) hexpr
      exact ⟨p, .parenthesized hk he (.singleton hp (by decide))⟩
    · obtain ⟨v, hv, hexpr, -⟩ := h.memberAccess hk
      obtain ⟨-, _, hc⟩ := memberAccess?_eq_some hv
      obtain ⟨p, hp⟩ := hchild (c := v.expression) (by simp [hc]) hexpr
      exact ⟨p, .member hk hv hp⟩
    · obtain ⟨e, mark, hc, hexpr, -⟩ := h.parts_of_operator (.inl hk)
      obtain ⟨p, hp⟩ := hchild (c := e) (by simp [hc]) hexpr
      exact ⟨p, .access hk hc hp⟩
    · obtain ⟨e, mark, hc, hexpr, -⟩ := h.parts_of_operator (.inr hk)
      obtain ⟨p, hp⟩ := hchild (c := e) (by simp [hc]) hexpr
      exact ⟨p, .assertion hk hc hp⟩
    · obtain ⟨e, list, hc, hexpr, -⟩ := h.parts_of_call hk
      obtain ⟨p, hp⟩ := hchild (c := e) (by simp [hc]) hexpr
      obtain ⟨q, hq⟩ := hlist (show list ∈ n.children by simp [hc])
      exact ⟨p ++ q, .call hk hc hp hq⟩
    · obtain ⟨list, hl, -⟩ := h.parts_of_creation hk
      obtain ⟨p, hp⟩ := hlist (childOfKind?_eq_some hl).1
      exact ⟨p, .creation hk hl hp⟩
    · obtain ⟨u, hu, hexpr⟩ := h.unary hk
      have hparts := (h.parts_of_unary? hu).2
      obtain ⟨p, hp⟩ := hchild (c := u.operand) (mem_parts.1 (by simp [hparts])).1 hexpr
      by_cases hstep : u.operator.kind.isStep = true ∧ ∃ x, m.refersTo x u.operand = true
      · obtain ⟨hop, x, hx⟩ := hstep
        exact ⟨p ++ [.assign x], .step hk hu hop hx (.singleton hp (by decide))⟩
      · simp only [not_and, not_exists, Bool.not_eq_true] at hstep
        exact ⟨p, .operand hk hu hstep (.singleton hp (by decide))⟩
    · obtain ⟨b, hb, -⟩ := h.binary (.inl hk)
      obtain ⟨hleft, hright⟩ := h.sides_of_binary? hb
      obtain ⟨p, hp⟩ := hchild hleft.1 hleft.2
      obtain ⟨q, hq⟩ := hchild hright.1 hright.2
      exact ⟨p ++ q, .binary hk hb (.cons hp (by decide) (.singleton hq (by decide)))⟩
    · obtain ⟨b, hb, -⟩ := h.binary (.inr hk)
      obtain ⟨hleft, hright⟩ := h.sides_of_binary? hb
      obtain ⟨p, hp⟩ := hchild hleft.1 hleft.2
      obtain ⟨q, hq⟩ := hchild hright.1 hright.2
      by_cases hname : ∃ x, m.refersTo x b.left = true
      · obtain ⟨x, hx⟩ := hname
        exact ⟨q ++ [.assign x], .assign hk hb hx (.singleton hq (by decide))⟩
      · simp only [not_exists, Bool.not_eq_true] at hname
        exact ⟨p ++ q,
          .assignTarget hk hb hname (.cons hp (by decide) (.singleton hq (by decide)))⟩

/-- There is a path through every expression, every statement and the whole of a tree without
errors. -/
theorem exists_takes (h : n.Readable) (hn : n.isExpression = true ∨ n.kind.isStatement = true ∨
    n.kind = .compilationUnit) : ∃ p ending, Takes m n p ending := by
  induction hsize : n.size using Nat.strongRecOn generalizing n with
  | ind size ih =>
    subst hsize
    have hvalue {e : Placed} (he : e ∈ n.preorder) (hexpr : e.isExpression = true) :
        ∃ p, TakesAll m [e] p .through := by
      obtain ⟨p, hp⟩ := (h.of_mem he).exists_takes_expression (m := m) hexpr
      exact ⟨p, .singleton hp (by decide)⟩
    have hlist (hk : n.kind = .block ∨ n.kind = .compilationUnit) :
        ∃ p ending, Takes m n p ending := by
      obtain ⟨p, ending, hp⟩ : ∃ p ending, TakesAll m n.statements p ending := by
        refine TakesAll.exists_of_forall fun s hs => ?_
        obtain ⟨hmem, hstatement⟩ := (mem_statements_of_list hk).1 hs
        exact ih s.size (size_lt_of_mem_children hmem) (h.child hmem) (.inr (.inl hstatement)) rfl
      exact ⟨p, ending, .list hk hp⟩
    rcases hn with hn | hn | hn
    · obtain ⟨p, hp⟩ := h.exists_takes_expression (m := m) hn
      exact ⟨p, _, hp⟩
    · rcases Kind.isStatement_cases hn with hk | hk | hk | hk | hk | hk | hk
      · exact hlist (.inl hk)
      · obtain ⟨v, hv, -⟩ := h.variableDeclaration (.inl hk)
        obtain ⟨p, hp⟩ : ∃ p, TakesAll m v.declarators p .through := by
          refine TakesAll.of_forall fun d hd => ?_
          obtain ⟨hmem, hdk⟩ := mem_declarators hv hd
          cases he : d.initializer? with
          | none => exact ⟨_, .uninitialized hdk he⟩
          | some e =>
            have hexpr := (h.child hmem).initializer.1 e he
            obtain ⟨p, hp⟩ := hvalue (mem_preorder_trans (mem_preorder_of_initializer? he)
              (mem_preorder_of_mem_children hmem)) hexpr
            exact ⟨_, .initialized hdk he hp⟩
        exact ⟨p, _, .declaration hk hv hp⟩
      · obtain ⟨e, he, hexpr⟩ := h.expressionStatement hk
        obtain ⟨p, hp⟩ :=
          hvalue (mem_preorder_of_mem_children (value?_eq_some he).2.2) hexpr
        exact ⟨p, _, .effect hk (by simpa [he] using hp)⟩
      · obtain ⟨v, hv, -⟩ := h.ifStatement hk
        obtain ⟨hcondition, hbranch, -⟩ := h.parts_of_ifStatement? hv
        obtain ⟨p, ending, hp⟩ : ∃ p ending, TakesAll m [v.condition, v.thenBranch] p ending := by
          refine TakesAll.exists_of_forall fun c hc => ?_
          rcases List.mem_pair.1 hc with rfl | rfl
          · exact ih _ (size_lt_of_mem_children hcondition.1) (h.child hcondition.1)
              (.inl hcondition.2) rfl
          · exact ih _ (size_lt_of_mem_children hbranch.1) (h.child hbranch.1)
              (.inr (.inl hbranch.2)) rfl
        exact ⟨p, ending, .thenBranch hk hv hp⟩
      · obtain ⟨v, hv, hcondition, -⟩ := h.whileStatement hk
        obtain ⟨-, _, _, _, _, hc⟩ := whileStatement?_eq_some hv
        obtain ⟨p, hp⟩ := hvalue (e := v.condition)
          (mem_preorder_of_mem_children (by simp [hc])) hcondition
        exact ⟨p, _, .loop hk hv 0 (by simpa using hp)⟩
      · cases he : n.value? with
        | none => exact ⟨[], _, .exit hk (by simpa [he] using .nil)⟩
        | some e =>
          obtain ⟨-, hexpr, hmem⟩ := value?_eq_some he
          obtain ⟨p, hp⟩ := hvalue (mem_preorder_of_mem_children hmem) hexpr
          exact ⟨p, _, .exit hk (by simpa [he] using hp)⟩
      · exact ⟨_, _, .empty hk⟩
    · exact hlist (.inr hn)

end Node.Readable

end NullLint
