import NullLint.Proofs.Expression.Parsing
import NullLint.Proofs.Parser.Inheriting
import NullLint.Proofs.Syntax.Relabeling

/-!
# Operands are grouped by precedence

In a parsed tree, errors or not, an operator between two operands takes hold of neither more tightly
than the operand holds together (`Node.Grouped`). On the side to which operators of its level group,
both may be equally tight; on the other side the operand is the tighter one. A node without an
operator of its own, such as a parenthesized expression, holds together more tightly than any
operator binds.
-/

namespace NullLint

namespace Node

open NullLint.Parser (binding)

variable {α β : Type}

/-- The operator of a binary expression; parentheses are not opened. -/
def binaryOperator? (n : Node α) : Option Kind :=
  if n.kind = .binaryExpression then n.binary?.map fun b => b.operator.kind else none

/-- How tightly a node holds together. -/
def tightness (n : Node α) : Nat :=
  match n.binary? with
  | some b => binding b.operator.kind
  | none => 9

theorem tightness_of_joins_eq_false {n : Node α} (h : n.kind.joins = false) : n.tightness = 9 := by
  unfold tightness binary?
  split
  · rename_i b hb
    split at hb <;> simp_all [Kind.joins]
  · rfl

/-- In a branch of kind `k` the operator `op` stands between operands that hold together as tightly
as it asks: `??` and `=` group to the right, all other binary operators to the left. -/
inductive Joint (k op : Kind) (left right : Nat) : Prop where
  | leftwards (hk : k = .binaryExpression) (hop : 0 < op.precedence) (hl : binding op ≤ left)
      (hr : binding op < right)
  | rightwards (hk : k = .binaryExpression ∧ op = .questionQuestion ∨
      k = .assignmentExpression ∧ op = .equals) (hl : binding op < left) (hr : binding op ≤ right)

theorem Joint.tightness {k op : Kind} {left right : Nat} (h : Joint k op left right) (a : α)
    {l o r : Node α} (ho : o.kind = op) : (branch a k [l, o, r]).tightness = binding op := by
  subst ho
  cases h with
  | leftwards hk => subst hk; rfl
  | rightwards hk => rcases hk with ⟨rfl, -⟩ | ⟨rfl, -⟩ <;> rfl

/-- Everywhere in the node, operands are grouped by precedence. -/
inductive Grouped : Node α → Prop where
  | token (a : α) (t : Token) : Grouped (.token a t)
  | join (a : α) {k : Kind} {l op r : Node α} (joint : Joint k op.kind l.tightness r.tightness)
      (left : Grouped l) (operator : Grouped op) (right : Grouped r) :
      Grouped (.branch a k [l, op, r])
  | branch (a : α) {k : Kind} {cs : List (Node α)} (hk : k.joins = false)
      (below : ∀ c ∈ cs, Grouped c) : Grouped (.branch a k cs)

theorem inherited_grouped : Inherited Grouped where
  leaf t := .token () t
  group hk hns := .branch () hk hns

/-- The node is grouped and holds together at least as tightly as `bound`. -/
def Tight (bound : Nat) (n : Node α) : Prop := n.Grouped ∧ bound ≤ n.tightness

theorem Tight.mono {bound bound' : Nat} {n : Node α} (h : n.Tight bound) (hle : bound' ≤ bound) :
    n.Tight bound' :=
  ⟨h.1, Nat.le_trans hle h.2⟩

/-- An operator that binds as tightly as `bound` joins its operands to a node as tight as this. -/
theorem Joint.tight {k : Kind} {l op r : Green} (h : Joint k op.kind l.tightness r.tightness)
    (hl : l.Grouped) (hop : op.Grouped) (hr : r.Grouped) :
    (Green.group k [l, op, r]).Tight (binding op.kind) :=
  ⟨.join () h hl hop hr, Nat.le_of_eq (h.tightness () rfl).symm⟩

end Node

namespace Parser

open Node (Grouped Tight Joint inherited_grouped)

/-! ## Parsers -/

/-- The mark that is read has the kind that was seen. -/
theorem mark_advance (s : ParseState) :
    advance.Ensures s fun n _ => n.Grouped ∧ n.kind = s.kind := by
  refine (yields_advance inherited_grouped s).and ?_
  unfold Ensures advance ParseState.kind
  cases s.rest <;> rfl

theorem tight_leftGrouped {joins : Kind → Bool} {operand : Parser Green} {level : Nat}
    (hpos : 0 < level) (hjoins : ∀ k, joins k = true → k.precedence = level)
    (h : operand.Yields (Tight (level + 3))) :
    (leftGrouped joins operand).Yields (Tight (level + 2)) := by
  refine h.bind fun first hfirst => yields_refine (fun left hleft => ?_) (hfirst.mono (by omega))
  intro s
  simp only [ensures_bind, ensures_get, ensures_ite, ensures_pure]
  refine ⟨fun hs => ?_, fun _ => by simp⟩
  apply (mark_advance s).mono
  rintro operator s₁ ⟨hoperator, hkind⟩
  refine (h s₁).mono fun right s₂ hright => ?_
  have hlevel : operator.kind.precedence = level := by rw [hkind, hjoins _ hs]
  have hbinding : binding operator.kind = level + 2 := by
    rw [binding_of_precedence (hlevel ▸ hpos), hlevel]
  have hjoint : Joint .binaryExpression operator.kind left.tightness right.tightness :=
    .leftwards rfl (hlevel ▸ hpos) (hbinding ▸ hleft.2) (hbinding ▸ hright.2)
  simpa [hbinding] using hjoint.tight hleft.1 hoperator hright.1

/-- The operands behind the first one, each behind the mark `operator`. -/
def IsOperands (operator : Kind) (bound : Nat) (ns : List Green) : Prop :=
  ∃ ps : List (Green × Green), ns = ps.flatMap (fun p => [p.1, p.2]) ∧
    ∀ p ∈ ps, (p.1.Grouped ∧ p.1.kind = operator) ∧ p.2.Tight bound

section RightGrouped

variable {kind operator : Kind} (hk : kind = .binaryExpression ∧ operator = .questionQuestion ∨
  kind = .assignmentExpression ∧ operator = .equals)
include hk

theorem tight_groupRight {first : Green} {more : List Green}
    (hfirst : first.Tight (binding operator + 1))
    (hmore : IsOperands operator (binding operator + 1) more) :
    (groupRight kind first more).Tight (binding operator) := by
  obtain ⟨ps, rfl, hps⟩ := hmore
  induction ps generalizing first with
  | nil => exact hfirst.mono (Nat.le_succ _)
  | cons p ps ih =>
    obtain ⟨⟨⟨hmark, rfl⟩, hnext⟩, hps⟩ := List.forall_mem_cons.1 hps
    have hright := ih hnext hps
    exact (Joint.rightwards hk hfirst.2 hright.2).tight hfirst.1 hmark hright.1

theorem tight_rightGrouped {operand : Parser Green}
    (h : operand.Yields (Tight (binding operator + 1))) :
    (rightGrouped kind operator operand).Yields (Tight (binding operator)) := by
  let inv (ns : List Green) (_ : ParseState) : Prop :=
    IsOperands operator (binding operator + 1) ns
  refine h.bind fun first hfirst =>
    Yields.bind (P := IsOperands operator (binding operator + 1)) (fun s => ?_) fun more hmore =>
      .pure (tight_groupRight hk hfirst hmore)
  refine ensures_collectWhile inv (fun ns s hs hns => ?_) ⟨[], rfl, by simp⟩
  simp only [ensures_bind, ensures_pure]
  apply (mark_advance s).mono
  rintro mark s₁ ⟨hmark, hkind⟩
  refine (h s₁).mono fun e s₂ he => ?_
  obtain ⟨ps, rfl, hps⟩ := hns
  refine ⟨ps ++ [(mark, e)], by simp, List.forall_mem_append.2 ⟨hps, ?_⟩⟩
  simpa using ⟨⟨hmark, hkind.trans (by simpa using hs)⟩, he⟩

end RightGrouped

section Layers

variable {nested : Parser Green} (h : nested.Yields Grouped)
include h

theorem tight_binaryAbove {levels : List Nat} (hlevels : Layered levels) :
    (binaryAbove levels nested).Yields (Tight (levelBound levels)) := by
  induction levels with
  | nil =>
    refine (single_unary inherited_grouped h).mono fun n hn => ⟨hn.1, ?_⟩
    exact Nat.le_of_eq (Node.tightness_of_joins_eq_false hn.2).symm
  | cons level levels ih =>
    obtain ⟨hpos, hlt, hlevels⟩ := hlevels
    have hjoins : ∀ k : Kind, (k.precedence == level) = true → k.precedence = level := by simp
    exact tight_leftGrouped hpos hjoins ((ih hlevels).mono fun n hn => hn.mono hlt)

theorem tight_coalesce : (coalesce nested).Yields (Tight (binding .questionQuestion)) := by
  have hlevels : Layered precedenceLevels := by simp [precedenceLevels, Layered, levelBound]
  exact tight_rightGrouped (.inl ⟨rfl, rfl⟩) (tight_binaryAbove h hlevels)

theorem tight_assignment : (assignment nested).Yields (Tight (binding .equals)) :=
  tight_rightGrouped (.inr ⟨rfl, rfl⟩) (tight_coalesce h)

end Layers

theorem grouped_expression (depth : Nat) : (expression depth).Yields Grouped := by
  induction depth with
  | zero => exact yields_giveUp inherited_grouped false
  | succ depth ih => exact (tight_assignment ih).mono fun n hn => hn.1

end Parser

/-! ## Trees -/

namespace Node

open NullLint.Parser (binding binding_of_precedence)

variable {α β : Type}

@[simp] theorem tightness_map (f : α → β) (n : Node α) : (n.map f).tightness = n.tightness := by
  unfold tightness
  rw [binary?_map]
  cases n.binary? with
  | none => rfl
  | some b => exact congrArg binding (kind_map f b.operator)

/-- How a node is grouped does not depend on the tags. -/
theorem grouped_of_map {f : α → β} {n : Node α} (h : (n.map f).Grouped) : n.Grouped := by
  induction n using Node.induction with
  | token a t => exact .token a t
  | branch a k cs ih =>
    rw [map_branch] at h
    generalize hds : cs.map (map f) = ds at h
    cases h with
    | @join _ _ l op r joint hl hop hr =>
      obtain ⟨l, op, r, rfl, rfl, rfl, rfl⟩ :
          ∃ l' op' r', cs = [l', op', r'] ∧ l'.map f = l ∧ op'.map f = op ∧ r'.map f = r := by
        simpa [List.map_eq_cons_iff] using hds
      exact .join a (by simpa using joint) (ih l (by simp) hl) (ih op (by simp) hop)
        (ih r (by simp) hr)
    | branch _ hk below =>
      exact .branch a hk fun c hc => ih c hc (below _ (hds ▸ List.mem_map_of_mem hc))

theorem Grouped.of_mem {m n : Node α} (h : n.Grouped) (hm : m ∈ n.preorder) : m.Grouped := by
  induction h with
  | token a t =>
    obtain rfl : m = .token a t := by simpa using hm
    exact .token a t
  | @join a k l op r joint hl hop hr ihl ihop ihr =>
    rcases mem_preorder_branch.1 hm with rfl | ⟨c, hc, hmc⟩
    · exact .join a joint hl hop hr
    · simp only [List.mem_cons, List.not_mem_nil, or_false] at hc
      rcases hc with rfl | rfl | rfl
      · exact ihl hmc
      · exact ihop hmc
      · exact ihr hmc
  | branch a hk below ih =>
    rcases mem_preorder_branch.1 hm with rfl | ⟨c, hc, hmc⟩
    · exact .branch a hk below
    · exact ih c hc hmc

theorem joins_of_token {a : α} {t : Token} (h : (token a t).WellFormed) : t.kind.joins = false := by
  have htoken : t.kind.isToken = true := (wellFormed_token.1 h).isToken
  revert htoken
  cases t.kind <;> decide

/-- A grouped node that joins operands has three children, the operator in the middle. -/
theorem Grouped.exists_joint {n : Node α} (h : n.Grouped) (hwf : n.WellFormed)
    (hn : n.kind.joins = true) :
    ∃ l op r, n.children = [l, op, r] ∧ n.tightness = binding op.kind ∧
      Joint n.kind op.kind l.tightness r.tightness := by
  cases h with
  | token a t => cases hn.symm.trans (joins_of_token hwf)
  | join a joint => exact ⟨_, _, _, rfl, joint.tightness a rfl, joint⟩
  | branch a hk => cases hn.symm.trans hk

theorem Grouped.tightness_assignment {n : Node α} (h : n.Grouped) (hwf : n.WellFormed)
    (hn : n.kind = .assignmentExpression) : n.tightness = binding .equals := by
  obtain ⟨l, op, r, -, htight, hjoint⟩ := h.exists_joint hwf (by simp [hn, Kind.joins])
  cases hjoint with
  | leftwards hk => cases hn.symm.trans hk
  | rightwards hk =>
    rcases hk with ⟨hk, -⟩ | ⟨-, hop⟩
    · cases hn.symm.trans hk
    · rw [htight, hop]

theorem Grouped.tightness_binary {n : Node α} {k : Kind} (h : n.Grouped) (hwf : n.WellFormed)
    (hn : n.binaryOperator? = some k) :
    n.tightness = binding k ∧ (k ≠ .questionQuestion → 0 < k.precedence) := by
  have hkind : n.kind = .binaryExpression := by
    by_contra hne
    simp [binaryOperator?, hne] at hn
  obtain ⟨l, op, r, hchildren, htight, hjoint⟩ := h.exists_joint hwf (by simp [hkind, Kind.joins])
  obtain rfl : op.kind = k := by
    simpa [binaryOperator?, binary?, hkind, hchildren] using hn
  refine ⟨htight, fun hne => ?_⟩
  cases hjoint with
  | leftwards _ hop => exact hop
  | rightwards hk =>
    rcases hk with ⟨-, hop⟩ | ⟨hk, -⟩
    · exact absurd hop hne
    · cases hkind.symm.trans hk

/-- What holds together more tightly than `=` binds is no assignment. -/
theorem Grouped.ne_assignment {n : Node α} (h : n.Grouped) (hwf : n.WellFormed)
    (hn : binding .equals < n.tightness) : n.kind ≠ .assignmentExpression := by
  intro hk
  rw [h.tightness_assignment hwf hk] at hn
  exact Nat.lt_irrefl _ hn

/-- A binary expression that holds together at least as tightly as an operator of precedence `p`
binds is no `??`, and its own operator has at least that precedence. -/
theorem Grouped.le_precedence {n : Node α} {p : Nat} {k : Kind} (h : n.Grouped) (hwf : n.WellFormed)
    (hp : 0 < p) (hn : p + 2 ≤ n.tightness) (hk : n.binaryOperator? = some k) :
    k ≠ .questionQuestion ∧ p ≤ k.precedence := by
  obtain ⟨htight, hpos⟩ := h.tightness_binary hwf hk
  rw [htight] at hn
  have hne : k ≠ .questionQuestion := by
    rintro rfl
    have hcoalesce : binding .questionQuestion = 2 := rfl
    omega
  rw [binding_of_precedence (hpos hne)] at hn
  exact ⟨hne, by omega⟩

end Node

/-- The tree of every source text is grouped by precedence. -/
theorem grouped_parse (file text : String) :
    ∃ root, (parse file text).tree.placed = some root ∧ root.WellFormed ∧ root.Grouped := by
  refine ⟨(Parser.compilationUnit (.ofText text)).1.placed, rfl, ?_, ?_⟩
  · exact (Node.wellFormed_placed _).2 (Tree.wellFormed_compilationUnit text)
  · apply Node.grouped_of_map (f := fun _ => ())
    have herased : (Parser.compilationUnit (.ofText text)).1.placed.map (fun _ => ()) =
      (Parser.compilationUnit (.ofText text)).1 := Node.erase_placed _
    rw [herased]
    exact Parser.yields_compilationUnit Node.inherited_grouped Parser.grouped_expression
      (.ofText text)

/-- Precedence and associativity of the operators of a parsed text. The operands of a binary
operator are no assignments. With `??` the left one is no `??`; with an operator of some precedence
the operator of the left one has at least this precedence, that of the right one a greater one. The
target of an assignment is no assignment. -/
theorem parse_groups_by_precedence (file text : String) :
    ∀ n ∈ (parse file text).tree.nodes,
      (n.kind = .binaryExpression →
        ∃ left operator right, n.children = [left, operator, right] ∧
          left.kind ≠ .assignmentExpression ∧ right.kind ≠ .assignmentExpression ∧
          (operator.kind = .questionQuestion ∧ left.binaryOperator? ≠ some .questionQuestion ∨
            0 < operator.kind.precedence ∧
              (∀ k, left.binaryOperator? = some k →
                k ≠ .questionQuestion ∧ operator.kind.precedence ≤ k.precedence) ∧
              ∀ k, right.binaryOperator? = some k →
                k ≠ .questionQuestion ∧ operator.kind.precedence < k.precedence)) ∧
      (n.kind = .assignmentExpression →
        ∃ left operator right, n.children = [left, operator, right] ∧ operator.kind = .equals ∧
          left.kind ≠ .assignmentExpression) := by
  intro n hn
  obtain ⟨root, hroot, hwf, hgrouped⟩ := grouped_parse file text
  have below {m : Placed} (hm : m ∈ root.preorder) : m.Grouped ∧ m.WellFormed :=
    ⟨hgrouped.of_mem hm, hwf.of_mem hm⟩
  have hmem : n ∈ root.preorder := Tree.nodes_of_placed hroot ▸ hn
  have joint (hjoins : n.kind.joins = true) :
      ∃ l op r, n.children = [l, op, r] ∧ Node.Joint n.kind op.kind l.tightness r.tightness ∧
        (l.Grouped ∧ l.WellFormed) ∧ r.Grouped ∧ r.WellFormed := by
    obtain ⟨l, op, r, hchildren, -, hjoint⟩ := (below hmem).1.exists_joint (below hmem).2 hjoins
    have child {c : Placed} (hc : c ∈ n.children) : c.Grouped ∧ c.WellFormed :=
      below (Node.mem_preorder_trans (Node.mem_preorder_of_mem_children hc) hmem)
    exact ⟨l, op, r, hchildren, hjoint, child (by simp [hchildren]), child (by simp [hchildren])⟩
  have hequals : Parser.binding .equals = 1 := rfl
  have hcoalesce : Parser.binding .questionQuestion = 2 := rfl
  refine ⟨fun hk => ?_, fun hk => ?_⟩
  · obtain ⟨l, op, r, hchildren, hjoint, ⟨hl, hlwf⟩, hr, hrwf⟩ := joint (by rw [hk]; rfl)
    refine ⟨l, op, r, hchildren, ?_⟩
    cases hjoint with
    | leftwards _ hop hleft hright =>
      rw [Parser.binding_of_precedence hop] at hleft hright
      refine ⟨hl.ne_assignment hlwf (by omega), hr.ne_assignment hrwf (by omega),
        .inr ⟨hop, ?_, ?_⟩⟩
      · exact fun k => hl.le_precedence hlwf hop hleft
      · exact fun k => hr.le_precedence hrwf (Nat.succ_pos _) (by omega)
    | rightwards hk' hleft hright =>
      obtain ⟨-, hop⟩ := hk'.resolve_right fun hassign => by cases hk.symm.trans hassign.1
      rw [hop] at hleft hright
      refine ⟨hl.ne_assignment hlwf (by omega), hr.ne_assignment hrwf (by omega), .inl ⟨hop, ?_⟩⟩
      intro hleft'
      have htight := (hl.tightness_binary hlwf hleft').1
      omega
  · obtain ⟨l, op, r, hchildren, hjoint, ⟨hl, hlwf⟩, -⟩ := joint (by rw [hk]; rfl)
    cases hjoint with
    | leftwards hk' => cases hk.symm.trans hk'
    | rightwards hk' hleft =>
      obtain ⟨-, hop⟩ := hk'.resolve_left fun hbinary => by cases hk.symm.trans hbinary.1
      exact ⟨l, op, r, hchildren, hop, hl.ne_assignment hlwf (hop ▸ hleft)⟩

/-- `-` stands at the top of `c + d * e - f`, and its left operand is a sum. -/
theorem difference_groups_by_precedence :
    let t := (parse "" "a = b ?? c + d * e - f;").tree
    ∃ n ∈ t.nodes, ∃ left operator right, n.kind = .binaryExpression ∧
      n.children = [left, operator, right] ∧ left.binaryOperator? = some .plus ∧
      operator.kind = .minus ∧ left.kind ≠ .assignmentExpression ∧
      right.kind ≠ .assignmentExpression ∧ Kind.minus.precedence ≤ Kind.plus.precedence ∧
      ∀ k, right.binaryOperator? = some k → Kind.minus.precedence < k.precedence := by
  intro t
  have hfound : ∃ n ∈ t.nodes, n.kind = .binaryExpression ∧
      n.children.map (fun c => (c.kind, c.binaryOperator?)) =
        [(.binaryExpression, some .plus), (.minus, none), (.identifierName, none)] := by
    decide +kernel
  obtain ⟨n, hn, hk, hchildren⟩ := hfound
  obtain ⟨left, operator, right, hparts, hleft, hright, hgrouped⟩ :=
    (parse_groups_by_precedence "" "a = b ?? c + d * e - f;" n hn).1 hk
  obtain ⟨⟨-, hplus⟩, ⟨hminus, -⟩, -⟩ :
      (left.kind = .binaryExpression ∧ left.binaryOperator? = some .plus) ∧
      (operator.kind = .minus ∧ operator.binaryOperator? = none) ∧
      right.kind = .identifierName ∧ right.binaryOperator? = none := by
    simpa [hparts] using hchildren
  obtain ⟨hne, -⟩ | ⟨-, hlow, hhigh⟩ := hgrouped
  · cases hminus.symm.trans hne
  · rw [hminus] at hlow hhigh
    exact ⟨n, hn, left, operator, right, hk, hparts, hplus, hminus, hleft, hright,
      (hlow _ hplus).2, fun k hk => (hhigh k hk).2⟩

end NullLint
