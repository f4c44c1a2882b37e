import NullLint.Syntax.View
import NullLint.Proofs.Syntax.Numbering

/-!
# What a view says of the children

Each view that gives an answer tells the kind of its node and where the parts stand among the
children.
-/

namespace NullLint.Node

variable {α : Type} {n e : Node α}

theorem memberAccess?_eq_some {v : MemberAccess α} (h : n.memberAccess? = some v) :
    n.kind = .memberAccessExpression ∧
      ∃ rest, n.children = v.expression :: v.operator :: v.name :: rest := by
  unfold memberAccess? at h
  split at h
  · rename_i hk hc
    cases h
    exact ⟨hk, _, hc⟩
  · cases h

theorem binary?_eq_some {v : Binary α} (h : n.binary? = some v) :
    (n.kind = .binaryExpression ∨ n.kind = .assignmentExpression) ∧
      ∃ rest, n.children = v.left :: v.operator :: v.right :: rest := by
  unfold binary? at h
  split at h
  · rename_i hk hc
    cases h
    exact ⟨.inl hk, _, hc⟩
  · rename_i hk hc
    cases h
    exact ⟨.inr hk, _, hc⟩
  · cases h

theorem unary?_eq_some {v : Unary α} (h : n.unary? = some v) :
    n.kind = .prefixUnaryExpression ∧
        (∃ rest, n.children = v.operator :: v.operand :: rest) ∨
      n.kind = .postfixUnaryExpression ∧
        ∃ rest, n.children = v.operand :: v.operator :: rest := by
  unfold unary? at h
  split at h
  · rename_i hk hc
    cases h
    exact .inl ⟨hk, _, hc⟩
  · rename_i hk hc
    cases h
    exact .inr ⟨hk, _, hc⟩
  · cases h

theorem operand_mem_children {v : Unary α} (h : n.unary? = some v) : v.operand ∈ n.children := by
  rcases unary?_eq_some h with ⟨-, rest, hc⟩ | ⟨-, rest, hc⟩ <;> simp [hc]

theorem inner?_eq_some (h : n.inner? = some e) :
    n.kind = .parenthesizedExpression ∧ e.isExpression = true ∧
      ∃ opening rest, n.children = opening :: e :: rest := by
  unfold inner? at h
  split at h
  · rename_i hk hc
    split at h
    · rename_i he
      cases h
      exact ⟨hk, he, _, _, hc⟩
    · cases h
  · cases h

theorem invocation?_eq_some {v : Invocation α} (h : n.invocation? = some v) :
    n.kind = .invocationExpression ∧
      ∃ list rest, n.children = v.expression :: list :: rest ∧ v.arguments = list.arguments := by
  unfold invocation? at h
  split at h
  · rename_i hk hc
    cases h
    exact ⟨hk, _, _, hc, rfl⟩
  · cases h

theorem creation?_eq_some {v : Creation α} (h : n.creation? = some v) :
    n.kind = .objectCreationExpression ∧
      v.arguments = ((n.childOfKind? .argumentList).map arguments).getD [] := by
  unfold creation? at h
  split at h
  · rename_i hk hc
    cases h
    exact ⟨hk, rfl⟩
  · cases h

theorem ifStatement?_eq_some {v : IfView α} (h : n.ifStatement? = some v) :
    n.kind = .ifStatement ∧
      v.elseBranch = (n.childOfKind? .elseClause).bind (fun c => c.children[1]?) ∧
      ∃ keyword opening closing rest,
        n.children = keyword :: opening :: v.condition :: closing :: v.thenBranch :: rest := by
  unfold ifStatement? at h
  split at h
  · rename_i hk hc
    cases h
    exact ⟨hk, rfl, _, _, _, _, hc⟩
  · cases h

theorem whileStatement?_eq_some {v : WhileView α} (h : n.whileStatement? = some v) :
    n.kind = .whileStatement ∧ ∃ keyword opening closing rest,
      n.children = keyword :: opening :: v.condition :: closing :: v.body :: rest := by
  unfold whileStatement? at h
  split at h
  · rename_i hk hc
    cases h
    exact ⟨hk, _, _, _, _, hc⟩
  · cases h

theorem value?_eq_some (h : n.value? = some e) :
    (n.kind = .expressionStatement ∨ n.kind = .returnStatement ∨ n.kind = .throwStatement) ∧
      e.isExpression = true ∧ e ∈ n.children := by
  unfold value? at h
  split at h
  case h_4 => cases h
  all_goals
    rename_i hk hc
    split at h
    · rename_i he
      cases h
      simp_all
    · cases h

theorem variableDeclaration?_eq_some {v : VariableDeclaration α}
    (h : n.variableDeclaration? = some v) :
    v.declarators = n.children.filter fun c => c.kind == .variableDeclarator := by
  unfold variableDeclaration? at h
  split at h
  · obtain ⟨type, _, rfl⟩ := Option.map_eq_some_iff.1 h
    rfl
  · cases h

theorem declarator?_eq_some {v : Declarator α} (h : n.declarator? = some v) :
    n.kind = .variableDeclarator ∧ v.initializer = n.initializer? := by
  unfold declarator? at h
  split at h
  · rename_i hk hc
    cases h
    exact ⟨hk, rfl⟩
  · cases h

theorem childOfKind?_eq_some {k : Kind} (h : n.childOfKind? k = some e) :
    e ∈ n.children ∧ e.kind = k :=
  ⟨List.mem_of_find?_eq_some h, by simpa using List.find?_some h⟩

theorem initializer?_eq_some (h : n.initializer? = some e) :
    ∃ c ∈ n.children, c.kind = .equalsValueClause ∧ n.childOfKind? .equalsValueClause = some c ∧
      c.children[1]? = some e := by
  obtain ⟨c, hc, he⟩ := Option.bind_eq_some_iff.1 h
  obtain ⟨hmem, hk⟩ := childOfKind?_eq_some hc
  exact ⟨c, hmem, hk, hc, he⟩

theorem mem_preorder_of_initializer? (h : n.initializer? = some e) : e ∈ n.preorder := by
  obtain ⟨c, hc, _, _, he⟩ := initializer?_eq_some h
  exact mem_preorder_trans (mem_preorder_of_mem_children (List.mem_of_getElem? he))
    (mem_preorder_of_mem_children hc)

theorem mem_declarators {v : VariableDeclaration α} {d : Node α}
    (h : n.variableDeclaration? = some v) (hd : d ∈ v.declarators) :
    d ∈ n.children ∧ d.kind = .variableDeclarator := by
  rw [variableDeclaration?_eq_some h] at hd
  simpa using List.mem_filter.1 hd

theorem mem_preorder_of_mem_statements {s : Node α} (hs : s ∈ n.statements) : s ∈ n.preorder := by
  unfold statements at hs
  split at hs
  · exact mem_preorder_of_mem_children (List.mem_filter.1 hs).1
  · exact mem_preorder_of_mem_children (List.mem_filter.1 hs).1
  · split at hs
    · exact List.mem_singleton.1 hs ▸ n.self_mem_preorder
    · cases hs

/-- Taking parentheses off leads to a node below. -/
theorem unparenthesized_mem_preorder (n : Node α) : n.unparenthesized ∈ n.preorder := by
  fun_induction unparenthesized n with
  | case1 a opening e rest he ih =>
    exact mem_preorder_trans ih (mem_preorder_of_mem_children (by simp))
  | case2 a opening e rest he => exact self_mem_preorder _
  | case3 n => exact self_mem_preorder _

theorem unparenthesized_of_kind_ne (h : n.kind ≠ .parenthesizedExpression) :
    n.unparenthesized = n := by
  fun_cases unparenthesized n with
  | case1 a opening e rest he => exact absurd rfl h
  | case2 a opening e rest he => rfl
  | case3 n => rfl

theorem unparenthesized_of_inner?_eq_none (h : n.inner? = none) : n.unparenthesized = n := by
  fun_cases unparenthesized n with
  | case1 a opening e rest he => simp [inner?, he] at h
  | case2 a opening e rest he => rfl
  | case3 n => rfl

/-- Parentheses are taken off from outside in. -/
theorem unparenthesized_of_inner? (h : n.inner? = some e) :
    n.unparenthesized = e.unparenthesized := by
  obtain ⟨hk, he, opening, rest, hc⟩ := inner?_eq_some h
  cases n with
  | token a t => simp at hc
  | branch a k cs =>
    obtain rfl : k = .parenthesizedExpression := hk
    obtain rfl : cs = opening :: e :: rest := hc
    rw [unparenthesized, if_pos he]

/-- Induction over the parentheses around an expression. -/
theorem inner_induction {motive : Node α → Prop} (stop : ∀ n, n.inner? = none → motive n)
    (inner : ∀ n e, n.inner? = some e → motive e → motive n) (n : Node α) : motive n := by
  induction hsize : n.size using Nat.strongRecOn generalizing n with
  | ind size ih =>
    subst hsize
    cases hi : n.inner? with
    | none => exact stop n hi
    | some e => exact inner n e hi (ih e.size (size_lt_of_inner? hi) e rfl)

theorem inner?_unparenthesized (n : Node α) : n.unparenthesized.inner? = none := by
  induction n using inner_induction with
  | stop n hi => rwa [unparenthesized_of_inner?_eq_none hi]
  | inner n e hi ih => rwa [unparenthesized_of_inner? hi]

end NullLint.Node
