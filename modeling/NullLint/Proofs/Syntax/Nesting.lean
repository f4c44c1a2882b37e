import NullLint.Proofs.Syntax.Conformity

/-!
# Which kinds nest in which

For each kind of branch the kinds that its children may have in a tree that conforms to the grammar
(`Kind.mayHold`). Expressions, types, directives and simple statements are calm: whatever lies below
them is calm too, so they hold no declaration and open no scope. Below a type only types and tokens
are found.
-/

open Computability

namespace NullLint

namespace Kind

/-- Whether a branch of kind `k` may have a child of kind `c`. -/
def mayHold (k c : Kind) : Bool :=
  c.isToken ||
    match k with
    | .compilationUnit => c.isFileItem
    | .namespaceDeclaration => c.isNamespaceItem || c.isType
    | .classDeclaration | .structDeclaration => c.isTypeMember || c.isType
    | .fieldDeclaration | .localDeclarationStatement => c.isType || c == .variableDeclarator
    | .propertyDeclaration =>
      c.isType || c == .accessorList || c == .arrowExpressionClause || c == .equalsValueClause
    | .accessorList => c == .accessorDeclaration
    | .accessorDeclaration => c == .block || c == .arrowExpressionClause
    | .methodDeclaration | .constructorDeclaration =>
      c.isType || c == .parameterList || c == .block || c == .arrowExpressionClause
    | .parameterList => c == .parameter
    | .parameter => c.isType || c == .equalsValueClause
    | .variableDeclarator => c == .equalsValueClause
    | .block => c.isStatement
    | .ifStatement | .elseClause | .whileStatement =>
      c.isExpression || c.isStatement || c == .elseClause
    | .usingDirective | .predefinedOrNamedType | .qualifiedName | .genericName
    | .typeArgumentList | .nullableType | .arrayType => c.isType || c == .typeArgumentList
    | .argumentList | .bracketedArgumentList => c.isExpression
    | k => k.isNode &&
      (c.isExpression || c.isType || c == .argumentList || c == .bracketedArgumentList)

/-- Nodes below which nothing is declared and no scope is opened. -/
def isCalm : Kind → Bool
  | .compilationUnit | .namespaceDeclaration | .classDeclaration | .structDeclaration
  | .fieldDeclaration | .propertyDeclaration | .accessorList | .accessorDeclaration
  | .methodDeclaration | .constructorDeclaration | .parameterList | .parameter
  | .variableDeclarator | .block | .localDeclarationStatement | .ifStatement | .elseClause
  | .whileStatement => false
  | _ => true

/-- What is found in a type. -/
def isTypePart (k : Kind) : Bool := k.isType || k == .typeArgumentList || k.isToken

theorem isCalm_of_isTypePart {k : Kind} (h : k.isTypePart = true) : k.isCalm = true := by
  revert h
  cases k <;> decide

theorem isCalm_of_mayHold {k c : Kind} (hk : k.isCalm = true) (h : k.mayHold c = true) :
    c.isCalm = true := by
  have htype : (c.isToken || (c.isType || c == .typeArgumentList)) = true → c.isCalm = true := by
    cases c <;> decide
  have hvalue : (c.isToken || (c.isExpression || c.isType || c == .argumentList ||
      c == .bracketedArgumentList)) = true → c.isCalm = true := by
    cases c <;> decide
  have hexpression : (c.isToken || c.isExpression) = true → c.isCalm = true := by
    cases c <;> decide
  unfold mayHold at h
  split at h
  case h_28 => exact hvalue (by revert h; cases c.isToken <;> simp)
  all_goals first
    | exact absurd hk (by decide)
    | exact htype h
    | exact hexpression h

theorem isTypePart_of_mayHold {k c : Kind} (hk : k.isTypePart = true ∨ k = .usingDirective)
    (h : k.mayHold c = true) : c.isTypePart = true := by
  have htype : (c.isToken || (c.isType || c == .typeArgumentList)) = true →
      c.isTypePart = true := by
    cases c <;> decide
  have htoken : (c.isToken || false) = true → c.isTypePart = true := by
    cases c <;> decide
  cases k <;> first
    | exact absurd hk (by decide)
    | exact htoken h
    | exact htype h

end Kind

namespace Grammar

/-- The kinds in all words satisfy `p`. -/
def Within (p : Kind → Bool) (L : Language Kind) : Prop := ∀ w ∈ L, ∀ k ∈ w, p k = true

variable {p q : Kind → Bool} {L M : Language Kind} {k : Kind}

theorem within_zero : Within p 0 := fun _ hw => hw.elim

theorem within_one : Within p 1 := by
  rintro w rfl
  simp

theorem within_oneOf (h : ∀ k, q k = true → p k = true) : Within p (oneOf q) := by
  rintro w ⟨j, hj, rfl⟩ k hk
  obtain rfl : k = j := by simpa using hk
  exact h k hj

theorem within_just (h : p k = true) : Within p (just k) :=
  within_oneOf fun j hj => by
    obtain rfl : j = k := by simpa using hj
    exact h

theorem Within.add (hL : Within p L) (hM : Within p M) : Within p (L + M) := by
  intro w hw
  exact hw.elim (hL w) (hM w)

theorem Within.mul (hL : Within p L) (hM : Within p M) : Within p (L * M) := by
  intro w hw k hk
  obtain ⟨u, hu, v, hv, rfl⟩ := Language.mem_mul.1 hw
  exact (List.mem_append.1 hk).elim (hL u hu k) (hM v hv k)

theorem Within.kstar (hL : Within p L) : Within p L∗ := by
  intro w hw k hk
  obtain ⟨ws, rfl, hws⟩ := Language.mem_kstar.1 hw
  obtain ⟨v, hv, hk⟩ := List.mem_flatten.1 hk
  exact hL v (hws v hv) k hk

/-- The children of a branch have kinds that its kind may hold. -/
theorem within_production (k : Kind) : Within k.mayHold (production k) := by
  have htoken {q : Kind → Bool} (hq : ∀ c, q c = true → c.isToken = true) :
      Within k.mayHold (oneOf q) :=
    within_oneOf fun c hc => by simp [Kind.mayHold, hq c hc]
  have hmodifier : Within k.mayHold (oneOf Kind.isModifier) :=
    htoken (by intro c; cases c <;> decide)
  have hliteral : Within k.mayHold (oneOf Kind.isLiteral) :=
    htoken (by intro c; cases c <;> decide)
  have hsign : Within k.mayHold (oneOf Parser.isSignOperator) :=
    htoken (by intro c; cases c <;> decide)
  have hbinary : Within k.mayHold (oneOf Kind.isBinaryOperator) :=
    htoken (by intro c; cases c <;> decide)
  have htwo {i j : Kind} (hi : i.isToken = true) (hj : j.isToken = true) :
      Within k.mayHold (oneOf fun c => c == i || c == j) := by
    refine htoken fun c hc => ?_
    rcases (by simpa using hc : c = i ∨ c = j) with rfl | rfl
    · exact hi
    · exact hj
  have hoperand (h : Within k.mayHold (oneOf Kind.isExpression)) :
      Within k.mayHold (oneOf Kind.standsAlone) :=
    fun w hw => h w (oneOf_le (fun c hc => (Bool.and_eq_true_iff.1 hc).1) hw)
  have hdotted (h : Within k.mayHold (oneOf Kind.isType)) :
      Within k.mayHold (oneOf Kind.isDottedType) :=
    fun w hw => h w (oneOf_le (by intro c; cases c <;> decide) hw)
  have hsimple (h : Within k.mayHold (oneOf Kind.isType)) :
      Within k.mayHold (oneOf Kind.isSimpleType) :=
    fun w hw => h w (oneOf_le (by intro c; cases c <;> decide) hw)
  unfold production
  simp only [typeDeclaration, guarded, jump, arguments, body, initializer, separated, maybe,
    modifiers, operand, type, statement]
  split
  all_goals
    with_reducible repeat' first
      | apply Within.mul
      | apply Within.add
      | apply Within.kstar
      | exact within_just rfl
      | refine hoperand ?_
      | refine hdotted ?_
      | refine hsimple ?_
      | exact hmodifier
      | exact hliteral
      | exact hsign
      | exact hbinary
      | exact htwo rfl rfl
      | exact within_one
      | exact within_zero
  all_goals exact within_oneOf fun c hc => by simp [Kind.mayHold, Kind.isNode, hc]

end Grammar

namespace Node

open Grammar

variable {α : Type} {n c m : Node α}

theorem token?_eq_none_of_mem_children (hc : c ∈ n.children) : n.token? = none := by
  cases n with
  | token a t => simp at hc
  | branch a k cs => rfl

theorem Readable.children_word (h : n.Readable) (hc : c ∈ n.children) :
    n.children.map kind ∈ production n.kind :=
  h.conforms n (self_mem_preorder n) (token?_eq_none_of_mem_children hc)

theorem Readable.mayHold (h : n.Readable) (hc : c ∈ n.children) :
    n.kind.mayHold c.kind = true :=
  within_production n.kind _ (h.children_word hc) _ (List.mem_map_of_mem hc)

/-- A property of kinds that passes from parents to children holds in the whole tree. -/
theorem Readable.of_mayHold {p : Kind → Bool}
    (hp : ∀ k c, p k = true → k.mayHold c = true → p c = true) (h : n.Readable)
    (hn : p n.kind = true) (hm : m ∈ n.preorder) : p m.kind = true := by
  induction n with
  | token a t =>
    obtain rfl : m = .token a t := by simpa using hm
    exact hn
  | branch a k cs ih =>
    rcases mem_preorder_branch.1 hm with rfl | ⟨c, hc, hm⟩
    · exact hn
    · exact ih c hc (h.child hc) (hp _ _ hn (h.mayHold hc)) hm

/-- Below a calm node everything is calm. -/
theorem Readable.isCalm (h : n.Readable) (hn : n.kind.isCalm = true) (hm : m ∈ n.preorder) :
    m.kind.isCalm = true :=
  h.of_mayHold (fun _ _ => Kind.isCalm_of_mayHold) hn hm

/-- In a type there are only types and tokens. -/
theorem Readable.isTypePart (h : n.Readable) (hn : n.kind.isTypePart = true)
    (hm : m ∈ n.preorder) : m.kind.isTypePart = true :=
  h.of_mayHold (fun _ _ hk => Kind.isTypePart_of_mayHold (.inl hk)) hn hm

end Node

end NullLint
