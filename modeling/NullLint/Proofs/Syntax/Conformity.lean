import NullLint.Proofs.Syntax.Derivation
import NullLint.Proofs.Syntax.Productions
import NullLint.Proofs.Syntax.Views

/-!
# What conformity says of the views

On a node that conforms to the grammar every view of its kind has an answer, and the parts that a
view names are of the kinds that their places ask for: conditions, operands, arguments and
initializers are expressions, branches and bodies are statements, types are types, and names are
identifiers with a text (`Node.Viewed`). A conditional access is the first child of the access that
it guards.
-/

open Computability

namespace NullLint

namespace Grammar

variable {α : Type} {L M : Language Kind} {p : Kind → Bool} {k : Kind} {cs : List (Node α)}

/-! ## Children as words -/

theorem map_mem_mul : cs.map Node.kind ∈ L * M ↔
    ∃ as bs, cs = as ++ bs ∧ as.map Node.kind ∈ L ∧ bs.map Node.kind ∈ M := by
  constructor
  · intro h
    obtain ⟨v, hv, w, hw, hvw⟩ := Language.mem_mul.1 h
    obtain ⟨as, bs, rfl, rfl, rfl⟩ := List.map_eq_append_iff.1 hvw.symm
    exact ⟨as, bs, rfl, hv, hw⟩
  · rintro ⟨as, bs, rfl, has, hbs⟩
    rw [List.map_append]
    exact Language.append_mem_mul has hbs

theorem map_mem_oneOf : cs.map Node.kind ∈ oneOf p ↔ ∃ c, cs = [c] ∧ p c.kind = true := by
  constructor
  · rintro ⟨k, hk, h⟩
    obtain ⟨c, rfl, rfl⟩ := List.map_eq_singleton_iff.1 h
    exact ⟨c, rfl, hk⟩
  · rintro ⟨c, rfl, hc⟩
    exact singleton_mem_oneOf.2 hc

theorem map_mem_oneOf_mul : cs.map Node.kind ∈ oneOf p * L ↔
    ∃ c rest, cs = c :: rest ∧ p c.kind = true ∧ rest.map Node.kind ∈ L := by
  rw [map_mem_mul]
  constructor
  · rintro ⟨as, bs, rfl, has, hbs⟩
    obtain ⟨c, rfl, hc⟩ := map_mem_oneOf.1 has
    exact ⟨c, bs, rfl, hc, hbs⟩
  · rintro ⟨c, rest, rfl, hc, hrest⟩
    exact ⟨[c], rest, rfl, map_mem_oneOf.2 ⟨c, rfl, hc⟩, hrest⟩

theorem map_mem_just : cs.map Node.kind ∈ just k ↔ ∃ c, cs = [c] ∧ c.kind = k := by
  simp [just, map_mem_oneOf]

theorem map_mem_just_mul : cs.map Node.kind ∈ just k * L ↔
    ∃ c rest, cs = c :: rest ∧ c.kind = k ∧ rest.map Node.kind ∈ L := by
  simp [just, map_mem_oneOf_mul]

theorem map_mem_maybe : cs.map Node.kind ∈ maybe L ↔ cs = [] ∨ cs.map Node.kind ∈ L := by
  rw [maybe, Language.mem_add, Language.mem_one, List.map_eq_nil_iff]

theorem eq_comma_or_of_mem_separated {w : List Kind} (hw : w ∈ separated (oneOf p)) :
    ∀ k ∈ w, k = .comma ∨ p k = true := by
  intro k hk
  obtain ⟨u, ⟨j, hj, rfl⟩, v, hv, rfl⟩ := Language.mem_mul.1 hw
  rcases List.mem_cons.1 hk with rfl | hk
  · exact .inr hj
  · obtain ⟨ws, rfl, hws⟩ := Language.mem_kstar.1 hv
    obtain ⟨x, hx, hk⟩ := List.mem_flatten.1 hk
    obtain ⟨y, ⟨i, hi, rfl⟩, z, ⟨j, hj, rfl⟩, rfl⟩ := Language.mem_mul.1 (hws x hx)
    have hpair : k = i ∨ k = j := by simpa using hk
    rcases hpair with rfl | rfl
    · exact .inl (by simpa using hi)
    · exact .inr hj

/-! ## Kinds that do not occur -/

/-- The kind `k` occurs in no word. -/
def Avoids (k : Kind) (L : Language Kind) : Prop := ∀ w ∈ L, k ∉ w

theorem avoids_zero : Avoids k 0 := fun _ hw => hw.elim

theorem avoids_one : Avoids k 1 := by
  rintro w rfl
  simp

theorem avoids_oneOf (hk : p k = false) : Avoids k (oneOf p) := by
  rintro w ⟨j, hj, rfl⟩ hmem
  obtain rfl : k = j := by simpa using hmem
  simp [hk] at hj

theorem Avoids.add (hL : Avoids k L) (hM : Avoids k M) : Avoids k (L + M) := by
  intro w hw
  exact hw.elim (hL w) (hM w)

theorem Avoids.mul (hL : Avoids k L) (hM : Avoids k M) : Avoids k (L * M) := by
  intro w hw hmem
  obtain ⟨u, hu, v, hv, rfl⟩ := Language.mem_mul.1 hw
  exact (List.mem_append.1 hmem).elim (hL u hu) (hM v hv)

theorem Avoids.kstar (hL : Avoids k L) : Avoids k L∗ := by
  intro w hw hmem
  obtain ⟨ws, rfl, hws⟩ := Language.mem_kstar.1 hw
  obtain ⟨v, hv, hmem⟩ := List.mem_flatten.1 hmem
  exact hL v (hws v hv) hmem

/-- Only two productions mention the conditional access. -/
theorem avoids_production (hmember : k ≠ .memberAccessExpression)
    (helement : k ≠ .elementAccessExpression) :
    Avoids .conditionalAccessExpression (production k) := by
  unfold production
  split
  case h_36 => exact absurd rfl hmember
  case h_40 => exact absurd rfl helement
  all_goals
    apply_rules [avoids_zero, avoids_one, avoids_oneOf, Avoids.mul, Avoids.add, Avoids.kstar]

end Grammar

namespace Node

open Grammar

variable {α : Type} {n c e : Node α}

/-! ## Conforming nodes -/

theorem Conforms.of_mem (h : n.Conforms) (hc : c ∈ n.preorder) : c.Conforms :=
  fun m hm => h m (mem_preorder_trans hm hc)

@[simp] theorem conforms_map {β : Type} (f : α → β) (n : Node α) :
    (n.map f).Conforms ↔ n.Conforms := by
  induction n with
  | token a t => simp [map, conforms_token]
  | branch a k cs ih =>
    rw [map_branch, conforms_branch, conforms_branch, List.forall_mem_map, List.map_map]
    have hkinds : cs.map (kind ∘ map f) = cs.map kind := by simp
    rw [hkinds]
    exact and_congr_right fun _ => forall₂_congr ih

@[simp] theorem conforms_placed (n : Green) : n.placed.Conforms ↔ n.Conforms := by
  rw [← conforms_map (fun _ => ()), ← erase, erase_placed]

@[simp] theorem undamaged_map {β : Type} (f : α → β) (n : Node α) :
    (n.map f).Undamaged ↔ n.Undamaged := by
  induction n with
  | token a t => simp [map, Undamaged, isMissing]
  | branch a k cs ih =>
    rw [map_branch, undamaged_branch, undamaged_branch, List.forall_mem_map]
    exact and_congr_right fun _ => forall₂_congr ih

@[simp] theorem undamaged_placed (n : Green) : n.placed.Undamaged ↔ n.Undamaged := by
  rw [← undamaged_map (fun _ => ()), ← erase, erase_placed]

/-- A conforming node of a kind of nodes is a branch over a production. -/
theorem Conforms.word (h : n.Conforms) (hwf : n.WellFormed) (hk : n.kind.isNode = true) :
    n.children.map kind ∈ production n.kind := by
  refine h n (self_mem_preorder n) ?_
  cases n with
  | token a t =>
    have htoken := (wellFormed_token.1 hwf).isToken
    rw [Kind.isToken_eq_not_isNode, Bool.not_eq_true'] at htoken
    cases hk.symm.trans htoken
  | branch a k cs => rfl

/-- A token that can serve as a name. -/
def IsName (n : Node α) : Prop := n.kind = .identifier ∧ n.leafText ≠ ""

/-- What the views need of a tree: it is well-formed, conforms to the grammar and its identifiers
have texts. -/
structure Readable (n : Node α) : Prop where
  wellFormed : n.WellFormed
  conforms : n.Conforms
  names : ∀ m ∈ n.preorder, m.kind = .identifier → m.leafText ≠ ""

theorem Readable.of_mem (h : n.Readable) (hc : c ∈ n.preorder) : c.Readable where
  wellFormed := h.wellFormed.of_mem hc
  conforms := h.conforms.of_mem hc
  names m hm := h.names m (mem_preorder_trans hm hc)

theorem Readable.child (h : n.Readable) (hc : c ∈ n.children) : c.Readable :=
  h.of_mem (mem_preorder_of_mem_children hc)

theorem Readable.word (h : n.Readable) {k : Kind} (hk : n.kind = k) (hnode : k.isNode = true) :
    n.children.map kind ∈ production k :=
  hk ▸ h.conforms.word h.wellFormed (hk ▸ hnode)

theorem Readable.isName (h : n.Readable) (hc : c ∈ n.children) (hk : c.kind = .identifier) :
    c.IsName :=
  ⟨hk, h.names c (mem_preorder_of_mem_children hc) hk⟩

theorem isExpression_of_standsAlone (h : e.kind.standsAlone = true) : e.isExpression = true :=
  (Bool.and_eq_true_iff.1 h).1

/-! ## Views of conforming nodes -/

/-- `value` is what stands in the clause of kind `k` among the children of `n`: there is one if
there is a clause, and its kind satisfies `p`. -/
def ClauseValue (n : Node α) (k : Kind) (p : Kind → Bool) (value : Option (Node α)) : Prop :=
  (∀ e, value = some e → p e.kind = true) ∧
    ∀ c ∈ n.children, c.kind = k → ∃ e, value = some e

/-- A clause is a keyword or mark with the value behind it. -/
theorem Readable.clauseValue (h : n.Readable) {k mark : Kind} {p q : Kind → Bool}
    (hk : k.isNode = true) (hproduction : production k = just mark * oneOf q)
    (hpq : ∀ k, q k = true → p k = true) :
    n.ClauseValue k p ((n.childOfKind? k).bind fun c => c.children[1]?) := by
  have hclause {c : Node α} (hc : n.childOfKind? k = some c) :
      ∃ keyword e, c.children = [keyword, e] ∧ q e.kind = true := by
    obtain ⟨hmem, hck⟩ := childOfKind?_eq_some hc
    have hword := (h.child hmem).word hck hk
    rw [hproduction] at hword
    obtain ⟨keyword, rest, hchildren, -, hrest⟩ := map_mem_just_mul.1 hword
    obtain ⟨e, rfl, he⟩ := map_mem_oneOf.1 hrest
    exact ⟨keyword, e, hchildren, he⟩
  constructor
  · intro e he
    obtain ⟨c, hc, he⟩ := Option.bind_eq_some_iff.1 he
    obtain ⟨keyword, e', hchildren, he'⟩ := hclause hc
    rw [hchildren] at he
    obtain rfl : e' = e := by simpa using he
    exact hpq _ he'
  · intro c hc hck
    obtain ⟨d, hd⟩ : ∃ d, n.childOfKind? k = some d := by
      rw [← Option.isSome_iff_exists, childOfKind?, List.find?_isSome]
      exact ⟨c, hc, by simp [hck]⟩
    obtain ⟨keyword, e, hchildren, -⟩ := hclause hd
    exact ⟨e, by simp [hd, hchildren]⟩

theorem Readable.initializer (h : n.Readable) :
    n.ClauseValue .equalsValueClause Kind.isExpression n.initializer? :=
  h.clauseValue rfl rfl fun _ hk => (Bool.and_eq_true_iff.1 hk).1

theorem Readable.identifierName (h : n.Readable) (hk : n.kind = .identifierName) :
    ∃ name, n.identifier? = some name ∧ name ≠ "" := by
  obtain ⟨c, hc, hck⟩ := map_mem_just.1 (h.word hk rfl)
  refine ⟨c.leafText, by simp [identifier?, hk, hc, hck], ?_⟩
  exact (h.isName (by simp [hc]) hck).2

theorem Readable.memberAccess (h : n.Readable) (hk : n.kind = .memberAccessExpression) :
    ∃ v, n.memberAccess? = some v ∧ v.expression.isExpression = true ∧ v.operator.kind = .dot ∧
      ∃ name, v.name.identifier? = some name ∧ name ≠ "" := by
  obtain ⟨e, rest, hc, he, hrest⟩ := map_mem_oneOf_mul.1 (h.word hk rfl)
  obtain ⟨dot, rest, rfl, hdot, hrest⟩ := map_mem_just_mul.1 hrest
  obtain ⟨name, rfl, hname⟩ := map_mem_just.1 hrest
  have hchild : name ∈ n.children := by simp [hc]
  exact ⟨⟨e, dot, name⟩, by simp [memberAccess?, hk, hc], he, hdot,
    (h.child hchild).identifierName hname⟩

theorem Readable.binary (h : n.Readable)
    (hk : n.kind = .binaryExpression ∨ n.kind = .assignmentExpression) :
    ∃ v, n.binary? = some v ∧ v.left.isExpression = true ∧ v.right.isExpression = true := by
  have hword : ∃ p : Kind → Bool, n.children.map kind ∈ operand * (oneOf p * operand) := by
    rcases hk with hk | hk
    · exact ⟨_, h.word hk rfl⟩
    · exact ⟨_, h.word hk rfl⟩
  obtain ⟨p, hword⟩ := hword
  obtain ⟨left, rest, hc, hleft, hrest⟩ := map_mem_oneOf_mul.1 hword
  obtain ⟨operator, rest, rfl, -, hrest⟩ := map_mem_oneOf_mul.1 hrest
  obtain ⟨right, rfl, hright⟩ := map_mem_oneOf.1 hrest
  refine ⟨⟨left, operator, right⟩, ?_, isExpression_of_standsAlone hleft,
    isExpression_of_standsAlone hright⟩
  rcases hk with hk | hk <;> simp [binary?, hk, hc]

theorem Readable.unary (h : n.Readable)
    (hk : n.kind = .prefixUnaryExpression ∨ n.kind = .postfixUnaryExpression) :
    ∃ v, n.unary? = some v ∧ v.operand.isExpression = true := by
  rcases hk with hk | hk
  · obtain ⟨operator, rest, hc, -, hrest⟩ := map_mem_oneOf_mul.1 (h.word hk rfl)
    obtain ⟨operand, rfl, hoperand⟩ := map_mem_oneOf.1 hrest
    exact ⟨⟨operator, operand⟩, by simp [unary?, hk, hc], isExpression_of_standsAlone hoperand⟩
  · obtain ⟨operand, rest, hc, hoperand, hrest⟩ := map_mem_oneOf_mul.1 (h.word hk rfl)
    obtain ⟨operator, rfl, -⟩ := map_mem_oneOf.1 hrest
    exact ⟨⟨operator, operand⟩, by simp [unary?, hk, hc], isExpression_of_standsAlone hoperand⟩

theorem Readable.inner (h : n.Readable) (hk : n.kind = .parenthesizedExpression) :
    ∃ e, n.inner? = some e ∧ e.isExpression = true := by
  obtain ⟨opening, rest, hc, -, hrest⟩ := map_mem_just_mul.1 (h.word hk rfl)
  obtain ⟨e, rest, rfl, he, -⟩ := map_mem_oneOf_mul.1 hrest
  have he := isExpression_of_standsAlone he
  exact ⟨e, by simp [inner?, hk, hc, he], he⟩

/-- The arguments are what stands between the marks and the commas. -/
theorem Readable.argumentList (h : n.Readable)
    (hk : n.kind = .argumentList ∨ n.kind = .bracketedArgumentList) :
    ∃ opening middle closing, n.children = opening :: (middle ++ [closing]) ∧
      n.arguments = middle.filter fun c => c.kind != .comma := by
  obtain ⟨left, right, hleft, hright, hword⟩ : ∃ left right : Kind, left.isExpression = false ∧
      right.isExpression = false ∧ n.children.map kind ∈ Grammar.arguments left right := by
    rcases hk with hk | hk
    · exact ⟨_, _, rfl, rfl, h.word hk rfl⟩
    · exact ⟨_, _, rfl, rfl, h.word hk rfl⟩
  obtain ⟨opening, rest, hc, rfl, hrest⟩ := map_mem_just_mul.1 hword
  obtain ⟨middle, rest, rfl, hmiddle, hrest⟩ := map_mem_mul.1 hrest
  obtain ⟨closing, rfl, rfl⟩ := map_mem_just.1 hrest
  refine ⟨opening, middle, closing, hc, ?_⟩
  have hparts : ∀ c ∈ middle, c.isExpression = (c.kind != .comma) := by
    intro c hcm
    rcases map_mem_maybe.1 hmiddle with rfl | hmiddle
    · simp at hcm
    · rcases eq_comma_or_of_mem_separated hmiddle c.kind (List.mem_map_of_mem hcm) with hc | hc
      · simp [isExpression, hc, Kind.isExpression]
      · have hne : c.kind ≠ .comma := by
          intro heq
          simp [heq, Kind.standsAlone, Kind.isExpression] at hc
        simp [isExpression_of_standsAlone hc, hne]
  have hopening : opening.isExpression = false := hleft
  have hclosing : closing.isExpression = false := hright
  simp [arguments, hc, hopening, hclosing, List.filter_congr hparts]

theorem isExpression_of_mem_arguments (he : e ∈ n.arguments) : e.isExpression = true :=
  (List.mem_filter.1 he).2

theorem Readable.invocation (h : n.Readable) (hk : n.kind = .invocationExpression) :
    ∃ v, n.invocation? = some v ∧ v.expression.isExpression = true ∧
      ∀ e ∈ v.arguments, e.isExpression = true := by
  obtain ⟨e, rest, hc, he, hrest⟩ := map_mem_oneOf_mul.1 (h.word hk rfl)
  obtain ⟨list, rfl, -⟩ := map_mem_just.1 hrest
  refine ⟨⟨e, list.arguments⟩, by simp [invocation?, hk, hc], isExpression_of_standsAlone he, ?_⟩
  exact fun e he => isExpression_of_mem_arguments he

theorem Readable.creation (h : n.Readable) (hk : n.kind = .objectCreationExpression) :
    ∃ v, n.creation? = some v ∧ v.type.kind.isType = true ∧
      ∀ e ∈ v.arguments, e.isExpression = true := by
  obtain ⟨keyword, rest, hc, hkeyword, hrest⟩ := map_mem_just_mul.1 (h.word hk rfl)
  obtain ⟨type, rest, rfl, htype, hrest⟩ := map_mem_oneOf_mul.1 hrest
  obtain ⟨list, rfl, hlist⟩ := map_mem_just.1 hrest
  have htypeNe : type.kind ≠ .argumentList := by
    intro heq
    simp [heq, Kind.isType] at htype
  refine ⟨⟨type, list.arguments⟩, ?_, htype, fun e he => isExpression_of_mem_arguments he⟩
  simp [creation?, childOfKind?, hk, hc, hkeyword, htypeNe, hlist]

theorem Readable.literal (h : n.Readable) (hk : n.kind = .literalExpression) :
    ∃ leaf, n.literal? = some leaf ∧ leaf.kind.isLiteral = true := by
  obtain ⟨leaf, hc, hleaf⟩ := map_mem_oneOf.1 (h.word hk rfl)
  exact ⟨leaf, by simp [literal?, hk, hc], hleaf⟩

theorem Readable.operatorShape (h : n.Readable) {k mark : Kind} (hk : n.kind = k)
    (hnode : k.isNode = true) (hproduction : production k = Grammar.operand * just mark) :
    ∃ operand operator, n.operatorShape? mark = some (operand, operator) := by
  have hword := h.word hk hnode
  rw [hproduction] at hword
  obtain ⟨operand, rest, hc, hoperand, hrest⟩ := map_mem_oneOf_mul.1 hword
  obtain ⟨operator, rfl, hoperator⟩ := map_mem_just.1 hrest
  refine ⟨operand, operator, ?_⟩
  simp [operatorShape?, hc, isExpression_of_standsAlone hoperand, hoperator]

theorem Readable.expression (h : n.Readable) (hk : n.isExpression = true) :
    ∃ v, n.expression? = some v := by
  unfold expression?
  split
  · rename_i hkind
    obtain ⟨operand, operator, hshape⟩ := h.operatorShape hkind rfl rfl
    exact ⟨_, by rw [hshape]; rfl⟩
  · rename_i hkind
    obtain ⟨operand, operator, hshape⟩ := h.operatorShape hkind rfl rfl
    exact ⟨_, by rw [hshape]; rfl⟩
  · rename_i hkind
    obtain ⟨name, hname, -⟩ := h.identifierName hkind
    exact ⟨.identifier name, by rw [hname]; rfl⟩
  · exact ⟨_, if_pos hk⟩

theorem children_of_mem_guarded {keyword : Kind} {cs : List (Node α)}
    (h : cs.map kind ∈ guarded keyword) :
    ∃ mark opening condition closing body, cs = [mark, opening, condition, closing, body] ∧
      condition.isExpression = true ∧ body.kind.isStatement = true := by
  obtain ⟨mark, rest, rfl, -, hrest⟩ := map_mem_just_mul.1 h
  obtain ⟨opening, rest, rfl, -, hrest⟩ := map_mem_just_mul.1 hrest
  obtain ⟨condition, rest, rfl, hcondition, hrest⟩ := map_mem_oneOf_mul.1 hrest
  obtain ⟨closing, rest, rfl, -, hrest⟩ := map_mem_just_mul.1 hrest
  obtain ⟨body, rfl, hbody⟩ := map_mem_oneOf.1 hrest
  exact ⟨mark, opening, condition, closing, body, rfl, isExpression_of_standsAlone hcondition,
    hbody⟩

theorem Readable.ifStatement (h : n.Readable) (hk : n.kind = .ifStatement) :
    ∃ v, n.ifStatement? = some v ∧ v.condition.isExpression = true ∧
      v.thenBranch.kind.isStatement = true ∧
      n.ClauseValue .elseClause Kind.isStatement v.elseBranch := by
  obtain ⟨parts, others, hc, hparts, -⟩ := map_mem_mul.1 (h.word hk rfl)
  obtain ⟨mark, opening, condition, closing, body, rfl, hcondition, hbody⟩ :=
    children_of_mem_guarded hparts
  refine ⟨⟨condition, body, _⟩, by simp only [ifStatement?, hk, hc]; rfl, hcondition, hbody, ?_⟩
  exact h.clauseValue rfl rfl fun _ hk => hk

theorem Readable.whileStatement (h : n.Readable) (hk : n.kind = .whileStatement) :
    ∃ v, n.whileStatement? = some v ∧ v.condition.isExpression = true ∧
      v.body.kind.isStatement = true := by
  obtain ⟨mark, opening, condition, closing, body, hc, hcondition, hbody⟩ :=
    children_of_mem_guarded (h.word hk rfl)
  exact ⟨⟨condition, body⟩, by simp [whileStatement?, hk, hc], hcondition, hbody⟩

theorem Readable.expressionStatement (h : n.Readable) (hk : n.kind = .expressionStatement) :
    ∃ e, n.value? = some e ∧ e.isExpression = true := by
  obtain ⟨e, rest, hc, he, -⟩ := map_mem_oneOf_mul.1 (h.word hk rfl)
  have he := isExpression_of_standsAlone he
  exact ⟨e, by simp [value?, hk, hc, he], he⟩

/-- `return` and `throw` have a value unless nothing stands before their semicolon. -/
theorem Readable.jump (h : n.Readable)
    (hk : n.kind = .returnStatement ∨ n.kind = .throwStatement) :
    (∃ e, n.value? = some e ∧ e.isExpression = true) ∨ n.children.length = 2 := by
  have hword : ∃ keyword, n.children.map kind ∈ Grammar.jump keyword := by
    rcases hk with hk | hk
    · exact ⟨_, h.word hk rfl⟩
    · exact ⟨_, h.word hk rfl⟩
  obtain ⟨keyword, hword⟩ := hword
  obtain ⟨mark, rest, hc, -, hrest⟩ := map_mem_just_mul.1 hword
  obtain ⟨value, rest, rfl, hvalue, hsemicolon⟩ := map_mem_mul.1 hrest
  obtain ⟨semicolon, rfl, -⟩ := map_mem_just.1 hsemicolon
  rcases map_mem_maybe.1 hvalue with rfl | hvalue
  · exact .inr (by simp [hc])
  · obtain ⟨e, rfl, he⟩ := map_mem_oneOf.1 hvalue
    have he := isExpression_of_standsAlone he
    refine .inl ⟨e, ?_, he⟩
    rcases hk with hk | hk <;> simp [value?, hk, hc, he]

theorem Readable.declarator (h : n.Readable) (hk : n.kind = .variableDeclarator) :
    ∃ v, n.declarator? = some v ∧ v.nameToken.IsName ∧
      n.ClauseValue .equalsValueClause Kind.isExpression v.initializer := by
  obtain ⟨name, rest, hc, hname, -⟩ := map_mem_just_mul.1 (h.word hk rfl)
  exact ⟨⟨name, n.initializer?⟩, by simp [declarator?, hk, hc], h.isName (by simp [hc]) hname,
    h.initializer⟩

theorem Readable.parameter (h : n.Readable) (hk : n.kind = .parameter) :
    ∃ v, n.parameter? = some v ∧ v.type.kind.isType = true ∧ v.nameToken.IsName ∧
      n.ClauseValue .equalsValueClause Kind.isExpression n.initializer? := by
  obtain ⟨type, rest, hc, htype, hrest⟩ := map_mem_oneOf_mul.1 (h.word hk rfl)
  obtain ⟨name, rest, rfl, hname, -⟩ := map_mem_just_mul.1 hrest
  exact ⟨⟨type, name⟩, by simp [parameter?, hk, hc], htype, h.isName (by simp [hc]) hname,
    h.initializer⟩

theorem exists_typeChild? (hc : c ∈ n.children) (hk : c.kind.isType = true) :
    ∃ type, n.typeChild? = some type ∧ type.kind.isType = true := by
  obtain ⟨type, htype⟩ : ∃ type, n.typeChild? = some type := by
    rw [← Option.isSome_iff_exists, typeChild?, List.find?_isSome]
    exact ⟨c, hc, hk⟩
  have hfind : n.children.find? (fun c => c.kind.isType) = some type := htype
  have hkind := List.find?_some hfind
  exact ⟨type, htype, hkind⟩

theorem exists_childOfKind? (hc : c ∈ n.children) :
    ∃ d, n.childOfKind? c.kind = some d := by
  rw [← Option.isSome_iff_exists, childOfKind?, List.find?_isSome]
  exact ⟨c, hc, by simp⟩

theorem Readable.variableDeclaration (h : n.Readable)
    (hk : n.kind = .localDeclarationStatement ∨ n.kind = .fieldDeclaration) :
    ∃ v, n.variableDeclaration? = some v ∧ v.type.kind.isType = true ∧ v.declarators ≠ [] := by
  have hword : ∃ before rest, n.children = before ++ rest ∧
      rest.map kind ∈ Grammar.type * (separated (just .variableDeclarator) * just .semicolon) := by
    rcases hk with hk | hk
    · exact ⟨[], n.children, rfl, h.word hk rfl⟩
    · obtain ⟨before, rest, hc, -, hrest⟩ := map_mem_mul.1 (h.word hk rfl)
      exact ⟨before, rest, hc, hrest⟩
  obtain ⟨before, rest, hc, hrest⟩ := hword
  obtain ⟨type, rest, rfl, htype, hrest⟩ := map_mem_oneOf_mul.1 hrest
  obtain ⟨declarators, semicolon, rfl, hdeclarators, -⟩ := map_mem_mul.1 hrest
  obtain ⟨first, others, rfl, hfirst, -⟩ := map_mem_just_mul.1 hdeclarators
  obtain ⟨found, hfound, hfoundType⟩ := exists_typeChild? (n := n) (c := type) (by simp [hc]) htype
  refine ⟨⟨found, _⟩, by simp only [variableDeclaration?, if_pos hk, hfound]; rfl, hfoundType, ?_⟩
  have hmem : first ∈ n.children := by simp [hc]
  exact List.ne_nil_of_mem (List.mem_filter.2 ⟨hmem, by simpa using hfirst⟩)

/-- The type and the name of a member, behind its modifiers. -/
theorem Readable.typedName (h : n.Readable) {L : Language Kind}
    (hword : n.children.map kind ∈ Grammar.modifiers * (Grammar.type * (just .identifier * L))) :
    ∃ type name, n.typeChild? = some type ∧ type.kind.isType = true ∧
      n.childOfKind? .identifier = some name ∧ name.IsName := by
  obtain ⟨before, rest, hc, -, hrest⟩ := map_mem_mul.1 hword
  obtain ⟨type, rest, rfl, htype, hrest⟩ := map_mem_oneOf_mul.1 hrest
  obtain ⟨name, rest, rfl, hname, -⟩ := map_mem_just_mul.1 hrest
  obtain ⟨found, hfound, hfoundType⟩ := exists_typeChild? (n := n) (c := type) (by simp [hc]) htype
  obtain ⟨token, htoken⟩ := exists_childOfKind? (n := n) (c := name) (by simp [hc])
  rw [hname] at htoken
  obtain ⟨hmem, hkind⟩ := childOfKind?_eq_some htoken
  exact ⟨found, token, hfound, hfoundType, htoken, h.isName hmem hkind⟩

theorem Readable.property (h : n.Readable) (hk : n.kind = .propertyDeclaration) :
    ∃ v, n.property? = some v ∧ v.type.kind.isType = true ∧ v.nameToken.IsName ∧
      n.ClauseValue .equalsValueClause Kind.isExpression v.initializer := by
  obtain ⟨type, name, htype, hisType, hname, hisName⟩ := h.typedName (h.word hk rfl)
  refine ⟨⟨type, name, n.initializer?⟩, ?_, hisType, hisName, h.initializer⟩
  simp [property?, hk, htype, hname]

theorem Readable.method (h : n.Readable) (hk : n.kind = .methodDeclaration) :
    ∃ v type, n.method? = some v ∧ v.nameToken.IsName ∧ v.returnType = some type ∧
      type.kind.isType = true := by
  obtain ⟨type, name, htype, hisType, hname, hisName⟩ := h.typedName (h.word hk rfl)
  refine ⟨_, type, by simp only [method?, if_pos (Or.inl hk), hname]; rfl, hisName, ?_, hisType⟩
  simp [hk, htype]

theorem Readable.constructor (h : n.Readable) (hk : n.kind = .constructorDeclaration) :
    ∃ v, n.method? = some v ∧ v.nameToken.IsName ∧ v.returnType = none := by
  obtain ⟨before, rest, hc, -, hrest⟩ := map_mem_mul.1 (h.word hk rfl)
  obtain ⟨name, rest, rfl, hname, -⟩ := map_mem_just_mul.1 hrest
  obtain ⟨token, htoken⟩ := exists_childOfKind? (n := n) (c := name) (by simp [hc])
  rw [hname] at htoken
  obtain ⟨hmem, hkind⟩ := childOfKind?_eq_some htoken
  refine ⟨_, by simp only [method?, if_pos (Or.inr hk), htoken]; rfl, h.isName hmem hkind, ?_⟩
  simp [hk]

/-- Every view of the node's kind has an answer, with parts of the kinds that their places ask
for. -/
structure Viewed (n : Node α) : Prop where
  identifierName : n.kind = .identifierName → ∃ name, n.identifier? = some name ∧ name ≠ ""
  memberAccess : n.kind = .memberAccessExpression →
    ∃ v, n.memberAccess? = some v ∧ v.expression.isExpression = true ∧ v.operator.kind = .dot ∧
      ∃ name, v.name.identifier? = some name ∧ name ≠ ""
  binary : n.kind = .binaryExpression ∨ n.kind = .assignmentExpression →
    ∃ v, n.binary? = some v ∧ v.left.isExpression = true ∧ v.right.isExpression = true
  unary : n.kind = .prefixUnaryExpression ∨ n.kind = .postfixUnaryExpression →
    ∃ v, n.unary? = some v ∧ v.operand.isExpression = true
  inner : n.kind = .parenthesizedExpression → ∃ e, n.inner? = some e ∧ e.isExpression = true
  argumentList : n.kind = .argumentList ∨ n.kind = .bracketedArgumentList →
    ∃ opening middle closing, n.children = opening :: (middle ++ [closing]) ∧
      n.arguments = middle.filter fun c => c.kind != .comma
  invocation : n.kind = .invocationExpression →
    ∃ v, n.invocation? = some v ∧ v.expression.isExpression = true ∧
      ∀ e ∈ v.arguments, e.isExpression = true
  creation : n.kind = .objectCreationExpression →
    ∃ v, n.creation? = some v ∧ v.type.kind.isType = true ∧
      ∀ e ∈ v.arguments, e.isExpression = true
  literal : n.kind = .literalExpression →
    ∃ leaf, n.literal? = some leaf ∧ leaf.kind.isLiteral = true
  expression : n.isExpression = true → ∃ v, n.expression? = some v
  ifStatement : n.kind = .ifStatement →
    ∃ v, n.ifStatement? = some v ∧ v.condition.isExpression = true ∧
      v.thenBranch.kind.isStatement = true ∧
      n.ClauseValue .elseClause Kind.isStatement v.elseBranch
  whileStatement : n.kind = .whileStatement →
    ∃ v, n.whileStatement? = some v ∧ v.condition.isExpression = true ∧
      v.body.kind.isStatement = true
  expressionStatement : n.kind = .expressionStatement →
    ∃ e, n.value? = some e ∧ e.isExpression = true
  jump : n.kind = .returnStatement ∨ n.kind = .throwStatement →
    (∃ e, n.value? = some e ∧ e.isExpression = true) ∨ n.children.length = 2
  variableDeclaration : n.kind = .localDeclarationStatement ∨ n.kind = .fieldDeclaration →
    ∃ v, n.variableDeclaration? = some v ∧ v.type.kind.isType = true ∧ v.declarators ≠ []
  declarator : n.kind = .variableDeclarator →
    ∃ v, n.declarator? = some v ∧ v.nameToken.IsName ∧
      n.ClauseValue .equalsValueClause Kind.isExpression v.initializer
  parameter : n.kind = .parameter →
    ∃ v, n.parameter? = some v ∧ v.type.kind.isType = true ∧ v.nameToken.IsName ∧
      n.ClauseValue .equalsValueClause Kind.isExpression n.initializer?
  method : n.kind = .methodDeclaration →
    ∃ v type, n.method? = some v ∧ v.nameToken.IsName ∧ v.returnType = some type ∧
      type.kind.isType = true
  constructor : n.kind = .constructorDeclaration →
    ∃ v, n.method? = some v ∧ v.nameToken.IsName ∧ v.returnType = none
  property : n.kind = .propertyDeclaration →
    ∃ v, n.property? = some v ∧ v.type.kind.isType = true ∧ v.nameToken.IsName ∧
      n.ClauseValue .equalsValueClause Kind.isExpression v.initializer

theorem Readable.viewed (h : n.Readable) : n.Viewed where
  identifierName := h.identifierName
  memberAccess := h.memberAccess
  binary := h.binary
  unary := h.unary
  inner := h.inner
  argumentList := h.argumentList
  invocation := h.invocation
  creation := h.creation
  literal := h.literal
  expression := h.expression
  ifStatement := h.ifStatement
  whileStatement := h.whileStatement
  expressionStatement := h.expressionStatement
  jump := h.jump
  variableDeclaration := h.variableDeclaration
  declarator := h.declarator
  parameter := h.parameter
  method := h.method
  constructor := h.constructor
  property := h.property

/-! ## Conditional accesses -/

theorem exists_parent {m : Node α} (hm : m ∈ n.preorder) (hne : m ≠ n) :
    ∃ p ∈ n.preorder, m ∈ p.children := by
  induction n with
  | token a t => exact absurd (by simpa using hm) hne
  | branch a k cs ih =>
    obtain ⟨c, hc, hmc⟩ := (mem_preorder_branch.1 hm).resolve_left hne
    by_cases hmc' : m = c
    · exact ⟨branch a k cs, self_mem_preorder _, hmc' ▸ hc⟩
    · obtain ⟨p, hp, hmp⟩ := ih c hc hmc hmc'
      exact ⟨p, mem_preorder_branch.2 (.inr ⟨c, hc, hp⟩), hmp⟩

/-- A conditional access is the first child of the access that it guards. -/
theorem Readable.guards (h : n.Readable) (hroot : n.kind ≠ .conditionalAccessExpression)
    {m : Node α} (hm : m ∈ n.preorder) (hk : m.kind = .conditionalAccessExpression) :
    ∃ p ∈ n.preorder,
      (p.kind = .memberAccessExpression ∨ p.kind = .elementAccessExpression) ∧
      p.children.head? = some m := by
  have hne : m ≠ n := by
    rintro rfl
    exact hroot hk
  obtain ⟨p, hp, hmp⟩ := exists_parent hm hne
  have hreadable := h.of_mem hp
  have hbranch : p.token? = none := by
    cases p with
    | token a t => simp at hmp
    | branch a k cs => rfl
  have hword := h.conforms p hp hbranch
  -- Behind the first child of an access stand marks, names and arguments only.
  have hfirst {L : Language Kind} (hL : Avoids .conditionalAccessExpression L)
      (hword : p.children.map kind ∈ oneOf Kind.isExpression * L) :
      p.children.head? = some m := by
    obtain ⟨e, rest, hc, -, hrest⟩ := map_mem_oneOf_mul.1 hword
    rw [hc] at hmp ⊢
    rcases List.mem_cons.1 hmp with rfl | hmp
    · rfl
    · exact absurd (List.mem_map_of_mem hmp) (hk ▸ hL _ hrest)
  refine ⟨p, hp, ?_⟩
  by_cases hmember : p.kind = .memberAccessExpression
  · rw [hmember] at hword
    exact ⟨.inl hmember, hfirst ((avoids_oneOf rfl).mul (avoids_oneOf rfl)) hword⟩
  · by_cases helement : p.kind = .elementAccessExpression
    · rw [helement] at hword
      exact ⟨.inr helement, hfirst (avoids_oneOf rfl) hword⟩
    · have hmem : Kind.conditionalAccessExpression ∈ p.children.map kind :=
        hk ▸ List.mem_map_of_mem hmp
      exact absurd hmem (avoids_production hmember helement _ hword)

end Node

end NullLint
