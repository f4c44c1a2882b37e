import NullLint.Proofs.Semantics.Embedding

/-!
# Types in an embedded model

The second file may tell more about null in its types than the first. Then what the first model
knows of a type is what the second one knows, with the marks of reference types changed.
-/

namespace NullLint

/-! ## Changed facts -/

/-- The declared type with its facts changed. -/
def DeclaredType.map (u : TypeFacts → TypeFacts) : DeclaredType → DeclaredType
  | .known facts => .known (u facts)
  | .implicit => .implicit
  | .absent => .absent

/-- The change of the facts of types concerns at most the marks of reference types. -/
structure TypeFacts.KeepsSort (u : TypeFacts → TypeFacts) : Prop where
  value : u .value = .value
  nullableValue : u .nullableValue = .nullableValue
  reference : ∀ mark, (u (.reference mark)).isReference = true

namespace TypeFacts.KeepsSort

variable {u : TypeFacts → TypeFacts} (h : KeepsSort u)
include h

@[simp] theorem isReference (t : TypeFacts) : (u t).isReference = t.isReference := by
  cases t with
  | value => rw [h.value]
  | nullableValue => rw [h.nullableValue]
  | reference mark =>
    rw [h.reference]
    rfl

theorem eq_value_iff (t : TypeFacts) : u t = .value ↔ t = .value := by
  cases t with
  | value => simp [h.value]
  | nullableValue => simp [h.nullableValue]
  | reference mark =>
    have hreference := h.reference mark
    constructor
    · intro heq
      simp [heq, TypeFacts.isReference] at hreference
    · nofun

theorem isValue (t : TypeFacts) : (u t).isValue = t.isValue := by
  have hreference := h.isReference t
  cases t <;> cases hu : u _ <;> simp_all [TypeFacts.isReference, TypeFacts.isValue]

end TypeFacts.KeepsSort

/-! ## Types in the source -/

namespace TypeTable

section Parts

variable {α : Type} (table : TypeTable) {n : Node α}

theorem declared_nullableType (hk : n.kind = .nullableType) :
    table.declared n =
      ((n.children.head?.map fun inner => table.nullable (table.declared inner)).getD .absent) := by
  rw [declared.eq_def]
  simp only [hk]
  cases n.children <;> rfl

theorem declared_qualifiedName (hk : n.kind = .qualifiedName) :
    table.declared n = (n.children.getLast?.map table.declared).getD .absent := by
  rw [declared.eq_def]
  simp only [hk]
  cases n.children.getLast? <;> rfl

theorem declared_genericName (hk : n.kind = .genericName) :
    table.declared n =
      match n.children with
      | [name, arguments] =>
        match typesIn arguments with
        | [argument] =>
          if name.leafText = "Nullable" ∧ table.declared argument = .known .value then
            .known .nullableValue
          else .known (table.reference false)
        | _ => .known (table.reference false)
      | _ => .known (table.reference false) := by
  rw [declared.eq_def]
  simp only [hk]
  rcases n.children with _ | ⟨name, _ | ⟨arguments, _ | _⟩⟩
  · rfl
  · rfl
  · simp only
    rcases typesIn arguments with _ | ⟨argument, _ | _⟩ <;> rfl
  · rfl

end Parts

theorem typesIn_map (f : Place → Place) (n : Placed) :
    typesIn (n.map f) = (typesIn n).map (Node.map f) := by
  simp [typesIn, List.filter_map, Function.comp_def]

/-- The two tables have the same structs, and their reference types differ by `u`. -/
structure Matches (u : TypeFacts → TypeFacts) (table table' : TypeTable) : Prop where
  keepsSort : TypeFacts.KeepsSort u
  structs : table'.structs = table.structs
  reference : ∀ nullable, table.reference nullable = u (table'.reference nullable)

namespace Matches

variable {u : TypeFacts → TypeFacts} {table table' : TypeTable} (h : table.Matches u table')
include h

theorem named (name : String) : table.named name = (table'.named name).map u := by
  unfold TypeTable.named
  rw [h.structs]
  split
  · rfl
  split
  · simp [DeclaredType.map, h.keepsSort.value]
  · simp [DeclaredType.map, h.reference]

theorem nullable (t : DeclaredType) : table.nullable (t.map u) = (table'.nullable t).map u := by
  cases t with
  | known facts =>
    simp only [DeclaredType.map, TypeTable.nullable, h.keepsSort.isValue]
    split
    · rw [h.keepsSort.nullableValue]
    · rw [h.reference]
  | implicit => rfl
  | absent => rfl

theorem declared (f : Place → Place) (n : Placed) :
    table.declared n = (table'.declared (n.map f)).map u := by
  induction hsize : n.size using Nat.strongRecOn generalizing n with
  | ind size ih =>
    subst hsize
    by_cases hnullable : n.kind = .nullableType
    · rw [declared_nullableType _ hnullable, declared_nullableType _ (by simpa using hnullable),
        Node.children_map]
      cases hc : n.children with
      | nil => rfl
      | cons inner rest =>
        have hinner := ih _ (Node.size_lt_of_mem_children (by simp [hc])) inner rfl
        simp only [List.head?_cons, List.map_cons, Option.map_some, Option.getD_some, hinner,
          h.nullable]
    by_cases hqualified : n.kind = .qualifiedName
    · rw [declared_qualifiedName _ hqualified, declared_qualifiedName _ (by simpa using hqualified),
        Node.children_map, List.getLast?_map]
      cases hc : n.children.getLast? with
      | none => rfl
      | some right =>
        exact ih _ (Node.size_lt_of_mem_children (List.mem_of_getLast? hc)) right rfl
    by_cases hgeneric : n.kind = .genericName
    · rw [declared_genericName _ hgeneric, declared_genericName _ (by simpa using hgeneric),
        Node.children_map]
      rcases hc : n.children with _ | ⟨name, _ | ⟨arguments, _ | _⟩⟩
      any_goals exact congrArg DeclaredType.known (h.reference false)
      simp only [List.map_cons, List.map_nil, typesIn_map, Node.leafText_map]
      rcases ht : typesIn arguments with _ | ⟨argument, _ | _⟩
      any_goals exact congrArg DeclaredType.known (h.reference false)
      have hmem : argument ∈ typesIn arguments := by simp [ht]
      have hargument := ih _ (Nat.lt_trans
        (Node.size_lt_of_mem_children (List.mem_filter.1 hmem).1)
        (Node.size_lt_of_mem_children (n := n) (by simp [hc]))) argument rfl
      have hvalue : table.declared argument = .known .value ↔
          table'.declared (argument.map f) = .known .value := by
        rw [hargument]
        cases table'.declared (argument.map f) <;>
          simp [DeclaredType.map, h.keepsSort.eq_value_iff]
      simp only [List.map_cons, List.map_nil, hvalue]
      split
      · simp [DeclaredType.map, h.keepsSort.nullableValue]
      · exact congrArg DeclaredType.known (h.reference false)
    · rw [declared.eq_def, declared.eq_def table', Node.kind_map]
      split
      · contradiction
      · rw [Node.children_map]
        cases n.children with
        | nil => rfl
        | cons word rest =>
          simp only [List.map_cons, Node.kind_map, Node.leafText_map, h.named]
          split <;> rfl
      · contradiction
      · contradiction
      · exact congrArg DeclaredType.known (h.reference false)
      · rfl

end Matches

end TypeTable

theorem TypeTable.Matches.declaredType_map {u : TypeFacts → TypeFacts} {table table' : TypeTable}
    (h : table.Matches u table') (e : Embedding) (s : Symbol) :
    Model.declaredType table s = (Model.declaredType table' (e.onSymbol s)).map u := by
  have hkind : (e.onSymbol s).kind = s.kind := rfl
  have htype : (e.onSymbol s).typeNode = s.typeNode.map (Node.map e.place) := rfl
  unfold Model.declaredType
  rw [hkind, htype]
  split
  · rfl
  · cases s.typeNode with
    | none => rfl
    | some type => exact h.declared e.place type

/-! ## Models -/

/-- The model `m` is found in `m'`: the names under other numbers, and the types of `m` are those of
`m'` changed by `u`. -/
structure Model.Embeds (e : Embedding) (u : TypeFacts → TypeFacts) (m m' : Model) : Prop extends
    Names e m m' where
  table : m.table.Matches u m'.table
  symbolType : ∀ x, m.symbolType x = (m'.symbolType (e.symbol x)).map u
  length_types : m.types.length = m.bindings.symbols.length
  length_types' : m'.types.length = m'.bindings.symbols.length

namespace Model

theorem inConditionalChain_parenthesized {n : Placed} (hk : n.kind = .parenthesizedExpression) :
    inConditionalChain n = n.inner?.any inConditionalChain := by
  rw [inConditionalChain.eq_def]
  simp only [hk]
  cases n.inner? <;> rfl

theorem inConditionalChain_operand {n : Placed}
    (hk : n.kind = .memberAccessExpression ∨ n.kind = .invocationExpression ∨
      n.kind = .elementAccessExpression ∨ n.kind = .suppressNullableWarningExpression) :
    inConditionalChain n = n.children.head?.any inConditionalChain := by
  rw [inConditionalChain.eq_def]
  rcases hk with hk | hk | hk | hk <;> simp only [hk] <;> cases n.children <;> rfl

/-- Whether an access goes through a `?.` does not depend on where it stands. -/
theorem inConditionalChain_map (f : Place → Place) (n : Placed) :
    inConditionalChain (n.map f) = inConditionalChain n := by
  induction hsize : n.size using Nat.strongRecOn generalizing n with
  | ind size ih =>
    subst hsize
    by_cases hparens : n.kind = .parenthesizedExpression
    · rw [inConditionalChain_parenthesized hparens,
        inConditionalChain_parenthesized (by simpa using hparens), Node.inner?_map]
      cases hi : n.inner? with
      | none => rfl
      | some e => exact ih _ (Node.size_lt_of_inner? hi) e rfl
    by_cases hoperand : n.kind = .memberAccessExpression ∨ n.kind = .invocationExpression ∨
        n.kind = .elementAccessExpression ∨ n.kind = .suppressNullableWarningExpression
    · rw [inConditionalChain_operand hoperand,
        inConditionalChain_operand (by simpa using hoperand), Node.children_map]
      cases hc : n.children with
      | nil => rfl
      | cons e rest => exact ih _ (Node.size_lt_of_mem_children (by simp [hc])) e rfl
    · simp only [not_or] at hoperand
      rw [inConditionalChain.eq_def, inConditionalChain.eq_def n, Node.kind_map]
      split <;> simp_all

theorem typeOf_parenthesized {m : Model} {n : Placed} (hk : n.kind = .parenthesizedExpression) :
    m.typeOf n = n.inner?.bind m.typeOf := by
  rw [typeOf.eq_def]
  simp only [hk]
  cases n.inner? <;> rfl

theorem typeOf_assertion {m : Model} {n : Placed}
    (hk : n.kind = .suppressNullableWarningExpression) :
    m.typeOf n = n.children.head?.bind m.typeOf := by
  rw [typeOf.eq_def]
  simp only [hk]
  cases n.children <;> rfl

namespace Embeds

variable {e : Embedding} {u : TypeFacts → TypeFacts} {m m' : Model} (h : m.Embeds e u m') 
  (n : Placed)
include h

theorem literalType_map : m.literalType n = (m'.literalType (n.map e.place)).map u := by
  have hkind : (n.map e.place).literal?.map Node.kind = n.literal?.map Node.kind := by
    simp [Function.comp_def]
  unfold literalType
  rw [hkind]
  split <;> simp [h.table.keepsSort.value, h.table.reference]

theorem nameType_map : m.nameType n = (m'.nameType (n.map e.place)).map u := by
  unfold nameType
  rw [e.id_map, h.symbolAt]
  cases m.symbolAt n.id with
  | none => rfl
  | some x =>
    simp only [Option.bind_eq_bind, Option.bind_some, Option.map_some, h.symbolIs_map]
    split
    · exact h.symbolType x
    · rfl

theorem creationType_map : m.creationType n = (m'.creationType (n.map e.place)).map u := by
  unfold creationType
  rw [Node.creation?_map]
  cases n.creation? with
  | none => rfl
  | some v =>
    simp only [Option.bind_eq_bind, Option.bind_some, Option.map_some, Node.Creation.map_type,
      h.table.declared e.place]
    cases m'.table.declared (v.type.map e.place) with
    | known facts =>
      simp only [DeclaredType.map, h.table.keepsSort.isReference, h.table.reference, Option.map_some]
      split <;> rfl
    | implicit => rfl
    | absent => rfl

theorem invocationType_map : m.invocationType n = (m'.invocationType (n.map e.place)).map u := by
  unfold invocationType
  rw [Node.invocation?_map]
  cases n.invocation? with
  | none => rfl
  | some v =>
    simp only [Option.bind_eq_bind, Option.bind_some, Option.map_some,
      Node.Invocation.map_expression, Node.unparenthesized_map, Node.kind_map]
    generalize v.expression.unparenthesized = callee
    split
    · rw [e.id_map, h.symbolAt]
      cases m.symbolAt callee.id with
      | none => rfl
      | some x =>
        simp only [Option.bind_some, Option.map_some, h.symbolIs_map]
        split
        · exact h.symbolType x
        · rfl
    · rw [Node.memberAccess?_map]
      cases callee.memberAccess? with
      | none => rfl
      | some access =>
        simp only [Option.bind_some, Option.map_some, Node.MemberAccess.map_name,
          Node.identifier?_map, Node.MemberAccess.map_expression, inConditionalChain_map]
        split
        · simp [h.table.reference]
        · rfl
    · rfl

/-- The types of `m` are those of `m'` changed by `u`. -/
theorem typeOf_map : m.typeOf n = (m'.typeOf (n.map e.place)).map u := by
  induction hsize : n.size using Nat.strongRecOn generalizing n with
  | ind size ih =>
    subst hsize
    by_cases hparens : n.kind = .parenthesizedExpression
    · rw [typeOf_parenthesized hparens, typeOf_parenthesized (by simpa using hparens),
        Node.inner?_map]
      cases hi : n.inner? with
      | none => rfl
      | some e' => exact ih _ (Node.size_lt_of_inner? hi) e' rfl
    by_cases hassertion : n.kind = .suppressNullableWarningExpression
    · rw [typeOf_assertion hassertion, typeOf_assertion (by simpa using hassertion),
        Node.children_map]
      cases hc : n.children with
      | nil => rfl
      | cons e' rest => exact ih _ (Node.size_lt_of_mem_children (by simp [hc])) e' rfl
    · rw [typeOf.eq_def, typeOf.eq_def m', Node.kind_map]
      split
      · contradiction
      · contradiction
      · exact h.literalType_map n
      · exact h.nameType_map n
      · simp [h.table.reference]
      · exact h.creationType_map n
      · exact h.invocationType_map n
      · simp only [Node.binary?_map, Option.any_map, Node.Binary.map_operator, Node.kind_map]
        split
        · simp [h.table.keepsSort.value]
        · rfl
      · simp only [Node.unary?_map, Option.any_map, Node.Unary.map_operator, Node.kind_map]
        split
        · simp [h.table.keepsSort.value]
        · rfl
      · rfl

/-! ## Types of symbols -/

theorem inferredType_map (s : Symbol) :
    m.inferredType s = (m'.inferredType (e.onSymbol s)).map u := by
  simp only [inferredType, Embedding.onSymbol]
  cases s.initializer with
  | none => rfl
  | some value =>
    simp only [Option.map_some, Option.bind_some, h.typeOf_map value, Option.map_map]
    congr 1
    funext facts
    simp only [Function.comp_apply, h.table.keepsSort.isReference, h.table.reference]
    split <;> rfl

theorem lt_length_iff (x : Nat) : e.symbol x < m'.types.length ↔ x < m.types.length := by
  have hsymbol : m'.bindings.symbols[e.symbol x]? = _ := h.symbol? x
  rw [h.length_types, h.length_types', ← not_iff_not, Nat.not_lt, Nat.not_lt,
    ← List.getElem?_eq_none_iff, ← List.getElem?_eq_none_iff, hsymbol, Option.map_eq_none_iff]
  rfl

/-- Corresponding symbols get corresponding types. -/
theorem setType (x : Nat) {t t' : Option TypeFacts} (ht : t = t'.map u) :
    ({ m with types := m.types.set x t } : Model).Embeds e u
      { m' with types := m'.types.set (e.symbol x) t' } where
  symbolAt := h.symbolAt
  symbol? := h.symbol?
  table := h.table
  symbolType y := by
    simp only [Model.symbolType, List.getElem?_set]
    by_cases hxy : x = y
    · simp only [hxy, if_true, h.lt_length_iff]
      split
      · exact ht
      · rfl
    · rw [if_neg hxy, if_neg (e.symbol_injective.ne hxy)]
      exact h.symbolType y
  length_types := by simpa using h.length_types
  length_types' := by simpa using h.length_types'

/-- The type of a symbol that the first file does not have does not matter. -/
theorem setType_outside {y : Nat} (hy : ∀ x, e.symbol x ≠ y) (t' : Option TypeFacts) :
    m.Embeds e u { m' with types := m'.types.set y t' } where
  symbolAt := h.symbolAt
  symbol? := h.symbol?
  table := h.table
  symbolType x := by
    simp only [Model.symbolType, List.getElem?_set, if_neg (hy x).symm]
    exact h.symbolType x
  length_types := h.length_types
  length_types' := by simpa using h.length_types'

theorem inferAt (x : Nat) : (m.inferAt x).Embeds e u (m'.inferAt (e.symbol x)) := by
  simp only [Model.inferAt, h.symbol?]
  cases hs : m.symbol? x with
  | none => exact h
  | some s =>
    have himplicit : declaredType m'.table (e.onSymbol s) = .implicit ↔
        declaredType m.table s = .implicit := by
      rw [h.table.declaredType_map e]
      cases declaredType m'.table (e.onSymbol s) <;> simp [DeclaredType.map]
    simp only [Option.map_some, himplicit]
    split
    · exact h.setType x (h.inferredType_map s)
    · exact h

theorem inferAt_outside {y : Nat} (hy : ∀ x, e.symbol x ≠ y) : m.Embeds e u (m'.inferAt y) := by
  unfold Model.inferAt
  split
  · split
    · exact h.setType_outside hy _
    · exact h
  · exact h

omit h in
theorem foldl_inferAt (xs : List Nat) (h : m.Embeds e u m') :
    (xs.foldl Model.inferAt m).Embeds e u ((xs.map e.symbol).foldl Model.inferAt m') := by
  induction xs generalizing m m' with
  | nil => exact h
  | cons x xs ih => exact ih (h.inferAt x)

omit h in
theorem foldl_inferAt_outside {ys : List Nat} (hys : ∀ y ∈ ys, ∀ x, e.symbol x ≠ y)
    (h : m.Embeds e u m') : m.Embeds e u (ys.foldl Model.inferAt m') := by
  induction ys generalizing m' with
  | nil => exact h
  | cons y ys ih =>
    exact ih (fun z hz => hys z (by simp [hz])) (h.inferAt_outside (hys y (by simp)))

end Embeds

/-- The model in which only the types are known that the source writes out. -/
def written (root : Option Placed) (bindings : Bindings) (table : TypeTable) : Model :=
  ⟨root, bindings, table, bindings.symbols.map (writtenType table)⟩

/-- The structs that a file declares. -/
def structs (bindings : Bindings) : List String :=
  (bindings.symbols.filter fun s => s.kind == .structType).map Symbol.name

theorem build_eq (root : Option Placed) (nullableContext : Bool) :
    build root nullableContext =
      (List.range (Bindings.ofRoot root).symbols.length).foldl Model.inferAt
        (written root (Bindings.ofRoot root)
          ⟨structs (Bindings.ofRoot root), nullableContext⟩) := rfl

/-- Names that correspond have written types that correspond. -/
theorem embeds_written {e : Embedding} {u : TypeFacts → TypeFacts} {root root' : Option Placed}
    {b b' : Bindings} {table table' : TypeTable}
    (hsymbolAt : ∀ i, b'.symbolOf.lookup (e.node i) = (b.symbolOf.lookup i).map e.symbol)
    (hsymbol : ∀ x, b'.symbols[e.symbol x]? = b.symbols[x]?.map e.onSymbol)
    (htable : table.Matches u table') :
    (written root b table).Embeds e u (written root' b' table') where
  symbolAt := hsymbolAt
  symbol? := hsymbol
  table := htable
  symbolType x := by
    simp only [Model.symbolType, written, List.getElem?_map, hsymbol]
    cases b.symbols[x]? with
    | none => rfl
    | some s =>
      simp only [Option.map_some, Option.join_some, writtenType, htable.declaredType_map e]
      cases declaredType table' (e.onSymbol s) <;> rfl
  length_types := by simp [written]
  length_types' := by simp [written]

end Model

end NullLint
