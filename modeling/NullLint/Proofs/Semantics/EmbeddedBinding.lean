import NullLint.Proofs.Semantics.BindingSteps
import NullLint.Proofs.Semantics.EmbeddedTypes

/-!
# Binding in an embedded file

Two walks whose symbols, scopes and entries correspond go on to correspond when they bind the same
node, and what one walk does inside a block of its own is not seen by the other one behind it.
-/

namespace NullLint.Bindings

variable {e : Embedding} {κ : Nat → Nat} {b b' : Bindings} {chain : List Nat}

/-! ## The symbols and parts of a node that stands elsewhere -/

section Map

variable (e) (n : Placed)

theorem typeSymbols_map : typeSymbols (n.map e.place) = (typeSymbols n).map e.onSymbol := by
  simp only [typeSymbols, Node.kind_map, Node.declaredName?_map, e.id_map]
  split <;> first
    | rfl
    | (rw [List.map_map]; rfl)

theorem variableSymbols_map (kind : SymbolKind) (type : Option Placed) :
    variableSymbols kind (type.map (Node.map e.place)) (n.map e.place) =
      (variableSymbols kind type n).map e.onSymbol := by
  simp only [variableSymbols, Node.declarator?_map, e.id_map]
  cases n.declarator? with
  | none => rfl
  | some v => simp [Embedding.onSymbol]

theorem parameterSymbols_map :
    parameterSymbols (n.map e.place) = (parameterSymbols n).map e.onSymbol := by
  simp only [parameterSymbols, Node.parameter?_map, e.id_map]
  cases n.parameter? with
  | none => rfl
  | some v => simp [Embedding.onSymbol]

theorem memberSymbols_map :
    memberSymbols (n.map e.place) = (memberSymbols n).map e.onSymbol := by
  unfold memberSymbols
  rw [Node.kind_map]
  split
  · rw [Node.variableDeclaration?_map]
    cases n.variableDeclaration? with
    | none => rfl
    | some v =>
      simp only [Option.map_some, Option.toList_some, List.flatMap_cons, List.flatMap_nil,
        List.append_nil, Node.VariableDeclaration.map_declarators,
        Node.VariableDeclaration.map_type, List.flatMap_map, List.map_flatMap]
      exact List.flatMap_congr fun d _ => variableSymbols_map e d .field (some v.type)
  · rw [Node.property?_map]
    cases n.property? with
    | none => rfl
    | some v => simp [Embedding.onSymbol]
  · rw [Node.method?_map]
    cases n.method? with
    | none => rfl
    | some v => simp [Embedding.onSymbol]
  · exact typeSymbols_map e n

theorem scopeSymbols_map :
    scopeSymbols (n.map e.place) = (scopeSymbols n).map e.onSymbol := by
  unfold scopeSymbols
  rw [Node.kind_map, Node.members_map, Node.method?_map]
  split
  · rw [List.flatMap_map, List.map_flatMap]
    exact List.flatMap_congr fun c _ => typeSymbols_map e c
  · rw [List.flatMap_map, List.map_flatMap]
    exact List.flatMap_congr fun c _ => typeSymbols_map e c
  · rw [List.flatMap_map, List.map_flatMap]
    exact List.flatMap_congr fun c _ => memberSymbols_map e c
  · rw [List.flatMap_map, List.map_flatMap]
    exact List.flatMap_congr fun c _ => memberSymbols_map e c
  · cases n.method? with
    | none => rfl
    | some v =>
      simp only [Option.map_some, Option.toList_some, List.flatMap_cons, List.flatMap_nil,
        List.append_nil, Node.Method.map_parameters, List.flatMap_map, List.map_flatMap]
      exact List.flatMap_congr fun p _ => parameterSymbols_map e p
  · cases n.method? with
    | none => rfl
    | some v =>
      simp only [Option.map_some, Option.toList_some, List.flatMap_cons, List.flatMap_nil,
        List.append_nil, Node.Method.map_parameters, List.flatMap_map, List.map_flatMap]
      exact List.flatMap_congr fun p _ => parameterSymbols_map e p
  · rfl

theorem parts_map (f : Place → Place) : parts (n.map f) = (parts n).map (Node.map f) := by
  unfold parts
  rw [Node.kind_map]
  split
  · rw [Node.memberAccess?_map]
    cases n.memberAccess? <;> rfl
  · rw [Node.creation?_map]
    cases n.creation? <;> rfl
  · rfl
  · split
    · rfl
    · simp [List.filter_map, Function.comp_def]

theorem boundParts_map (f : Place → Place) :
    boundParts (n.map f) = (boundParts n).map (Node.map f) := by
  unfold boundParts
  rw [Node.kind_map]
  split
  case h_1 | h_2 | h_5 | h_6 | h_7 | h_8 | h_10 =>
    simp [List.filter_map, Function.comp_def]
  case h_3 | h_4 =>
    rw [Node.method?_map]
    cases n.method? with
    | none => rfl
    | some v => cases hbody : v.body <;> simp [hbody]
  case h_9 =>
    rw [Node.variableDeclaration?_map]
    cases n.variableDeclaration? with
    | none => rfl
    | some v => simp [List.filterMap_map, List.map_filterMap]
  case h_11 => exact parts_map n f

end Map

/-! ## Walks that correspond -/

/-- What is bound in `b` is bound in `b'` under other numbers, and the next symbol and the next scope
will correspond too; `κ` numbers the scopes. -/
structure Embeds (e : Embedding) (κ : Nat → Nat) (b b' : Bindings) : Prop where
  symbols : ∀ x, b'.symbols[e.symbol x]? = b.symbols[x]?.map e.onSymbol
  nextSymbol : ∀ i, e.symbol (b.symbols.length + i) = b'.symbols.length + i
  scopes : ∀ k, Option.Rel (fun t t' => ∀ name, t'.find? name = (t.find? name).map e.symbol)
    b.scopes[k]? b'.scopes[κ k]?
  nextScope : ∀ i, κ (b.scopes.length + i) = b'.scopes.length + i
  entries : ∀ i, b'.symbolOf.lookup (e.node i) = (b.symbolOf.lookup i).map e.symbol
  structs : Model.structs b' = Model.structs b

/-- One more element behind each of two lists that correspond under `σ`. -/
theorem rel_append_singleton {α β : Type} {R : α → β → Prop} {σ : Nat → Nat} {as : List α}
    {bs : List β} (h : ∀ i, Option.Rel R as[i]? bs[σ i]?)
    (hnext : ∀ i, σ (as.length + i) = bs.length + i) {a : α} {c : β} (hnew : R a c) (i : Nat) :
    Option.Rel R (as ++ [a])[i]? (bs ++ [c])[σ i]? := by
  rcases Nat.lt_or_ge i as.length with hlt | hge
  · have hi := h i
    rw [List.getElem?_eq_getElem hlt] at hi
    rw [List.getElem?_append_left hlt, List.getElem?_eq_getElem hlt]
    cases hb : bs[σ i]? with
    | none =>
      rw [hb] at hi
      cases hi
    | some d =>
      rw [hb] at hi
      rwa [List.getElem?_append_left (List.getElem?_eq_some_iff.1 hb).1, hb]
  · obtain ⟨j, rfl⟩ := Nat.exists_eq_add_of_le hge
    rw [hnext, List.getElem?_append_right (by omega), List.getElem?_append_right (by omega),
      Nat.add_sub_cancel_left, Nat.add_sub_cancel_left]
    cases j with
    | zero => exact .some hnew
    | succ j => exact .none

namespace Embeds

variable (h : Embeds e κ b b')
include h

theorem nextScope_zero : κ b.scopes.length = b'.scopes.length := h.nextScope 0

theorem openScope (kind : ScopeKind) (chain chain' : List Nat) (i i' : Nat) :
    Embeds e κ (b.openScope kind chain i).2 (b'.openScope kind chain' i').2 where
  symbols := h.symbols
  nextSymbol := h.nextSymbol
  scopes := rel_append_singleton h.scopes h.nextScope fun _ => rfl
  nextScope i := by
    have hnext := h.nextScope (i + 1)
    simp only [Bindings.openScope, List.length_append, List.length_singleton]
    rwa [Nat.add_assoc, Nat.add_assoc, Nat.add_comm 1 i]
  entries := h.entries
  structs := h.structs

/-- The same name is declared in scopes that correspond. -/
theorem find?_declare {t t' : Scope} (ht : ∀ name, t'.find? name = (t.find? name).map e.symbol)
    (declared name : String) : (t'.declare declared b'.symbols.length).find? name =
      ((t.declare declared b.symbols.length).find? name).map e.symbol := by
  by_cases hname : name = declared
  · subst hname
    rw [Scope.find?_declare_self, Scope.find?_declare_self, Option.map_some]
    exact congrArg some (h.nextSymbol 0).symm
  · rw [Scope.find?_declare_of_ne _ _ hname, Scope.find?_declare_of_ne _ _ hname, ht]

theorem declare (hκ : Function.Injective κ) (chain : List Nat) (s : Symbol) :
    Embeds e κ (b.declare chain s) (b'.declare (chain.map κ) (e.onSymbol s)) where
  symbols x := by
    have hrel := rel_append_singleton (R := fun s s' => s' = e.onSymbol s) (fun x => by
      rw [h.symbols]
      cases b.symbols[x]? with
      | none => exact .none
      | some s => exact .some rfl) h.nextSymbol (a := s) rfl x
    show (b'.symbols ++ [e.onSymbol s])[e.symbol x]? = (b.symbols ++ [s])[x]?.map e.onSymbol
    generalize (b.symbols ++ [s])[x]? = r, (b'.symbols ++ [e.onSymbol s])[e.symbol x]? = r' at hrel
    cases hrel with
    | none => rfl
    | some heq => rw [heq, Option.map_some]
  nextSymbol i := by
    have hnext := h.nextSymbol (i + 1)
    simp only [Bindings.declare, List.length_append, List.length_singleton]
    rwa [Nat.add_assoc, Nat.add_assoc, Nat.add_comm 1 i]
  scopes k := by
    cases chain with
    | nil => exact h.scopes k
    | cons j chain =>
      have hk := h.scopes k
      simp only [Bindings.declare, List.map_cons, List.getElem?_modify, hκ.eq_iff]
      generalize b.scopes[k]? = t, b'.scopes[κ k]? = t' at hk
      cases hk with
      | none => exact .none
      | some ht =>
        split
        · exact .some (h.find?_declare ht s.name)
        · exact .some ht
  nextScope i := by
    cases chain with
    | nil => exact h.nextScope i
    | cons => simpa [Bindings.declare] using h.nextScope i
  entries i := by
    have hsame : (e.node i == e.node s.declaration) = (i == s.declaration) := by
      rw [Bool.eq_iff_iff, beq_iff_eq, beq_iff_eq, e.node_injective.eq_iff]
    have hnext : e.symbol b.symbols.length = b'.symbols.length := h.nextSymbol 0
    simp only [Bindings.declare, Embedding.onSymbol, List.lookup_cons, hsame]
    split
    · rw [Option.map_some, hnext]
    · exact h.entries i
  structs := by
    have hkind : (e.onSymbol s).kind = s.kind := rfl
    have hname : (e.onSymbol s).name = s.name := rfl
    have hstructs := h.structs
    simp only [Model.structs] at hstructs
    simp only [Model.structs, Bindings.declare, List.filter_append, List.map_append, hstructs,
      List.filter_cons, List.filter_nil, hkind]
    split
    · rw [List.map_singleton, List.map_singleton, hname]
    · rfl

theorem resolve? (chain : List Nat) (name : String) :
    b'.resolve? (chain.map κ) name = (b.resolve? chain name).map e.symbol := by
  induction chain with
  | nil => rfl
  | cons k chain ih =>
    have hk := h.scopes k
    unfold Bindings.resolve? at ih ⊢
    rw [List.map_cons, List.findSome?_cons, List.findSome?_cons]
    generalize b.scopes[k]? = t, b'.scopes[κ k]? = t' at hk
    cases hk with
    | none => exact ih
    | @some t t' ht =>
      rw [Option.bind_some, Option.bind_some, ht]
      cases t.find? name with
      | none => exact ih
      | some x => rfl

theorem bindName (chain : List Nat) (n : Placed) :
    Embeds e κ (b.bindName chain n) (b'.bindName (chain.map κ) (n.map e.place)) := by
  unfold Bindings.bindName
  rw [Node.identifier?_map]
  cases n.identifier? with
  | none => exact h
  | some name =>
    simp only [h.resolve?]
    cases b.resolve? chain name with
    | none => exact ⟨h.symbols, h.nextSymbol, h.scopes, h.nextScope, h.entries, h.structs⟩
    | some x =>
      refine ⟨h.symbols, h.nextSymbol, h.scopes, h.nextScope, fun i => ?_, h.structs⟩
      have hsame : (e.node i == (n.map e.place).id) = (i == n.id) := by
        rw [Bool.eq_iff_iff, beq_iff_eq, beq_iff_eq, e.id_map, e.node_injective.eq_iff]
      simp only [Option.map_some, List.lookup_cons, hsame]
      split
      · rfl
      · exact h.entries i

omit h in
theorem declareAll (hκ : Function.Injective κ) (chain : List Nat) (ss : List Symbol)
    (h : Embeds e κ b b') :
    Embeds e κ (b.declareAll chain ss) (b'.declareAll (chain.map κ) (ss.map e.onSymbol)) := by
  induction ss generalizing b b' with
  | nil => exact h
  | cons s ss ih => exact ih (h.declare hκ chain s)

omit h in
/-- Nodes bound in turn, if the walks correspond behind each of them. -/
theorem bindAll {cs : List Placed} {chain' : List Nat}
    (hbind : ∀ c ∈ cs, ∀ {b b'}, Embeds e κ b b' →
      Embeds e κ (bind chain c b) (bind chain' (c.map e.place) b'))
    (h : Embeds e κ b b') :
    Embeds e κ (bindAll chain cs b) (bindAll chain' (cs.map (Node.map e.place)) b') := by
  induction cs generalizing b b' with
  | nil => exact h
  | cons c cs ih => exact ih (fun d hd => hbind d (by simp [hd])) (hbind c (by simp) h)

omit h in
/-- Binding the same node keeps the correspondence. -/
theorem bind (hκ : Function.Injective κ) (chain : List Nat) (n : Placed) (h : Embeds e κ b b') :
    Embeds e κ (bind chain n b) (bind (chain.map κ) (n.map e.place) b') := by
  induction hsize : n.size using Nat.strongRecOn generalizing n chain b b' with
  | ind size ih =>
    subst hsize
    have hparts {chain : List Nat} {b b' : Bindings} (h : Embeds e κ b b') :
        Embeds e κ (Bindings.bindAll chain (boundParts n) b)
          (Bindings.bindAll (chain.map κ) (boundParts (n.map e.place)) b') := by
      rw [boundParts_map]
      exact bindAll (fun c hc _ _ h => ih c.size (boundParts_below hc).2 chain c h rfl) h
    by_cases hscope : n.kind.opensScope = true
    · rw [bind_scope hscope, bind_scope (by simpa using hscope), Node.kind_map, scopeSymbols_map,
        ← h.nextScope_zero, ← List.map_cons]
      exact hparts ((h.openScope _ _ _ _ _).declareAll hκ _ _)
    by_cases hname : n.kind = .identifierName
    · rw [bind_name hname, bind_name (by simpa using hname)]
      exact h.bindName chain n
    by_cases hlocal : n.kind = .localDeclarationStatement
    · rw [bind_local hlocal, bind_local (by simpa using hlocal), Node.variableDeclaration?_map]
      cases hv : n.variableDeclaration? with
      | none => exact h
      | some v =>
        simp only [Option.map_some, Option.elim_some, Node.VariableDeclaration.map_declarators,
          Node.VariableDeclaration.map_type]
        have hin : ∀ d ∈ v.declarators, d ∈ n.children := fun d hd => (Node.mem_declarators hv hd).1
        generalize v.declarators = ds at hin
        clear hv
        induction ds generalizing b b' with
        | nil => exact h
        | cons d ds ihds =>
          rw [List.map_cons, List.foldl_cons, List.foldl_cons, Node.initializer?_map]
          have hsymbols := variableSymbols_map e d .localVariable (some v.type)
          rw [Option.map_some] at hsymbols
          refine ihds ?_ fun c hc => hin c (by simp [hc])
          rw [hsymbols]
          refine declareAll hκ _ _ ?_
          have hvalue : (d.initializer?.map (Node.map e.place)).toList =
              d.initializer?.toList.map (Node.map e.place) := by
            cases d.initializer? <;> rfl
          rw [hvalue]
          exact bindAll (fun i hi _ _ h => ih i.size
            (initializer_below (hin d (by simp)) (Option.mem_toList.1 hi)).2 chain i h rfl) h
    · rw [bind_other (by simpa using hscope) hname hlocal,
        bind_other (by simpa using hscope) (by simpa using hname) (by simpa using hlocal)]
      exact hparts h

/-- Nodes bound in turn in scopes that have the same numbers in both walks. -/
theorem bindAll_of_map_eq (hκ : Function.Injective κ) {chain : List Nat}
    (hchain : chain.map κ = chain) (cs : List Placed) :
    Embeds e κ (Bindings.bindAll chain cs b)
      (Bindings.bindAll chain (cs.map (Node.map e.place)) b') :=
  bindAll (fun c _ _ _ h => by simpa only [hchain] using h.bind hκ chain c) h

end Embeds

/-! ## What a walk leaves -/

/-- All numbers of symbols in the tables belong to symbols, and none of the first `j` symbols and `k`
scopes was lost. -/
structure Sane (j k : Nat) (b : Bindings) : Prop where
  entries : ∀ p ∈ b.symbolOf, p.2 < b.symbols.length
  scopes : ∀ t ∈ b.scopes, ∀ name x, t.find? name = some x → x < b.symbols.length
  keptSymbols : j ≤ b.symbols.length
  keptScopes : k ≤ b.scopes.length

namespace Sane

variable {j k : Nat} (h : Sane j k b)
include h

/-- What is in the tables now stays there. -/
theorem now : Sane b.symbols.length b.scopes.length b :=
  ⟨h.entries, h.scopes, Nat.le_refl _, Nat.le_refl _⟩

theorem openScope (kind : ScopeKind) (chain : List Nat) (i : Nat) :
    Sane j k (b.openScope kind chain i).2 where
  entries := h.entries
  scopes t ht name x hx := by
    rcases List.mem_append.1 ht with ht | ht
    · exact h.scopes t ht name x hx
    · rw [List.mem_singleton.1 ht] at hx
      cases hx
  keptSymbols := h.keptSymbols
  keptScopes := by
    simp only [Bindings.openScope, List.length_append]
    exact Nat.le_add_right_of_le h.keptScopes

theorem declare (chain : List Nat) (s : Symbol) : Sane j k (b.declare chain s) where
  entries p hp := by
    simp only [Bindings.declare, List.mem_cons, List.length_append, List.length_singleton] at hp ⊢
    rcases hp with rfl | hp
    · exact Nat.lt_succ_self _
    · exact Nat.lt_succ_of_lt (h.entries p hp)
  scopes t ht name x hx := by
    simp only [Bindings.declare, List.length_append, List.length_singleton] at ht ⊢
    have hold {t : Scope} (ht : t ∈ b.scopes) (hx : t.find? name = some x) :
        x < b.symbols.length + 1 := Nat.lt_succ_of_lt (h.scopes t ht name x hx)
    cases chain with
    | nil => exact hold ht hx
    | cons scope chain =>
      obtain ⟨i, hi⟩ := List.mem_iff_getElem?.1 ht
      rw [List.getElem?_modify] at hi
      obtain ⟨t₀, ht₀, rfl⟩ := Option.map_eq_some_iff.1 hi
      split at hx
      · by_cases hname : name = s.name
        · rw [hname, Scope.find?_declare_self] at hx
          rw [← Option.some.inj hx]
          exact Nat.lt_succ_self _
        · rw [Scope.find?_declare_of_ne _ _ hname] at hx
          exact hold (List.mem_of_getElem? ht₀) hx
      · exact hold (List.mem_of_getElem? ht₀) hx
  keptSymbols := by
    simp only [Bindings.declare, List.length_append]
    exact Nat.le_add_right_of_le h.keptSymbols
  keptScopes := by
    cases chain with
    | nil => exact h.keptScopes
    | cons => simpa [Bindings.declare] using h.keptScopes

theorem bindName (chain : List Nat) (n : Placed) : Sane j k (b.bindName chain n) := by
  unfold Bindings.bindName
  split
  · exact h
  · split
    · rename_i x hx
      refine ⟨fun p hp => ?_, h.scopes, h.keptSymbols, h.keptScopes⟩
      rcases List.mem_cons.1 hp with rfl | hp
      · obtain ⟨scope, -, hx⟩ := List.exists_of_findSome?_eq_some hx
        obtain ⟨t, ht, hx⟩ := Option.bind_eq_some_iff.1 hx
        exact h.scopes t (List.mem_of_getElem? ht) _ x hx
      · exact h.entries p hp
    · exact ⟨h.entries, h.scopes, h.keptSymbols, h.keptScopes⟩

omit h in
theorem declareAll (chain : List Nat) (ss : List Symbol) (h : Sane j k b) :
    Sane j k (b.declareAll chain ss) :=
  List.foldlRecOn ss _ h fun _ hb s _ => Sane.declare hb chain s

theorem bind (chain : List Nat) (n : Placed) : Sane j k (bind chain n b) :=
  bind_induction (P := Sane j k) (C := fun _ => True)
    (fun _ kind chain node hb _ => ⟨hb.openScope kind chain node, trivial⟩)
    (fun _ chain s _ hb _ => hb.declare chain s)
    (fun _ chain i _ _ hb _ => hb.bindName chain i) n.self_mem_preorder h trivial

omit h in
theorem bindAll (chain : List Nat) (cs : List Placed) (h : Sane j k b) :
    Sane j k (bindAll chain cs b) :=
  List.foldlRecOn cs _ h fun _ hb c _ => Sane.bind hb chain c

end Sane

theorem Sane.empty : Sane 0 0 {} := ⟨by simp, by simp, Nat.le_refl 0, Nat.le_refl 0⟩

/-- Every entry is about a name, or about the declaration of its symbol. -/
def Recorded (root : Placed) (b : Bindings) : Prop :=
  ∀ p ∈ b.symbolOf, (∃ n ∈ root.preorder, n.kind = .identifierName ∧ p.1 = n.id) ∨
    ∃ s, b.symbols[p.2]? = some s ∧ s.declaration = p.1

theorem recorded_bind (chain : List Nat) (root : Placed) :
    Recorded root (Bindings.bind chain root {}) := by
  refine bind_induction (P := Recorded root) (C := fun _ => True)
    (fun _ _ _ _ hb _ => ⟨hb, trivial⟩) ?_ ?_ root.self_mem_preorder (by simp [Recorded]) trivial
  · intro b chain s _ hb _ p hp
    rcases List.mem_cons.1 hp with rfl | hp
    · exact .inr ⟨s, by simp [Bindings.declare], rfl⟩
    · rcases hb p hp with hname | ⟨t, ht, hdecl⟩
      · exact .inl hname
      · refine .inr ⟨t, ?_, hdecl⟩
        exact (List.getElem?_append_left (List.getElem?_eq_some_iff.1 ht).1).trans ht
  · intro b chain i hi hk hb _ p hp
    unfold Bindings.bindName at hp ⊢
    split at hp
    · exact hb p hp
    · split at hp
      · rcases List.mem_cons.1 hp with rfl | hp
        · exact .inl ⟨i, hi, hk, rfl⟩
        · exact hb p hp
      · exact hb p hp

/-! ## Inside a block -/

/-- From `b` to `b'` only scopes, and symbols and entries of nodes below the children of `n`, were
added. -/
structure GrowsBelow (n : Placed) (b b' : Bindings) : Prop where
  symbols : ∃ new, b'.symbols = b.symbols ++ new ∧ ∀ s ∈ new, ∃ c ∈ n.children, OwnedBelow c s
  entries : ∃ new, b'.symbolOf = new ++ b.symbolOf ∧
    ∀ p ∈ new, ∃ c ∈ n.children, ∃ i ∈ c.preorder, p.1 = i.id
  scopes : b.scopes.length ≤ b'.scopes.length
  same : ∀ k < b.scopes.length, b'.scopes[k]? = b.scopes[k]?

namespace GrowsBelow

variable {n c : Placed} {b₁ : Bindings}

theorem refl (n : Placed) (b : Bindings) : GrowsBelow n b b :=
  ⟨⟨[], by simp⟩, ⟨[], by simp⟩, Nat.le_refl _, fun _ _ => rfl⟩

theorem openScope (h : GrowsBelow n b b₁) (kind : ScopeKind) (chain : List Nat) (i : Nat) :
    GrowsBelow n b (b₁.openScope kind chain i).2 where
  symbols := h.symbols
  entries := h.entries
  scopes := by
    simp only [Bindings.openScope, List.length_append]
    exact Nat.le_add_right_of_le h.scopes
  same k hk := (List.getElem?_append_left (Nat.lt_of_lt_of_le hk h.scopes)).trans (h.same k hk)

theorem declare (h : GrowsBelow n b b₁) {j : Nat} (hj : b.scopes.length ≤ j) (chain : List Nat)
    {s : Symbol} (hc : c ∈ n.children) (hs : OwnedBelow c s) :
    GrowsBelow n b (b₁.declare (j :: chain) s) where
  symbols := by
    obtain ⟨new, hnew, hown⟩ := h.symbols
    refine ⟨new ++ [s], by simp [Bindings.declare, hnew], fun t ht => ?_⟩
    rcases List.mem_append.1 ht with ht | ht
    · exact hown t ht
    · rw [List.mem_singleton.1 ht]
      exact ⟨c, hc, hs⟩
  entries := by
    obtain ⟨new, hnew, hin⟩ := h.entries
    obtain ⟨i, hi, hdecl, -⟩ := hs
    refine ⟨(s.declaration, b₁.symbols.length) :: new, by simp [Bindings.declare, hnew],
      fun p hp => ?_⟩
    rcases List.mem_cons.1 hp with rfl | hp
    · exact ⟨c, hc, i, hi, hdecl⟩
    · exact hin p hp
  scopes := by simpa [Bindings.declare] using h.scopes
  same k hk := by
    rw [← h.same k hk]
    simp only [Bindings.declare, List.getElem?_modify, if_neg (show j ≠ k by omega)]
    exact Option.map_id'

theorem bindName (h : GrowsBelow n b b₁) (chain : List Nat) {i : Placed} (hc : c ∈ n.children)
    (hi : i ∈ c.preorder) : GrowsBelow n b (b₁.bindName chain i) := by
  unfold Bindings.bindName
  split
  · exact h
  · split
    · obtain ⟨new, hnew, hin⟩ := h.entries
      refine ⟨h.symbols, ⟨(i.id, _) :: new, by rw [hnew]; rfl, fun p hp => ?_⟩, h.scopes, h.same⟩
      rcases List.mem_cons.1 hp with rfl | hp
      · exact ⟨c, hc, i, hi, rfl⟩
      · exact hin p hp
    · exact ⟨h.symbols, h.entries, h.scopes, h.same⟩

end GrowsBelow

/-- What a block binds is of no concern to what stands around it. -/
theorem growsBelow_bind {n : Placed} (hk : n.kind = .block) (chain : List Nat) (b : Bindings) :
    GrowsBelow n b (Bindings.bind chain n b) := by
  have hsymbols : scopeSymbols n = [] := by simp [scopeSymbols, hk]
  rw [bind_scope (by simp [hk, Kind.opensScope]), hsymbols]
  refine List.foldlRecOn (boundParts n) _ ((GrowsBelow.refl n b).openScope _ chain n.id)
    fun b₁ hb c hc => ?_
  have hchild : c ∈ n.children := by
    simp only [boundParts, hk] at hc
    exact (List.mem_filter.1 hc).1
  refine bind_induction (P := GrowsBelow n b)
    (C := fun chain => ∃ j rest, chain = j :: rest ∧ b.scopes.length ≤ j) ?_ ?_ ?_
    c.self_mem_preorder hb ⟨_, _, rfl, Nat.le_refl _⟩
  · intro b₂ kind chain node hb₂ _
    exact ⟨hb₂.openScope kind chain node, _, _, rfl, hb₂.scopes⟩
  · rintro b₂ _ s hs hb₂ ⟨j, rest, rfl, hj⟩
    exact hb₂.declare hj rest hchild hs
  · intro b₂ chain i hi _ hb₂ _
    exact hb₂.bindName chain hchild hi

end NullLint.Bindings
