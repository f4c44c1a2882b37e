import NullLint.Proofs.Semantics.EmbeddedBinding
import NullLint.Syntax.Parse

/-!
# Types of locals declared with `var`

The types of `var` symbols are filled in by one pass in the order of their numbers, and each
initializer is typed by what the pass has found so far. For a local nothing is missing then: what
its initializer names was bound before the local was declared, so it has a smaller number and the
type that it keeps (`Settled`). The types of `var` locals solve the equations that their
declarations state.
-/

namespace NullLint

namespace Bindings

variable {b : Bindings} {chain : List Nat} {n : Placed} {s : Symbol} {ids ids' later : List Nat}

/-! ## Each node is bound once -/

theorem flatMap_initializers_sublist (ds : List Placed) :
    ((ds.filterMap Node.initializer?).flatMap Node.preorder).Sublist
      (ds.flatMap Node.preorder) := by
  induction ds with
  | nil => exact .slnil
  | cons d ds ih =>
    cases he : d.initializer? with
    | none =>
      rw [List.filterMap_cons_none he, List.flatMap_cons]
      exact ih.trans (List.sublist_append_right _ _)
    | some e =>
      rw [List.filterMap_cons_some he, List.flatMap_cons, List.flatMap_cons]
      exact (Node.preorder_sublist (Node.mem_preorder_of_initializer? he)).append ih

theorem sublist_declarators {v : Node.VariableDeclaration Place}
    (hv : n.variableDeclaration? = some v) : v.declarators.Sublist n.children := by
  rw [Node.variableDeclaration?_eq_some hv]
  exact List.filter_sublist

/-- What is bound below a node stands side by side. -/
theorem sublist_boundParts (n : Placed) :
    ((boundParts n).flatMap Node.preorder).Sublist n.preorder := by
  have hbody : ((n.method?.toList.flatMap fun v => v.body.toList).flatMap Node.preorder).Sublist
      n.preorder := by
    cases hv : n.method? with
    | none => simp
    | some v =>
      cases hb : v.body with
      | none => simp [hb]
      | some c =>
        have hc : c ∈ n.preorder := Node.mem_preorder_of_mem_children (mem_children_of_body hv hb)
        simpa [hb] using Node.preorder_sublist hc
  unfold boundParts
  split
  case h_1 | h_2 | h_5 | h_6 | h_7 | h_8 | h_10 =>
    exact flatMap_children_sublist List.filter_sublist
  case h_3 | h_4 => exact hbody
  case h_9 =>
    cases hv : n.variableDeclaration? with
    | none => simp
    | some v =>
      have hds := flatMap_children_sublist (sublist_declarators hv)
      simpa using (flatMap_initializers_sublist v.declarators).trans hds
  case h_11 => exact sublist_parts n

theorem id_cons_initializer_sublist (d : Placed) :
    (d.id :: numbers d.initializer?.toList).Sublist (numbers [d]) := by
  rw [numbers_cons, numbers_nil, List.append_nil]
  cases he : d.initializer? with
  | none => simp [d.self_mem_preorder, List.singleton_sublist, List.mem_map_of_mem]
  | some e =>
    obtain ⟨c, hc, _, _, hvalue⟩ := Node.initializer?_eq_some he
    have hec := Node.mem_preorder_of_mem_children (List.mem_of_getElem? hvalue)
    have hbelow : (numbers [e]).Sublist (c.preorder.map Node.id) := by
      simpa using (Node.preorder_sublist hec).map Node.id
    exact (hbelow.cons_cons d.id).trans (id_cons_sublist hc)

/-! ## Symbols that are no locals -/

theorem of_mem_variableSymbols {kind : SymbolKind} {type : Option Placed}
    (hs : s ∈ variableSymbols kind type n) :
    s.kind = kind ∧ s.declaration = n.id ∧ s.initializer = n.initializer? := by
  obtain ⟨v, hv, rfl⟩ := List.mem_map.1 hs
  exact ⟨rfl, rfl, (Node.declarator?_eq_some (Option.mem_toList.1 hv)).2⟩

theorem kind_ne_of_mem_typeSymbols (hs : s ∈ typeSymbols n) : s.kind ≠ .localVariable := by
  unfold typeSymbols at hs
  split at hs
  · obtain ⟨name, -, rfl⟩ := List.mem_map.1 hs
    simp
  · obtain ⟨name, -, rfl⟩ := List.mem_map.1 hs
    simp
  · cases hs

theorem kind_ne_of_mem_memberSymbols (hs : s ∈ memberSymbols n) : s.kind ≠ .localVariable := by
  unfold memberSymbols at hs
  split at hs
  · obtain ⟨v, -, hs⟩ := List.mem_flatMap.1 hs
    obtain ⟨d, -, hs⟩ := List.mem_flatMap.1 hs
    simp [(of_mem_variableSymbols hs).1]
  · obtain ⟨v, -, rfl⟩ := List.mem_map.1 hs
    simp
  · obtain ⟨v, -, rfl⟩ := List.mem_map.1 hs
    simp
  · exact kind_ne_of_mem_typeSymbols hs

/-- What a scope declares ahead are types, members and parameters. -/
theorem kind_ne_of_mem_scopeSymbols (hs : s ∈ scopeSymbols n) : s.kind ≠ .localVariable := by
  unfold scopeSymbols at hs
  split at hs
  case h_1 | h_2 =>
    obtain ⟨m, -, hs⟩ := List.mem_flatMap.1 hs
    exact kind_ne_of_mem_typeSymbols hs
  case h_3 | h_4 =>
    obtain ⟨m, -, hs⟩ := List.mem_flatMap.1 hs
    exact kind_ne_of_mem_memberSymbols hs
  case h_5 | h_6 =>
    obtain ⟨v, -, hs⟩ := List.mem_flatMap.1 hs
    obtain ⟨p, -, hs⟩ := List.mem_flatMap.1 hs
    obtain ⟨w, -, rfl⟩ := List.mem_map.1 hs
    simp
  case h_7 => cases hs

/-! ## Order of numbers -/

/-- The local numbered `x` is declared with the initializer `e`. -/
def Initializes (b : Bindings) (e : Placed) (x : Nat) : Prop :=
  ∃ s, b.symbols[x]? = some s ∧ s.kind = .localVariable ∧ s.initializer = some e

theorem initializes_declare {e : Placed} {x : Nat} (h : (b.declare chain s).Initializes e x) :
    b.Initializes e x ∨
      (x = b.symbols.length ∧ s.kind = .localVariable ∧ s.initializer = some e) := by
  obtain ⟨t, ht, hkind, hvalue⟩ := h
  have ht : (b.symbols ++ [s])[x]? = some t := ht
  by_cases hx : x < b.symbols.length
  · rw [List.getElem?_append_left hx] at ht
    exact .inl ⟨t, ht, hkind, hvalue⟩
  · rw [List.getElem?_append_right (Nat.le_of_not_lt hx), List.getElem?_singleton] at ht
    split at ht
    · obtain rfl := Option.some.inj ht
      exact .inr ⟨by omega, hkind, hvalue⟩
    · cases ht

/-- With the nodes `ids` still to be bound, what is found in the initializer of a local is numbered
before the local, and nothing in it is still to be bound. -/
structure Settled (ids : List Nat) (b : Bindings) : Prop where
  sane : Sane 0 0 b
  earlier : ∀ e x, b.Initializes e x → ∀ p ∈ b.symbolOf, p.1 ∈ numbers [e] → p.2 < x
  bound : ∀ e x, b.Initializes e x → ∀ i ∈ ids, i ∉ numbers [e]

namespace Settled

theorem mono (h : Settled ids b) (hsub : ids' ⊆ ids) : Settled ids' b :=
  ⟨h.sane, h.earlier, fun e x he i hi => h.bound e x he i (hsub hi)⟩

theorem openScope (h : Settled ids b) (kind : ScopeKind) (chain : List Nat) (i : Nat) :
    Settled ids (b.openScope kind chain i).2 :=
  ⟨h.sane.openScope kind chain i, h.earlier, h.bound⟩

theorem bindName (h : Settled ids b) (hn : n.id ∈ ids) (chain : List Nat) :
    Settled ids (b.bindName chain n) := by
  have hinitializes (e : Placed) (x : Nat) (he : (b.bindName chain n).Initializes e x) :
      b.Initializes e x := by
    rwa [Initializes, symbols_bindName] at he
  refine ⟨h.sane.bindName chain n, fun e x he p hp hin => ?_,
    fun e x he => h.bound e x (hinitializes e x he)⟩
  rcases symbolOf_bindName b chain n with ⟨y, -, hentries⟩ | hentries
  · rw [hentries, List.mem_cons] at hp
    rcases hp with rfl | hp
    · exact absurd hin (h.bound e x (hinitializes e x he) n.id hn)
    · exact h.earlier e x (hinitializes e x he) p hp hin
  · exact h.earlier e x (hinitializes e x he) p (hentries ▸ hp) hin

/-- A local is declared when its initializer is bound. -/
theorem declare (h : Settled ids b) (hs : s.declaration ∈ ids)
    (hvalue : ∀ e, s.kind = .localVariable → s.initializer = some e → ∀ i ∈ ids, i ∉ numbers [e])
    (chain : List Nat) : Settled ids (b.declare chain s) where
  sane := h.sane.declare chain s
  bound e x he := by
    rcases initializes_declare he with he | ⟨-, hkind, he⟩
    · exact h.bound e x he
    · exact hvalue e hkind he
  earlier e x he p hp hin := by
    rcases List.mem_cons.1 hp with rfl | hp
    · -- The node that declares a symbol is in no initializer.
      rcases initializes_declare he with he | ⟨-, hkind, he⟩
      · exact absurd hin (h.bound e x he _ hs)
      · exact absurd hin (hvalue e hkind he _ hs)
    · rcases initializes_declare he with he | ⟨rfl, -, -⟩
      · exact h.earlier e x he p hp hin
      · exact h.sane.entries p hp

theorem declareAll {ss : List Symbol} (h : Settled ids b)
    (hss : ∀ s ∈ ss, s.declaration ∈ ids ∧ ∀ e, s.kind = .localVariable →
      s.initializer = some e → ∀ i ∈ ids, i ∉ numbers [e])
    (chain : List Nat) : Settled ids (b.declareAll chain ss) :=
  List.foldlRecOn ss _ h fun _ hb s hs => Settled.declare hb (hss s hs).1 (hss s hs).2 chain

/-- Nodes bound in turn, if each of them is settled behind it. -/
theorem foldl {f : Bindings → Placed → Bindings} {cs : List Placed}
    (hstep : ∀ c ∈ cs, ∀ {b later}, (numbers [c] ++ later).Nodup →
      Settled (numbers [c] ++ later) b → Settled later (f b c))
    (hids : (numbers cs ++ later).Nodup) (h : Settled (numbers cs ++ later) b) :
    Settled later (cs.foldl f b) := by
  induction cs generalizing b with
  | nil => exact h
  | cons c cs ih =>
    have hcons : numbers (c :: cs) ++ later = numbers [c] ++ (numbers cs ++ later) := by
      simp
    rw [hcons] at hids h
    exact ih (fun d hd => hstep d (by simp [hd])) hids.of_append_right (hstep c (by simp) hids h)

/-- Nodes that stand side by side among those still to be bound. -/
theorem foldl_of_sublist {f : Bindings → Placed → Bindings} {cs : List Placed}
    (hsub : (numbers cs).Sublist ids)
    (hstep : ∀ c ∈ cs, ∀ {b later}, (numbers [c] ++ later).Nodup →
      Settled (numbers [c] ++ later) b → Settled later (f b c))
    (hids : (ids ++ later).Nodup) (h : Settled (ids ++ later) b) :
    Settled later (cs.foldl f b) :=
  foldl hstep (hids.sublist (hsub.append_right later)) (h.mono (hsub.append_right later).subset)

/-- Behind a declarator its initializer is settled, and so is the local it declares. -/
theorem declarator {d : Placed} {type : Option Placed}
    (hbind : ∀ c ∈ d.initializer?.toList, ∀ {b later}, (numbers [c] ++ later).Nodup →
      Settled (numbers [c] ++ later) b → Settled later (bind chain c b))
    (hids : (numbers [d] ++ later).Nodup) (h : Settled (numbers [d] ++ later) b) :
    Settled later ((bindAll chain d.initializer?.toList b).declareAll chain
      (variableSymbols .localVariable type d)) := by
  have hsub := (id_cons_initializer_sublist d).append_right later
  have hperm : (numbers d.initializer?.toList ++ d.id :: later).Perm
      (d.id :: numbers d.initializer?.toList ++ later) := List.perm_middle
  have hids' := hperm.nodup_iff.2 (hids.sublist hsub)
  have hbound : Settled (d.id :: later) (bindAll chain d.initializer?.toList b) :=
    foldl hbind hids' (h.mono (List.Subset.trans hperm.subset hsub.subset))
  apply (hbound.declareAll _ chain).mono (List.subset_cons_self _ _)
  intro s hs
  obtain ⟨-, hdeclaration, hinitializer⟩ := of_mem_variableSymbols hs
  refine ⟨by simp [hdeclaration], fun e _ he i hi hin => ?_⟩
  rw [hinitializer] at he
  rw [he] at hids'
  exact (List.disjoint_of_nodup_append hids') hin hi

/-- Binding a node settles it. -/
theorem bind (hids : (numbers [n] ++ later).Nodup) (h : Settled (numbers [n] ++ later) b) :
    Settled later (bind chain n b) := by
  induction hsize : n.size using Nat.strongRecOn generalizing n chain b later with
  | ind size ih =>
    subst hsize
    have hparts {chain : List Nat} {b : Bindings} (h : Settled (numbers [n] ++ later) b) :
        Settled later (Bindings.bindAll chain (boundParts n) b) := by
      have hsub : (numbers (boundParts n)).Sublist (numbers [n]) := by
        simpa [numbers] using (sublist_boundParts n).map Node.id
      exact foldl_of_sublist hsub
        (fun c hc _ _ hids h => ih c.size (boundParts_below hc).2 hids h rfl) hids h
    by_cases hscope : n.kind.opensScope = true
    · rw [bind_scope hscope]
      apply hparts
      apply (h.openScope _ _ _).declareAll
      intro s hs
      obtain ⟨c, hc, hdeclaration, -⟩ := ownedBelow_of_mem_scopeSymbols hs
      have hin : s.declaration ∈ numbers [n] := hdeclaration ▸ id_mem_numbers_of_mem (by simp) hc
      exact ⟨List.mem_append_left later hin,
        fun e hk => absurd hk (kind_ne_of_mem_scopeSymbols hs)⟩
    by_cases hname : n.kind = .identifierName
    · rw [bind_name hname]
      have hn : n.id ∈ numbers [n] := id_mem_numbers_of_mem (by simp) n.self_mem_preorder
      exact (h.bindName (List.mem_append_left later hn) chain).mono (List.subset_append_right _ _)
    by_cases hlocal : n.kind = .localDeclarationStatement
    · rw [bind_local hlocal]
      cases hv : n.variableDeclaration? with
      | none => exact h.mono (List.subset_append_right _ _)
      | some v =>
        have hds := sublist_declarators hv
        have hsub : (numbers v.declarators).Sublist (numbers [n]) := by
          simpa [numbers] using (flatMap_children_sublist hds).map Node.id
        apply foldl_of_sublist hsub (fun d hd _ _ hids h => ?_) hids h
        apply declarator (fun c hc _ _ hids h => ?_) hids h
        have hbelow := initializer_below (hds.subset hd) (Option.mem_toList.1 hc)
        exact ih c.size hbelow.2 hids h rfl
    · rw [bind_other (by simpa using hscope) hname hlocal]
      exact hparts h

end Settled

theorem Settled.empty (ids : List Nat) : Settled ids {} where
  sane := .empty
  earlier e x := by rintro ⟨s, hs, -⟩; cases hs
  bound e x := by rintro ⟨s, hs, -⟩; cases hs

theorem settled_ofRoot (t : Tree) : Settled [] (ofRoot t.placed) := by
  cases hroot : t.root with
  | none =>
    rw [Tree.placed, hroot]
    exact .empty []
  | some root =>
    rw [Tree.placed, hroot]
    apply Settled.bind _ (.empty _)
    have hnumbered : (root.placed.preorder.map Node.id).Nodup := root.numbered_placed
    simpa [numbers] using hnumbered

/-- In the initializer of a local only symbols with smaller numbers are found. -/
theorem lt_of_initializes {t : Tree} {e : Placed} {x y : Nat}
    (h : (ofRoot t.placed).Initializes e x) (hn : n ∈ e.preorder)
    (hy : (ofRoot t.placed).symbolOf.lookup n.id = some y) : y < x := by
  obtain ⟨before, after, hentries, -⟩ := List.lookup_eq_some_iff.1 hy
  apply (settled_ofRoot t).earlier e x h (n.id, y)
  · simp [hentries]
  · exact id_mem_numbers_of_mem (by simp) hn

end Bindings

namespace Model

/-! ## What the type of an expression depends on -/

section Congr

variable {m : Model} {types : List (Option TypeFacts)} {e : Placed}
  (h : ∀ n ∈ e.preorder, ∀ x, m.symbolAt n.id = some x → types[x]?.join = m.symbolType x)
include h

theorem found_congr {n : Placed} (hn : n ∈ e.preorder) (p : SymbolKind → Bool) :
    ((m.symbolAt n.id).bind fun x => if m.symbolIs x p then types[x]?.join else none) =
      (m.symbolAt n.id).bind fun x => if m.symbolIs x p then m.symbolType x else none :=
  Option.bind_congr fun x hx => by rw [h n hn x hx]

theorem nameType_congr : { m with types := types }.nameType e = m.nameType e :=
  found_congr h e.self_mem_preorder SymbolKind.isVariable

theorem invocationType_congr :
    { m with types := types }.invocationType e = m.invocationType e := by
  unfold invocationType
  apply Option.bind_congr
  intro v hv
  obtain ⟨-, list, rest, hc, -⟩ := Node.invocation?_eq_some hv
  have hcallee : v.expression.unparenthesized ∈ e.preorder :=
    Node.mem_preorder_trans v.expression.unparenthesized_mem_preorder
      (Node.mem_preorder_of_mem_children (by simp [hc]))
  dsimp only
  split
  · exact found_congr h hcallee fun k => k == .method
  · rfl
  · rfl

/-- The type of an expression depends on the types of the symbols that are found in it. -/
theorem typeOf_congr : { m with types := types }.typeOf e = m.typeOf e := by
  induction hsize : e.size using Nat.strongRecOn generalizing e with
  | ind size ih =>
    subst hsize
    by_cases hparens : e.kind = .parenthesizedExpression
    · rw [typeOf_parenthesized hparens, typeOf_parenthesized hparens]
      cases hi : e.inner? with
      | none => rfl
      | some i =>
        obtain ⟨-, -, opening, rest, hc⟩ := Node.inner?_eq_some hi
        refine ih _ (Node.size_lt_of_inner? hi) (fun n hn => h n ?_) rfl
        exact Node.mem_preorder_trans hn (Node.mem_preorder_of_mem_children (by simp [hc]))
    by_cases hassertion : e.kind = .suppressNullableWarningExpression
    · rw [typeOf_assertion hassertion, typeOf_assertion hassertion]
      cases hc : e.children with
      | nil => rfl
      | cons i rest =>
        have hmem : i ∈ e.children := by simp [hc]
        refine ih _ (Node.size_lt_of_mem_children hmem) (fun n hn => h n ?_) rfl
        exact Node.mem_preorder_trans hn (Node.mem_preorder_of_mem_children hmem)
    · rw [typeOf.eq_def, typeOf.eq_def m]
      split
      · contradiction
      · contradiction
      · rfl
      · exact nameType_congr h
      · rfl
      · rfl
      · exact invocationType_congr h
      · rfl
      · rfl
      · rfl

end Congr

/-! ## One pass over the symbols -/

theorem exists_types_inferAt (m : Model) (x : Nat) :
    ∃ types, m.inferAt x = { m with types := types } ∧ types.length = m.types.length := by
  unfold inferAt
  split
  · split
    · exact ⟨_, rfl, List.length_set⟩
    · exact ⟨m.types, rfl, rfl⟩
  · exact ⟨m.types, rfl, rfl⟩

/-- The pass changes nothing but types. -/
theorem exists_types_foldl_inferAt (xs : List Nat) (m : Model) :
    ∃ types, xs.foldl inferAt m = { m with types := types } ∧
      types.length = m.types.length := by
  induction xs generalizing m with
  | nil => exact ⟨m.types, rfl, rfl⟩
  | cons x xs ih =>
    obtain ⟨types, htypes, hlength⟩ := exists_types_inferAt m x
    obtain ⟨types', htypes', hlength'⟩ := ih (m.inferAt x)
    rw [List.foldl_cons, htypes', htypes]
    rw [htypes] at hlength'
    exact ⟨types', rfl, hlength'.trans hlength⟩

theorem symbolType_inferAt_self {m : Model} {x : Nat} {s : Symbol} (hs : m.symbol? x = some s)
    (hvar : declaredType m.table s = .implicit) (hx : x < m.types.length) :
    (m.inferAt x).symbolType x = m.inferredType s := by
  simp [inferAt, hs, hvar, symbolType, List.getElem?_set_self hx]

theorem symbolType_inferAt_of_ne {m : Model} {x y : Nat} (h : x ≠ y) :
    (m.inferAt y).symbolType x = m.symbolType x := by
  unfold inferAt
  split
  · split
    · simp [symbolType, List.getElem?_set_ne h.symm]
    · rfl
  · rfl

theorem symbolType_foldl_inferAt {m : Model} {x : Nat} {xs : List Nat} (h : x ∉ xs) :
    (xs.foldl inferAt m).symbolType x = m.symbolType x := by
  induction xs generalizing m with
  | nil => rfl
  | cons y xs ih =>
    rw [List.mem_cons, not_or] at h
    rw [List.foldl_cons, ih h.2, symbolType_inferAt_of_ne h.1]

/-- The numbers before `x`, `x`, and the numbers behind it. -/
theorem range_eq_split {x n : Nat} (h : x < n) :
    ∃ after, List.range n = List.range x ++ x :: after ∧ ∀ y ∈ after, x < y := by
  obtain ⟨k, rfl⟩ := Nat.exists_eq_add_of_lt h
  refine ⟨(List.range k).map fun y => x + (y + 1), ?_, ?_⟩
  · rw [Nat.add_assoc, List.range_add, List.range_succ_eq_map]
    simp [Function.comp_def]
  · intro y hy
    obtain ⟨z, -, rfl⟩ := List.mem_map.1 hy
    omega

/-- If an initializer names only symbols before its own, the pass types it as the result of the
pass does. -/
theorem symbolType_pass {m : Model} {x : Nat} {s : Symbol} {e : Placed}
    (hearlier : ∀ n ∈ e.preorder, ∀ y, m.symbolAt n.id = some y → y < x)
    (hs : m.symbol? x = some s) (hvar : declaredType m.table s = .implicit)
    (hvalue : s.initializer = some e) (hx : x < m.types.length) :
    ((List.range m.types.length).foldl inferAt m).symbolType x =
      (((List.range m.types.length).foldl inferAt m).typeOf e).map fun facts =>
        if facts.isReference then m.table.reference true else facts := by
  obtain ⟨after, hrange, hafter⟩ := range_eq_split hx
  rw [hrange, List.foldl_append]
  obtain ⟨types, hbefore, hlength⟩ := exists_types_foldl_inferAt (List.range x) m
  generalize (List.range x).foldl inferAt m = before at hbefore
  obtain ⟨types', hresult, -⟩ := exists_types_foldl_inferAt (x :: after) before
  have hsame : ((x :: after).foldl inferAt before).typeOf e = before.typeOf e := by
    rw [hresult]
    apply typeOf_congr
    intro n hn y hy
    have hlt : y < x := hearlier n hn y (by rwa [hbefore] at hy)
    have hkept : ((x :: after).foldl inferAt before).symbolType y = before.symbolType y := by
      apply symbolType_foldl_inferAt
      rw [List.mem_cons, not_or]
      exact ⟨Nat.ne_of_lt hlt, fun hy => Nat.lt_asymm hlt (hafter y hy)⟩
    rwa [hresult] at hkept
  calc ((x :: after).foldl inferAt before).symbolType x
      = (before.inferAt x).symbolType x :=
        symbolType_foldl_inferAt fun hx => Nat.lt_irrefl x (hafter x hx)
    _ = before.inferredType s := by
        subst hbefore
        exact symbolType_inferAt_self hs hvar (hlength ▸ hx)
    _ = (before.typeOf e).map fun facts =>
          if facts.isReference then m.table.reference true else facts := by
        rw [inferredType, hvalue, hbefore]
        rfl
    _ = _ := by rw [hsame]

/-- The types of `var` locals are a solution: in the model of a file, a local declared with `var`
has the type that its initializer has in this model, with the annotation of a reference type
replaced by that of a nullable one. -/
theorem symbolType_eq_typeOf_initializer (t : Tree) (nullableContext : Bool) :
    let m := build t.placed nullableContext
    ∀ x s e, m.symbol? x = some s → s.kind = .localVariable →
      declaredType m.table s = .implicit → s.initializer = some e →
      m.symbolType x = (m.typeOf e).map fun facts =>
        if facts.isReference then m.table.reference true else facts := by
  intro m x s e hs hlocal hvar hvalue
  have hbuild := build_eq t.placed nullableContext
  generalize hw : written t.placed (Bindings.ofRoot t.placed)
    ⟨structs (Bindings.ofRoot t.placed), nullableContext⟩ = w at hbuild
  have hbindings : w.bindings = Bindings.ofRoot t.placed := by rw [← hw]; rfl
  have hlength : w.types.length = (Bindings.ofRoot t.placed).symbols.length := by
    simp [← hw, written]
  rw [← hlength] at hbuild
  obtain ⟨types, htypes, -⟩ := exists_types_foldl_inferAt (List.range w.types.length) w
  have hm : m = { w with types := types } := hbuild.trans htypes
  have hsymbol : w.symbol? x = some s := by rwa [hm] at hs
  have htable : m.table = w.table := by rw [hm]
  have hinitializes : (Bindings.ofRoot t.placed).Initializes e x :=
    ⟨s, hbindings ▸ hsymbol, hlocal, hvalue⟩
  have hearlier : ∀ n ∈ e.preorder, ∀ y, w.symbolAt n.id = some y → y < x :=
    fun n hn y hy => Bindings.lt_of_initializes hinitializes hn (hbindings ▸ hy)
  have hx : x < w.types.length := by
    rw [hlength, ← hbindings]
    exact (List.getElem?_eq_some_iff.1 hsymbol).1
  rw [htable] at hvar ⊢
  have hpass := symbolType_pass hearlier hsymbol hvar hvalue hx
  rwa [← hbuild] at hpass

/-- In `string s = null; var a = s; var b = (a)!;` the type of `b` goes back to that of `s`. -/
theorem symbolType_eq_typeOf_initializer_chain :
    let m := build (parse "" "string s = null; var a = s; var b = (a)!;").tree.placed true
    ∃ s e, m.symbol? 2 = some s ∧ s.name = "b" ∧ s.initializer = some e ∧
      m.symbolType 2 = some (.reference .annotated) ∧
      m.symbolType 2 = (m.typeOf e).map fun facts =>
        if facts.isReference then m.table.reference true else facts := by
  intro m
  have hfound : (m.symbol? 2).any (fun s => s.name == "b" && s.kind == .localVariable &&
      declaredType m.table s == .implicit && s.initializer.isSome) = true := by decide +kernel
  have htype : m.symbolType 2 = some (.reference .annotated) := by decide +kernel
  obtain ⟨s, hs, hfound⟩ := (Option.any_eq_true _ _).1 hfound
  simp only [Bool.and_eq_true, beq_iff_eq, Option.isSome_iff_exists] at hfound
  obtain ⟨⟨⟨hname, hlocal⟩, hvar⟩, e, hvalue⟩ := hfound
  exact ⟨s, e, hs, hname, hvalue, htype,
    symbolType_eq_typeOf_initializer _ true 2 s e hs hlocal hvar hvalue⟩

end Model

end NullLint
