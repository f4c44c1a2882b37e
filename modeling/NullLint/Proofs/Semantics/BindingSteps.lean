import NullLint.Proofs.Semantics.Visiting
import NullLint.Proofs.Syntax.Relabeling

/-!
# Binding step by step

What binding a node does, spelled out for every node: a scope declares a list of symbols and then
binds its parts inside, a local declaration binds the initializers and declares the variables in
turn, a name is looked up, and any other node binds its parts.
-/

namespace NullLint

namespace Kind

/-- The kind of scope that a node of this kind opens. -/
def scopeKind : Kind → ScopeKind
  | .compilationUnit => .compilationUnit
  | .namespaceDeclaration => .namespaceBody
  | .classDeclaration | .structDeclaration => .typeBody
  | .block => .block
  | _ => .method

end Kind

namespace Bindings

variable {n c : Placed} {chain : List Nat}

/-! ## Symbols -/

/-- The symbol that a class or struct declares. -/
def typeSymbols (n : Placed) : List Symbol :=
  match n.kind with
  | .classDeclaration => n.declaredName?.toList.map fun name => ⟨name, .classType, n.id, none, none⟩
  | .structDeclaration => n.declaredName?.toList.map fun name => ⟨name, .structType, n.id, none, none⟩
  | _ => []

/-- The symbol that a declarator declares. -/
def variableSymbols (kind : SymbolKind) (type : Option Placed) (d : Placed) : List Symbol :=
  d.declarator?.toList.map fun v => ⟨v.nameToken.leafText, kind, d.id, type, v.initializer⟩

/-- The symbol that a parameter declares. -/
def parameterSymbols (p : Placed) : List Symbol :=
  p.parameter?.toList.map fun v => ⟨v.nameToken.leafText, .parameter, p.id, some v.type, none⟩

/-- The symbols that a member of a type declares. -/
def memberSymbols (n : Placed) : List Symbol :=
  match n.kind with
  | .fieldDeclaration => n.variableDeclaration?.toList.flatMap fun v =>
      v.declarators.flatMap (variableSymbols .field (some v.type))
  | .propertyDeclaration => n.property?.toList.map fun v =>
      ⟨v.nameToken.leafText, .property, n.id, some v.type, v.initializer⟩
  | .methodDeclaration => n.method?.toList.map fun v =>
      ⟨v.nameToken.leafText, .method, n.id, v.returnType, none⟩
  | _ => typeSymbols n

/-- The symbols that a scope declares before anything in it is looked up. -/
def scopeSymbols (n : Placed) : List Symbol :=
  match n.kind with
  | .compilationUnit | .namespaceDeclaration => n.members.flatMap typeSymbols
  | .classDeclaration | .structDeclaration => n.members.flatMap memberSymbols
  | .methodDeclaration | .constructorDeclaration =>
    n.method?.toList.flatMap fun v => v.parameters.flatMap parameterSymbols
  | _ => []

/-- Declares symbols one after the other. -/
def declareAll (chain : List Nat) (b : Bindings) (ss : List Symbol) : Bindings :=
  ss.foldl (fun b s => b.declare chain s) b

theorem declareType_eq (b : Bindings) : b.declareType chain n = b.declareAll chain (typeSymbols n) := by
  unfold declareType typeSymbols
  generalize n.kind = k
  cases k
  case classDeclaration | structDeclaration => cases n.declaredName? <;> rfl
  all_goals rfl

theorem declareVariable_eq_declareAll (b : Bindings) (kind : SymbolKind) (type : Option Placed) :
    b.declareVariable chain kind type n = b.declareAll chain (variableSymbols kind type n) := by
  unfold declareVariable variableSymbols
  cases n.declarator? <;> rfl

theorem declareParameter_eq (b : Bindings) :
    b.declareParameter chain n = b.declareAll chain (parameterSymbols n) := by
  unfold declareParameter parameterSymbols
  cases n.parameter? <;> rfl

theorem foldl_declareAll {f : Bindings → Placed → Bindings} {g : Placed → List Symbol}
    (h : ∀ c b, f b c = declareAll chain b (g c)) (cs : List Placed) (b : Bindings) :
    cs.foldl f b = b.declareAll chain (cs.flatMap g) := by
  induction cs generalizing b with
  | nil => rfl
  | cons c cs ih =>
    rw [List.foldl_cons, ih, h, List.flatMap_cons, declareAll, declareAll, ← List.foldl_append]
    rfl

theorem declareMember_eq (b : Bindings) :
    b.declareMember chain n = b.declareAll chain (memberSymbols n) := by
  unfold declareMember memberSymbols
  generalize n.kind = k
  cases k
  case fieldDeclaration =>
    cases n.variableDeclaration? with
    | none => rfl
    | some v =>
      simp only [Option.toList_some, List.flatMap_cons, List.flatMap_nil, List.append_nil]
      exact foldl_declareAll
        (fun d b => declareVariable_eq_declareAll (n := d) b .field (some v.type)) _ b
  case propertyDeclaration => cases n.property? <;> rfl
  case methodDeclaration => cases n.method? <;> rfl
  all_goals exact declareType_eq b

/-! ## Parts -/

/-- The nodes that are bound below a node, one after the other. -/
def boundParts (n : Placed) : List Placed :=
  match n.kind with
  | .classDeclaration | .structDeclaration => n.members
  | .methodDeclaration | .constructorDeclaration =>
    n.method?.toList.flatMap fun v => v.body.toList
  | .compilationUnit | .namespaceDeclaration | .accessorDeclaration | .block =>
    n.children.filter fun c => !c.kind.isToken
  | .fieldDeclaration =>
    n.variableDeclaration?.toList.flatMap fun v => v.declarators.filterMap Node.initializer?
  | .propertyDeclaration => n.children.filter fun c => isPropertyBody c.kind
  | _ => parts n

/-- Binds nodes one after the other. -/
def bindAll (chain : List Nat) (cs : List Placed) (b : Bindings) : Bindings :=
  cs.foldl (fun b c => bind chain c b) b

theorem bind_scope (hk : n.kind.opensScope = true) (chain : List Nat) (b : Bindings) :
    bind chain n b = bindAll (b.scopes.length :: chain) (boundParts n)
      (declareAll (b.scopes.length :: chain) (b.openScope n.kind.scopeKind chain n.id).2
        (scopeSymbols n)) := by
  have hchildren (b' : Bindings) : n.children.attach.foldl (fun b' c => if c.1.kind.isToken then b'
      else bind (b.scopes.length :: chain) c.1 b') b' =
      bindAll (b.scopes.length :: chain) (n.children.filter fun c => !c.kind.isToken) b' := by
    rw [bindAll, ← foldl_nonToken]
    exact List.foldl_attach (f := fun b' c => if c.kind.isToken then b'
      else bind (b.scopes.length :: chain) c b')
  have htypes (b' : Bindings) : n.members.foldl
      (fun b' m => b'.declareType (b.scopes.length :: chain) m) b' =
      b'.declareAll (b.scopes.length :: chain) (n.members.flatMap typeSymbols) :=
    foldl_declareAll (fun c b => declareType_eq (n := c) b) _ b'
  have hmembers (b' : Bindings) : n.members.foldl
      (fun b' m => b'.declareMember (b.scopes.length :: chain) m) b' =
      b'.declareAll (b.scopes.length :: chain) (n.members.flatMap memberSymbols) :=
    foldl_declareAll (fun c b => declareMember_eq (n := c) b) _ b'
  have hparameters (v : Node.Method Place) (b' : Bindings) : v.parameters.foldl
      (fun b' p => b'.declareParameter (b.scopes.length :: chain) p) b' =
      b'.declareAll (b.scopes.length :: chain) (v.parameters.flatMap parameterSymbols) :=
    foldl_declareAll (fun c b => declareParameter_eq (n := c) b) _ b'
  have hkinds : n.kind = .compilationUnit ∨ n.kind = .namespaceDeclaration ∨
      n.kind = .classDeclaration ∨ n.kind = .structDeclaration ∨ n.kind = .methodDeclaration ∨
      n.kind = .constructorDeclaration ∨ n.kind = .accessorDeclaration ∨ n.kind = .block := by
    revert hk
    cases n.kind <;> decide
  rw [bind]
  unfold boundParts scopeSymbols
  rcases hkinds with hk | hk | hk | hk | hk | hk | hk | hk
  · simp only [hk, openScope, hchildren, htypes, Kind.scopeKind]
  · simp only [hk, openScope, hchildren, htypes, Kind.scopeKind]
  · simp only [hk, openScope, hmembers, Kind.scopeKind]
    exact List.foldl_attach (f := fun b' c => bind (b.scopes.length :: chain) c b')
  · simp only [hk, openScope, hmembers, Kind.scopeKind]
    exact List.foldl_attach (f := fun b' c => bind (b.scopes.length :: chain) c b')
  · simp only [hk, openScope, hparameters, Kind.scopeKind]
    split
    · rename_i v hv
      split <;> simp_all [bindAll]
    · simp_all [bindAll, declareAll]
  · simp only [hk, openScope, hparameters, Kind.scopeKind]
    split
    · rename_i v hv
      split <;> simp_all [bindAll]
    · simp_all [bindAll, declareAll]
  · simp only [hk, openScope, hchildren, Kind.scopeKind]
    rfl
  · simp only [hk, openScope, hchildren, Kind.scopeKind]
    rfl

theorem bind_name (hk : n.kind = .identifierName) (b : Bindings) :
    bind chain n b = b.bindName chain n := by
  rw [bind]
  simp only [hk]

/-- Binds and declares the declarators of a local declaration. -/
theorem bind_local (hk : n.kind = .localDeclarationStatement) (b : Bindings) :
    bind chain n b = n.variableDeclaration?.elim b fun v => v.declarators.foldl (fun b d =>
      declareAll chain (bindAll chain d.initializer?.toList b)
        (variableSymbols .localVariable (some v.type) d)) b := by
  rw [bind]
  simp only [hk]
  split
  · rename_i v hv
    simp only [hv, Option.elim_some, ← declareVariable_eq_declareAll]
    refine Eq.trans ?_ List.foldl_attach
    congr
    funext b d
    split <;> simp_all [bindAll]
  · rename_i hv
    simp only [hv, Option.elim_none]

theorem bind_other (hscope : n.kind.opensScope = false) (hname : n.kind ≠ .identifierName)
    (hlocal : n.kind ≠ .localDeclarationStatement) (b : Bindings) :
    bind chain n b = bindAll chain (boundParts n) b := by
  by_cases hfield : n.kind = .fieldDeclaration
  · rw [bind]
    unfold boundParts
    simp only [hfield]
    split
    · rename_i v hv
      simp only [hv, Option.toList_some, List.flatMap_cons, List.flatMap_nil, List.append_nil,
        bindAll, List.foldl_filterMap]
      refine Eq.trans ?_ List.foldl_attach
      congr
      funext b d
      split <;> simp_all
    · rename_i hv
      simp only [hv]
      rfl
  by_cases hproperty : n.kind = .propertyDeclaration
  · rw [bind]
    unfold boundParts
    simp only [hproperty, bindAll, List.foldl_filter]
    exact List.foldl_attach (f := fun b c => if isPropertyBody c.kind then bind chain c b else b)
  have hspecial : isSpecial n.kind = false := by
    revert hscope hname hlocal hfield hproperty
    cases n.kind <;> decide
  have hparts : boundParts n = parts n := by
    unfold boundParts
    revert hscope hfield hproperty
    cases n.kind <;> simp [Kind.opensScope]
  rw [bind_plain hspecial, hparts]
  rfl

/-! ## What is below a node -/

/-- The symbol belongs to a node below `n`; only a struct declares a struct. -/
def OwnedBelow (n : Placed) (s : Symbol) : Prop :=
  ∃ c ∈ n.preorder, s.declaration = c.id ∧ (s.kind = .structType → c.kind = .structDeclaration)

theorem OwnedBelow.of_mem {s : Symbol} (h : OwnedBelow c s) (hc : c ∈ n.preorder) :
    OwnedBelow n s := by
  obtain ⟨d, hd, h⟩ := h
  exact ⟨d, Node.mem_preorder_trans hd hc, h⟩

theorem ownedBelow_of_mem_typeSymbols {s : Symbol} (hs : s ∈ typeSymbols n) : OwnedBelow n s := by
  unfold typeSymbols at hs
  split at hs
  · obtain ⟨name, -, rfl⟩ := List.mem_map.1 hs
    exact ⟨n, n.self_mem_preorder, rfl, by simp⟩
  · obtain ⟨name, -, rfl⟩ := List.mem_map.1 hs
    exact ⟨n, n.self_mem_preorder, rfl, fun _ => ‹_›⟩
  · cases hs

theorem ownedBelow_of_mem_variableSymbols {s : Symbol} {kind : SymbolKind} {type : Option Placed}
    (hkind : kind ≠ .structType) (hs : s ∈ variableSymbols kind type n) : OwnedBelow n s := by
  obtain ⟨v, -, rfl⟩ := List.mem_map.1 hs
  exact ⟨n, n.self_mem_preorder, rfl, fun h => absurd h hkind⟩

theorem ownedBelow_of_mem_parameterSymbols {s : Symbol} (hs : s ∈ parameterSymbols n) :
    OwnedBelow n s := by
  obtain ⟨v, -, rfl⟩ := List.mem_map.1 hs
  exact ⟨n, n.self_mem_preorder, rfl, by simp⟩

theorem ownedBelow_of_mem_memberSymbols {s : Symbol} (hs : s ∈ memberSymbols n) :
    OwnedBelow n s := by
  unfold memberSymbols at hs
  split at hs
  · obtain ⟨v, hv, hs⟩ := List.mem_flatMap.1 hs
    obtain ⟨d, hd, hs⟩ := List.mem_flatMap.1 hs
    have hd := (Node.mem_declarators (Option.mem_toList.1 hv) hd).1
    exact (ownedBelow_of_mem_variableSymbols (by decide) hs).of_mem
      (Node.mem_preorder_of_mem_children hd)
  · obtain ⟨v, -, rfl⟩ := List.mem_map.1 hs
    exact ⟨n, n.self_mem_preorder, rfl, by simp⟩
  · obtain ⟨v, -, rfl⟩ := List.mem_map.1 hs
    exact ⟨n, n.self_mem_preorder, rfl, by simp⟩
  · exact ownedBelow_of_mem_typeSymbols hs

theorem mem_preorder_of_mem_parameters {v : Node.Method Place} (hv : n.method? = some v)
    (hc : c ∈ v.parameters) : c ∈ n.preorder := by
  unfold Node.method? at hv
  split at hv
  · obtain ⟨name, -, rfl⟩ := Option.map_eq_some_iff.1 hv
    cases hl : n.childOfKind? .parameterList with
    | none => simp [hl] at hc
    | some list =>
      simp only [hl, Option.map_some, Option.getD_some] at hc
      exact Node.mem_preorder_trans (Node.mem_preorder_of_mem_children (List.mem_filter.1 hc).1)
        (Node.mem_preorder_of_mem_children (Node.childOfKind?_eq_some hl).1)
  · cases hv

theorem ownedBelow_of_mem_scopeSymbols {s : Symbol} (hs : s ∈ scopeSymbols n) : OwnedBelow n s := by
  have hmember {m : Placed} (hm : m ∈ n.members) : m ∈ n.preorder :=
    Node.mem_preorder_of_mem_children (List.mem_filter.1 hm).1
  unfold scopeSymbols at hs
  split at hs
  · obtain ⟨m, hm, hs⟩ := List.mem_flatMap.1 hs
    exact (ownedBelow_of_mem_typeSymbols hs).of_mem (hmember hm)
  · obtain ⟨m, hm, hs⟩ := List.mem_flatMap.1 hs
    exact (ownedBelow_of_mem_typeSymbols hs).of_mem (hmember hm)
  · obtain ⟨m, hm, hs⟩ := List.mem_flatMap.1 hs
    exact (ownedBelow_of_mem_memberSymbols hs).of_mem (hmember hm)
  · obtain ⟨m, hm, hs⟩ := List.mem_flatMap.1 hs
    exact (ownedBelow_of_mem_memberSymbols hs).of_mem (hmember hm)
  · obtain ⟨v, hv, hs⟩ := List.mem_flatMap.1 hs
    obtain ⟨p, hp, hs⟩ := List.mem_flatMap.1 hs
    exact (ownedBelow_of_mem_parameterSymbols hs).of_mem
      (mem_preorder_of_mem_parameters (Option.mem_toList.1 hv) hp)
  · obtain ⟨v, hv, hs⟩ := List.mem_flatMap.1 hs
    obtain ⟨p, hp, hs⟩ := List.mem_flatMap.1 hs
    exact (ownedBelow_of_mem_parameterSymbols hs).of_mem
      (mem_preorder_of_mem_parameters (Option.mem_toList.1 hv) hp)
  · cases hs

theorem initializer_below {d e : Placed} (hd : d ∈ n.children) (he : d.initializer? = some e) :
    e ∈ n.preorder ∧ e.size < n.size :=
  ⟨Node.mem_preorder_trans (Node.mem_preorder_of_initializer? he)
    (Node.mem_preorder_of_mem_children hd),
    Nat.lt_trans (Node.size_lt_of_initializer? he) (Node.size_lt_of_mem_children hd)⟩

theorem mem_children_of_body {v : Node.Method Place} (hv : n.method? = some v)
    (hc : v.body = some c) : c ∈ n.children := by
  unfold Node.method? at hv
  split at hv
  · obtain ⟨name, -, rfl⟩ := Option.map_eq_some_iff.1 hv
    exact List.mem_of_find?_eq_some hc
  · cases hv

theorem boundParts_below (hc : c ∈ boundParts n) : c ∈ n.preorder ∧ c.size < n.size := by
  have hchild {c : Placed} (hc : c ∈ n.children) : c ∈ n.preorder ∧ c.size < n.size :=
    ⟨Node.mem_preorder_of_mem_children hc, Node.size_lt_of_mem_children hc⟩
  unfold boundParts at hc
  split at hc
  case h_1 | h_2 | h_5 | h_6 | h_7 | h_8 | h_10 => exact hchild (List.mem_filter.1 hc).1
  case h_3 | h_4 =>
    obtain ⟨v, hv, hc⟩ := List.mem_flatMap.1 hc
    exact hchild (mem_children_of_body (Option.mem_toList.1 hv) (Option.mem_toList.1 hc))
  case h_9 =>
    obtain ⟨v, hv, hc⟩ := List.mem_flatMap.1 hc
    obtain ⟨d, hd, he⟩ := List.mem_filterMap.1 hc
    exact initializer_below (Node.mem_declarators (Option.mem_toList.1 hv) hd).1 he
  case h_11 => exact ⟨mem_preorder_of_mem_parts hc, size_lt_of_mem_parts hc⟩

/-- What holds before a node is bound and is kept by opening scopes, by declaring symbols of nodes
below it and by binding names below it holds behind it. `C` is what is known of the scopes that are
open. -/
theorem bind_induction {P : Bindings → Prop} {C : List Nat → Prop} {root : Placed}
    (openScope : ∀ b kind chain node, P b → C chain →
      P (b.openScope kind chain node).2 ∧ C (b.scopes.length :: chain))
    (declare : ∀ b chain s, OwnedBelow root s → P b → C chain → P (b.declare chain s))
    (bindName : ∀ b chain i, i ∈ root.preorder → i.kind = .identifierName → P b → C chain →
      P (b.bindName chain i))
    {n : Placed} (hn : n ∈ root.preorder) {b : Bindings} (hb : P b) (hchain : C chain) :
    P (bind chain n b) := by
  induction hsize : n.size using Nat.strongRecOn generalizing n chain b with
  | ind size ih =>
    subst hsize
    have hall {cs : List Placed} (hcs : ∀ c ∈ cs, c ∈ n.preorder ∧ c.size < n.size)
        {chain : List Nat} {b : Bindings} (hb : P b) (hchain : C chain) :
        P (bindAll chain cs b) := by
      induction cs generalizing b with
      | nil => exact hb
      | cons c cs ihcs =>
        obtain ⟨hc, hlt⟩ := hcs c (by simp)
        exact ihcs (fun d hd => hcs d (by simp [hd]))
          (ih c.size hlt (Node.mem_preorder_trans hc hn) hb hchain rfl)
    have hdeclare {ss : List Symbol} (hss : ∀ s ∈ ss, OwnedBelow n s) {chain : List Nat}
        {b : Bindings} (hb : P b) (hchain : C chain) : P (b.declareAll chain ss) := by
      induction ss generalizing b with
      | nil => exact hb
      | cons s ss ihss =>
        exact ihss (fun t ht => hss t (by simp [ht]))
          (declare b chain s ((hss s (by simp)).of_mem hn) hb hchain)
    by_cases hscope : n.kind.opensScope = true
    · obtain ⟨hopened, hchain'⟩ := openScope b n.kind.scopeKind chain n.id hb hchain
      rw [bind_scope hscope]
      exact hall (fun c hc => boundParts_below hc)
        (hdeclare (fun s hs => ownedBelow_of_mem_scopeSymbols hs) hopened hchain') hchain'
    by_cases hname : n.kind = .identifierName
    · rw [bind_name hname]
      exact bindName b chain n hn hname hb hchain
    by_cases hlocal : n.kind = .localDeclarationStatement
    · rw [bind_local hlocal]
      cases hv : n.variableDeclaration? with
      | none => exact hb
      | some v =>
        refine List.foldlRecOn v.declarators _ hb fun b hb d hd => ?_
        have hd := (Node.mem_declarators hv hd).1
        refine hdeclare (fun s hs => ?_) (hall (fun e he => ?_) hb hchain) hchain
        · exact (ownedBelow_of_mem_variableSymbols (by decide) hs).of_mem
            (Node.mem_preorder_of_mem_children hd)
        · exact initializer_below hd (Option.mem_toList.1 he)
    · rw [bind_other (by simpa using hscope) hname hlocal]
      exact hall (fun c hc => boundParts_below hc) hb hchain

end Bindings

end NullLint
