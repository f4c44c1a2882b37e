import NullLint.Proofs.Semantics.Execution
import Mathlib.Data.List.Flatten
import Mathlib.Data.List.TakeWhile

/-!
# Scoping of locals

What binding does with statements whose locals are declared one at a time, each with an
initializer, directly in a statement list. Every declarator gets a symbol of its own, and a name
that is bound means a local that an earlier statement of an enclosing list declares.
-/

namespace NullLint

/-- Nodes that declare something other than a local. -/
def Kind.isDeclaration : Kind → Bool
  | .namespaceDeclaration | .classDeclaration | .structDeclaration | .fieldDeclaration
  | .propertyDeclaration | .methodDeclaration | .constructorDeclaration
  | .accessorDeclaration => true
  | _ => false

/-- The statement declares one variable and gives it a value. -/
def DeclaresOne (s : Placed) : Prop :=
  ∃ v d e, s.variableDeclaration? = some v ∧ v.declarators = [d] ∧ d.initializer? = some e

/-- Below the node nothing but locals is declared, each by a statement of its own in a statement
list and with an initializer. -/
structure PlainLocals (root : Placed) : Prop where
  no_declaration : ∀ n ∈ root.preorder, n.kind.isDeclaration = false
  in_list : ∀ n ∈ root.preorder, ∀ c ∈ n.children, c.kind = .localDeclarationStatement →
    n.kind.isList = true
  one : ∀ n ∈ root.preorder, n.kind = .localDeclarationStatement → DeclaresOne n

theorem PlainLocals.of_mem {n root : Placed} (h : PlainLocals root) (hn : n ∈ root.preorder) :
    PlainLocals n where
  no_declaration m hm := h.no_declaration m (Node.mem_preorder_trans hm hn)
  in_list m hm := h.in_list m (Node.mem_preorder_trans hm hn)
  one m hm := h.one m (Node.mem_preorder_trans hm hn)

/-- One of the entries says that the statement declares the symbol. -/
def Declares (entries : List (Nat × Nat)) (s : Placed) (x : Nat) : Prop :=
  s.kind = .localDeclarationStatement ∧
    ∃ v, s.variableDeclaration? = some v ∧ ∃ d ∈ v.declarators, (d.id, x) ∈ entries

theorem Declares.mono {entries entries' : List (Nat × Nat)} {s : Placed} {x : Nat}
    (h : Declares entries s x) (hsub : entries ⊆ entries') : Declares entries' s x := by
  obtain ⟨hk, v, hv, d, hd, he⟩ := h
  exact ⟨hk, v, hv, d, hd, hsub he⟩

/-- On the path, a statement that declares the symbol stands before a node in the list that
holds it. -/
def DeclaredAbove (entries : List (Nat × Nat)) (x : Nat) (path : List Placed) : Prop :=
  ∃ c n, [c, n] <:+: path ∧ ∃ s ∈ Model.statementsBefore n c, Declares entries s x

theorem DeclaredAbove.mono {entries entries' : List (Nat × Nat)} {x : Nat} {path : List Placed}
    (h : DeclaredAbove entries x path) (hsub : entries ⊆ entries') :
    DeclaredAbove entries' x path := by
  obtain ⟨c, n, hpath, s, hs, hd⟩ := h
  exact ⟨c, n, hpath, s, hs, hd.mono hsub⟩

/-- The path passes statement lists through their statements. -/
def Listed (path : List Placed) : Prop :=
  ∀ c n, [c, n] <:+: path → n.kind.isList = true → c.kind.isStatement = true

theorem statements_of_isList {n : Placed} (h : n.kind.isList = true) :
    n.statements = n.children.filter fun c => c.kind.isStatement := by
  have hkind : n.kind = .block ∨ n.kind = .compilationUnit := by simpa [Kind.isList] using h
  rcases hkind with hkind | hkind <;> simp [Node.statements, hkind]

/-- The statements of a list before one of them. -/
theorem statementsBefore_of_split {n c : Placed} {before after : List Placed} (hn : n.Numbered)
    (hlist : n.kind.isList = true) (hsplit : n.statements = before ++ c :: after) :
    Model.statementsBefore n c = before.reverse := by
  have hne : ∀ s ∈ before, s.id ≠ c.id := by
    have hnodup := hn.nodup_children.sublist
      ((List.filter_sublist (p := fun c => c.kind.isStatement)).map Node.id)
    rw [← statements_of_isList hlist, hsplit, List.map_append, List.map_cons,
      List.nodup_append] at hnodup
    exact fun s hs => hnodup.2.2 s.id (List.mem_map_of_mem hs) c.id (by simp)
  unfold Model.statementsBefore
  rw [if_pos (by simp [hsplit]), hsplit,
    List.takeWhile_append_of_pos (by simpa using hne), List.takeWhile_cons_of_neg (by simp),
    List.append_nil]

theorem mem_statementsBefore {n c s : Placed} {before after : List Placed} (hn : n.Numbered)
    (hlist : n.kind.isList = true) (hc : c.kind.isStatement = true)
    (hsplit : (n.children.filter fun c => !c.kind.isToken) = before ++ c :: after)
    (hs : s ∈ before) (hk : s.kind.isStatement = true) : s ∈ Model.statementsBefore n c := by
  -- statements are not tokens, so the split of the list splits its statements
  have hfilter : n.statements = (before.filter fun c => c.kind.isStatement) ++ c ::
      after.filter fun c => c.kind.isStatement := by
    have htoken : (fun c : Placed => c.kind.isStatement && !c.kind.isToken) =
        fun c => c.kind.isStatement := by
      funext c
      cases hkc : c.kind.isStatement with
      | false => rfl
      | true => simp [Kind.isToken, Kind.isNode_of_isStatement hkc]
    rw [statements_of_isList hlist]
    nth_rewrite 1 [← htoken]
    rw [← List.filter_filter, hsplit]
    simp [hc]
  rw [statementsBefore_of_split hn hlist hfilter, List.mem_reverse]
  exact List.mem_filter.2 ⟨hs, hk⟩

/-- Only lists have statements before a child of theirs. -/
theorem statementsBefore_eq_nil {n c : Placed} (hn : n.Numbered) (hlist : n.kind.isList = false)
    (hc : c ∈ n.children) : Model.statementsBefore n c = [] := by
  have hne : n.id ≠ c.id := hn.id_ne_of_mem_child hc (Node.self_mem_preorder c)
  have hstatements : n.statements = [n] ∨ n.statements = [] := by
    unfold Node.statements
    split
    · simp_all [Kind.isList]
    · simp_all [Kind.isList]
    · split
      · exact .inl rfl
      · exact .inr rfl
  unfold Model.statementsBefore
  rcases hstatements with h | h <;> simp [h, hne]

theorem of_mem_statementsBefore {n c s : Placed} (hn : n.Numbered) (hc : c ∈ n.children)
    (hs : s ∈ Model.statementsBefore n c) :
    n.kind.isList = true ∧ s ∈ n.children ∧ s.id ≠ c.id := by
  cases hlist : n.kind.isList with
  | false => simp [statementsBefore_eq_nil hn hlist hc] at hs
  | true =>
    unfold Model.statementsBefore at hs
    split at hs
    · rw [List.mem_reverse, statements_of_isList hlist] at hs
      have hne : s.id ≠ c.id := by simpa using List.mem_takeWhile_imp hs
      exact ⟨rfl, (List.mem_filter.1 (List.takeWhile_subset _ hs)).1, hne⟩
    · simp at hs

/-- What is met before an element that is met before the stop is met before the stop. -/
theorem mem_takeWhile_trans {α : Type} {p q : α → Bool} {l : List α} {a b : α}
    (ha : a ∈ l.takeWhile p) (hq : q a = false) (hb : b ∈ l.takeWhile q) :
    b ∈ l.takeWhile p := by
  induction l with
  | nil => simp at ha
  | cons c cs ih =>
    have hp : p c = true := by
      by_contra hp
      simp [hp] at ha
    have hqc : q c = true := by
      by_contra hqc
      simp [hqc] at hb
    rw [List.takeWhile_cons_of_pos hp, List.mem_cons] at ha ⊢
    rw [List.takeWhile_cons_of_pos hqc, List.mem_cons] at hb
    rcases ha with rfl | ha
    · simp [hq] at hqc
    · exact hb.imp_right (ih ha)

/-- The statements before a statement before `c` are before `c`. -/
theorem statementsBefore_trans {n c s s' : Placed} (hs : s ∈ Model.statementsBefore n c)
    (hs' : s' ∈ Model.statementsBefore n s) : s' ∈ Model.statementsBefore n c := by
  unfold Model.statementsBefore at hs hs' ⊢
  split at hs
  · rename_i hc
    rw [if_pos hc, List.mem_reverse]
    split at hs'
    · rw [List.mem_reverse] at hs hs'
      exact mem_takeWhile_trans hs (by simp) hs'
    · simp at hs'
  · simp at hs

namespace Bindings

/-- Whether a kind of node is not bound by going through its parts in the scope around it. -/
def isSpecial (k : Kind) : Bool :=
  k.isList || k.isDeclaration || k == .localDeclarationStatement || k == .identifierName

/-- The nodes below a node that are bound one after the other, if the node is not special. -/
def parts (n : Placed) : List Placed :=
  match n.kind with
  | .memberAccessExpression => n.memberAccess?.toList.map fun a => a.expression
  | .objectCreationExpression => (n.creation?.map fun c => c.arguments).getD []
  | .usingDirective => []
  | k => if k.isType || k.isToken then [] else n.children.filter fun c => !c.kind.isToken

/-- Binding the nodes one after the other leads from `b` to `b'`. -/
inductive Walk : List Nat → List Placed → Bindings → Bindings → Prop where
  | nil (chain : List Nat) (b : Bindings) : Walk chain [] b b
  | name {chain : List Nat} {n : Placed} {cs : List Placed} {b b' : Bindings}
      (kind : n.kind = .identifierName) (rest : Walk chain cs (b.bindName chain n) b') :
      Walk chain (n :: cs) b b'
  | list {chain : List Nat} {n : Placed} {cs : List Placed} {b b₁ b' : Bindings}
      {scope : ScopeKind} (kind : n.kind.isList = true)
      (inside : Walk (b.scopes.length :: chain) (n.children.filter fun c => !c.kind.isToken)
        (b.openScope scope chain n.id).2 b₁)
      (rest : Walk chain cs b₁ b') : Walk chain (n :: cs) b b'
  | declaration {chain : List Nat} {n d e : Placed} {v : Node.VariableDeclaration Place}
      {cs : List Placed} {b b₁ b' : Bindings} (kind : n.kind = .localDeclarationStatement)
      (view : n.variableDeclaration? = some v) (one : v.declarators = [d])
      (initializer : d.initializer? = some e)
      (undeclared : e.kind ≠ .localDeclarationStatement) (inside : Walk chain [e] b b₁)
      (rest : Walk chain cs (b₁.declareVariable chain .localVariable (some v.type) d) b') :
      Walk chain (n :: cs) b b'
  | parts {chain : List Nat} {n : Placed} {ps cs : List Placed} {b b₁ b' : Bindings}
      (plain : isSpecial n.kind = false)
      (below : (ps.flatMap Node.preorder).Sublist n.preorder)
      (smaller : ∀ p ∈ ps, p.size < n.size)
      (undeclared : ∀ p ∈ ps, p.kind ≠ .localDeclarationStatement)
      (inside : Walk chain ps b b₁) (rest : Walk chain cs b₁ b') : Walk chain (n :: cs) b b'

/-! ## Binding is such a walk -/

theorem Walk.cons {chain : List Nat} {n : Placed} {cs : List Placed} {b b₁ b' : Bindings}
    (first : Walk chain [n] b b₁) (rest : Walk chain cs b₁ b') : Walk chain (n :: cs) b b' := by
  cases first with
  | name kind tail =>
    cases tail
    exact .name kind rest
  | list kind inside tail =>
    cases tail
    exact .list kind inside rest
  | declaration kind view one initializer undeclared inside tail =>
    cases tail
    exact .declaration kind view one initializer undeclared inside rest
  | parts plain below smaller undeclared inside tail =>
    cases tail
    exact .parts plain below smaller undeclared inside rest

theorem walk_foldl {chain : List Nat} {cs : List Placed}
    (h : ∀ c ∈ cs, ∀ b, Walk chain [c] b (bind chain c b)) (b : Bindings) :
    Walk chain cs b (cs.foldl (fun b c => bind chain c b) b) := by
  induction cs generalizing b with
  | nil => exact .nil chain b
  | cons c cs ih =>
    exact .cons (h c (by simp) b) (ih (fun d hd => h d (by simp [hd])) _)

theorem foldl_nonToken (chain : List Nat) (cs : List Placed) (b : Bindings) :
    cs.foldl (fun b c => if c.kind.isToken then b else bind chain c b) b =
      (cs.filter fun c => !c.kind.isToken).foldl (fun b c => bind chain c b) b := by
  rw [List.foldl_filter]
  congr
  funext b c
  cases c.kind.isToken <;> rfl

/-- Nodes other than lists, names and local declarations are bound by binding their parts. -/
theorem bind_plain {n : Placed} (h : isSpecial n.kind = false) (chain : List Nat) (b : Bindings) :
    bind chain n b = (parts n).foldl (fun b c => bind chain c b) b := by
  rw [bind]
  unfold parts
  split <;> simp_all [isSpecial, Kind.isList, Kind.isDeclaration]
  case h_13 => split <;> simp_all
  case h_14 => split <;> simp_all
  case h_16 =>
    split
    · rfl
    · exact foldl_nonToken chain _ b

/-- A list is bound in a scope of its own. -/
theorem bind_list {n : Placed} (h : n.kind.isList = true) (hm : n.members = [])
    (chain : List Nat) (b : Bindings) :
    ∃ scope, bind chain n b =
      (n.children.filter fun c => !c.kind.isToken).foldl
        (fun b' c => bind (b.scopes.length :: chain) c b') (b.openScope scope chain n.id).2 := by
  have hk : n.kind = .block ∨ n.kind = .compilationUnit := by simpa [Kind.isList] using h
  rcases hk with hk | hk
  · refine ⟨.block, ?_⟩
    rw [bind, ← foldl_nonToken]
    simp [hk, openScope]
  · refine ⟨.compilationUnit, ?_⟩
    rw [bind, ← foldl_nonToken]
    simp [hk, hm, openScope]

/-- A local is declared behind its initializer. -/
theorem bind_declaration {n d e : Placed} {v : Node.VariableDeclaration Place}
    (h : n.kind = .localDeclarationStatement) (hv : n.variableDeclaration? = some v)
    (hd : v.declarators = [d]) (he : d.initializer? = some e) (chain : List Nat) (b : Bindings) :
    bind chain n b =
      (bind chain e b).declareVariable chain .localVariable (some v.type) d := by
  rw [bind]
  simp only [h]
  split
  · rename_i v' hv'
    obtain rfl : v = v' := Option.some.inj (hv.symm.trans hv')
    obtain ⟨type, declarators⟩ := v
    subst hd
    simp only [List.attach_cons, List.attach_nil, List.map_nil, List.foldl_cons, List.foldl_nil]
    split
    · simp_all
    · simp_all
  · simp_all

theorem flatMap_children_sublist {n : Placed} {cs : List Placed} (h : cs.Sublist n.children) :
    (cs.flatMap Node.preorder).Sublist n.preorder := by
  cases n with
  | token a t => simp [List.sublist_nil.1 h]
  | branch a k ds =>
    rw [Node.preorder_branch]
    exact .cons _ (h.flatMap Node.preorder)

/-- The parts lie below the node, one beside the other. -/
theorem sublist_parts (n : Placed) : ((parts n).flatMap Node.preorder).Sublist n.preorder := by
  unfold parts
  split
  · cases hv : n.memberAccess? with
    | none => simp
    | some v =>
      obtain ⟨_, rest, hc⟩ := Node.memberAccess?_eq_some hv
      apply flatMap_children_sublist
      simp [hc]
  · cases hv : n.creation? with
    | none => simp
    | some v =>
      obtain ⟨_, ha⟩ := Node.creation?_eq_some hv
      simp only [Option.map_some, Option.getD_some, ha]
      cases hl : n.childOfKind? .argumentList with
      | none => simp
      | some list =>
        have hlist := Node.mem_preorder_of_mem_children (Node.childOfKind?_eq_some hl).1
        refine .trans ?_ (Node.preorder_sublist hlist)
        exact flatMap_children_sublist List.filter_sublist
  · simp
  · split
    · simp
    · exact flatMap_children_sublist List.filter_sublist

theorem parts_undeclared {n : Placed} (h : PlainLocals n) (hn : isSpecial n.kind = false) :
    ∀ p ∈ parts n, p.kind ≠ .localDeclarationStatement := by
  have hlist : n.kind.isList = false := by simp_all [isSpecial]
  have hchild : ∀ c ∈ n.children, c.kind ≠ .localDeclarationStatement := by
    intro c hc hk
    have := h.in_list n (Node.self_mem_preorder n) c hc hk
    simp_all
  intro p hp
  unfold parts at hp
  split at hp
  · cases hv : n.memberAccess? with
    | none => simp [hv] at hp
    | some v =>
      obtain ⟨_, rest, hc⟩ := Node.memberAccess?_eq_some hv
      obtain rfl : p = v.expression := by simpa [hv] using hp
      exact hchild _ (by simp [hc])
  · cases hv : n.creation? with
    | none => simp [hv] at hp
    | some v =>
      obtain ⟨_, ha⟩ := Node.creation?_eq_some hv
      cases hl : n.childOfKind? .argumentList with
      | none => simp [hv, ha, hl] at hp
      | some list =>
        -- arguments are expressions, which a declaration is not
        have hexpr : p.kind.isExpression = true := by
          simp only [hv, ha, hl, Option.map_some, Option.getD_some] at hp
          exact (List.mem_filter.1 hp).2
        intro hk
        simp [hk, Kind.isExpression] at hexpr
  · simp at hp
  · split at hp
    · simp at hp
    · exact hchild p (List.mem_filter.1 hp).1

theorem size_lt_of_mem_parts {n p : Placed} (hp : p ∈ parts n) : p.size < n.size := by
  unfold parts at hp
  split at hp
  · cases hv : n.memberAccess? with
    | none => simp [hv] at hp
    | some v =>
      obtain rfl : p = v.expression := by simpa [hv] using hp
      exact Node.size_lt_of_memberAccess? hv
  · cases hv : n.creation? with
    | none => simp [hv] at hp
    | some v => exact Node.size_lt_of_mem_arguments hv (by simpa [hv] using hp)
  · simp at hp
  · split at hp
    · simp at hp
    · exact Node.size_lt_of_mem_children (List.mem_filter.1 hp).1

theorem mem_preorder_of_mem_parts {n p : Placed} (hp : p ∈ parts n) : p ∈ n.preorder :=
  (sublist_parts n).subset (List.mem_flatMap.2 ⟨p, hp, Node.self_mem_preorder p⟩)

/-- Binding a node of plain locals is a walk. -/
theorem walk_bind (n : Placed) (h : PlainLocals n) (chain : List Nat) (b : Bindings) :
    Walk chain [n] b (bind chain n b) := by
  induction hsize : n.size using Nat.strongRecOn generalizing n chain b with
  | ind size ih =>
    subst hsize
    have below : ∀ c ∈ n.preorder, c.size < n.size → ∀ chain b,
        Walk chain [c] b (bind chain c b) := fun c hc hlt chain b =>
      ih c.size hlt c (h.of_mem hc) chain b rfl
    by_cases hlist : n.kind.isList = true
    · have hmembers : n.members = [] := by
        refine List.filter_eq_nil_iff.2 fun c hc => ?_
        have := h.no_declaration c (Node.mem_preorder_of_mem_children hc)
        cases hk : c.kind <;> simp_all [Kind.isDeclaration]
      obtain ⟨scope, hbind⟩ := bind_list hlist hmembers chain b
      rw [hbind]
      refine .list hlist (walk_foldl (fun c hc b' => ?_) _) (.nil _ _)
      have hc' := (List.mem_filter.1 hc).1
      exact below c (Node.mem_preorder_of_mem_children hc') (Node.size_lt_of_mem_children hc') _ b'
    by_cases hlocal : n.kind = .localDeclarationStatement
    · obtain ⟨v, d, e, hv, hd, he⟩ := h.one n (Node.self_mem_preorder n) hlocal
      rw [bind_declaration hlocal hv hd he]
      have hchild := Node.mem_preorder_of_mem_children
        (Node.mem_declarators hv (d := d) (by simp [hd])).1
      refine .declaration hlocal hv hd he ?_ (below e ?_ ?_ chain b) (.nil _ _)
      · obtain ⟨c, hc, hk, _, he⟩ := Node.initializer?_eq_some he
        have hcn := Node.mem_preorder_trans (Node.mem_preorder_of_mem_children hc) hchild
        intro hek
        have := h.in_list c hcn e (List.mem_of_getElem? he) hek
        simp [hk, Kind.isList] at this
      · exact Node.mem_preorder_trans (Node.mem_preorder_of_initializer? he) hchild
      · exact Nat.lt_trans (Node.size_lt_of_initializer? he)
          (Node.size_lt_of_mem_declarators hv (by simp [hd]))
    by_cases hname : n.kind = .identifierName
    · have : bind chain n b = b.bindName chain n := by
        rw [bind]
        simp [hname]
      rw [this]
      exact .name hname (.nil _ _)
    · have hn : isSpecial n.kind = false := by
        have := h.no_declaration n (Node.self_mem_preorder n)
        simp_all [isSpecial]
      rw [bind_plain hn]
      refine .parts hn (sublist_parts n) (fun _ => size_lt_of_mem_parts) (parts_undeclared h hn)
        (walk_foldl ?_ b) (.nil _ _)
      intro c hc b'
      exact below c (mem_preorder_of_mem_parts hc) (size_lt_of_mem_parts hc) chain b'

/-! ## Entries -/

/-- The numbers of the nodes and of everything below them. -/
def numbers (cs : List Placed) : List Nat := (cs.flatMap Node.preorder).map Node.id

@[simp] theorem numbers_nil : numbers [] = [] := rfl

@[simp] theorem numbers_cons (n : Placed) (cs : List Placed) :
    numbers (n :: cs) = n.preorder.map Node.id ++ numbers cs := by
  simp [numbers]

theorem id_mem_numbers_of_mem {n m : Placed} {cs : List Placed} (hn : n ∈ cs)
    (hm : m ∈ n.preorder) : m.id ∈ numbers cs :=
  List.mem_map_of_mem (List.mem_flatMap.2 ⟨n, hn, hm⟩)

theorem symbolOf_bindName (b : Bindings) (chain : List Nat) (n : Placed) :
    (∃ x, b.resolve? chain (n.identifier?.getD "") = some x ∧
        (b.bindName chain n).symbolOf = (n.id, x) :: b.symbolOf) ∨
      (b.bindName chain n).symbolOf = b.symbolOf := by
  unfold bindName
  split
  · exact .inr rfl
  · rename_i name hname
    split
    · rename_i x hx
      exact .inl ⟨x, by simpa [hname] using hx, rfl⟩
    · exact .inr rfl

@[simp] theorem scopes_bindName (b : Bindings) (chain : List Nat) (n : Placed) :
    (b.bindName chain n).scopes = b.scopes := by
  unfold bindName
  split
  · rfl
  · split <;> rfl

@[simp] theorem symbols_bindName (b : Bindings) (chain : List Nat) (n : Placed) :
    (b.bindName chain n).symbols = b.symbols := by
  unfold bindName
  split
  · rfl
  · split <;> rfl

@[simp] theorem symbolOf_openScope (b : Bindings) (scope : ScopeKind) (chain : List Nat)
    (node : Nat) : (b.openScope scope chain node).2.symbolOf = b.symbolOf := rfl

@[simp] theorem symbols_openScope (b : Bindings) (scope : ScopeKind) (chain : List Nat)
    (node : Nat) : (b.openScope scope chain node).2.symbols = b.symbols := rfl

@[simp] theorem scopes_openScope (b : Bindings) (scope : ScopeKind) (chain : List Nat)
    (node : Nat) : (b.openScope scope chain node).2.scopes =
      b.scopes ++ [⟨scope, chain.head?, node, []⟩] := rfl

/-- A declarator with an initializer declares its variable. -/
theorem declareVariable_eq {d e : Placed} (hk : d.kind = .variableDeclarator)
    (he : d.initializer? = some e) (b : Bindings) (chain : List Nat) (kind : SymbolKind)
    (type : Option Placed) :
    ∃ name, b.declareVariable chain kind type d =
      b.declare chain ⟨name, kind, d.id, type, some e⟩ := by
  obtain ⟨c, hc, _⟩ := Node.initializer?_eq_some he
  cases hcs : d.children with
  | nil => simp [hcs] at hc
  | cons name rest =>
    refine ⟨name.leafText, ?_⟩
    have hview : d.declarator? = some ⟨name, d.initializer?⟩ := by
      simp [Node.declarator?, hk, hcs]
    simp [declareVariable, hview, he]

/-- Only entries for nodes with these numbers are added, no two for the same node. -/
def Adds (ids : List Nat) (b b' : Bindings) : Prop :=
  ∃ new, b'.symbolOf = new ++ b.symbolOf ∧ new.map Prod.fst ⊆ ids ∧
    (ids.Nodup → (new.map Prod.fst).Nodup)

namespace Adds

variable {ids ids' : List Nat} {b b₁ b' : Bindings}

theorem of_eq (h : b'.symbolOf = b.symbolOf) : Adds ids b b' :=
  ⟨[], by simp [h], by simp, by simp⟩

theorem of_cons {id x : Nat} (h : b'.symbolOf = (id, x) :: b.symbolOf) : Adds [id] b b' :=
  ⟨[(id, x)], by simp [h], by simp, by simp⟩

theorem append (h : Adds ids b b₁) (h' : Adds ids' b₁ b') : Adds (ids ++ ids') b b' := by
  obtain ⟨new, hnew, hsub, hnodup⟩ := h
  obtain ⟨new', hnew', hsub', hnodup'⟩ := h'
  refine ⟨new' ++ new, by simp [hnew, hnew'], ?_, fun hids => ?_⟩
  · rw [List.map_append]
    exact List.append_subset.2 ⟨fun k hk => List.mem_append_right _ (hsub' hk),
      fun k hk => List.mem_append_left _ (hsub hk)⟩
  · obtain ⟨h₁, h₂, hne⟩ := List.nodup_append.1 hids
    rw [List.map_append]
    refine List.nodup_append.2 ⟨hnodup' h₂, hnodup h₁, fun k hk k' hk' => ?_⟩
    exact (hne k' (hsub hk') k (hsub' hk)).symm

theorem mono (h : Adds ids b b') (hsub : ids ⊆ ids') (hnodup : ids'.Nodup → ids.Nodup) :
    Adds ids' b b' := by
  obtain ⟨new, hnew, hnew', hd⟩ := h
  exact ⟨new, hnew, List.Subset.trans hnew' hsub, fun hids => hd (hnodup hids)⟩

theorem sublist (h : Adds ids b b') (hsub : ids.Sublist ids') : Adds ids' b b' :=
  h.mono hsub.subset fun hids => hids.sublist hsub

theorem subset (h : Adds ids b b') : b.symbolOf ⊆ b'.symbolOf := by
  obtain ⟨new, hnew, _⟩ := h
  rw [hnew]
  exact List.subset_append_right _ _

end Adds

theorem adds_bindName (b : Bindings) (chain : List Nat) (n : Placed) :
    Adds [n.id] b (b.bindName chain n) := by
  rcases symbolOf_bindName b chain n with ⟨x, _, h⟩ | h
  · exact .of_cons h
  · exact .of_eq h

theorem id_cons_sublist {n c : Placed} (hc : c ∈ n.children) :
    (n.id :: c.preorder.map Node.id).Sublist (n.preorder.map Node.id) := by
  cases n with
  | token a t => simp at hc
  | branch a k cs =>
    rw [Node.preorder_branch, List.map_cons]
    refine .cons_cons _ (.map _ ?_)
    simpa using (List.singleton_sublist.2 hc).flatMap Node.preorder

namespace Walk

variable {chain : List Nat} {cs : List Placed} {b b' : Bindings}

theorem adds (w : Walk chain cs b b') : Adds (numbers cs) b b' := by
  induction w with
  | nil chain b => exact .of_eq rfl
  | @name chain n cs b b' kind rest ih =>
    rw [numbers_cons]
    refine ((adds_bindName b chain n).sublist ?_).append ih
    exact List.singleton_sublist.2 (List.mem_map_of_mem (Node.self_mem_preorder n))
  | @list chain n cs b b₁ b' scope kind inside rest ih ih' =>
    rw [numbers_cons]
    have hinside : Adds _ b b₁ := ih
    refine (hinside.sublist ?_).append ih'
    exact (flatMap_children_sublist List.filter_sublist).map _
  | @declaration chain n d e v cs b b₁ b' kind view one initializer undeclared inside rest ih ih' =>
    obtain ⟨hd, hk⟩ := Node.mem_declarators view (d := d) (by simp [one])
    obtain ⟨name, hdecl⟩ := declareVariable_eq hk initializer b₁ chain .localVariable (some v.type)
    have hone : Adds [d.id] b₁ (b₁.declareVariable chain .localVariable (some v.type) d) := by
      rw [hdecl]
      exact .of_cons rfl
    have hsub : (d.id :: e.preorder.map Node.id).Sublist (n.preorder.map Node.id) := by
      obtain ⟨c, hc, _, _, he⟩ := Node.initializer?_eq_some initializer
      have hec := Node.mem_preorder_of_mem_children (List.mem_of_getElem? he)
      refine .trans (.cons_cons _ ((Node.preorder_sublist hec).map _)) ?_
      refine (id_cons_sublist hc).trans ((Node.preorder_sublist ?_).map _)
      exact Node.mem_preorder_of_mem_children hd
    have hperm : (numbers [e] ++ [d.id]).Perm (d.id :: e.preorder.map Node.id) := by
      simp [numbers]
    rw [numbers_cons]
    refine Adds.append (Adds.mono (ih.append hone) ?_ ?_) ih'
    · exact List.Subset.trans hperm.subset hsub.subset
    · exact fun hids => hperm.nodup_iff.2 (hids.sublist hsub)
  | @parts chain n ps cs b b₁ b' plain below smaller undeclared inside rest ih ih' =>
    rw [numbers_cons]
    exact (ih.sublist (below.map _)).append ih'

theorem subset (w : Walk chain cs b b') : b.symbolOf ⊆ b'.symbolOf := w.adds.subset

end Walk

/-! ## Scopes -/

/-- The symbol is declared in one of the scopes. -/
def Visible (b : Bindings) (chain : List Nat) (x : Nat) : Prop :=
  ∃ i ∈ chain, ∃ t, b.scopes[i]? = some t ∧ ∃ name, (name, x) ∈ t.names

theorem visible_of_resolve? {b : Bindings} {chain : List Nat} {name : String} {x : Nat}
    (h : b.resolve? chain name = some x) : b.Visible chain x := by
  obtain ⟨i, hi, hx⟩ := List.exists_of_findSome?_eq_some h
  obtain ⟨t, ht, hx⟩ := Option.bind_eq_some_iff.1 hx
  obtain ⟨before, after, hnames, _⟩ := List.lookup_eq_some_iff.1 hx
  exact ⟨i, hi, t, ht, name, by simp [hnames]⟩

theorem Visible.of_stable {b b' : Bindings} {chain : List Nat} {x : Nat}
    (h : ∀ i ∈ chain, b'.scopes[i]? = b.scopes[i]?) (hx : b'.Visible chain x) :
    b.Visible chain x := by
  obtain ⟨i, hi, t, ht, hname⟩ := hx
  exact ⟨i, hi, t, by rw [← h i hi, ht], hname⟩

theorem visible_declare {b : Bindings} {chain : List Nat} {s : Symbol} {x : Nat}
    (h : (b.declare chain s).Visible chain x) : x = b.symbols.length ∨ b.Visible chain x := by
  obtain ⟨i, hi, t, ht, name, hname⟩ := h
  cases chain with
  | nil => simp at hi
  | cons scope chain =>
    simp only [declare, List.getElem?_modify] at ht
    obtain ⟨t', ht', rfl⟩ := Option.map_eq_some_iff.1 ht
    by_cases hscope : scope = i
    · simp only [hscope, if_true, Scope.declare, List.mem_cons, Prod.mk.injEq] at hname
      rcases hname with ⟨_, rfl⟩ | hname
      · exact .inl rfl
      · exact .inr ⟨i, hi, t', ht', name, (List.mem_filter.1 hname).1⟩
    · rw [if_neg hscope] at hname
      exact .inr ⟨i, hi, t', ht', name, hname⟩

namespace Walk

variable {chain : List Nat} {cs : List Placed} {b b' : Bindings}

/-- A walk changes no scope that is there already, apart from the innermost. -/
theorem scopes_stable (w : Walk chain cs b b') :
    b.scopes.length ≤ b'.scopes.length ∧
      ∀ i < b.scopes.length, chain.head? ≠ some i → b'.scopes[i]? = b.scopes[i]? := by
  induction w with
  | nil chain b => exact ⟨Nat.le_refl _, fun i hi hne => rfl⟩
  | name kind rest ih => simpa using ih
  | @list chain n cs b b₁ b' scope kind inside rest ih ih' =>
    obtain ⟨hlen, heq⟩ := ih
    obtain ⟨hlen', heq'⟩ := ih'
    simp only [scopes_openScope, List.length_append, List.length_singleton] at hlen heq
    refine ⟨by omega, fun i hi hne => ?_⟩
    rw [heq' i (by omega) hne, heq i (by omega) (by simp; omega), List.getElem?_append_left hi]
  | @declaration chain n d e v cs b b₁ b' kind view one initializer undeclared inside rest ih ih' =>
    obtain ⟨hlen, heq⟩ := ih
    obtain ⟨hlen', heq'⟩ := ih'
    have hk := (Node.mem_declarators view (d := d) (by simp [one])).2
    obtain ⟨name, hdecl⟩ := declareVariable_eq hk initializer b₁ chain .localVariable (some v.type)
    rw [hdecl] at hlen' heq'
    cases chain with
    | nil =>
      simp only [declare] at hlen' heq'
      exact ⟨by omega, fun i hi hne => by rw [heq' i (by omega) hne, heq i hi hne]⟩
    | cons scope chain =>
      simp only [declare, List.length_modify] at hlen' heq'
      refine ⟨by omega, fun i hi hne => ?_⟩
      have hscope : scope ≠ i := by simpa using hne
      rw [heq' i (by omega) hne, ← heq i hi hne, List.getElem?_modify]
      simp [hscope]
  | @parts chain n ps cs b b₁ b' plain below smaller undeclared inside rest ih ih' =>
    refine ⟨Nat.le_trans ih.1 ih'.1, fun i hi hne => ?_⟩
    rw [ih'.2 i (Nat.lt_of_lt_of_le hi ih.1) hne, ih.2 i hi hne]

/-- What is visible behind a walk was visible before it, or is declared by one of its nodes. -/
theorem visible {x : Nat} (w : Walk chain cs b b') (hchain : ∀ i ∈ chain, i < b.scopes.length)
    (hx : b'.Visible chain x) :
    b.Visible chain x ∨ ∃ s ∈ cs, Declares b'.symbolOf s x := by
  induction w with
  | nil chain b => exact .inl hx
  | @name chain n cs b b' kind rest ih =>
    rcases ih (by simpa using hchain) hx with hx | ⟨s, hs, hd⟩
    · exact .inl (hx.of_stable fun i hi => by simp)
    · exact .inr ⟨s, by simp [hs], hd⟩
  | @list chain n cs b b₁ b' scope kind inside rest ih ih' =>
    obtain ⟨hlen, heq⟩ := inside.scopes_stable
    simp only [scopes_openScope, List.length_append, List.length_singleton] at hlen heq
    rcases ih' (fun i hi => by have := hchain i hi; omega) hx with hx | ⟨s, hs, hd⟩
    · -- the scope that was opened is not in the chain around the list
      refine .inl (hx.of_stable fun i hi => ?_)
      have := hchain i hi
      rw [heq i (by omega) (by simp; omega), List.getElem?_append_left this]
    · exact .inr ⟨s, by simp [hs], hd⟩
  | @declaration chain n d e v cs b b₁ b' kind view one initializer undeclared inside rest ih ih' =>
    have hk := (Node.mem_declarators view (d := d) (by simp [one])).2
    obtain ⟨name, hdecl⟩ := declareVariable_eq hk initializer b₁ chain .localVariable (some v.type)
    have hlen := inside.scopes_stable.1
    have hsub := rest.subset
    rw [hdecl] at ih' hsub
    have hchain' : ∀ i ∈ chain, i < (b₁.declare chain
        ⟨name, .localVariable, d.id, some v.type, some e⟩).scopes.length := by
      intro i hi
      have := hchain i hi
      cases chain <;> simp only [declare, List.length_modify] <;> omega
    rcases ih' hchain' hx with hx | ⟨s, hs, hd⟩
    · rcases visible_declare hx with rfl | hx
      · refine .inr ⟨n, by simp, kind, v, view, d, by simp [one], hsub ?_⟩
        simp [declare]
      · rcases ih hchain hx with hx | ⟨s, hs, hd⟩
        · exact .inl hx
        · obtain rfl : s = e := by simpa using hs
          exact absurd hd.1 undeclared
    · exact .inr ⟨s, by simp [hs], hd⟩
  | @parts chain n ps cs b b₁ b' plain below smaller undeclared inside rest ih ih' =>
    have hlen := inside.scopes_stable.1
    rcases ih' (fun i hi => Nat.lt_of_lt_of_le (hchain i hi) hlen) hx with hx | ⟨s, hs, hd⟩
    · rcases ih hchain hx with hx | ⟨s, hs, hd⟩
      · exact .inl hx
      · exact absurd hd.1 (undeclared s hs)
    · exact .inr ⟨s, by simp [hs], hd⟩

/-- The entry of a node below the first of the nodes is made while that one is bound. -/
theorem mem_of_first {chain : List Nat} {n r : Placed} {cs : List Placed} {b₁ b' : Bindings}
    {x : Nat} (rest : Walk chain cs b₁ b') (hids : (numbers (n :: cs)).Nodup)
    (hr : r ∈ n.preorder) (hx : (r.id, x) ∈ b'.symbolOf) : (r.id, x) ∈ b₁.symbolOf := by
  obtain ⟨new, hnew, hsub, _⟩ := rest.adds
  rw [numbers_cons, List.nodup_append] at hids
  rw [hnew, List.mem_append] at hx
  rcases hx with hx | hx
  · have hmem : r.id ∈ numbers cs := hsub (List.mem_map_of_mem hx)
    exact absurd rfl (hids.2.2 r.id (List.mem_map_of_mem hr) r.id hmem)
  · exact hx

/-- A walk that gives a node its entry comes past the node. -/
theorem exists_mem_of_new {r : Placed} {x : Nat} (w : Walk chain cs b b')
    (hfresh : ∀ y, (r.id, y) ∉ b.symbolOf) (hx : (r.id, x) ∈ b'.symbolOf) :
    ∃ c ∈ cs, ∃ r' ∈ c.preorder, r'.id = r.id := by
  obtain ⟨new, hnew, hsub, _⟩ := w.adds
  rw [hnew, List.mem_append] at hx
  rcases hx with hx | hx
  · obtain ⟨r', hr', he⟩ := List.mem_map.1 (hsub (List.mem_map_of_mem hx))
    obtain ⟨c, hc, hr'⟩ := List.mem_flatMap.1 hr'
    exact ⟨c, hc, r', hr', he⟩
  · exact absurd hx (hfresh x)

/-- No entry is made for the nodes behind the first while that one is bound. -/
theorem fresh_behind {n : Placed} {b₁ : Bindings} (first : Walk chain [n] b b₁)
    (hids : (numbers (n :: cs)).Nodup)
    (hfresh : ∀ k ∈ numbers (n :: cs), ∀ y, (k, y) ∉ b.symbolOf) :
    ∀ k ∈ numbers cs, ∀ y, (k, y) ∉ b₁.symbolOf := by
  intro k hk y hy
  obtain ⟨new, hnew, hsub, _⟩ := first.adds
  rw [numbers_cons, List.nodup_append] at hids
  rw [hnew, List.mem_append] at hy
  rcases hy with hy | hy
  · have hmem : k ∈ n.preorder.map Node.id := by
      simpa using hsub (List.mem_map_of_mem hy)
    exact hids.2.2 k hmem k hk rfl
  · exact hfresh k (by simp [hk]) y hy

theorem uncons {n : Placed} (w : Walk chain (n :: cs) b b') :
    ∃ b₁, Walk chain [n] b b₁ ∧ Walk chain cs b₁ b' := by
  cases w with
  | name kind rest => exact ⟨_, .name kind (.nil _ _), rest⟩
  | list kind inside rest => exact ⟨_, .list kind inside (.nil _ _), rest⟩
  | declaration kind view one initializer undeclared inside rest =>
    exact ⟨_, .declaration kind view one initializer undeclared inside (.nil _ _), rest⟩
  | parts plain below smaller undeclared inside rest =>
    exact ⟨_, .parts plain below smaller undeclared inside (.nil _ _), rest⟩

end Walk

/-- A name below the node that is bound with it means a symbol that was visible before, or one
that a statement before the name declares. -/
def ResolvesBelow (c : Placed) : Prop :=
  ∀ {chain : List Nat} {b b' : Bindings} {r : Placed} {above path : List Placed} {x : Nat},
    Walk chain [c] b b' → (numbers [c]).Nodup → (∀ i ∈ chain, i < b.scopes.length) →
    (∀ k ∈ numbers [c], ∀ y, (k, y) ∉ b.symbolOf) → Node.Descends c above (r :: path) →
    Listed (r :: path) → r.kind = .identifierName → (r.id, x) ∈ b'.symbolOf →
    b.Visible chain x ∨ DeclaredAbove b'.symbolOf x (r :: path)

/-- In a row of nodes, a name may also mean what the nodes before its own declare. -/
theorem resolves_in_row {chain : List Nat} {cs : List Placed} {b b' : Bindings}
    (hsingle : ∀ c ∈ cs, ResolvesBelow c) (w : Walk chain cs b b') (hids : (numbers cs).Nodup)
    (hchain : ∀ i ∈ chain, i < b.scopes.length)
    (hfresh : ∀ k ∈ numbers cs, ∀ y, (k, y) ∉ b.symbolOf)
    {before after : List Placed} {c : Placed} (hsplit : cs = before ++ c :: after)
    {r : Placed} {above path : List Placed} {x : Nat} (hpath : Node.Descends c above (r :: path))
    (hlisted : Listed (r :: path)) (hr : r.kind = .identifierName)
    (hx : (r.id, x) ∈ b'.symbolOf) :
    b.Visible chain x ∨ (∃ s ∈ before, Declares b'.symbolOf s x) ∨
      DeclaredAbove b'.symbolOf x (r :: path) := by
  induction cs generalizing b before with
  | nil => simp at hsplit
  | cons n cs ih =>
    obtain ⟨b₁, first, rest⟩ := w.uncons
    have hids' := hids
    rw [numbers_cons, List.nodup_append] at hids'
    cases before with
    | nil =>
      obtain ⟨rfl, rfl⟩ := List.cons.inj hsplit
      have hx' := Walk.mem_of_first rest hids (hpath.head_mem r (by simp)) hx
      have hself : ResolvesBelow n := hsingle n (by simp)
      rcases hself first (by simpa using hids'.1) hchain
        (fun k hk => hfresh k (by simp at hk; simp [hk])) hpath hlisted hr hx' with hx' | hx'
      · exact .inl hx'
      · exact .inr (.inr (hx'.mono rest.subset))
    | cons m before =>
      obtain ⟨rfl, rfl⟩ := List.cons.inj hsplit
      have hchain' : ∀ i ∈ chain, i < b₁.scopes.length := fun i hi =>
        Nat.lt_of_lt_of_le (hchain i hi) first.scopes_stable.1
      rcases ih (fun c hc => hsingle c (by simp_all)) rest hids'.2.1 hchain'
        (first.fresh_behind hids hfresh) rfl with hx' | ⟨s, hs, hd⟩ | hx'
      · rcases first.visible hchain hx' with hx' | ⟨s, hs, hd⟩
        · exact .inl hx'
        · obtain rfl : s = n := by simpa using hs
          exact .inr (.inl ⟨s, by simp, hd.mono rest.subset⟩)
      · exact .inr (.inl ⟨s, by simp [hs], hd⟩)
      · exact .inr (.inr hx')

theorem resolvesBelow (c : Placed) : ResolvesBelow c := by
  induction hsize : c.size using Nat.strongRecOn generalizing c with
  | ind size ih =>
    subst hsize
    intro chain b b' r above path x w hids hchain hfresh hpath hlisted hr hx
    have hnumbered : c.Numbered := by simpa [Node.Numbered] using hids
    have hmem := hpath.head_mem r (by simp)
    have hfresh' : ∀ y, (r.id, y) ∉ b.symbolOf :=
      hfresh r.id (id_mem_numbers_of_mem (by simp) hmem)
    cases w with
    | name kind rest =>
      cases rest
      rcases symbolOf_bindName b chain c with ⟨y, hy, heq⟩ | heq
      · rw [heq, List.mem_cons] at hx
        rcases hx with hx | hx
        · obtain ⟨_, rfl⟩ := Prod.mk.inj hx
          exact .inl (visible_of_resolve? hy)
        · exact absurd hx (hfresh' x)
      · rw [heq] at hx
        exact absurd hx (hfresh' x)
    | @list _ _ _ _ _ _ scope kind inside rest =>
      cases rest
      have hsub : (numbers (c.children.filter fun c => !c.kind.isToken)).Sublist
          (c.preorder.map Node.id) := (flatMap_children_sublist List.filter_sublist).map _
      cases hpath with
      | here => simp [hr, Kind.isList] at kind
      | @down _ d _ _ child tail =>
        have hinfix : [d, c] <:+: r :: path := by
          refine List.IsInfix.trans ?_ tail.suffix.isInfix
          exact ⟨[], above, rfl⟩
        have hstatement := hlisted d c hinfix kind
        obtain ⟨before, after, hchildren⟩ := List.append_of_mem (List.mem_filter.2
          ⟨child, by simp [Kind.isToken, Kind.isNode_of_isStatement hstatement]⟩ :
            d ∈ c.children.filter fun c => !c.kind.isToken)
        have hbelow : ∀ p ∈ c.children.filter fun c => !c.kind.isToken, ResolvesBelow p :=
          fun p hp => ih p.size (Node.size_lt_of_mem_children (List.mem_filter.1 hp).1) p rfl
        have hchain' : ∀ i ∈ b.scopes.length :: chain,
            i < (b.openScope scope chain c.id).2.scopes.length := by
          intro i hi
          simp only [scopes_openScope, List.length_append, List.length_singleton]
          rcases List.mem_cons.1 hi with rfl | hi
          · omega
          · have := hchain i hi
            omega
        rcases resolves_in_row hbelow inside (hnumbered.sublist hsub) hchain'
          (fun k hk => hfresh k (by simpa using hsub.subset hk)) hchildren tail hlisted hr hx
          with hx' | ⟨s, hs, hd⟩ | hx'
        · -- nothing is declared yet in the scope that is opened
          obtain ⟨i, hi, t, ht, name, hname⟩ := hx'
          rcases List.mem_cons.1 hi with rfl | hi
          · obtain rfl : _ = t := by simpa using ht
            simp at hname
          · refine .inl ⟨i, hi, t, ?_, name, hname⟩
            rwa [scopes_openScope, List.getElem?_append_left (hchain i hi)] at ht
        · refine .inr ⟨d, c, hinfix, s, ?_, hd⟩
          exact mem_statementsBefore hnumbered kind hstatement hchildren hs (by rw [hd.1]; rfl)
        · exact .inr hx'
    | @declaration _ _ d e v _ _ b₁ _ kind view one initializer undeclared inside rest =>
      cases rest
      obtain ⟨hd, hk⟩ := Node.mem_declarators view (d := d) (by simp [one])
      have hd' := Node.mem_preorder_of_mem_children hd
      obtain ⟨name, hdecl⟩ :=
        declareVariable_eq hk initializer b₁ chain .localVariable (some v.type)
      have hne : r.id ≠ d.id := by
        intro he
        obtain rfl := hnumbered.eq_of_id_eq hmem hd' he
        simp [hr] at hk
      have hx' : (r.id, x) ∈ b₁.symbolOf := by
        rw [hdecl] at hx
        simpa [declare, hne] using hx
      have he : e ∈ c.preorder :=
        Node.mem_preorder_trans (Node.mem_preorder_of_initializer? initializer) hd'
      have hsub := (Node.preorder_sublist he).map Node.id
      obtain ⟨e', he', r', hr', hid⟩ := inside.exists_mem_of_new hfresh' hx'
      obtain rfl : e' = e := by simpa using he'
      obtain rfl := hnumbered.eq_of_id_eq (Node.mem_preorder_trans hr' he) hmem hid
      obtain ⟨above', hpath'⟩ := hpath.through hnumbered he hr'
      have hsize : e'.size < c.size := Nat.lt_trans (Node.size_lt_of_initializer? initializer)
        (Node.size_lt_of_mem_children hd)
      have hself : ResolvesBelow e' := ih e'.size hsize e' rfl
      rcases hself inside (by simpa using hnumbered.sublist hsub) hchain
        (fun k hk => hfresh k (by simpa using hsub.subset (by simpa using hk))) hpath' hlisted hr
        hx' with hx' | hx'
      · exact .inl hx'
      · refine .inr (hx'.mono ?_)
        rw [hdecl]
        exact List.subset_cons_self _ _
    | @parts _ _ ps _ _ _ _ plain below smaller undeclared inside rest =>
      cases rest
      obtain ⟨p, hp, r', hr', hid⟩ := inside.exists_mem_of_new hfresh' hx
      have hpc : p ∈ c.preorder :=
        below.subset (List.mem_flatMap.2 ⟨p, hp, Node.self_mem_preorder p⟩)
      obtain rfl := hnumbered.eq_of_id_eq (Node.mem_preorder_trans hr' hpc) hmem hid
      obtain ⟨above', hpath'⟩ := hpath.through hnumbered hpc hr'
      obtain ⟨before, after, hsplit⟩ := List.append_of_mem hp
      have hsub := below.map Node.id
      rcases resolves_in_row (fun p hp => ih p.size (smaller p hp) p rfl) inside
        (hnumbered.sublist hsub) hchain (fun k hk => hfresh k (by simpa using hsub.subset hk))
        hsplit hpath' hlisted hr hx with hx' | ⟨s, hs, hd⟩ | hx'
      · exact .inl hx'
      · exact absurd hd.1 (undeclared s (by simp [hsplit, hs]))
      · exact .inr hx'

/-! ## Declarators -/

/-- Entries of declarators, whose numbers satisfy `D`, lead to the symbols declared by them, and
all symbols are locals. -/
structure Sound (D : Nat → Prop) (b : Bindings) : Prop where
  declared : ∀ k x, (k, x) ∈ b.symbolOf → D k → ∃ s, b.symbols[x]? = some s ∧ s.declaration = k
  locals : ∀ s ∈ b.symbols, s.kind = .localVariable

theorem Sound.declare {D : Nat → Prop} {b : Bindings} (h : b.Sound D) (chain : List Nat)
    {s : Symbol} (hs : s.kind = .localVariable) : (b.declare chain s).Sound D where
  declared k x hx hk := by
    simp only [Bindings.declare, List.mem_cons, Prod.mk.injEq] at hx ⊢
    rcases hx with ⟨rfl, rfl⟩ | hx
    · exact ⟨s, by simp, rfl⟩
    · obtain ⟨t, ht, hdecl⟩ := h.declared k x hx hk
      obtain ⟨hlt, _⟩ := List.getElem?_eq_some_iff.1 ht
      exact ⟨t, by rw [List.getElem?_append_left hlt, ht], hdecl⟩
  locals t ht := by
    simp only [Bindings.declare, List.mem_append, List.mem_singleton] at ht
    rcases ht with ht | rfl
    · exact h.locals t ht
    · exact hs

theorem Sound.bindName {D : Nat → Prop} {b : Bindings} (h : b.Sound D) (chain : List Nat)
    {n : Placed} (hn : ¬D n.id) : (b.bindName chain n).Sound D where
  declared k x hx hk := by
    rw [symbols_bindName]
    rcases symbolOf_bindName b chain n with ⟨y, _, heq⟩ | heq
    · rw [heq, List.mem_cons] at hx
      rcases hx with hx | hx
      · obtain ⟨rfl, rfl⟩ := Prod.mk.inj hx
        exact absurd hk hn
      · exact h.declared k x hx hk
    · exact h.declared k x (heq ▸ hx) hk
  locals := by simpa using h.locals

theorem Walk.sound {D : Nat → Prop} {chain : List Nat} {cs : List Placed} {b b' : Bindings}
    (w : Walk chain cs b b')
    (hD : ∀ n ∈ cs.flatMap Node.preorder, n.kind = .identifierName → ¬D n.id) (h : b.Sound D) :
    b'.Sound D := by
  induction w with
  | nil chain b => exact h
  | @name chain n cs b b' kind rest ih =>
    simp only [List.flatMap_cons, List.mem_append] at hD
    refine ih (fun m hm => hD m (.inr hm)) (h.bindName chain ?_)
    exact hD n (.inl (Node.self_mem_preorder n)) kind
  | @list chain n cs b b₁ b' scope kind inside rest ih ih' =>
    simp only [List.flatMap_cons, List.mem_append] at hD
    refine ih' (fun m hm => hD m (.inr hm)) (ih (fun m hm => hD m (.inl ?_)) ⟨h.declared, h.locals⟩)
    exact (flatMap_children_sublist List.filter_sublist).subset hm
  | @declaration chain n d e v cs b b₁ b' kind view one initializer undeclared inside rest ih ih' =>
    simp only [List.flatMap_cons, List.mem_append] at hD
    obtain ⟨hd, hk⟩ := Node.mem_declarators view (d := d) (by simp [one])
    obtain ⟨name, hdecl⟩ := declareVariable_eq hk initializer b₁ chain .localVariable (some v.type)
    have he : e ∈ n.preorder := Node.mem_preorder_trans
      (Node.mem_preorder_of_initializer? initializer) (Node.mem_preorder_of_mem_children hd)
    rw [hdecl] at ih'
    refine ih' (fun m hm => hD m (.inr hm)) ((ih (fun m hm => hD m (.inl ?_)) h).declare chain rfl)
    exact Node.mem_preorder_trans (by simpa using hm) he
  | @parts chain n ps cs b b₁ b' plain below smaller undeclared inside rest ih ih' =>
    simp only [List.flatMap_cons, List.mem_append] at hD
    exact ih' (fun m hm => hD m (.inr hm)) (ih (fun m hm => hD m (.inl (below.subset hm))) h)

end Bindings

namespace Model

theorem inferAt_eq (m : Model) (id : Nat) :
    (m.inferAt id).root = m.root ∧ (m.inferAt id).bindings = m.bindings := by
  unfold inferAt
  split
  · split <;> simp
  · simp

theorem foldl_inferAt_eq (ids : List Nat) (m : Model) :
    (ids.foldl inferAt m).root = m.root ∧ (ids.foldl inferAt m).bindings = m.bindings := by
  induction ids generalizing m with
  | nil => exact ⟨rfl, rfl⟩
  | cons id ids ih =>
    obtain ⟨hroot, hbindings⟩ := m.inferAt_eq id
    rw [List.foldl_cons, (ih _).1, (ih _).2]
    exact ⟨hroot, hbindings⟩

@[simp] theorem root_build (root : Option Placed) (nullableContext : Bool) :
    (build root nullableContext).root = root := (foldl_inferAt_eq _ _).1

@[simp] theorem bindings_build (root : Option Placed) (nullableContext : Bool) :
    (build root nullableContext).bindings = Bindings.ofRoot root := (foldl_inferAt_eq _ _).2

theorem lookup_eq_some_iff_mem {entries : List (Nat × Nat)} {k x : Nat}
    (h : (entries.map Prod.fst).Nodup) : entries.lookup k = some x ↔ (k, x) ∈ entries := by
  rw [List.lookup_eq_some_iff]
  constructor
  · rintro ⟨before, after, rfl, _⟩
    simp
  · intro hx
    obtain ⟨before, after, rfl⟩ := List.append_of_mem hx
    rw [List.map_append, List.map_cons, List.nodup_append] at h
    refine ⟨before, after, rfl, fun p hp => ?_⟩
    have := h.2.2 p.1 (List.mem_map_of_mem hp) k (by simp)
    simpa using this.symm

/-- What the proofs about a model need to know of its names. -/
structure WellScoped (m : Model) (root : Placed) : Prop where
  root_eq : m.root = some root
  numbered : root.Numbered
  plain : PlainLocals root
  symbolAt_iff : ∀ k x, m.symbolAt k = some x ↔ (k, x) ∈ m.bindings.symbolOf
  /-- A bound name means what a statement before it declares. -/
  declared : ∀ {r path x}, Node.Descends root [] (r :: path) → Listed (r :: path) →
    r.kind = .identifierName → m.symbolAt r.id = some x →
    DeclaredAbove m.bindings.symbolOf x (r :: path)
  /-- No two declarators declare the same symbol. -/
  unique : ∀ {d d' x}, d ∈ root.preorder → d' ∈ root.preorder → d.kind = .variableDeclarator →
    d'.kind = .variableDeclarator → m.symbolAt d.id = some x → m.symbolAt d'.id = some x → d = d'
  locals : ∀ x p, p SymbolKind.localVariable = false → m.symbolIs x p = false

/-- The model of a tree of plain locals is well scoped. -/
theorem wellScoped_build {root : Placed} (hn : root.Numbered) (hp : PlainLocals root)
    (nullableContext : Bool) : (build (some root) nullableContext).WellScoped root := by
  set m := build (some root) nullableContext with hm
  have hbindings : m.bindings = Bindings.bind [] root {} := bindings_build _ _
  have walk : Bindings.Walk [] [root] {} m.bindings := by
    rw [hbindings]
    exact Bindings.walk_bind root hp [] {}
  have hids : (Bindings.numbers [root]).Nodup := by simpa [Node.Numbered] using hn
  have hnodup : (m.bindings.symbolOf.map Prod.fst).Nodup := by
    obtain ⟨new, hnew, _, hnodup⟩ := walk.adds
    rw [hnew]
    simpa using hnodup hids
  have hiff : ∀ k x, m.symbolAt k = some x ↔ (k, x) ∈ m.bindings.symbolOf := fun k x =>
    lookup_eq_some_iff_mem hnodup
  let D : Nat → Prop := fun k => ∃ d ∈ root.preorder, d.kind = .variableDeclarator ∧ d.id = k
  have hsound : m.bindings.Sound D := by
    refine walk.sound (fun n hn' hk => ?_) ⟨by simp, by simp⟩
    rintro ⟨d, hd, hdk, hid⟩
    obtain rfl := hn.eq_of_id_eq hd (by simpa using hn') hid
    simp [hk] at hdk
  constructor
  · exact root_build _ _
  · exact hn
  · exact hp
  · exact hiff
  · intro r path x hpath hlisted hr hx
    have hbelow : Bindings.ResolvesBelow root := Bindings.resolvesBelow root
    rcases hbelow walk hids (by simp) (by simp) hpath hlisted hr ((hiff _ _).1 hx) with hx | hx
    · obtain ⟨i, hi, _⟩ := hx
      simp at hi
    · exact hx
  · intro d d' x hd hd' hk hk' hx hx'
    obtain ⟨s, hs, hdecl⟩ := hsound.declared _ _ ((hiff _ _).1 hx) ⟨d, hd, hk, rfl⟩
    obtain ⟨s', hs', hdecl'⟩ := hsound.declared _ _ ((hiff _ _).1 hx') ⟨d', hd', hk', rfl⟩
    obtain rfl : s = s' := Option.some.inj (hs.symm.trans hs')
    exact hn.eq_of_id_eq hd hd' (hdecl.symm.trans hdecl')
  · intro x p hpk
    unfold symbolIs symbol?
    cases hs : m.bindings.symbols[x]? with
    | none => rfl
    | some s =>
      have := hsound.locals s (List.mem_of_getElem? hs)
      simp [this, hpk]

end Model

end NullLint
