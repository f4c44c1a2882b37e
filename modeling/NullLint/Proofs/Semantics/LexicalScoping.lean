import NullLint.Proofs.CleanParsing
import NullLint.Proofs.Semantics.NameLookup
import Mathlib.Data.List.Perm.Basic

/-!
# Lexical scoping

While a tree is bound a cursor moves over its numbers. The tables of the open scopes hold what they
hoist and the locals that end before the cursor (`Lexical.At`), so that a name finds in them just
what it may see from its place. Binding a node moves the cursor to its end, gives each declaration
in it a symbol and looks each name in it up (`Lexical.advances_bind`). For a text without errors,
names are therefore bound by the rules of scope (`bound_by_lexical_scope`).
-/

namespace NullLint

namespace Lexical

open Node (Descends)
open Bindings

variable {root n c d i s : Placed} {above : List Placed}

/-! ## The cursor -/

/-- The nodes before the number `cursor` are bound: the scopes hold what is hoisted, and the locals
that end before the cursor. -/
def At (root : Placed) (cursor : Nat) (scopes : List Placed) (chain : List Nat) (b : Bindings) :
    Prop :=
  b.Tables chain (scopes.map fun s => visible root s cursor)

theorem visible_eq {cursor cursor' : Nat}
    (h : ∀ d ∈ locals root s, d.endId ≤ cursor ↔ d.endId ≤ cursor') :
    visible root s cursor = visible root s cursor' := by
  unfold visible
  congr 1
  exact List.filter_congr fun d hd => decide_eq_decide.2 (h d hd)

/-- The cursor moves where no local ends. -/
theorem At.move {cursor cursor' : Nat} {scopes : List Placed} {chain : List Nat} {b : Bindings}
    (h : At root cursor scopes chain b) (hle : cursor ≤ cursor')
    (hnone : ∀ d ∈ root.preorder, isLocal root d = true → cursor < d.endId → d.endId ≤ cursor' →
      False) :
    At root cursor' scopes chain b := by
  have hscopes : ∀ s ∈ scopes, visible root s cursor = visible root s cursor' := by
    intro s _
    refine visible_eq fun d hd => ⟨fun hd' => Nat.le_trans hd' hle, fun hd' => ?_⟩
    by_contra hlt
    exact hnone d (mem_root_of_mem_locals hd) (isLocal_of_mem_locals hd) (Nat.lt_of_not_le hlt) hd'
  rwa [At, ← List.map_congr_left hscopes]

theorem At.looksUp {cursor : Nat} {scopes names : List Placed} {chain : List Nat} {b b' : Bindings}
    (h : At root cursor scopes chain b) (hb : LooksUp root names b b') :
    At root cursor scopes chain b' :=
  Tables.congr h hb.scopes hb.symbols

theorem scopes_of_descends {path : List Placed} (h : Descends n above path)
    (hno : ∀ m ∈ n.preorder, m.kind.opensScope = false) :
    path.tail.filter (fun a => a.kind.opensScope) = above.filter fun a => a.kind.opensScope := by
  induction h with
  | here n above => rfl
  | @down n c above path child rest ih =>
    rw [ih fun m hm => hno m (Node.mem_preorder_trans hm (Node.mem_preorder_of_mem_children child)),
      List.filter_cons_of_neg (by simp [hno n (Node.self_mem_preorder n)])]

/-- The only local that a declarator or an expression can hold is itself. -/
theorem eq_of_isLocal_of_mem (hn : n.Readable) (hk : isQuiet n.kind = true)
    (hd : d ∈ n.preorder) (hlocal : isLocal root d = true) : d = n := by
  rcases Node.eq_or_mem_child_of_mem_preorder hd with rfl | ⟨c, hc, hd⟩
  · rfl
  · have hcalm := (hn.child hc).isCalm (isQuiet_child hn hk hc) hd
    rw [kind_of_isLocal hlocal] at hcalm
    cases hcalm

/-- The names of an expression see what is visible before the expression. -/
theorem env_of_isQuiet (hs : root.Serial) (hr : root.Readable) (h : Visited root n above)
    (hk : isQuiet n.kind = true) : ∀ i ∈ references root n,
      ((above.filter fun a => a.kind.opensScope).map fun s => visible root s n.id) =
        (scopesAround root i).map (offered root i) := by
  intro i hi
  have hn := hr.of_mem h.mem
  have hin : i ∈ n.preorder := (List.mem_filter.1 hi).1
  have hiroot := Node.mem_preorder_trans hin h.mem
  obtain ⟨path, hpath⟩ := Node.exists_descends hin above
  have hno : ∀ m ∈ n.preorder, m.kind.opensScope = false := by
    intro m hm
    rcases Node.eq_or_mem_child_of_mem_preorder hm with rfl | ⟨c, hc, hm⟩
    · exact opensScope_of_isQuiet hk
    · have hcalm := (hn.child hc).isCalm (isQuiet_child hn hk hc) hm
      exact opensScope_of_isQuiet (by simp [isQuiet, hcalm])
  rw [scopesAround, ancestors_eq hs (h.path.trans hpath), ← scopes_of_descends hpath hno]
  refine List.map_congr_left fun s _ => ?_
  rw [offered_eq_visible hs hiroot]
  refine visible_eq fun d hd => ?_
  have hdroot := mem_root_of_mem_locals hd
  have hlocal := isLocal_of_mem_locals hd
  have hbounds := (hs.mem_preorder_iff hiroot h.mem).1 hin
  constructor
  · omega
  · intro hle
    have := d.id_lt_endId
    rcases hs.nested_or_apart hdroot h.mem with hdn | hnd | hapart | hapart
    · obtain rfl := eq_of_isLocal_of_mem hn hk hdn hlocal
      omega
    · have := (hs.of_mem hdroot).endId_le hnd
      omega
    · exact hapart
    · omega

/-! ## Local declarations -/

theorem pairwise_path {path : List Placed} (h : Descends n above path) (hs : n.Serial)
    (hp : (n :: above).Pairwise fun a b => b.id < a.id) : path.Pairwise fun a b => b.id < a.id := by
  induction h with
  | here n above => exact hp
  | @down n c above path child rest ih =>
    refine ih (hs.of_mem (Node.mem_preorder_of_mem_children child)) (List.pairwise_cons.2 ⟨?_, hp⟩)
    have hlt := hs.id_lt_child child
    refine List.forall_mem_cons.2 ⟨hlt, fun a ha => ?_⟩
    exact Nat.lt_trans ((List.pairwise_cons.1 hp).1 a ha) hlt

theorem pairwise_locals (hs : root.Serial) (s : Placed) :
    (locals root s).Pairwise fun c d => c.id < d.id :=
  hs.pairwise_preorder.sublist List.filter_sublist

/-- Two locals do not overlap. -/
theorem endId_le_iff (hs : root.Serial) (hr : root.Readable) (hc : c ∈ root.preorder)
    (hd : d ∈ root.preorder) (hclocal : isLocal root c = true) (hdlocal : isLocal root d = true) :
    c.endId ≤ d.endId ↔ c.endId ≤ d.id ∨ c = d := by
  have hquiet {e : Placed} (he : isLocal root e = true) : isQuiet e.kind = true := by
    rw [kind_of_isLocal he]
    rfl
  have := c.id_lt_endId
  have := d.id_lt_endId
  constructor
  · intro hle
    rcases hs.nested_or_apart hc hd with hin | hin | hapart | hapart
    · exact .inr (eq_of_isLocal_of_mem (hr.of_mem hd) (hquiet hdlocal) hin hclocal)
    · exact .inr (eq_of_isLocal_of_mem (hr.of_mem hc) (hquiet hclocal) hin hdlocal).symm
    · exact .inl hapart
    · omega
  · rintro (hle | rfl)
    · omega
    · exact Nat.le_refl _

/-- Behind its declarator a local is visible in its scope. -/
theorem visible_endId_of_mem (hs : root.Serial) (hr : root.Readable) (hd : d ∈ locals root s) :
    visible root s d.endId = visible root s d.id ++ [d] := by
  have hends : ∀ c ∈ locals root s, c.endId ≤ d.endId ↔ c.endId ≤ d.id ∨ c = d := fun c hc =>
    endId_le_iff hs hr (mem_root_of_mem_locals hc) (mem_root_of_mem_locals hd)
      (isLocal_of_mem_locals hc) (isLocal_of_mem_locals hd)
  have hsorted := pairwise_locals hs s
  obtain ⟨before, after, hsplit⟩ := List.append_of_mem hd
  rw [hsplit] at hends hsorted
  obtain ⟨-, hafter, hbefore⟩ := List.pairwise_append.1 hsorted
  have hfirst : before.filter (fun c => c.endId ≤ d.endId) =
      before.filter fun c => c.endId ≤ d.id := by
    refine List.filter_congr fun c hc => decide_eq_decide.2 ?_
    have hne : c ≠ d := by
      rintro rfl
      exact Nat.lt_irrefl _ (hbefore c hc c (by simp))
    rw [hends c (by simp [hc]), or_iff_left hne]
  have hlast (cursor : Nat) (hcursor : cursor ≤ d.endId) :
      after.filter (fun c => c.endId ≤ cursor) = [] := by
    refine List.filter_eq_nil_iff.2 fun c hc hle => ?_
    have hlt := (List.pairwise_cons.1 hafter).1 c hc
    have hend := c.id_lt_endId
    have hle : c.endId ≤ cursor := by simpa using hle
    rcases (hends c (by simp [hc])).1 (Nat.le_trans hle hcursor) with hd | rfl
    · omega
    · omega
  have hself := d.id_lt_endId
  unfold visible
  rw [hsplit, List.filter_append, List.filter_append, hfirst,
    List.filter_cons_of_pos (by simp), List.filter_cons_of_neg (by simpa using hself),
    hlast _ (Nat.le_refl _), hlast _ (Nat.le_of_lt hself), List.append_nil, List.append_assoc]

/-- In other scopes it is not. -/
theorem visible_endId_of_not_mem (hs : root.Serial) (hr : root.Readable) (hd : d ∈ root.preorder)
    (hlocal : isLocal root d = true) (hnot : d ∉ locals root s) :
    visible root s d.endId = visible root s d.id := by
  refine visible_eq fun c hc => ?_
  rw [endId_le_iff hs hr (mem_root_of_mem_locals hc) hd (isLocal_of_mem_locals hc) hlocal]
  refine or_iff_left ?_
  rintro rfl
  exact hnot hc

/-- Declaring a local moves the cursor behind its declarator. -/
theorem At.declareVariable {chain : List Nat} {b : Bindings} (hs : root.Serial)
    (hr : root.Readable) (hpath : Descends root [] (d :: above)) (hlocal : isLocal root d = true)
    (h : At root d.id (above.filter fun a => a.kind.opensScope) chain b) (type : Option Placed) :
    At root d.endId (above.filter fun a => a.kind.opensScope) chain
      (b.declareVariable chain .localVariable type d) := by
  have hdroot := mem_of_descends hpath
  have hd := hr.of_mem hdroot
  have hscopes : scopesAround root d = above.filter fun a => a.kind.opensScope := by
    rw [scopesAround, ancestors_eq hs hpath]
  have hpairwise : (above.filter fun a => a.kind.opensScope).Pairwise fun a b => b.id < a.id := by
    have hall := pairwise_path hpath hs (List.pairwise_singleton _ _)
    exact (List.pairwise_cons.1 hall).2.sublist List.filter_sublist
  unfold At at h ⊢
  generalize (above.filter fun a => a.kind.opensScope) = scopes at h hscopes hpairwise ⊢
  cases scopes with
  | nil =>
    obtain rfl : chain = [] := List.forall₂_nil_right_iff.1 h.holds
    exact .nil _
  | cons s scopes =>
    cases chain with
    | nil => cases h.holds
    | cons k chain =>
      have hs' : d ∈ locals root s := by
        refine List.mem_filter.2 ⟨hdroot, ?_⟩
        simp [hlocal, hscopes]
      have houter : ∀ t ∈ scopes, visible root t d.id = visible root t d.endId := by
        intro t ht
        refine (visible_endId_of_not_mem hs hr hdroot hlocal fun hmem => ?_).symm
        have hid : s.id = t.id := by simpa [hlocal, hscopes] using (List.mem_filter.1 hmem).2
        exact Nat.ne_of_gt ((List.pairwise_cons.1 hpairwise).1 t ht) hid
      rw [List.map_cons] at h ⊢
      rw [visible_endId_of_mem hs hr hs', ← List.map_congr_left houter]
      exact (declared_declareVariable hd (kind_of_isLocal hlocal) _ _ b).tables h

/-! ## Declarations -/

/-- The kinds of nodes that declare a symbol. -/
def declares : Kind → Bool
  | .classDeclaration | .structDeclaration | .propertyDeclaration | .methodDeclaration
  | .parameter | .variableDeclarator => true
  | _ => false

/-- The declarations below a node, the node included. -/
def declarations (n : Placed) : List Placed := n.preorder.filter fun d => declares d.kind

/-- The declarations that are made while a node is bound. Those of a field are made by its type. -/
def declaredBelow (n : Placed) : List Placed :=
  if n.kind = .fieldDeclaration then [] else n.children.flatMap declarations

theorem declarations_eq (n : Placed) :
    declarations n = (if declares n.kind then [n] else []) ++ n.children.flatMap declarations := by
  rw [declarations, preorder_eq, List.filter_cons, List.filter_flatMap]
  cases declares n.kind <;> rfl

theorem declarations_eq_nil (hn : n.Readable) (hk : n.kind.isCalm = true) :
    declarations n = [] := by
  refine List.filter_eq_nil_iff.2 fun m hm => ?_
  have hcalm := hn.isCalm hk hm
  revert hcalm
  cases m.kind <;> decide

theorem declaredBelow_of_isQuiet (hn : n.Readable) (hk : isQuiet n.kind = true) :
    declaredBelow n = [] := by
  have hnone : n.children.flatMap declarations = [] :=
    List.flatMap_eq_nil_iff.2 fun c hc => declarations_eq_nil (hn.child hc) (isQuiet_child hn hk hc)
  unfold declaredBelow
  split
  · rfl
  · exact hnone

/-- A declarator or a parameter is the only declaration in itself. -/
theorem declarations_eq_singleton (hn : n.Readable)
    (hk : n.kind = .variableDeclarator ∨ n.kind = .parameter) : declarations n = [n] := by
  have hnone : n.children.flatMap declarations = [] := by
    refine List.flatMap_eq_nil_iff.2 fun c hc => declarations_eq_nil (hn.child hc) ?_
    have hhold := hn.mayHold hc
    rcases hk with hk | hk <;> rw [hk] at hhold <;> revert hhold <;> cases c.kind <;> decide
  rw [declarations_eq, hnone]
  rcases hk with hk | hk <;> rw [hk] <;> rfl

/-- The declarations among the children, if the others are calm. -/
theorem flatMap_declarations (hn : n.Readable) {k : Kind}
    (hk : k = .variableDeclarator ∨ k = .parameter)
    (hcalm : ∀ c ∈ n.children, c.kind ≠ k → c.kind.isCalm = true) :
    n.children.flatMap declarations = n.children.filter fun c => c.kind == k := by
  have hskip : ∀ c ∈ n.children, (c.kind == k) = false → declarations c = [] := fun c hc hck =>
    declarations_eq_nil (hn.child hc) (hcalm c hc (by simpa using hck))
  rw [← flatMap_filter hskip]
  have hself : ∀ c ∈ n.children.filter (fun c => c.kind == k), declarations c = [c] := by
    intro c hc
    obtain ⟨hc, hck⟩ := List.mem_filter.1 hc
    have hck : c.kind = k := by simpa using hck
    exact declarations_eq_singleton (hn.child hc) (hck ▸ hk)
  rw [List.flatMap_congr hself, List.flatMap_singleton']

theorem memberDeclarations_eq {k : Kind} (hk : k.isTypeDeclaration = true)
    (hhold : k.mayHold c.kind = true) (hfield : c.kind ≠ .fieldDeclaration) :
    memberDeclarations c = if declares c.kind then [c] else [] := by
  have hkind : k = .classDeclaration ∨ k = .structDeclaration := by
    simpa [Kind.isTypeDeclaration] using hk
  unfold memberDeclarations
  split
  · contradiction
  · rename_i hck
    rw [hck]
    rfl
  · rename_i hck
    rw [hck]
    rfl
  · rename_i hproperty hmethod
    have htypes : c.kind.isTypeDeclaration = declares c.kind := by
      rcases hkind with rfl | rfl
      all_goals
        revert hhold hproperty hmethod
        cases c.kind <;> decide
    rw [htypes]

theorem hoistedFrom_eq {k : Kind} (hscope : k.opensScope = true)
    (hhold : k.mayHold c.kind = true) (hlist : c.kind ≠ .parameterList)
    (hfield : c.kind ≠ .fieldDeclaration) :
    hoistedFrom k c = if declares c.kind then [c] else [] := by
  have hfile (hk : k = .compilationUnit ∨ k = .namespaceDeclaration) :
      c.kind.isTypeDeclaration = declares c.kind := by
    rcases hk with rfl | rfl <;> revert hhold <;> cases c.kind <;> decide
  have hbody (hk : k = .methodDeclaration ∨ k = .constructorDeclaration ∨
      k = .accessorDeclaration ∨ k = .block) : declares c.kind = false := by
    rcases hk with rfl | rfl | rfl | rfl <;> revert hhold hlist <;> cases c.kind <;> decide
  cases k with
  | compilationUnit => rw [hoistedFrom, hfile (.inl rfl)]
  | namespaceDeclaration => rw [hoistedFrom, hfile (.inr rfl)]
  | classDeclaration => exact memberDeclarations_eq rfl hhold hfield
  | structDeclaration => exact memberDeclarations_eq rfl hhold hfield
  | methodDeclaration => simp [hoistedFrom, hlist, hbody]
  | constructorDeclaration => simp [hoistedFrom, hlist, hbody]
  | accessorDeclaration => simp [hoistedFrom, hbody]
  | block => simp [hoistedFrom, hbody]
  | _ => exact absurd hscope (by decide)

/-- The declarations in a child of a scope are those that the scope hoists, and those made while the
child is bound. -/
theorem declarations_child (hn : n.Readable) (hscope : n.kind.opensScope = true)
    (hc : c ∈ n.children) :
    declarations c = hoistedFrom n.kind c ++ if isVisited n c then declaredBelow c else [] := by
  have hhold := hn.mayHold hc
  have hreadable := hn.child hc
  have haccess : n.kind ≠ .memberAccessExpression := by
    intro hk
    simp [hk, Kind.opensScope] at hscope
  by_cases hlist : c.kind = .parameterList
  · have hparameters : c.children.flatMap declarations =
        c.children.filter fun p => p.kind == .parameter := by
      refine flatMap_declarations hreadable (.inr rfl) fun p hp hne => ?_
      have hhold := hreadable.mayHold hp
      rw [hlist] at hhold
      revert hhold hne
      cases p.kind <;> decide
    have hkind : n.kind = .methodDeclaration ∨ n.kind = .constructorDeclaration := by
      rw [hlist] at hhold
      revert hhold hscope
      cases n.kind <;> decide
    have hhoisted : hoistedFrom n.kind c = c.children.filter fun p => p.kind == .parameter := by
      rcases hkind with hk | hk <;> rw [hk, hoistedFrom, if_pos hlist]
    rw [declarations_eq, hparameters, hhoisted, isVisited, hlist]
    simp [declares]
  by_cases hfield : c.kind = .fieldDeclaration
  · have hdeclarators : c.children.flatMap declarations =
        c.children.filter fun d => d.kind == .variableDeclarator := by
      refine flatMap_declarations hreadable (.inl rfl) fun d hd hne => ?_
      have hhold := hreadable.mayHold hd
      rw [hfield] at hhold
      revert hhold hne
      cases d.kind <;> decide
    have hkind : n.kind = .classDeclaration ∨ n.kind = .structDeclaration := by
      rw [hfield] at hhold
      revert hhold hscope
      cases n.kind <;> decide
    have hhoisted : hoistedFrom n.kind c =
        c.children.filter fun d => d.kind == .variableDeclarator := by
      rcases hkind with hk | hk <;> rw [hk, hoistedFrom, memberDeclarations, hfield]
    rw [declarations_eq, hdeclarators, hhoisted, declaredBelow, if_pos hfield, hfield]
    simp [declares]
  rw [hoistedFrom_eq hscope hhold hlist hfield]
  by_cases htype : c.kind.isTypePart = true
  · have hdeclares : declares c.kind = false := by
      revert htype
      cases c.kind <;> decide
    rw [declarations_eq_nil hreadable (Kind.isCalm_of_isTypePart htype), hdeclares,
      isVisited_of_isTypePart htype]
    rfl
  · have hvisited : isVisited n c = true := by
      simp [isVisited, htype, hlist, isMemberName_eq_false haccess]
    rw [declarations_eq, if_pos hvisited, declaredBelow, if_neg hfield]

/-- A scope declares what it hoists, and what is declared while its children are bound. -/
theorem perm_declaredBelow (hn : n.Readable) (hscope : n.kind.opensScope = true) :
    (hoisted n ++ (visits n).flatMap declaredBelow).Perm (declaredBelow n) := by
  have hfield : n.kind ≠ .fieldDeclaration := by
    intro hk
    simp [hk, Kind.opensScope] at hscope
  have hvisits : (visits n).flatMap declaredBelow =
      n.children.flatMap fun c => if isVisited n c then declaredBelow c else [] := by
    have hskip : ∀ c ∈ n.children, isVisited n c = false →
        (if isVisited n c then declaredBelow c else []) = [] := by
      intro c _ hv
      rw [hv]
      rfl
    rw [visits, ← flatMap_filter hskip]
    refine List.flatMap_congr fun c hc => ?_
    rw [if_pos (List.mem_filter.1 hc).2]
  rw [hoisted, hvisits, declaredBelow, if_neg hfield,
    List.flatMap_congr fun c hc => declarations_child hn hscope hc]
  exact List.flatMap_append_perm _ _ _

theorem declaredBelow_of_local (hn : n.Readable) (hk : n.kind = .localDeclarationStatement) :
    declaredBelow n = visits n := by
  have hkinds : ∀ k, n.kind.mayHold k = true → k ≠ .variableDeclarator → k.isTypePart = true := by
    rw [hk]
    intro k
    cases k <;> decide
  have hdeclarators : n.children.flatMap declarations =
      n.children.filter fun d => d.kind == .variableDeclarator :=
    flatMap_declarations hn (.inl rfl) fun c hc hne =>
      Kind.isCalm_of_isTypePart (hkinds _ (hn.mayHold hc) hne)
  rw [declaredBelow, if_neg (by simp [hk]), hdeclarators]
  refine filter_eq_visits (p := fun k => k == .variableDeclarator) hn ?_ (by simp [hk])
  rw [hk]
  intro k
  cases k <;> decide

/-- Other nodes declare what is declared while their children are bound. -/
theorem declaredBelow_eq (hn : n.Readable) (hquiet : isQuiet n.kind = false)
    (hscope : n.kind.opensScope = false) (hlocal : n.kind ≠ .localDeclarationStatement)
    (hlist : n.kind ≠ .parameterList) (hparameter : n.kind ≠ .parameter) :
    declaredBelow n = (visits n).flatMap declaredBelow := by
  by_cases hfield : n.kind = .fieldDeclaration
  · rw [declaredBelow, if_pos hfield]
    refine (List.flatMap_eq_nil_iff.2 fun c hc => ?_).symm
    obtain ⟨hc, hvisited⟩ := List.mem_filter.1 hc
    refine declaredBelow_of_isQuiet (hn.child hc) ?_
    have hhold := hn.mayHold hc
    rw [hfield] at hhold
    revert hhold
    cases c.kind <;> decide
  rw [declaredBelow, if_neg hfield, visits]
  have hkind : n.kind = .propertyDeclaration ∨ n.kind = .accessorList ∨ n.kind = .ifStatement ∨
      n.kind = .elseClause ∨ n.kind = .whileStatement := by
    revert hquiet hscope hlocal hlist hparameter hfield
    cases n.kind <;> decide
  have hplain : ∀ c ∈ n.children, declares c.kind = false ∧ c.kind ≠ .fieldDeclaration := by
    intro c hc
    have hhold := hn.mayHold hc
    rcases hkind with hk | hk | hk | hk | hk
    all_goals
      rw [hk] at hhold
      revert hhold
      cases c.kind <;> decide
  have hskip : ∀ c ∈ n.children, isVisited n c = false → declarations c = [] := by
    intro c hc hv
    refine declarations_eq_nil (hn.child hc) (Kind.isCalm_of_isTypePart ?_)
    refine isTypePart_of_not_isVisited hn ?_ ?_ ?_ hc hv
    all_goals rcases hkind with hk | hk | hk | hk | hk <;> simp [hk]
  rw [← flatMap_filter hskip]
  refine List.flatMap_congr fun c hc => ?_
  obtain ⟨hdeclares, hfield⟩ := hplain c (List.mem_filter.1 hc).1
  rw [declarations_eq, hdeclares, declaredBelow, if_neg hfield]
  rfl

/-! ## Binding a tree -/

/-- A node that is not an expression or declarator holds each local that ends with it or before it,
in a child that is bound. -/
theorem exists_visited_child (hs : root.Serial) (hr : root.Readable) (hn : n ∈ root.preorder)
    (hquiet : isQuiet n.kind = false) (hd : d ∈ root.preorder) (hlocal : isLocal root d = true)
    (hstart : n.id < d.endId) (hend : d.endId ≤ n.endId) : ∃ c ∈ visits n, d ∈ c.preorder := by
  have hdk := kind_of_isLocal hlocal
  have hreadable := hr.of_mem hn
  have hne : d ≠ n := by
    rintro rfl
    simp [hdk, isQuiet] at hquiet
  have hin : d ∈ n.preorder := by
    have := d.id_lt_endId
    rcases hs.nested_or_apart hd hn with hin | hin | hapart | hapart
    · exact hin
    · rcases Node.eq_or_mem_child_of_mem_preorder hin with rfl | ⟨c, hc, hin⟩
      · exact absurd rfl hne
      · have hcalm := isCalm_below_declarator (hr.of_mem hd) hdk hc hin
        simp [isQuiet, hcalm] at hquiet
    · omega
    · omega
  rcases Node.eq_or_mem_child_of_mem_preorder hin with rfl | ⟨c, hc, hin⟩
  · exact absurd rfl hne
  refine ⟨c, List.mem_filter.2 ⟨hc, ?_⟩, hin⟩
  by_contra hvisited
  have haccess : n.kind ≠ .memberAccessExpression := by
    intro hk
    simp [hk, isQuiet, Kind.isCalm] at hquiet
  -- neither a type nor a list of parameters has a declarator in it
  have hclosed : ∀ k m : Kind, (k.isCalm || k == .parameterList || k == .parameter) = true →
      k.mayHold m = true → (m.isCalm || m == .parameterList || m == .parameter) = true := by
    intro k m hk hm
    simp only [Bool.or_eq_true, beq_iff_eq] at hk
    rcases hk with (hk | rfl) | rfl
    · simp [Kind.isCalm_of_mayHold hk hm]
    · revert hm
      cases m <;> decide
    · revert hm
      cases m <;> decide
  have hskipped : (c.kind.isCalm || c.kind == .parameterList || c.kind == .parameter) = true := by
    simp only [isVisited, isMemberName_eq_false haccess, Bool.or_false, Bool.not_eq_true',
      Bool.not_eq_false, Bool.or_eq_true] at hvisited
    rcases hvisited with hk | hk
    · simp [Kind.isCalm_of_isTypePart hk]
    · simp [hk]
  have hkind := (hreadable.child hc).of_mayHold hclosed hskipped hin
  rw [hdk] at hkind
  cases hkind

/-- The node does not lie in the declarator of a local. -/
def Outside (root n : Placed) : Prop :=
  ∀ d ∈ root.preorder, isLocal root d = true → n ∉ d.preorder

theorem Outside.child (hs : root.Serial) (hr : root.Readable)
    (hpath : Descends root [] (n :: above)) (hquiet : isQuiet n.kind = false)
    (hlocal : n.kind ≠ .localDeclarationStatement) (hc : c ∈ n.children) : Outside root c := by
  intro d hd hdlocal hin
  have hdk := kind_of_isLocal hdlocal
  have hn := mem_of_descends hpath
  have hcn := Node.mem_preorder_of_mem_children hc
  have hcroot := Node.mem_preorder_trans hcn hn
  have hbounds := (hs.mem_preorder_iff hcroot hd).1 hin
  have := (hs.of_mem hn).id_lt_child hc
  have := (hs.of_mem hn).endId_le hcn
  have := c.id_lt_endId
  have hne : d ≠ n := by
    rintro rfl
    simp [hdk, isQuiet] at hquiet
  rcases hs.nested_or_apart hd hn with hdn | hnd | hapart | hapart
  · rcases Node.eq_or_mem_child_of_mem_preorder hdn with rfl | ⟨c', hc', hdc'⟩
    · exact hne rfl
    obtain rfl := (hs.of_mem hn).numbered.child_eq hc hc' (Node.self_mem_preorder c)
      (Node.mem_preorder_trans hin hdc') rfl
    have := ((hs.mem_preorder_iff hd hcroot).1 hdc').1
    obtain rfl := hs.numbered.eq_of_id_eq hd hcroot (by omega)
    simp [isLocal, ancestors_eq hs (hpath.step hc), hlocal] at hdlocal
  · rcases Node.eq_or_mem_child_of_mem_preorder hnd with rfl | ⟨e, he, hne⟩
    · exact hne rfl
    have hcalm := isCalm_below_declarator (hr.of_mem hd) hdk he hne
    simp [isQuiet, hcalm] at hquiet
  · omega
  · omega

/-- What binding a part of the tree does: the cursor moves over it, its declarations get symbols and
its names are looked up. -/
structure Advances (root : Placed) (scopes : List Placed) (chain : List Nat) (cursor : Nat)
    (ds names : List Placed) (b b' : Bindings) : Prop where
  at_cursor : At root cursor scopes chain b'
  records : Records (lookup? root) ds names b b'

/-- Parts that follow each other are bound in turn, if every local between the cursor and the stop
lies in one of them. -/
theorem advances_foldl {scopes cs : List Placed} {chain : List Nat}
    {f : Bindings → Placed → Bindings} {g : Placed → List Placed} {cursor stop : Nat}
    {b : Bindings} (hs : root.Serial) (hroot : ∀ c ∈ cs, c ∈ root.preorder)
    (hstep : ∀ c ∈ cs, ∀ b, At root c.id scopes chain b →
      Advances root scopes chain c.endId (g c) (references root c) b (f b c))
    (hsorted : cs.Pairwise fun c d => c.endId ≤ d.id) (hle : cursor ≤ stop)
    (hstart : ∀ c ∈ cs, cursor ≤ c.id) (hstop : ∀ c ∈ cs, c.endId ≤ stop)
    (hcover : ∀ d ∈ root.preorder, isLocal root d = true → cursor < d.endId → d.endId ≤ stop →
      ∃ c ∈ cs, d ∈ c.preorder)
    (h : At root cursor scopes chain b) :
    Advances root scopes chain stop (cs.flatMap g) (cs.flatMap (references root)) b
      (cs.foldl f b) := by
  induction cs generalizing cursor b with
  | nil =>
    refine ⟨h.move hle fun d hd hlocal hlt hend => ?_, .refl b⟩
    obtain ⟨c, hc, -⟩ := hcover d hd hlocal hlt hend
    cases hc
  | cons c cs ih =>
    obtain ⟨hnext, hsorted⟩ := List.pairwise_cons.1 hsorted
    have hbelow : ∀ c' ∈ c :: cs, ∀ d ∈ c'.preorder, c'.id < d.endId ∧ d.endId ≤ c'.endId := by
      intro c' hc' d hd
      have hserial := hs.of_mem (hroot c' hc')
      exact ⟨Nat.lt_of_le_of_lt (hserial.id_le hd) d.id_lt_endId, hserial.endId_le hd⟩
    have hfirst := c.id_lt_endId
    have hcursor := hstart c (by simp)
    have hc : At root c.id scopes chain b := by
      refine h.move hcursor fun d hd hlocal hlt hend => ?_
      have hcstop := hstop c (by simp)
      obtain ⟨c', hc', hdc'⟩ := hcover d hd hlocal hlt (by omega)
      have := (hbelow c' hc' d hdc').1
      rcases List.mem_cons.1 hc' with rfl | hmem
      · omega
      · have := hnext c' hmem
        omega
    have hstepped := hstep c (by simp) b hc
    have hrest := ih (fun c hc => hroot c (by simp [hc])) (fun c hc => hstep c (by simp [hc]))
      hsorted (hstop c (by simp)) hnext (fun c hc => hstop c (by simp [hc]))
      (fun d hd hlocal hlt hend => by
        obtain ⟨c', hc', hdc'⟩ := hcover d hd hlocal (by omega) hend
        rcases List.mem_cons.1 hc' with rfl | hmem
        · have := (hbelow _ (by simp) d hdc').2
          omega
        · exact ⟨c', hmem, hdc'⟩)
      hstepped.at_cursor
    exact ⟨hrest.at_cursor, hstepped.records.trans hrest.records⟩

/-- An expression is bound in the tables of the cursor before it. -/
theorem At.quiet {chain : List Nat} {b : Bindings} (hs : root.Serial) (hr : root.Readable)
    (h : Visited root n above) (hk : isQuiet n.kind = true)
    (hat : At root n.id (above.filter fun a => a.kind.opensScope) chain b) :
    LooksUp root (references root n) b (bind chain n b) :=
  looksUp_of_isQuiet hs hr h hk hat (env_of_isQuiet hs hr h hk)

theorem id_lt_of_mem_locals (hs : root.Serial) (hd : d ∈ locals root s) : s.id < d.id := by
  have hpath := exists_ancestors hs (mem_root_of_mem_locals hd)
  have hall := (List.pairwise_cons.1 (pairwise_path hpath hs (List.pairwise_singleton _ _))).1
  have hhead := (Bool.and_eq_true_iff.1 (List.mem_filter.1 hd).2).2
  obtain ⟨a, ha, hid⟩ := (Option.any_eq_true _ _).1 hhead
  have hmem := List.mem_of_mem_filter (List.mem_of_mem_head? ha)
  rw [← beq_iff_eq.1 hid]
  exact hall a hmem

/-- A scope that was just opened offers what it hoists. -/
theorem visible_id (hs : root.Serial) (s : Placed) : visible root s s.id = hoisted s := by
  have hnone : (locals root s).filter (fun d => d.endId ≤ s.id) = [] := by
    refine List.filter_eq_nil_iff.2 fun d hd hle => ?_
    have := id_lt_of_mem_locals hs hd
    have := d.id_lt_endId
    have : d.endId ≤ s.id := by simpa using hle
    omega
  rw [visible, hnone, List.append_nil]

/-- No local ends in an expression that lies outside the declarators. -/
theorem advances_of_isQuiet {chain : List Nat} {b : Bindings} (hs : root.Serial)
    (hr : root.Readable) (h : Visited root n above) (hout : Outside root n)
    (hquiet : isQuiet n.kind = true)
    (hat : At root n.id (above.filter fun a => a.kind.opensScope) chain b) :
    Advances root (above.filter fun a => a.kind.opensScope) chain n.endId (declaredBelow n)
      (references root n) b (bind chain n b) := by
  have hn := hr.of_mem h.mem
  have hlooks := hat.quiet hs hr h hquiet
  rw [declaredBelow_of_isQuiet hn hquiet]
  refine ⟨(hat.looksUp hlooks).move (Nat.le_of_lt n.id_lt_endId) ?_, hlooks.records⟩
  intro d hd hlocal hstart hend
  have := d.id_lt_endId
  rcases hs.nested_or_apart hd h.mem with hin | hin | hapart | hapart
  · obtain rfl := eq_of_isLocal_of_mem hn hquiet hin hlocal
    exact hout d hd hlocal (Node.self_mem_preorder d)
  · exact hout d hd hlocal hin
  · omega
  · omega

/-- The children visited follow each other, and every local that ends in the node is in one. -/
theorem advances_visits {scopes : List Placed} {chain : List Nat}
    {f : Bindings → Placed → Bindings} {g : Placed → List Placed} {b : Bindings}
    (hs : root.Serial) (hr : root.Readable) (h : Visited root n above)
    (hquiet : isQuiet n.kind = false) (hat : At root n.id scopes chain b)
    (hstep : ∀ c ∈ visits n, ∀ b, At root c.id scopes chain b →
      Advances root scopes chain c.endId (g c) (references root c) b (f b c)) :
    Advances root scopes chain n.endId ((visits n).flatMap g) (references root n) b
      ((visits n).foldl f b) := by
  have hserial := hs.of_mem h.mem
  have hname : n.kind ≠ .identifierName := by
    intro hk
    simp [hk, isQuiet, Kind.isCalm] at hquiet
  have hchild : ∀ c ∈ visits n, c ∈ n.children := fun c hc => (List.mem_filter.1 hc).1
  have hroot : ∀ c ∈ visits n, c ∈ root.preorder := fun c hc =>
    Node.mem_preorder_trans (Node.mem_preorder_of_mem_children (hchild c hc)) h.mem
  rw [h.references_eq hs (hr.of_mem h.mem), if_neg hname, List.nil_append]
  refine advances_foldl hs hroot hstep (hserial.pairwise_children.sublist List.filter_sublist)
    (Nat.le_of_lt n.id_lt_endId) (fun c hc => ?_) (fun c hc => ?_) ?_ hat
  · exact Nat.le_of_lt (hserial.id_lt_child (hchild c hc))
  · exact hserial.endId_le (Node.mem_preorder_of_mem_children (hchild c hc))
  · intro d hd hlocal hstart hend
    exact exists_visited_child hs hr h.mem hquiet hd hlocal hstart hend

/-- Each declarator is declared once its initializer is bound. -/
theorem advances_localDeclaration {chain : List Nat} {b : Bindings} (hs : root.Serial)
    (hr : root.Readable) (h : Visited root n above) (hk : n.kind = .localDeclarationStatement)
    (hat : At root n.id (above.filter fun a => a.kind.opensScope) chain b) :
    Advances root (above.filter fun a => a.kind.opensScope) chain n.endId (declaredBelow n)
      (references root n) b (bind chain n b) := by
  have hn := hr.of_mem h.mem
  obtain ⟨type, hbind⟩ := bind_localDeclaration hn hk chain b
  have hscopes : (above.filter fun a => a.kind.opensScope) =
      (n :: above).filter fun a => a.kind.opensScope :=
    (List.filter_cons_of_neg (by simp [hk, Kind.opensScope])).symm
  have hdeclared : declaredBelow n = (visits n).flatMap fun d => [d] := by
    rw [declaredBelow_of_local hn hk, List.flatMap_singleton']
  rw [hbind, hdeclared]
  refine advances_visits hs hr h (by rw [hk]; rfl) hat fun d hd b hat => ?_
  have hdk : d.kind = .variableDeclarator := by
    obtain ⟨v, hv, hvisits⟩ := exists_declarators hn (.inl hk)
    exact (Node.mem_declarators hv (hvisits ▸ hd)).2
  have hvisited := h.child hn hd
  have hlocal := isLocal_of_descends hs hdk hk hvisited.path
  rw [hscopes] at hat ⊢
  have hlooks := hat.quiet hs hr hvisited (by rw [hdk]; rfl)
  refine ⟨(hat.looksUp hlooks).declareVariable hs hr hvisited.path hlocal _, ?_⟩
  simpa using hlooks.records.trans
    (declared_declareVariable (hn.child (List.mem_filter.1 hd).1) hdk _ _ _).records

/-- Binding a node moves the cursor behind it. -/
theorem advances_bind {root : Placed} (hs : root.Serial) (hr : root.Readable) (n : Placed)
    (above : List Placed) (h : Visited root n above) (hout : Outside root n) (chain : List Nat)
    (b : Bindings) (hat : At root n.id (above.filter fun a => a.kind.opensScope) chain b) :
    Advances root (above.filter fun a => a.kind.opensScope) chain n.endId (declaredBelow n)
      (references root n) b (bind chain n b) := by
  have hn := hr.of_mem h.mem
  by_cases hquiet : isQuiet n.kind = true
  · exact advances_of_isQuiet hs hr h hout hquiet hat
  by_cases hlocal : n.kind = .localDeclarationStatement
  · exact advances_localDeclaration hs hr h hlocal hat
  have hquiet : isQuiet n.kind = false := by simpa using hquiet
  have hbelow : ∀ c ∈ visits n, ∀ chain b,
      At root c.id ((n :: above).filter fun a => a.kind.opensScope) chain b →
      Advances root ((n :: above).filter fun a => a.kind.opensScope) chain c.endId
        (declaredBelow c) (references root c) b (bind chain c b) := by
    intro c hc chain b hat
    have hcn : c ∈ n.children := (List.mem_filter.1 hc).1
    exact advances_bind hs hr c (n :: above) (h.child hn hc)
      (Outside.child hs hr h.path hquiet hlocal hcn) chain b hat
  by_cases hscope : n.kind.opensScope = true
  · obtain ⟨kind, b₁, hdeclared, hbind⟩ := bind_of_opensScope hn hscope chain b
    rw [List.filter_cons_of_pos (by simpa using hscope)] at hbelow
    have hopened : At root n.id (n :: above.filter fun a => a.kind.opensScope)
        (b.scopes.length :: chain) b₁ := by
      have htables := hdeclared.tables (Tables.openScope hat kind n.id)
      rwa [List.nil_append, ← visible_id hs n] at htables
    have hbody := advances_visits hs hr h hquiet hopened fun c hc => hbelow c hc _
    rw [hbind]
    refine ⟨hbody.at_cursor.tail, ?_⟩
    have hrecords := hdeclared.records.trans hbody.records
    exact hrecords.of_openScope.perm (perm_declaredBelow hn hscope) (by simp)
  · have hscope : n.kind.opensScope = false := by simpa using hscope
    have hname : n.kind ≠ .identifierName := by
      intro hk
      simp [hk, isQuiet, Kind.isCalm] at hquiet
    rw [List.filter_cons_of_neg (by simp [hscope])] at hbelow
    rw [bind_of_not_opensScope hn (hs.of_mem h.mem).numbered hscope hname hlocal,
      declaredBelow_eq hn hquiet hscope hlocal h.list (h.parameter n (by simp))]
    exact advances_visits hs hr h hquiet hat fun c hc => hbelow c hc _
termination_by n.size
decreasing_by exact Node.size_lt_of_mem_children hcn

/-- Binding a whole file. -/
theorem records_ofRoot (hs : root.Serial) (hr : root.Readable)
    (hk : root.kind = .compilationUnit) :
    Records (lookup? root) (declaredBelow root) (references root root) {}
      (ofRoot (some root)) := by
  have hvisited : Visited root root [] := ⟨.here root [], by simp, by simp [hk], by simp [hk]⟩
  have hout : Outside root root := by
    intro d hd hlocal hin
    have hle := ((hs.mem_preorder_iff (Node.self_mem_preorder root) hd).1 hin).1
    obtain rfl := hs.numbered.eq_of_id_eq hd (Node.self_mem_preorder root)
      (Nat.le_antisymm hle (hs.id_le hd))
    simp [kind_of_isLocal hlocal] at hk
  exact (advances_bind hs hr root [] hvisited hout [] {} (Tables.nil {})).records

theorem declares_of_mem_declaredBelow (hd : d ∈ declaredBelow n) : declares d.kind = true := by
  unfold declaredBelow at hd
  split at hd
  · cases hd
  · obtain ⟨c, -, hd⟩ := List.mem_flatMap.1 hd
    exact (List.mem_filter.1 hd).2

theorem sublist_declaredBelow (n : Placed) : (declaredBelow n).Sublist n.preorder := by
  unfold declaredBelow
  split
  · exact List.nil_sublist _
  · have hfilter : n.children.flatMap declarations =
        (n.children.flatMap Node.preorder).filter fun d => declares d.kind :=
      List.filter_flatMap.symm
    rw [preorder_eq, hfilter]
    exact List.filter_sublist.trans (List.sublist_cons_self _ _)

/-- A name is found at most once among the names looked up. -/
theorem filter_references (hs : root.Serial) (hi : i ∈ root.preorder) :
    (references root root).filter (fun m => m.id == i.id) =
      if isReference root i then [i] else [] := by
  have hsame : root.preorder.filter (fun m => m.id == i.id) = [i] := by
    have hsorted := hs.pairwise_preorder
    obtain ⟨before, after, hsplit⟩ := List.append_of_mem hi
    rw [hsplit] at hsorted ⊢
    obtain ⟨-, hafter, hbefore⟩ := List.pairwise_append.1 hsorted
    have hnone {cs : List Placed} (hcs : ∀ c ∈ cs, c.id ≠ i.id) :
        cs.filter (fun m => m.id == i.id) = [] :=
      List.filter_eq_nil_iff.2 fun c hc => by simpa using hcs c hc
    have hfirst : ∀ c ∈ before, c.id ≠ i.id := fun c hc => Nat.ne_of_lt (hbefore c hc i (by simp))
    have hlast : ∀ c ∈ after, c.id ≠ i.id := fun c hc =>
      Nat.ne_of_gt ((List.pairwise_cons.1 hafter).1 c hc)
    rw [List.filter_append, List.filter_cons_of_pos (by simp), hnone hfirst, hnone hlast,
      List.nil_append]
  rw [references, List.filter_comm, hsame, List.filter_cons, List.filter_nil]

/-- What is recorded for a name is its answer, if the name is looked up. -/
theorem filter_meanings (hs : root.Serial) (hi : i ∈ root.preorder)
    (hk : i.kind = .identifierName) :
    (meanings (lookup? root) (declaredBelow root) (references root root)).filter
        (fun m => m.1.id == i.id) =
      ((if isReference root i then lookup? root i else none).map fun d => (i, d)).toList := by
  have hdeclared : ((declaredBelow root).map fun d => (d, d)).filter
      (fun m => m.1.id == i.id) = [] := by
    refine List.filter_eq_nil_iff.2 fun m hm hid => ?_
    obtain ⟨d, hd, rfl⟩ := List.mem_map.1 hm
    have hdk := declares_of_mem_declaredBelow hd
    have hdroot := (sublist_declaredBelow root).subset hd
    obtain rfl := hs.numbered.eq_of_id_eq hdroot hi (by simpa using hid)
    rw [hk] at hdk
    cases hdk
  have hnames : ((references root root).filterMap fun j => (lookup? root j).map fun d =>
      (j, d)).filter (fun m => m.1.id == i.id) =
      ((references root root).filter fun j => j.id == i.id).filterMap fun j =>
        (lookup? root j).map fun d => (j, d) := by
    rw [List.filter_filterMap, List.filterMap_filter]
    congr
    funext j
    cases lookup? root j <;> by_cases hid : j.id = i.id <;> simp [hid]
  rw [meanings, List.filter_append, hdeclared, hnames, filter_references hs hi, List.nil_append]
  cases isReference root i with
  | true => cases hd : lookup? root i <;> simp [hd]
  | false => rfl

end Lexical

theorem lookup_eq_head?_filter (entries : List (Nat × Nat)) (k : Nat) :
    entries.lookup k = ((entries.filter fun e => e.1 == k).head?).map Prod.snd := by
  induction entries with
  | nil => rfl
  | cons e entries ih =>
    obtain ⟨j, x⟩ := e
    by_cases hj : j = k
    · simp [hj]
    · have hne : (k == j) = false := by simpa using Ne.symm hj
      simp [List.lookup_cons, hne, hj, ih]

/-- Names are bound by lexical scope. In a text without errors every name that stands neither behind
a dot nor in a parameter is looked up once: it has one entry, which gives it the symbol of the last
declaration of its name in the nearest scope that offers one, or there is no such declaration and it
is counted. Other names have no entry, and no two symbols have the same declaration. -/
theorem bound_by_lexical_scope {file text : String} {root : Placed}
    (hroot : (parse file text).tree.placed = some root) (herrors : (parse file text).errors = [])
    (nullableContext : Bool) :
    let m := Model.build (some root) nullableContext
    (∀ i ∈ root.preorder, i.kind = .identifierName →
      m.bindings.symbolOf.filter (fun e => e.1 == i.id) =
          ((m.symbolAt i.id).map fun x => (i.id, x)).toList ∧
        Option.Rel (Denotes m.bindings.symbols) (m.symbolAt i.id)
          (if Lexical.isReference root i then Lexical.lookup? root i else none)) ∧
      m.bindings.unresolved = root.preorder.countP (fun i =>
        Lexical.isReference root i && (Lexical.lookup? root i).isNone) ∧
      (m.bindings.symbols.map Symbol.declaration).Nodup := by
  intro m
  obtain ⟨-, green, hgreen, hkind, -⟩ := conforms_of_errors_eq_nil herrors
  obtain rfl : green.placed = root := by simpa [Tree.placed, hgreen] using hroot
  have hs := Node.serial_placed green
  have hr : green.placed.Readable := readable_of_errors_eq_nil herrors _
    (by rw [Tree.nodes_of_placed hroot]; exact Node.self_mem_preorder _)
  have hk : green.placed.kind = .compilationUnit := by
    rw [← hkind, ← Node.kind_map (fun _ => ()) green.placed, ← Node.erase, Node.erase_placed]
  have hrecords := Lexical.records_ofRoot hs hr hk
  have hb : m.bindings = Bindings.ofRoot (some green.placed) := Model.bindings_build _ _
  obtain ⟨⟨new, hnew, hperm⟩, ⟨es, ms, hes, hms, hentries⟩, hunresolved⟩ := hrecords
  rw [← hb] at hnew hes hentries hunresolved
  refine ⟨fun i hi hik => ?_, ?_, ?_⟩
  · have hmine := (hms.filter fun m => m.1.id == i.id).trans
      (.of_eq (Lexical.filter_meanings hs hi hik))
    have hfiltered : List.Forall₂ (Bindings.Entry m.bindings.symbols)
        (ms.filter fun m => m.1.id == i.id) (es.filter fun e => e.1 == i.id) := by
      refine List.rel_filter ?_ hentries
      rintro a e ⟨hid, -⟩
      simp [hid]
    rw [Model.symbolAt, lookup_eq_head?_filter, hes, List.append_nil]
    generalize es.filter (fun e => e.1 == i.id) = mine at hfiltered ⊢
    cases hanswer : (if Lexical.isReference green.placed i then
      Lexical.lookup? green.placed i else none) with
    | none =>
      rw [hanswer] at hmine
      rw [hmine.eq_nil] at hfiltered
      cases hfiltered
      exact ⟨rfl, .none⟩
    | some d =>
      rw [hanswer] at hmine
      rw [List.perm_singleton.1 hmine] at hfiltered
      obtain ⟨e, others, ⟨hid, hdenotes⟩, hnil, rfl⟩ :=
        List.forall₂_cons_left_iff.1 hfiltered
      cases hnil
      exact ⟨by simp [← hid], .some hdenotes⟩
  · rw [hunresolved, Lexical.references, List.countP_filter]
    simp [Bool.and_comm]
  · rw [hnew]
    simp only [List.nil_append]
    rw [hperm.nodup_iff]
    exact hs.numbered.sublist ((Lexical.sublist_declaredBelow _).map _)

/-- The parameter `x` hides the field, and the inner `x` hides the parameter, but not in its own
initializer. The name `w` has no declaration, and the `x` behind the dot is not looked up. -/
theorem bound_by_lexical_scope_hiding :
    let r := parse "" "class C { int x; int M(int x) { { int x = x; x = 0; } return w.x; } }"
    let m := Model.build r.tree.placed false
    let declared (i : Nat) : Option Nat :=
      (m.symbolAt i).bind fun x => (m.bindings.symbols[x]?).map Symbol.declaration
    r.errors = [] ∧ [33, 38, 48, 51].map declared = [some 17, some 29, none, none] ∧
      m.bindings.unresolved = 1 := by
  intro r m declared
  let n (k : Nat) : Placed := (r.tree.node? k).getD default
  let answer (k : Nat) : Option Placed :=
    if Lexical.isReference (n 0) (n k) then Lexical.lookup? (n 0) (n k) else none
  have herrors : r.errors = [] := by decide +kernel
  have hroot : r.tree.placed = some (n 0) := by decide +kernel
  have hm : m = Model.build (some (n 0)) false := congrArg (Model.build · false) hroot
  obtain ⟨hnames, hunresolved, -⟩ := bound_by_lexical_scope hroot herrors false
  rw [← hm] at hnames hunresolved
  have hread : ∀ k ∈ [33, 38, 48, 51], n k ∈ (n 0).preorder ∧ (n k).id = k ∧
      (n k).kind = .identifierName := by decide +kernel
  have hanswers : [33, 38, 48, 51].map (fun k => (answer k).map Node.id) =
      [some 17, some 29, none, none] := by decide +kernel
  refine ⟨herrors, hanswers ▸ List.map_congr_left fun k hk => ?_,
    hunresolved.trans (by decide +kernel)⟩
  obtain ⟨hmem, hid, hkind⟩ := hread k hk
  have hrel : Option.Rel (Denotes m.bindings.symbols) (m.symbolAt k) (answer k) := by
    rw [← congrArg m.symbolAt hid]
    exact (hnames (n k) hmem hkind).2
  simp only [declared]
  generalize m.symbolAt k = x, answer k = d at hrel ⊢
  cases hrel with
  | none => rfl
  | some hdenotes =>
    obtain ⟨s, hs, hd⟩ := hdenotes
    simp [hs, hd]

end NullLint
