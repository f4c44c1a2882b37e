import NullLint.Proofs.Semantics.Declaring
import NullLint.Proofs.Syntax.Nesting

/-!
# Binding child by child

In a tree that conforms to the grammar, a node is bound by binding its children from left to right,
apart from types, lists of parameters and names behind a dot. A scope is opened first and declares
what it hoists; a local is declared behind its declarator.
-/

open Computability

namespace NullLint

namespace Kind

/-- Files, namespaces, types, methods, accessors and blocks. -/
def opensScope : Kind → Bool
  | .compilationUnit | .namespaceDeclaration | .classDeclaration | .structDeclaration
  | .methodDeclaration | .constructorDeclaration | .accessorDeclaration | .block => true
  | _ => false

end Kind

namespace Lexical

/-! ## Hoisted declarations -/

/-- What a member of a type declares in the type: a field each of its declarators, a property,
method or type itself, a constructor nothing. -/
def memberDeclarations (m : Placed) : List Placed :=
  match m.kind with
  | .fieldDeclaration => m.children.filter fun d => d.kind == .variableDeclarator
  | .propertyDeclaration | .methodDeclaration => [m]
  | k => if k.isTypeDeclaration then [m] else []

/-- What a scope of kind `k` declares for a child before anything in the scope is looked up: files
and namespaces their types, types their members, methods and constructors their parameters. -/
def hoistedFrom (k : Kind) (c : Placed) : List Placed :=
  match k with
  | .compilationUnit | .namespaceDeclaration => if c.kind.isTypeDeclaration then [c] else []
  | .classDeclaration | .structDeclaration => memberDeclarations c
  | .methodDeclaration | .constructorDeclaration =>
    if c.kind = .parameterList then c.children.filter fun p => p.kind == .parameter else []
  | _ => []

/-- The declarations that a scope has from the start. -/
def hoisted (s : Placed) : List Placed := s.children.flatMap (hoistedFrom s.kind)

/-- Whether the node is the name behind the dot of its parent. -/
def isMemberName (parent i : Placed) : Bool :=
  parent.memberAccess?.any fun v => v.name.id == i.id

end Lexical

namespace Bindings

open Lexical Grammar

variable {n c d : Placed} {chain : List Nat}

/-! ## Hoisting -/

theorem declared_declareVariable (h : d.Readable) (hk : d.kind = .variableDeclarator)
    (kind : SymbolKind) (type : Option Placed) (b : Bindings) :
    Declared chain [d] b (b.declareVariable chain kind type d) := by
  obtain ⟨name, rest, hc, hname, -⟩ := map_mem_just_mul.1 (h.word hk rfl)
  have hview : d.declarator? = some ⟨name, d.initializer?⟩ := by simp [Node.declarator?, hk, hc]
  unfold declareVariable
  rw [hview]
  exact .one rfl (by simp [Node.declaredName?, Node.childOfKind?, hc, hname]) b

theorem declared_declareParameter (h : d.Readable) (hk : d.kind = .parameter) (b : Bindings) :
    Declared chain [d] b (b.declareParameter chain d) := by
  obtain ⟨type, rest, hc, htype, hrest⟩ := map_mem_oneOf_mul.1 (h.word hk rfl)
  obtain ⟨name, rest, rfl, hname, -⟩ := map_mem_just_mul.1 hrest
  have hview : d.parameter? = some ⟨type, name⟩ := by simp [Node.parameter?, hk, hc]
  have hne : type.kind ≠ .identifier := by
    intro heq
    simp [heq, Kind.isType] at htype
  unfold declareParameter
  rw [hview]
  exact .one rfl (by simp [Node.declaredName?, Node.childOfKind?, hc, hname, hne]) b

theorem declaredName?_of_isTypeDeclaration (h : c.Readable)
    (hk : c.kind.isTypeDeclaration = true) : ∃ name, c.declaredName? = some name := by
  have hkind : c.kind = .classDeclaration ∨ c.kind = .structDeclaration := by
    simpa [Kind.isTypeDeclaration] using hk
  obtain ⟨keyword, hword⟩ : ∃ keyword, c.children.map Node.kind ∈ typeDeclaration keyword := by
    rcases hkind with hk | hk
    · exact ⟨_, h.word hk rfl⟩
    · exact ⟨_, h.word hk rfl⟩
  obtain ⟨before, rest, hc, -, hrest⟩ := map_mem_mul.1 hword
  obtain ⟨mark, rest, rfl, -, hrest⟩ := map_mem_just_mul.1 hrest
  obtain ⟨token, rest, rfl, htoken, -⟩ := map_mem_just_mul.1 hrest
  obtain ⟨found, hfound⟩ := Node.exists_childOfKind? (n := c) (c := token) (by simp [hc])
  exact ⟨found.leafText, by rw [Node.declaredName?, ← htoken, hfound]; rfl⟩

theorem declared_declareType (h : c.Readable) (b : Bindings) :
    Declared chain (if c.kind.isTypeDeclaration then [c] else []) b (b.declareType chain c) := by
  by_cases hk : c.kind.isTypeDeclaration = true
  · obtain ⟨name, hname⟩ := declaredName?_of_isTypeDeclaration h hk
    rw [if_pos hk]
    have hkind : c.kind = .classDeclaration ∨ c.kind = .structDeclaration := by
      simpa [Kind.isTypeDeclaration] using hk
    rcases hkind with hk | hk
    · simp only [declareType, hk, hname]
      exact .one rfl hname b
    · simp only [declareType, hk, hname]
      exact .one rfl hname b
  · rw [if_neg hk]
    simp only [Kind.isTypeDeclaration, Bool.or_eq_true, beq_iff_eq, not_or] at hk
    unfold declareType
    split
    · exact absurd ‹_› hk.1
    · exact absurd ‹_› hk.2
    · exact .nil b

theorem declared_declareMember (h : c.Readable) (b : Bindings) :
    Declared chain (memberDeclarations c) b (b.declareMember chain c) := by
  unfold declareMember
  split
  · rename_i hk
    obtain ⟨v, hv, -⟩ := h.variableDeclaration (.inr hk)
    simp only [memberDeclarations, hk, hv, Node.variableDeclaration?_eq_some hv]
    refine Declared.foldl_each (fun d hd b => ?_) b
    obtain ⟨hd, hdk⟩ := List.mem_filter.1 hd
    exact declared_declareVariable (h.child hd) (by simpa using hdk) _ _ b
  · rename_i hk
    obtain ⟨type, name, htype, -, hname, -⟩ := h.typedName (h.word hk rfl)
    simp only [memberDeclarations, hk, Node.property?, htype, hname]
    exact .one rfl (by simp [Node.declaredName?, hname]) b
  · rename_i hk
    obtain ⟨type, name, htype, -, hname, -⟩ := h.typedName (h.word hk rfl)
    simp only [memberDeclarations, hk, Node.method?, hname]
    exact .one rfl (by simp [Node.declaredName?, hname]) b
  · unfold memberDeclarations
    split
    case h_4 => exact declared_declareType h b
    all_goals exact absurd ‹_› ‹_›

/-! ## Children that are bound -/

/-- Whether a child is bound with its parent: types, parameter lists and names behind a dot are
not. -/
def isVisited (n c : Placed) : Bool :=
  !(c.kind.isTypePart || c.kind == .parameterList || isMemberName n c)

/-- The children that are bound one after the other. -/
def visits (n : Placed) : List Placed := n.children.filter (isVisited n)

theorem isMemberName_eq_false (hk : n.kind ≠ .memberAccessExpression) (c : Placed) :
    isMemberName n c = false := by
  cases hv : n.memberAccess? with
  | none => simp [isMemberName, hv]
  | some v => exact absurd (Node.memberAccess?_eq_some hv).1 hk

theorem isVisited_of_isTypePart (h : c.kind.isTypePart = true) : isVisited n c = false := by
  simp [isVisited, h]

theorem not_isToken_of_isVisited (h : isVisited n c = true) : c.kind.isToken = false := by
  simp only [isVisited, Kind.isTypePart, Bool.not_eq_true', Bool.or_eq_false_iff] at h
  exact h.1.1.2

theorem foldl_bind_eq_self {cs : List Placed} (h : ∀ c ∈ cs, ∀ b, bind chain c b = b)
    (b : Bindings) : cs.foldl (fun b c => bind chain c b) b = b := by
  induction cs generalizing b with
  | nil => rfl
  | cons c cs ih =>
    rw [List.foldl_cons, h c (by simp), ih fun d hd => h d (by simp [hd])]

/-- Types are not looked into. -/
theorem bind_of_isTypePart {c : Placed} (h : c.Readable) (hk : c.kind.isTypePart = true)
    (chain : List Nat) (b : Bindings) : bind chain c b = b := by
  rw [bind_plain (by revert hk; cases c.kind <;> decide)]
  unfold parts
  split
  · rename_i hkind
    rw [hkind] at hk
    cases hk
  · rename_i hkind
    rw [hkind] at hk
    cases hk
  · rfl
  · split
    · rfl
    · refine foldl_bind_eq_self (fun d hd b => ?_) b
      obtain ⟨hd, -⟩ := List.mem_filter.1 hd
      exact bind_of_isTypePart (h.child hd)
        (Kind.isTypePart_of_mayHold (.inl hk) (h.mayHold hd)) chain b
termination_by c.size
decreasing_by exact Node.size_lt_of_mem_children hd

/-- If the children that are left out change nothing, binding the children that are not tokens is
binding those that are visited. -/
theorem foldl_visits (hskip : ∀ c ∈ n.children, isVisited n c = false → ∀ b, bind chain c b = b)
    (b : Bindings) : (n.children.filter fun c => !c.kind.isToken).foldl
      (fun b c => bind chain c b) b = (visits n).foldl (fun b c => bind chain c b) b := by
  unfold visits
  rw [List.foldl_filter, List.foldl_filter]
  refine List.foldl_ext _ _ b fun b c hc => ?_
  cases hv : isVisited n c with
  | true => simp [not_isToken_of_isVisited hv]
  | false => simp [hskip c hc hv b]

theorem isTypePart_of_not_isVisited (h : n.Readable) (hmethod : n.kind ≠ .methodDeclaration)
    (hconstructor : n.kind ≠ .constructorDeclaration) (haccess : n.kind ≠ .memberAccessExpression)
    (hc : c ∈ n.children) (hv : isVisited n c = false) : c.kind.isTypePart = true := by
  have hlist : c.kind ≠ .parameterList := by
    intro hk
    have hhold := h.mayHold hc
    rw [hk] at hhold
    revert hhold hmethod hconstructor
    cases n.kind <;> decide
  simpa [isVisited, isMemberName_eq_false haccess, hlist] using hv

/-- A declarator is bound by binding its initializer. -/
theorem bind_declarator (h : d.Readable) (hk : d.kind = .variableDeclarator) (chain : List Nat)
    (b : Bindings) : bind chain d b =
      match d.initializer? with
      | some e => bind chain e b
      | none => b := by
  obtain ⟨name, rest, hc, hname, hrest⟩ := map_mem_just_mul.1 (h.word hk rfl)
  have hparts {n : Placed} (hk : n.kind = .variableDeclarator ∨ n.kind = .equalsValueClause) :
      parts n = n.children.filter fun c => !c.kind.isToken := by
    rcases hk with hk | hk <;> simp [parts, hk, Kind.isType, Kind.isToken, Kind.isNode]
  have hnameToken : name.kind.isToken = true := by rw [hname]; rfl
  rw [bind_plain (by rw [hk]; rfl), hparts (.inl hk), hc,
    List.filter_cons_of_neg (by simp [hnameToken])]
  rcases map_mem_maybe.1 hrest with rfl | hrest
  · simp [Node.initializer?, Node.childOfKind?, hc, hname]
  · obtain ⟨clause, rfl, hclause⟩ := map_mem_just.1 hrest
    have hword := (h.child (by simp [hc] : clause ∈ d.children)).word hclause rfl
    obtain ⟨mark, rest, hcs, hmark, hrest⟩ := map_mem_just_mul.1 hword
    obtain ⟨e, rfl, he⟩ := map_mem_oneOf.1 hrest
    have hinitializer : d.initializer? = some e := by
      simp [Node.initializer?, Node.childOfKind?, hc, hname, hclause, hcs]
    have hclauseToken : clause.kind.isToken = false := by rw [hclause]; rfl
    have hmarkToken : mark.kind.isToken = true := by rw [hmark]; rfl
    have heToken : e.kind.isToken = false := by
      simp [Kind.isToken, Kind.isNode_of_isExpression (Node.isExpression_of_standsAlone he)]
    have hbind : bind chain clause b = bind chain e b := by
      rw [bind_plain (by rw [hclause]; rfl), hparts (.inr hclause), hcs,
        List.filter_cons_of_neg (by simp [hmarkToken]), List.filter_cons_of_pos (by simp [heToken])]
      rfl
    rw [hinitializer, List.filter_cons_of_pos (by simp [hclauseToken])]
    exact hbind

/-- The children of a given sort are the visited ones, if the others are parts of types and
parameter lists. -/
theorem filter_eq_visits (h : n.Readable) {p : Kind → Bool}
    (hp : ∀ k, n.kind.mayHold k = true → p k = !(k.isTypePart || k == .parameterList))
    (haccess : n.kind ≠ .memberAccessExpression) :
    (n.children.filter fun c => p c.kind) = visits n := by
  refine List.filter_congr fun c hc => ?_
  rw [isVisited, isMemberName_eq_false haccess, Bool.or_false, hp _ (h.mayHold hc)]

/-- Of a field or a local declaration the declarators are visited. -/
theorem exists_declarators (h : n.Readable)
    (hk : n.kind = .localDeclarationStatement ∨ n.kind = .fieldDeclaration) :
    ∃ v, n.variableDeclaration? = some v ∧ v.declarators = visits n := by
  obtain ⟨v, hv, -⟩ := h.variableDeclaration hk
  refine ⟨v, hv, ?_⟩
  rw [Node.variableDeclaration?_eq_some hv]
  refine filter_eq_visits (p := fun k => k == .variableDeclarator) h ?_ ?_
  · intro k
    rcases hk with hk | hk <;> rw [hk] <;> cases k <;> decide
  · rcases hk with hk | hk <;> simp [hk]

theorem bind_field (h : n.Readable) (hk : n.kind = .fieldDeclaration) (chain : List Nat)
    (b : Bindings) : bind chain n b = (visits n).foldl (fun b c => bind chain c b) b := by
  obtain ⟨v, hv, hvisits⟩ := exists_declarators h (.inr hk)
  rw [bind]
  simp only [hk]
  split
  · rename_i v' hv'
    obtain rfl : v = v' := Option.some.inj (hv.symm.trans hv')
    rw [← hvisits]
    have hbind : ∀ b, ∀ d ∈ v.declarators, bind chain d b =
        match d.initializer? with
        | some e => bind chain e b
        | none => b := by
      intro b d hd
      obtain ⟨hd, hdk⟩ := Node.mem_declarators hv hd
      exact bind_declarator (h.child hd) hdk chain b
    rw [List.foldl_ext _ _ b hbind]
    refine Eq.trans ?_ List.foldl_attach
    congr
    funext b d
    split <;> simp_all
  · simp_all

theorem bind_property (h : n.Readable) (hk : n.kind = .propertyDeclaration) (chain : List Nat)
    (b : Bindings) : bind chain n b = (visits n).foldl (fun b c => bind chain c b) b := by
  have hvisits : (n.children.filter fun c => isPropertyBody c.kind) = visits n := by
    refine filter_eq_visits h ?_ (by simp [hk])
    rw [hk]
    intro k
    cases k <;> decide
  rw [bind, ← hvisits, List.foldl_filter]
  simp only [hk]
  exact List.foldl_attach (f := fun b c => if isPropertyBody c.kind then bind chain c b else b)

/-- In an access the expression before the dot is bound. -/
theorem visits_memberAccess (h : n.Readable) (hn : n.Numbered)
    (hk : n.kind = .memberAccessExpression) :
    ∃ v, n.memberAccess? = some v ∧ visits n = [v.expression] := by
  obtain ⟨e, rest, hc, he, hrest⟩ := map_mem_oneOf_mul.1 (h.word hk rfl)
  obtain ⟨dot, rest, rfl, hdot, hrest⟩ := map_mem_just_mul.1 hrest
  obtain ⟨name, rfl, hname⟩ := map_mem_just.1 hrest
  have hv : n.memberAccess? = some ⟨e, dot, name⟩ := by simp [Node.memberAccess?, hk, hc]
  have hne : name.id ≠ e.id := by
    have hnodup := hn.nodup_children
    simp only [hc, List.map_cons, List.nodup_cons, List.mem_cons] at hnodup
    intro heq
    exact hnodup.1 (by simp [heq])
  refine ⟨_, hv, ?_⟩
  have hexpression : isVisited n e = true := by
    have hkind : (e.kind.isTypePart || e.kind == .parameterList) = false := by
      revert he
      cases e.kind <;> decide
    simp [isVisited, isMemberName, hv, hkind, hne]
  have hdotVisited : isVisited n dot = false := isVisited_of_isTypePart (by rw [hdot]; rfl)
  have hnameVisited : isVisited n name = false := by simp [isVisited, isMemberName, hv]
  simp [visits, hc, hexpression, hdotVisited, hnameVisited]

/-- In an object creation the arguments are bound. -/
theorem bind_creation (h : n.Readable) (hk : n.kind = .objectCreationExpression)
    (chain : List Nat) (b : Bindings) :
    bind chain n b = (visits n).foldl (fun b c => bind chain c b) b := by
  obtain ⟨keyword, rest, hc, hkeyword, hrest⟩ := map_mem_just_mul.1 (h.word hk rfl)
  obtain ⟨type, rest, rfl, htype, hrest⟩ := map_mem_oneOf_mul.1 hrest
  obtain ⟨list, rfl, hlist⟩ := map_mem_just.1 hrest
  have htypeNe : type.kind ≠ .argumentList := by
    intro heq
    simp [heq, Kind.isType] at htype
  have harguments : parts n = parts list := by
    have hparts : parts n = list.children.filter Node.isExpression := by
      simp [parts, hk, Node.creation?, Node.childOfKind?, hc, hkeyword, htypeNe, hlist,
        Node.arguments]
    have hlistParts : parts list = list.children.filter fun c => !c.kind.isToken := by
      simp [parts, hlist, Kind.isType, Kind.isToken, Kind.isNode]
    rw [hparts, hlistParts]
    refine List.filter_congr fun c hcl => ?_
    have hhold := (h.child (by simp [hc] : list ∈ n.children)).mayHold hcl
    rw [hlist] at hhold
    unfold Node.isExpression
    revert hhold
    cases c.kind <;> decide
  have hvisits : visits n = [list] := by
    have hkeywordVisited : isVisited n keyword = false :=
      isVisited_of_isTypePart (by rw [hkeyword]; rfl)
    have htypeVisited : isVisited n type = false :=
      isVisited_of_isTypePart (by simp [Kind.isTypePart, htype])
    have hlistVisited : isVisited n list = true := by
      rw [isVisited, isMemberName_eq_false (by simp [hk]), hlist]
      rfl
    simp [visits, hc, hkeywordVisited, htypeVisited, hlistVisited]
  rw [bind_plain (by rw [hk]; rfl), hvisits, List.foldl_cons, List.foldl_nil,
    bind_plain (by rw [hlist]; rfl), harguments]

/-- Outside scopes, names and local declarations a node is bound by binding its children. -/
theorem bind_of_not_opensScope (h : n.Readable) (hn : n.Numbered)
    (hscope : n.kind.opensScope = false) (hname : n.kind ≠ .identifierName)
    (hlocal : n.kind ≠ .localDeclarationStatement) (chain : List Nat) (b : Bindings) :
    bind chain n b = (visits n).foldl (fun b c => bind chain c b) b := by
  by_cases hfield : n.kind = .fieldDeclaration
  · exact bind_field h hfield chain b
  by_cases hproperty : n.kind = .propertyDeclaration
  · exact bind_property h hproperty chain b
  have hspecial : isSpecial n.kind = false := by
    revert hscope hname hlocal hfield hproperty
    cases n.kind <;> decide
  by_cases haccess : n.kind = .memberAccessExpression
  · obtain ⟨v, hv, hvisits⟩ := visits_memberAccess h hn haccess
    rw [bind_plain hspecial, hvisits]
    simp [parts, haccess, hv]
  by_cases hcreation : n.kind = .objectCreationExpression
  · exact bind_creation h hcreation chain b
  have hskip : ∀ c ∈ n.children, isVisited n c = false → ∀ b, bind chain c b = b := by
    intro c hc hv b
    refine bind_of_isTypePart (h.child hc) (isTypePart_of_not_isVisited h ?_ ?_ haccess hc hv) _ b
    · intro hk
      simp [hk, Kind.opensScope] at hscope
    · intro hk
      simp [hk, Kind.opensScope] at hscope
  have htypes (hk : n.kind.isTypePart = true ∨ n.kind = .usingDirective) :
      (visits n).foldl (fun b c => bind chain c b) b = b := by
    refine foldl_bind_eq_self (fun c hc b => ?_) b
    obtain ⟨hc, -⟩ := List.mem_filter.1 hc
    exact bind_of_isTypePart (h.child hc) (Kind.isTypePart_of_mayHold hk (h.mayHold hc)) chain b
  rw [bind_plain hspecial]
  unfold parts
  split
  · contradiction
  · contradiction
  · rename_i hk
    exact (htypes (.inr hk)).symm
  · split
    · rename_i hk
      refine (htypes (.inl ?_)).symm
      revert hk
      cases n.kind <;> decide
    · exact foldl_visits hskip b

/-! ## Scopes -/

/-- Kinds of declarations that a file, a namespace or a type holds. -/
def isMemberKind : Kind → Bool
  | .namespaceDeclaration | .classDeclaration | .structDeclaration | .fieldDeclaration
  | .propertyDeclaration | .methodDeclaration | .constructorDeclaration => true
  | _ => false

theorem members_eq (n : Placed) : n.members = n.children.filter fun c => isMemberKind c.kind := rfl

theorem isMemberKind_of_isTypeDeclaration {k : Kind} (h : k.isTypeDeclaration = true) :
    isMemberKind k = true := by
  revert h
  cases k <;> decide

/-- Files and namespaces declare the types among their children. -/
theorem declared_types (h : n.Readable)
    (hk : n.kind = .compilationUnit ∨ n.kind = .namespaceDeclaration) (b : Bindings) :
    Declared chain (hoisted n) b (n.members.foldl (fun b m => b.declareType chain m) b) := by
  rw [members_eq, List.foldl_filter]
  refine Declared.foldl (fun c hc b => ?_) b
  have hhoisted : hoistedFrom n.kind c = if c.kind.isTypeDeclaration then [c] else [] := by
    rcases hk with hk | hk <;> rw [hk] <;> rfl
  rw [hhoisted]
  by_cases hmember : isMemberKind c.kind = true
  · rw [if_pos hmember]
    exact declared_declareType (h.child hc) b
  · rw [if_neg hmember, if_neg fun htype => hmember (isMemberKind_of_isTypeDeclaration htype)]
    exact .nil b

/-- Types declare their members. -/
theorem declared_members (h : n.Readable) (hk : n.kind.isTypeDeclaration = true) (b : Bindings) :
    Declared chain (hoisted n) b (n.members.foldl (fun b m => b.declareMember chain m) b) := by
  rw [members_eq, List.foldl_filter]
  refine Declared.foldl (fun c hc b => ?_) b
  have hhoisted : hoistedFrom n.kind c = memberDeclarations c := by
    have hkind : n.kind = .classDeclaration ∨ n.kind = .structDeclaration := by
      simpa [Kind.isTypeDeclaration] using hk
    rcases hkind with hk | hk <;> rw [hk] <;> rfl
  rw [hhoisted]
  split
  · exact declared_declareMember (h.child hc) b
  · rename_i hmember
    have hnone : memberDeclarations c = [] := by
      unfold memberDeclarations
      split
      case h_4 =>
        rw [if_neg fun htype => hmember (isMemberKind_of_isTypeDeclaration htype)]
      all_goals
        rename_i hkc
        exact absurd (by rw [hkc]; rfl) hmember
    rw [hnone]
    exact .nil b

/-- The children of a method: what stands before the parameters, with the name last, the list of
parameters, a body or none, and a semicolon or none. -/
theorem children_of_method (h : n.Readable)
    (hk : n.kind = .methodDeclaration ∨ n.kind = .constructorDeclaration) :
    ∃ before name list body rest,
      n.children = before ++ name :: list :: (Option.toList body ++ rest) ∧
      (∀ c ∈ before, c.kind.isTypePart = true) ∧ name.kind = .identifier ∧
      list.kind = .parameterList ∧
      (∀ c ∈ body, c.kind = .block ∨ c.kind = .arrowExpressionClause) ∧
      ∀ c ∈ rest, c.kind.isTypePart = true := by
  have hmodifiers {cs : List Placed} (hcs : cs.map Node.kind ∈ modifiers) :
      ∀ c ∈ cs, c.kind.isTypePart = true := by
    intro c hc
    have hmodifier := forall_of_mem_kstar_oneOf hcs _ (List.mem_map_of_mem hc)
    revert hmodifier
    cases c.kind <;> decide
  obtain ⟨before, rest, hc, hbefore, hrest⟩ : ∃ before rest, n.children = before ++ rest ∧
      (∀ c ∈ before, c.kind.isTypePart = true) ∧
      rest.map Node.kind ∈ just .identifier * (just .parameterList * body) := by
    rcases hk with hk | hk
    · obtain ⟨before, rest, hc, hbefore, hrest⟩ := map_mem_mul.1 (h.word hk rfl)
      obtain ⟨type, rest, rfl, htype, hrest⟩ := map_mem_oneOf_mul.1 hrest
      refine ⟨before ++ [type], rest, by simp [hc], ?_, hrest⟩
      rw [List.forall_mem_append]
      exact ⟨hmodifiers hbefore, by simp [Kind.isTypePart, htype]⟩
    · obtain ⟨before, rest, hc, hbefore, hrest⟩ := map_mem_mul.1 (h.word hk rfl)
      exact ⟨before, rest, hc, hmodifiers hbefore, hrest⟩
  obtain ⟨name, rest, rfl, hname, hrest⟩ := map_mem_just_mul.1 hrest
  obtain ⟨list, rest, rfl, hlist, hrest⟩ := map_mem_just_mul.1 hrest
  rcases hrest with hrest | hrest | hrest
  · obtain ⟨block, rfl, hblock⟩ := map_mem_just.1 hrest
    exact ⟨before, name, list, some block, [], hc, hbefore, hname, hlist, by simp [hblock], by simp⟩
  · obtain ⟨arrow, rest, rfl, harrow, hrest⟩ := map_mem_just_mul.1 hrest
    obtain ⟨semicolon, rfl, hsemicolon⟩ := map_mem_just.1 hrest
    exact ⟨before, name, list, some arrow, [semicolon], hc, hbefore, hname, hlist,
      by simp [harrow], by simp [hsemicolon]; rfl⟩
  · obtain ⟨semicolon, rfl, hsemicolon⟩ := map_mem_just.1 hrest
    exact ⟨before, name, list, none, [semicolon], hc, hbefore, hname, hlist, by simp,
      by simp [hsemicolon]; rfl⟩

/-- The name and the modifiers before it are neither a list of parameters nor a body. -/
theorem kind_of_isTypePart (h : c.kind.isTypePart = true) :
    c.kind ≠ .parameterList ∧ (c.kind == .block || c.kind == .arrowExpressionClause) = false := by
  revert h
  cases c.kind <;> decide

/-- Methods and constructors hoist what their list of parameters holds. -/
theorem exists_parameterList (h : n.Readable)
    (hk : n.kind = .methodDeclaration ∨ n.kind = .constructorDeclaration) :
    ∃ list ∈ n.children, n.childOfKind? .parameterList = some list ∧
      hoisted n = list.children.filter fun p => p.kind == .parameter := by
  obtain ⟨before, name, list, body, rest, hc, hbefore, hname, hlist, hbody, hrest⟩ :=
    children_of_method h hk
  refine ⟨list, by simp [hc], ?_, ?_⟩
  · have hnone : before.find? (fun c => c.kind == .parameterList) = none :=
      List.find?_eq_none.2 fun c hcb => by simpa using (kind_of_isTypePart (hbefore c hcb)).1
    simp [Node.childOfKind?, hc, hnone, hname, hlist]
  · have hfrom : hoistedFrom n.kind = fun c => if c.kind = .parameterList then
        c.children.filter fun p => p.kind == .parameter else [] := by
      rcases hk with hk | hk <;> rw [hk] <;> rfl
    have hnone {cs : List Placed} (hcs : ∀ c ∈ cs, c.kind ≠ .parameterList) :
        cs.flatMap (hoistedFrom n.kind) = [] := by
      refine List.flatMap_eq_nil_iff.2 fun c hc => ?_
      rw [hfrom]
      exact if_neg (hcs c hc)
    have hbodyKinds : ∀ c ∈ body.toList, c.kind ≠ .parameterList := by
      intro c hc heq
      rcases hbody c (by simpa using hc) with hk | hk <;> simp [hk] at heq
    rw [hoisted, hc, List.flatMap_append, List.flatMap_cons, List.flatMap_cons,
      List.flatMap_append, hnone fun c hc => (kind_of_isTypePart (hbefore c hc)).1,
      hnone hbodyKinds, hnone fun c hc => (kind_of_isTypePart (hrest c hc)).1]
    simp [hfrom, hname, hlist]

/-- Of methods and constructors, the body is visited, if there is one. -/
theorem exists_body (h : n.Readable)
    (hk : n.kind = .methodDeclaration ∨ n.kind = .constructorDeclaration) :
    ∃ body : Option Placed, (n.children.filter fun c => c.kind == .block ||
      c.kind == .arrowExpressionClause) = body.toList ∧ visits n = body.toList := by
  obtain ⟨before, name, list, body, rest, hc, hbefore, hname, hlist, hbody, hrest⟩ :=
    children_of_method h hk
  have hbodies : (n.children.filter fun c => c.kind == .block ||
      c.kind == .arrowExpressionClause) = body.toList := by
    have hnone {cs : List Placed} (hcs : ∀ c ∈ cs, c.kind.isTypePart = true) :
        (cs.filter fun c => c.kind == .block || c.kind == .arrowExpressionClause) = [] :=
      List.filter_eq_nil_iff.2 fun c hc => by simpa using (kind_of_isTypePart (hcs c hc)).2
    have hall : (body.toList.filter fun c => c.kind == .block ||
        c.kind == .arrowExpressionClause) = body.toList :=
      List.filter_eq_self.2 fun c hc => by simpa using hbody c (by simpa using hc)
    have hnameKinds := (kind_of_isTypePart (c := name) (by rw [hname]; rfl)).2
    simp only [hc, List.filter_append, hnone hbefore, List.filter_cons, hnameKinds, hlist, hall,
      hnone hrest]
    simp
  refine ⟨body, hbodies, ?_⟩
  rw [← hbodies]
  refine (filter_eq_visits (p := fun k => k == .block || k == .arrowExpressionClause) h
    ?_ ?_).symm
  · intro k
    rcases hk with hk | hk <;> rw [hk] <;> cases k <;> decide
  · rcases hk with hk | hk <;> simp [hk]

/-- Methods and constructors declare their parameters, and their bodies are bound. -/
theorem declared_parameters (h : n.Readable)
    (hk : n.kind = .methodDeclaration ∨ n.kind = .constructorDeclaration) (chain : List Nat) :
    ∃ v, n.method? = some v ∧ visits n = v.body.toList ∧
      ∀ b, Declared chain (hoisted n) b
        (v.parameters.foldl (fun b p => b.declareParameter chain p) b) := by
  obtain ⟨list, hlist, hfind, hhoisted⟩ := exists_parameterList h hk
  obtain ⟨body, hbodies, hvisits⟩ := exists_body h hk
  obtain ⟨name, hname⟩ : ∃ name, n.childOfKind? .identifier = some name := by
    obtain ⟨_, name, _, _, _, hc, -, hname, -⟩ := children_of_method h hk
    obtain ⟨token, htoken⟩ := Node.exists_childOfKind? (n := n) (c := name) (by simp [hc])
    exact ⟨token, hname ▸ htoken⟩
  refine ⟨_, by rw [Node.method?, if_pos hk, hname]; rfl, ?_, fun b => ?_⟩
  · simp only [← List.head?_filter, hbodies, hvisits]
    cases body <;> rfl
  · simp only [hfind, Option.map_some, Option.getD_some]
    rw [hhoisted]
    refine Declared.foldl_each (fun p hp b => ?_) b
    obtain ⟨hp, hpk⟩ := List.mem_filter.1 hp
    exact declared_declareParameter ((h.child hlist).child hp) (by simpa using hpk) b

theorem hoisted_eq_nil (hk : n.kind = .accessorDeclaration ∨ n.kind = .block) :
    hoisted n = [] := by
  refine List.flatMap_eq_nil_iff.2 fun c hc => ?_
  rcases hk with hk | hk <;> rw [hk] <;> rfl

/-- A scope is opened and gets what it hoists before its children are bound in it. -/
theorem bind_of_opensScope (h : n.Readable) (hscope : n.kind.opensScope = true)
    (chain : List Nat) (b : Bindings) :
    ∃ kind b₁, Declared (b.scopes.length :: chain) (hoisted n) (b.openScope kind chain n.id).2 b₁ ∧
      bind chain n b =
        (visits n).foldl (fun b' c => bind (b.scopes.length :: chain) c b') b₁ := by
  have hchildren (b₁ : Bindings) (hmethod : n.kind ≠ .methodDeclaration)
      (hconstructor : n.kind ≠ .constructorDeclaration) :
      n.children.attach.foldl (fun b' c => if c.1.kind.isToken then b'
        else bind (b.scopes.length :: chain) c.1 b') b₁ =
      (visits n).foldl (fun b' c => bind (b.scopes.length :: chain) c b') b₁ := by
    rw [← foldl_visits, ← foldl_nonToken]
    · exact List.foldl_attach (f := fun b' c => if c.kind.isToken then b'
        else bind (b.scopes.length :: chain) c b')
    · intro c hc hv b'
      refine bind_of_isTypePart (h.child hc) (isTypePart_of_not_isVisited h hmethod hconstructor
        ?_ hc hv) _ b'
      intro hk
      simp [hk, Kind.opensScope] at hscope
  have hkinds : (n.kind = .compilationUnit ∨ n.kind = .namespaceDeclaration) ∨
      n.kind.isTypeDeclaration = true ∨
      (n.kind = .methodDeclaration ∨ n.kind = .constructorDeclaration) ∨
      (n.kind = .accessorDeclaration ∨ n.kind = .block) := by
    revert hscope
    cases n.kind <;> decide
  rcases hkinds with hk | hk | hk | hk
  · obtain ⟨kind, hbind⟩ : ∃ kind, bind chain n b = (visits n).foldl
        (fun b' c => bind (b.scopes.length :: chain) c b') (n.members.foldl
          (fun b' m => b'.declareType (b.scopes.length :: chain) m)
          (b.openScope kind chain n.id).2) := by
      rcases hk with hk | hk
      · refine ⟨.compilationUnit, ?_⟩
        rw [← hchildren _ (by simp [hk]) (by simp [hk]), bind]
        simp [hk, openScope]
      · refine ⟨.namespaceBody, ?_⟩
        rw [← hchildren _ (by simp [hk]) (by simp [hk]), bind]
        simp [hk, openScope]
    exact ⟨kind, _, declared_types h hk _, hbind⟩
  · refine ⟨.typeBody, _, declared_members h hk _, ?_⟩
    have hkind : n.kind = .classDeclaration ∨ n.kind = .structDeclaration := by
      simpa [Kind.isTypeDeclaration] using hk
    have hvisits : n.members = visits n := by
      refine filter_eq_visits (p := isMemberKind) h ?_ ?_
      · intro k
        rcases hkind with hk | hk <;> rw [hk] <;> cases k <;> decide
      · rcases hkind with hk | hk <;> simp [hk]
    rw [← hvisits, bind]
    rcases hkind with hk | hk <;> simp [hk, openScope]
  · obtain ⟨v, hv, hvisits, hdeclared⟩ := declared_parameters h hk (b.scopes.length :: chain)
    refine ⟨.method, _, hdeclared _, ?_⟩
    rw [hvisits, bind]
    rcases hk with hk | hk
    all_goals
      simp only [hk]
      split
      · rename_i v' hv'
        obtain rfl : v = v' := Option.some.inj (hv.symm.trans hv')
        split <;> simp_all [openScope]
      · simp_all
  · obtain ⟨kind, hbind⟩ : ∃ kind, bind chain n b = (visits n).foldl
        (fun b' c => bind (b.scopes.length :: chain) c b') (b.openScope kind chain n.id).2 := by
      rcases hk with hk | hk
      · refine ⟨.method, ?_⟩
        rw [← hchildren _ (by simp [hk]) (by simp [hk]), bind]
        simp [hk, openScope]
      · refine ⟨.block, ?_⟩
        rw [← hchildren _ (by simp [hk]) (by simp [hk]), bind]
        simp [hk, openScope]
    exact ⟨kind, _, hoisted_eq_nil hk ▸ .nil _, hbind⟩

/-! ## Local declarations -/

/-- The declarators of a local declaration are bound and declared in turn. -/
theorem bind_localDeclaration (h : n.Readable) (hk : n.kind = .localDeclarationStatement)
    (chain : List Nat) (b : Bindings) :
    ∃ type, bind chain n b = (visits n).foldl (fun b d =>
      (bind chain d b).declareVariable chain .localVariable (some type) d) b := by
  obtain ⟨v, hv, hvisits⟩ := exists_declarators h (.inl hk)
  refine ⟨v.type, ?_⟩
  rw [bind]
  simp only [hk]
  split
  · rename_i v' hv'
    obtain rfl : v = v' := Option.some.inj (hv.symm.trans hv')
    rw [← hvisits]
    have hbind : ∀ b, ∀ d ∈ v.declarators,
        (bind chain d b).declareVariable chain .localVariable (some v.type) d =
        (match d.initializer? with
        | some e => bind chain e b
        | none => b).declareVariable chain .localVariable (some v.type) d := by
      intro b d hd
      obtain ⟨hd, hdk⟩ := Node.mem_declarators hv hd
      rw [bind_declarator (h.child hd) hdk]
    rw [List.foldl_ext _ _ b hbind]
    refine Eq.trans ?_ List.foldl_attach
    congr
    funext b d
    split <;> simp_all
  · simp_all

end Bindings

end NullLint
