import NullLint.Proofs.Semantics.Visiting
import NullLint.Proofs.Syntax.Intervals

/-!
# Looking names up

What a name means by the rules of scope: the last declaration of that name in the nearest scope
around it that offers one (`Lexical.lookup?`). A scope offers what it hoists and the locals that end
before the name. The names that are looked up are found among the children that are bound, and
binding an expression looks its names up and does nothing else.
-/

namespace NullLint

namespace Lexical

/-! ## Looking a name up -/

/-- The ancestors of a node, nearest first. -/
def ancestors (root n : Placed) : List Placed := ((root.path? n.id).map List.tail).getD []

/-- The scopes around a node, nearest first. -/
def scopesAround (root n : Placed) : List Placed :=
  (ancestors root n).filter fun a => a.kind.opensScope

/-- Whether the node is the declarator of a local. -/
def isLocal (root d : Placed) : Bool :=
  d.kind == .variableDeclarator &&
    (ancestors root d).head?.any fun p => p.kind == .localDeclarationStatement

/-- The locals that have `s` as their nearest scope, in source order. -/
def locals (root s : Placed) : List Placed :=
  root.preorder.filter fun d =>
    isLocal root d && (scopesAround root d).head?.any fun a => a.id == s.id

/-- The declarations that a name at `i` can see in a scope: the hoisted ones, and the locals that
stand before the name and do not contain it. -/
def offered (root i s : Placed) : List Placed :=
  hoisted s ++ (locals root s).filter fun d =>
    d.id < i.id && !(d.preorder.any fun m => m.id == i.id)

/-- The declaration that the name at `i` means: the last one of that name in the nearest scope that
has one. -/
def lookup? (root i : Placed) : Option Placed :=
  i.identifier?.bind fun name =>
    (scopesAround root i).findSome? fun s => lastNamed? (offered root i s) name

/-- Whether the node is a name that is looked up: it does not stand behind a dot, nor in a
parameter. -/
def isReference (root i : Placed) : Bool :=
  i.kind == .identifierName && !((ancestors root i).head?.any fun p => isMemberName p i) &&
    (ancestors root i).all fun a => a.kind != .parameter

open Node (Descends)

variable {root n c d i s : Placed} {above : List Placed}

/-! ## Paths -/

theorem ancestors_eq (h : root.Serial) (hpath : Descends root [] (n :: above)) :
    ancestors root n = above := by
  rw [ancestors, Node.path?_of_descends h.numbered hpath]
  rfl

theorem exists_ancestors (h : root.Serial) (hn : n ∈ root.preorder) :
    Descends root [] (n :: ancestors root n) := by
  obtain ⟨above, hpath⟩ := Node.exists_descends hn []
  rwa [ancestors_eq h hpath]

theorem mem_of_descends (hpath : Descends root [] (n :: above)) : n ∈ root.preorder :=
  hpath.head_mem n rfl

theorem isLocal_of_descends (h : root.Serial) (hk : d.kind = .variableDeclarator)
    (hn : n.kind = .localDeclarationStatement) (hpath : Descends root [] (d :: n :: above)) :
    isLocal root d = true := by
  simp [isLocal, hk, ancestors_eq h hpath, hn]

theorem kind_of_isLocal (h : isLocal root d = true) : d.kind = .variableDeclarator := by
  simp only [isLocal, Bool.and_eq_true, beq_iff_eq] at h
  exact h.1

/-- Below a declarator everything is calm. -/
theorem isCalm_below_declarator (hd : d.Readable) (hk : d.kind = .variableDeclarator)
    (hc : c ∈ d.children) {m : Placed} (hm : m ∈ c.preorder) : m.kind.isCalm = true := by
  refine (hd.child hc).isCalm ?_ hm
  have hhold := hd.mayHold hc
  rw [hk] at hhold
  revert hhold
  cases c.kind <;> decide

/-! ## Visible declarations -/

/-- The declarations of a scope once the nodes before the number `cursor` are bound. -/
def visible (root s : Placed) (cursor : Nat) : List Placed :=
  hoisted s ++ (locals root s).filter fun d => d.endId ≤ cursor

theorem mem_root_of_mem_locals (hd : d ∈ locals root s) : d ∈ root.preorder :=
  (List.mem_filter.1 hd).1

theorem isLocal_of_mem_locals (hd : d ∈ locals root s) : isLocal root d = true :=
  (Bool.and_eq_true_iff.1 (List.mem_filter.1 hd).2).1

/-- A name sees what is bound before it. -/
theorem offered_eq_visible (h : root.Serial) (hi : i ∈ root.preorder) (s : Placed) :
    offered root i s = visible root s i.id := by
  unfold offered visible
  congr 1
  refine List.filter_congr fun d hd => ?_
  have hd := mem_root_of_mem_locals hd
  have hany : (d.preorder.any fun m => m.id == i.id) = decide (d.id ≤ i.id ∧ i.id < d.endId) := by
    rw [Bool.eq_iff_iff, List.any_eq_true, decide_eq_true_iff, ← h.mem_preorder_iff hi hd]
    constructor
    · rintro ⟨m, hm, hid⟩
      obtain rfl := h.numbered.eq_of_id_eq (Node.mem_preorder_trans hm hd) hi (by simpa using hid)
      exact hm
    · intro hm
      exact ⟨i, hm, by simp⟩
  have := d.id_lt_endId
  rw [hany, Bool.eq_iff_iff]
  simp only [Bool.and_eq_true, Bool.not_eq_true', decide_eq_true_iff, decide_eq_false_iff_not]
  omega

/-! ## References -/

theorem preorder_eq (n : Placed) : n.preorder = n :: n.children.flatMap Node.preorder := by
  cases n with
  | token a t => rfl
  | branch a k cs => exact Node.preorder_branch a k cs

theorem flatMap_filter {α β : Type} {f : α → List β} {p : α → Bool} {l : List α}
    (h : ∀ a ∈ l, p a = false → f a = []) : (l.filter p).flatMap f = l.flatMap f := by
  induction l with
  | nil => rfl
  | cons a l ih =>
    have ih := ih fun b hb => h b (by simp [hb])
    cases hp : p a with
    | true => rw [List.filter_cons_of_pos hp, List.flatMap_cons, List.flatMap_cons, ih]
    | false =>
      rw [List.filter_cons_of_neg (by simp [hp]), List.flatMap_cons, h a (by simp) hp, ih,
        List.nil_append]

/-- The names below a node that are looked up, in source order. -/
def references (root n : Placed) : List Placed := n.preorder.filter (isReference root)

/-- The node is reached by binding child by child. -/
structure Visited (root n : Placed) (above : List Placed) : Prop where
  path : Descends root [] (n :: above)
  name : ∀ p ∈ above.head?, isMemberName p n = false
  parameter : ∀ a ∈ n :: above, a.kind ≠ .parameter
  list : n.kind ≠ .parameterList

namespace Visited

theorem mem (h : Visited root n above) : n ∈ root.preorder := mem_of_descends h.path

theorem child (h : Visited root n above) (hr : n.Readable) (hc : c ∈ Bindings.visits n) :
    Visited root c (n :: above) := by
  obtain ⟨hc, hvisited⟩ := List.mem_filter.1 hc
  simp only [Bindings.isVisited, Bool.not_eq_true', Bool.or_eq_false_iff, beq_eq_false_iff_ne]
    at hvisited
  obtain ⟨⟨-, hlist⟩, hname⟩ := hvisited
  refine ⟨h.path.step hc, by simpa using hname, ?_, hlist⟩
  refine List.forall_mem_cons.2 ⟨fun hk => ?_, h.parameter⟩
  have hhold := hr.mayHold hc
  have hlist := h.list
  rw [hk] at hhold
  revert hhold hlist
  cases n.kind <;> decide

theorem isReference_iff (hs : root.Serial) (h : Visited root n above) :
    isReference root n = true ↔ n.kind = .identifierName := by
  have hparameter : (above.all fun a => a.kind != .parameter) = true := by
    simpa using fun a ha => h.parameter a (by simp [ha])
  have hname : (above.head?.any fun p => isMemberName p n) = false := by
    cases hhead : above.head? with
    | none => rfl
    | some p => simpa using h.name p hhead
  simp [isReference, ancestors_eq hs h.path, hparameter, hname]

end Visited

theorem isReference_eq_false_of_kind {m : Placed} (hk : m.kind ≠ .identifierName) :
    isReference root m = false := by
  simp [isReference, hk]

theorem references_eq_nil_of_isTypePart (hr : c.Readable) (hk : c.kind.isTypePart = true) :
    references root c = [] := by
  refine List.filter_eq_nil_iff.2 fun m hm => ?_
  have hkind := hr.isTypePart hk hm
  rw [isReference_eq_false_of_kind]
  · simp
  · intro heq
    simp [heq, Kind.isTypePart, Kind.isType, Kind.isToken, Kind.isNode] at hkind

/-- Names in parameters are not looked up. -/
theorem references_eq_nil_of_parameterList (hs : root.Serial) (hr : c.Readable)
    (hk : c.kind = .parameterList) (hpath : Descends root [] (c :: above)) :
    references root c = [] := by
  refine List.filter_eq_nil_iff.2 fun m hm => ?_
  rcases Node.eq_or_mem_child_of_mem_preorder hm with rfl | ⟨p, hp, hm⟩
  · simp [isReference, hk]
  have hhold := hr.mayHold hp
  rw [hk] at hhold
  have hkinds : p.kind = .parameter ∨ p.kind.isTypePart = true := by
    revert hhold
    cases p.kind <;> decide
  rcases hkinds with hpk | hpk
  · obtain ⟨path, hbelow⟩ := Node.exists_descends hm (c :: above)
    have hm' : Descends root [] (m :: path) := (hpath.step hp).trans hbelow
    by_cases hmp : m.kind = .identifierName
    · have hmem : p ∈ path := by
        rcases List.suffix_cons_iff.1 hbelow.suffix with heq | hsuffix
        · obtain ⟨rfl, -⟩ := List.cons.inj heq
          simp [hpk] at hmp
        · exact hsuffix.subset (by simp)
      simp only [isReference, ancestors_eq hs hm', Bool.and_eq_true, List.all_eq_true, not_and]
      intro _ hall
      simpa [hpk] using hall p hmem
    · simp [isReference, hmp]
  · have hnil : references root p = [] := references_eq_nil_of_isTypePart (hr.child hp) hpk
    exact List.filter_eq_nil_iff.1 hnil m hm

/-- The name behind a dot is not looked up. -/
theorem references_eq_nil_of_isMemberName (hs : root.Serial) (hr : n.Readable)
    (hpath : Descends root [] (n :: above)) (hc : c ∈ n.children)
    (hname : isMemberName n c = true) : references root c = [] := by
  have hself : isReference root c = false := by
    simp [isReference, ancestors_eq hs (hpath.step hc), hname]
  cases hv : n.memberAccess? with
  | none => simp [isMemberName, hv] at hname
  | some v =>
    simp only [isMemberName, hv, Option.any_some, beq_iff_eq] at hname
    obtain ⟨hk, rest, hchildren⟩ := Node.memberAccess?_eq_some hv
    obtain rfl : v.name = c := (hs.of_mem (mem_of_descends hpath)).numbered.eq_of_id_eq
      (Node.mem_preorder_of_mem_children (by simp [hchildren]))
      (Node.mem_preorder_of_mem_children hc) hname
    refine List.filter_eq_nil_iff.2 fun m hm => ?_
    rcases Node.eq_or_mem_child_of_mem_preorder hm with rfl | ⟨token, htoken, hm⟩
    · simp [hself]
    have hkind : v.name.kind = .identifierName := by
      obtain ⟨e, rest', hword, -, hrest⟩ := Grammar.map_mem_oneOf_mul.1 (hr.word hk rfl)
      obtain ⟨dot, rest', rfl, -, hrest⟩ := Grammar.map_mem_just_mul.1 hrest
      obtain ⟨name, rfl, hname⟩ := Grammar.map_mem_just.1 hrest
      rw [hchildren] at hword
      obtain ⟨-, -, rfl, -⟩ : v.expression = e ∧ v.operator = dot ∧ v.name = name ∧ rest = [] := by
        simpa using hword
      exact hname
    obtain ⟨token', heq, htokenKind⟩ := Grammar.map_mem_just.1 ((hr.child hc).word hkind rfl)
    obtain rfl : token = token' := by simpa [heq] using htoken
    have hnil : references root token = [] :=
      references_eq_nil_of_isTypePart ((hr.child hc).child htoken) (by rw [htokenKind]; rfl)
    exact List.filter_eq_nil_iff.1 hnil m hm

/-- The names looked up below a node are the node itself, or those below the children visited. -/
theorem Visited.references_eq (hs : root.Serial) (hr : n.Readable) (h : Visited root n above) :
    references root n =
      (if n.kind = .identifierName then [n] else []) ++
        (Bindings.visits n).flatMap (references root) := by
  have hskip : ∀ c ∈ n.children, Bindings.isVisited n c = false → references root c = [] := by
    intro c hc hvisited
    simp only [Bindings.isVisited, Bool.not_eq_false', Bool.or_eq_true, beq_iff_eq] at hvisited
    rcases hvisited with (hk | hk) | hname
    · exact references_eq_nil_of_isTypePart (hr.child hc) hk
    · exact references_eq_nil_of_parameterList hs (hr.child hc) hk (h.path.step hc)
    · exact references_eq_nil_of_isMemberName hs hr h.path hc hname
  rw [Bindings.visits, flatMap_filter hskip, references, preorder_eq, List.filter_cons,
    List.filter_flatMap]
  by_cases hk : n.kind = .identifierName
  · rw [if_pos ((h.isReference_iff hs).2 hk), if_pos hk]
    rfl
  · rw [if_neg (mt (h.isReference_iff hs).1 hk), if_neg hk]
    rfl

/-! ## Expressions -/

open Bindings

/-- Expressions, types and declarators. -/
def isQuiet (k : Kind) : Bool := k.isCalm || k == .variableDeclarator

theorem opensScope_of_isQuiet {k : Kind} (h : isQuiet k = true) : k.opensScope = false := by
  revert h
  cases k <;> decide

theorem isQuiet_child (hr : n.Readable) (hk : isQuiet n.kind = true) (hc : c ∈ n.children) :
    c.kind.isCalm = true := by
  rcases (by simpa [isQuiet] using hk : n.kind.isCalm = true ∨ n.kind = .variableDeclarator)
    with hk | hk
  · exact Kind.isCalm_of_mayHold hk (hr.mayHold hc)
  · exact isCalm_below_declarator hr hk hc (Node.self_mem_preorder c)

/-- From `b` to `b'` the names are looked up, and nothing is declared or opened. -/
structure LooksUp (root : Placed) (names : List Placed) (b b' : Bindings) : Prop where
  scopes : b'.scopes = b.scopes
  symbols : b'.symbols = b.symbols
  records : Records (lookup? root) [] names b b'

theorem LooksUp.refl (b : Bindings) : LooksUp root [] b b := ⟨rfl, rfl, .refl b⟩

theorem LooksUp.trans {names names' : List Placed} {b b₁ b' : Bindings}
    (h : LooksUp root names b b₁) (h' : LooksUp root names' b₁ b') :
    LooksUp root (names ++ names') b b' :=
  ⟨h'.scopes.trans h.scopes, h'.symbols.trans h.symbols, h.records.trans h'.records⟩

theorem looksUp_foldl {chain : List Nat} {env : List (List Placed)} {cs : List Placed}
    (h : ∀ c ∈ cs, ∀ b : Bindings, b.Tables chain env →
      LooksUp root (references root c) b (bind chain c b))
    {b : Bindings} (ht : b.Tables chain env) :
    LooksUp root (cs.flatMap (references root)) b (cs.foldl (fun b c => bind chain c b) b) := by
  induction cs generalizing b with
  | nil => exact .refl b
  | cons c cs ih =>
    have hc := h c (by simp) b ht
    exact hc.trans (ih (fun d hd => h d (by simp [hd])) (ht.congr hc.scopes hc.symbols))

/-- A name is looked up in the tables that its place offers. -/
theorem looksUp_bindName (hn : n.Readable) (hk : n.kind = .identifierName) {chain : List Nat}
    {env : List (List Placed)} {b : Bindings} (ht : b.Tables chain env)
    (henv : env = (scopesAround root n).map (offered root n)) :
    LooksUp root [n] b (b.bindName chain n) := by
  obtain ⟨name, hname, -⟩ := hn.identifierName hk
  refine ⟨scopes_bindName b chain n, symbols_bindName b chain n, ht.bindName hname ?_⟩
  rw [lookup?, hname, henv, List.findSome?_map]
  rfl

/-- Binding an expression looks its names up and does nothing else. -/
theorem looksUp_of_isQuiet {n : Placed} {above : List Placed} (hs : root.Serial)
    (hr : root.Readable) (h : Visited root n above) (hk : isQuiet n.kind = true)
    {chain : List Nat} {env : List (List Placed)} {b : Bindings} (ht : b.Tables chain env)
    (henv : ∀ i ∈ references root n, env = (scopesAround root i).map (offered root i)) :
    LooksUp root (references root n) b (bind chain n b) := by
  have hn := hr.of_mem h.mem
  by_cases hname : n.kind = .identifierName
  · have hnone : (visits n).flatMap (references root) = [] := by
      refine List.flatMap_eq_nil_iff.2 fun c hc => ?_
      obtain ⟨hc, -⟩ := List.mem_filter.1 hc
      refine references_eq_nil_of_isTypePart (hn.child hc) ?_
      obtain ⟨token, heq, htoken⟩ := Grammar.map_mem_just.1 (hn.word hname rfl)
      obtain rfl : c = token := by simpa [heq] using hc
      rw [htoken]
      rfl
    rw [h.references_eq hs hn, if_pos hname, hnone, List.append_nil] at henv ⊢
    have hbind : bind chain n b = b.bindName chain n := by
      rw [Bindings.bind]
      simp [hname]
    rw [hbind]
    exact looksUp_bindName hn hname ht (henv n (by simp))
  · have hlocal : n.kind ≠ .localDeclarationStatement := by
      intro heq
      simp [heq, isQuiet, Kind.isCalm] at hk
    rw [bind_of_not_opensScope hn (hs.of_mem h.mem).numbered (opensScope_of_isQuiet hk) hname
      hlocal]
    rw [h.references_eq hs hn, if_neg hname, List.nil_append] at henv ⊢
    refine looksUp_foldl (fun c hc b ht => ?_) ht
    have hchild := (List.mem_filter.1 hc).1
    refine looksUp_of_isQuiet hs hr (h.child hn hc) ?_ ht fun i hi => henv i ?_
    · simp [isQuiet, isQuiet_child hn hk hchild]
    · exact List.mem_flatMap.2 ⟨c, hc, hi⟩
termination_by n.size
decreasing_by exact Node.size_lt_of_mem_children hchild

end Lexical

end NullLint
