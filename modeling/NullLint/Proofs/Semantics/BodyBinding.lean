import NullLint.Proofs.Semantics.EmbeddedBinding
import NullLint.Proofs.Syntax.Contexts

/-!
# Binding beside a method body

A file with the body of one method taken out is found in the file with the body: what the body binds
takes numbers of its own, by which the numbers of what is bound behind it move.
-/

namespace NullLint

/-! ## Files without a body -/

namespace Kind

/-- Files, namespaces and types: what stands around a method. -/
def holdsMembers : Kind → Bool
  | .compilationUnit | .namespaceDeclaration | .classDeclaration | .structDeclaration => true
  | _ => false

end Kind

namespace Node

/-- The same method without and with a body: where `n` has the semicolon `c`, `n'` has the block
`c'`. -/
structure Emptied (f : Place → Place) (c c' n n' : Placed) : Prop extends Parts f c c' n n' where
  method : n.kind = .methodDeclaration ∨ n.kind = .constructorDeclaration
  semicolon : c.kind = .semicolon
  block : c'.kind = .block
  name : ∃ d ∈ n.children, d.kind = .identifier
  bare : ∀ d ∈ n.children, d.kind ≠ .block ∧ d.kind ≠ .arrowExpressionClause

/-- The same file, namespace or type around the methods `m` and `m'`. -/
inductive Holds (f : Place → Place) (m m' : Placed) : Placed → Placed → Prop where
  | here : Holds f m m' m m'
  | inside {n n' d d' : Placed} (holder : n.kind.holdsMembers = true)
      (member : Bindings.isMemberKind d.kind = true) (parts : Parts f d d' n n')
      (below : Holds f m m' d d') : Holds f m m' n n'

theorem Emptied.method? {f : Place → Place} {c c' n n' : Placed} (h : Emptied f c c' n n') :
    ∃ v, n.method? = some v ∧ v.body = none ∧
      n'.method? = some { v.map f with body := some c' } := by
  have hchild (k : Kind) (hc : (Kind.semicolon == k) = false) (hc' : (Kind.block == k) = false) :
      n'.childOfKind? k = (n.childOfKind? k).map (map f) :=
    h.find?_eq (p := fun j => j == k) (by rw [h.semicolon]; exact hc) (by rw [h.block]; exact hc')
  have htype : n'.typeChild? = n.typeChild?.map (map f) :=
    h.find?_eq (p := Kind.isType) (by rw [h.semicolon]; rfl) (by rw [h.block]; rfl)
  have hbody : n.children.find? (fun d => d.kind == .block || d.kind == .arrowExpressionClause) =
      none := by
    rw [List.find?_eq_none]
    intro d hd
    simpa using h.bare d hd
  have hbody' : n'.children.find? (fun d => d.kind == .block || d.kind == .arrowExpressionClause) =
      some c' := by
    obtain ⟨left, right, hn, hn'⟩ := h.children
    rw [hn, List.find?_append, Option.or_eq_none_iff] at hbody
    simp only [hn', List.find?_append, List.find?_map, List.find?_cons, Function.comp_def,
      Node.kind_map, hbody.1, h.block, beq_self_eq_true, Bool.true_or, Option.map_none,
      Option.none_or]
  obtain ⟨name, hname⟩ : ∃ name, n.childOfKind? .identifier = some name := by
    rw [← Option.isSome_iff_exists, Node.childOfKind?, List.find?_isSome]
    obtain ⟨d, hd, hk⟩ := h.name
    exact ⟨d, hd, by simp [hk]⟩
  refine ⟨_, by rw [Node.method?, if_pos h.method, hname]; rfl, hbody, ?_⟩
  rw [Node.method?, h.kind, if_pos h.method, hchild .identifier rfl rfl, hname,
    hchild .parameterList rfl rfl, htype, hbody']
  simp only [Option.map_some, Method.map]
  congr 2
  · split <;> rfl
  · cases n.childOfKind? .parameterList <;> simp [List.filter_map, Function.comp_def]

namespace Holds

variable {f : Place → Place} {m m' n n' : Placed}

/-- A method, or what stands around it. -/
theorem kind_eq (h : Holds f m m' n n') (hkind : m'.kind = m.kind)
    (hm : m.kind = .methodDeclaration ∨ m.kind = .constructorDeclaration) :
    n'.kind = n.kind ∧ (n.kind = .methodDeclaration ∨ n.kind = .constructorDeclaration ∨
      n.kind.holdsMembers = true) := by
  cases h with
  | here => exact ⟨hkind, hm.imp_right .inl⟩
  | inside holder _ parts => exact ⟨parts.kind, .inr (.inr holder)⟩

theorem around (h : Holds f m m' n n') : Around f m m' n n' := by
  induction h with
  | here => exact .here
  | inside _ _ parts _ ih => exact .inside parts ih

end Holds

end Node

/-- Where the file with a hole is found in a file without: up to the hole at the same numbers, and
behind it moved by `gap`; the symbols are moved from `s` on by `d`. -/
def Node.Fits.embedding {f : Place → Place} {hole gap : Nat} {root : Placed}
    (h : Node.Fits f hole gap root) (s d : Nat) : Embedding where
  place := f
  node := skip (hole + 1) gap
  symbol := skip s d
  id_place := h.id
  node_injective := skip_injective _ _
  symbol_injective := skip_injective _ _

namespace Bindings

open Node (Parts Emptied Holds)

/-! ## Symbols and parts of corresponding nodes -/

section Symbols

variable {e : Embedding} {c c' m m' n n' : Placed}

theorem id_eq_of_parts (h : Parts e.place c c' n n') : n'.id = e.node n.id :=
  h.id.trans (e.id_place _)

theorem typeSymbols_of_parts (h : Parts e.place c c' n n') (hc : c.kind ≠ .identifier)
    (hc' : c'.kind ≠ .identifier) : typeSymbols n' = (typeSymbols n).map e.onSymbol := by
  have hname : n'.declaredName? = n.declaredName? := by
    have hchild : n'.childOfKind? .identifier = (n.childOfKind? .identifier).map (Node.map e.place) :=
      h.find?_eq (p := fun j => j == .identifier) (by simpa using hc) (by simpa using hc')
    rw [Node.declaredName?, hchild, Node.declaredName?, Option.map_map]
    congr 1
    exact funext fun d => d.leafText_map e.place
  unfold typeSymbols
  rw [h.kind, hname, id_eq_of_parts h]
  split <;> first
    | rfl
    | (rw [List.map_map]; rfl)

theorem memberSymbols_of_emptied (h : Emptied e.place c c' n n') :
    memberSymbols n' = (memberSymbols n).map e.onSymbol := by
  obtain ⟨v, hv, -, hv'⟩ := h.method?
  unfold memberSymbols typeSymbols
  rcases h.method with hk | hk <;> simp [h.kind, hk, hv, hv', id_eq_of_parts h.toParts,
    Embedding.onSymbol]

theorem scopeSymbols_of_emptied (h : Emptied e.place c c' n n') :
    scopeSymbols n' = (scopeSymbols n).map e.onSymbol := by
  obtain ⟨v, hv, -, hv'⟩ := h.method?
  have hparameters : (v.parameters.map (Node.map e.place)).flatMap parameterSymbols =
      (v.parameters.flatMap parameterSymbols).map e.onSymbol := by
    rw [List.flatMap_map, List.map_flatMap]
    exact List.flatMap_congr fun p _ => parameterSymbols_map e p
  unfold scopeSymbols
  rcases h.method with hk | hk <;> simp [h.kind, hk, hv, hv', hparameters]

theorem boundParts_of_emptied (h : Emptied e.place c c' n n') :
    boundParts n = [] ∧ boundParts n' = [c'] := by
  obtain ⟨v, hv, hbody, hv'⟩ := h.method?
  unfold boundParts
  rcases h.method with hk | hk <;> simp [h.kind, hk, hv, hv', hbody]

/-- The hole in what holds a method is no name. -/
theorem kind_ne_identifier (h : Holds e.place m m' n n') (hm : Emptied e.place c c' m m') :
    n.kind ≠ .identifier ∧ n'.kind ≠ .identifier := by
  obtain ⟨heq, hk⟩ := h.kind_eq hm.kind hm.method
  rw [heq, and_self]
  rintro hident
  rw [hident] at hk
  revert hk
  decide

theorem typeSymbols_of_holds (h : Holds e.place m m' n n') (hm : Emptied e.place c c' m m') :
    typeSymbols n' = (typeSymbols n).map e.onSymbol := by
  cases h with
  | here => exact typeSymbols_of_parts hm.toParts (by simp [hm.semicolon]) (by simp [hm.block])
  | inside holder member parts below =>
    obtain ⟨hd, hd'⟩ := kind_ne_identifier below hm
    exact typeSymbols_of_parts parts hd hd'

theorem memberSymbols_of_holds (h : Holds e.place m m' n n') (hm : Emptied e.place c c' m m') :
    memberSymbols n' = (memberSymbols n).map e.onSymbol := by
  have htypes := typeSymbols_of_holds h hm
  cases h with
  | here => exact memberSymbols_of_emptied hm
  | inside holder member parts below =>
    have hmember {n : Placed} (hk : n.kind.holdsMembers = true) : memberSymbols n = typeSymbols n := by
      unfold memberSymbols
      split <;> first
        | rfl
        | (rename_i hkind; rw [hkind] at hk; cases hk)
    rwa [hmember holder, hmember (parts.kind ▸ holder)]

/-- What a file, a namespace or a type declares, and what is bound in it. -/
theorem symbols_of_inside {d d' : Placed} (holder : n.kind.holdsMembers = true)
    (member : isMemberKind d.kind = true) (parts : Parts e.place d d' n n')
    (below : Holds e.place m m' d d') (hm : Emptied e.place c c' m m') :
    scopeSymbols n' = (scopeSymbols n).map e.onSymbol ∧
      ∃ left right, boundParts n = left ++ d :: right ∧
        boundParts n' = left.map (Node.map e.place) ++ d' :: right.map (Node.map e.place) := by
  have member' : isMemberKind d'.kind = true := (below.kind_eq hm.kind hm.method).1 ▸ member
  have hfilter {p : Kind → Bool} (hp : ∀ k, isMemberKind k = true → p k = true) :=
    parts.exists_filter (hp _ member) (hp _ member')
  have hmembers {g : Placed → List Symbol} (hg : ∀ x : Placed, g (x.map e.place) = (g x).map e.onSymbol)
      (hd : g d' = (g d).map e.onSymbol) :
      n'.members.flatMap g = (n.members.flatMap g).map e.onSymbol := by
    obtain ⟨left, right, hn, hn'⟩ := hfilter (p := isMemberKind) fun _ hk => hk
    rw [members_eq, members_eq, hn, hn']
    simp [List.flatMap_map, List.map_flatMap, hg, hd]
  have htypes := hmembers (typeSymbols_map e) (typeSymbols_of_holds below hm)
  have hall := hmembers (memberSymbols_map e) (memberSymbols_of_holds below hm)
  have hnonToken := hfilter (p := fun k => !k.isToken) fun k hk => by
    revert hk
    cases k <;> decide
  have hbound := hfilter (p := isMemberKind) fun _ hk => hk
  rw [← members_eq, ← members_eq] at hbound
  have hkinds : n.kind = .compilationUnit ∨ n.kind = .namespaceDeclaration ∨
      n.kind = .classDeclaration ∨ n.kind = .structDeclaration := by
    revert holder
    cases n.kind <;> decide
  unfold scopeSymbols boundParts
  rw [parts.kind]
  rcases hkinds with hk | hk | hk | hk <;> simp only [hk]
  · exact ⟨htypes, hnonToken⟩
  · exact ⟨htypes, hnonToken⟩
  · exact ⟨hall, hbound⟩
  · exact ⟨hall, hbound⟩

end Symbols

/-! ## The walks -/

section Walks

variable {f : Place → Place} {hole gap : Nat} {root : Placed} (hf : Node.Fits f hole gap root)
  {b b' b₁ : Bindings} {c c' m m' n n' : Placed}

include hf in
/-- No number in the file with the hole becomes one inside the body. -/
theorem embedding_node_ne (s d : Nat) {j : Nat} (hj : hole < j ∧ j ≤ hole + gap) (i : Nat) :
    (hf.embedding s d).node i ≠ j := by
  show skip (hole + 1) gap i ≠ j
  unfold skip
  split <;> omega

section Passed

variable (h : Embeds (hf.embedding 0 0) (skip 0 0) b b')
include h

theorem Embeds.length_symbols : b'.symbols.length = b.symbols.length := by
  simpa [Node.Fits.embedding] using (h.nextSymbol 0).symm

theorem Embeds.length_scopes : b'.scopes.length = b.scopes.length := by
  simpa using (h.nextScope 0).symm

/-- Symbols stay the same when new ones are passed over. -/
theorem Embeds.pass_symbols {new : List Symbol} (hnew : b₁.symbols = b'.symbols ++ new) (x : Nat) :
    b₁.symbols[skip b.symbols.length new.length x]? =
      b.symbols[x]?.map (hf.embedding b.symbols.length new.length).onSymbol := by
  have hx : b'.symbols[x]? = b.symbols[x]?.map (hf.embedding 0 0).onSymbol := by
    simpa [Node.Fits.embedding] using h.symbols x
  have hlength := h.length_symbols
  rcases Nat.lt_or_ge x b.symbols.length with hlt | hge
  · rw [skip_of_lt _ hlt, hnew, List.getElem?_append_left (by omega), hx]
    rfl
  · rw [skip_of_le _ hge, hnew, List.getElem?_eq_none (by simp; omega),
      List.getElem?_eq_none hge]
    rfl

/-- Names mean the same in scopes that stay when new scopes and symbols are passed over. -/
theorem Embeds.pass_scopes {j k : Nat} (hsane : Sane j k b) (d : Nat)
    (hlength : b'.scopes.length ≤ b₁.scopes.length)
    (hkept : ∀ i < b'.scopes.length, b₁.scopes[i]? = b'.scopes[i]?) (i : Nat) :
    Option.Rel (fun t t' => ∀ name, t'.find? name =
        (t.find? name).map (hf.embedding b.symbols.length d).symbol) b.scopes[i]?
      b₁.scopes[skip b.scopes.length (b₁.scopes.length - b'.scopes.length) i]? := by
  have hscopes := h.length_scopes
  rcases Nat.lt_or_ge i b.scopes.length with hlt | hge
  · have hi := h.scopes i
    have hin (t : Scope) (ht : b.scopes[i]? = some t) : t ∈ b.scopes := List.mem_of_getElem? ht
    rw [skip_zero] at hi
    rw [skip_of_lt _ hlt, hkept i (by omega)]
    generalize b.scopes[i]? = t, b'.scopes[i]? = t' at hi hin
    cases hi with
    | none => exact .none
    | @some t t' hfind =>
      refine .some fun name => ?_
      rw [hfind name]
      cases hx : t.find? name with
      | none => rfl
      | some x =>
        have hlt : x < b.symbols.length := hsane.scopes t (hin t rfl) name x hx
        simp [Node.Fits.embedding, skip_of_lt _ hlt]
  · rw [skip_of_le _ hge, List.getElem?_eq_none hge, List.getElem?_eq_none (by omega)]
    exact .none

/-- Entries stay the same when entries about the inside of the body are put before them. -/
theorem Embeds.pass_entries {j k : Nat} (hsane : Sane j k b) (d : Nat)
    {entries : List (Nat × Nat)} (hentries : b₁.symbolOf = entries ++ b'.symbolOf)
    (hbelow : ∀ p ∈ entries, hole < p.1 ∧ p.1 ≤ hole + gap) (i : Nat) :
    b₁.symbolOf.lookup ((hf.embedding b.symbols.length d).node i) =
      (b.symbolOf.lookup i).map (hf.embedding b.symbols.length d).symbol := by
  have hi : b'.symbolOf.lookup ((hf.embedding 0 0).node i) = b.symbolOf.lookup i := by
    have hi := h.entries i
    have hid : (hf.embedding 0 0).symbol = id := skip_zero_eq 0
    rwa [hid, Option.map_id] at hi
  have hnone : entries.lookup ((hf.embedding b.symbols.length d).node i) = none := by
    rw [List.lookup_eq_none_iff]
    intro p hp
    rw [bne_iff_ne]
    exact embedding_node_ne hf _ _ (hbelow p hp) i
  rw [hentries, List.lookup_append, hnone, Option.none_or]
  refine hi.trans ?_
  cases hx : b.symbolOf.lookup i with
  | none => rfl
  | some x =>
    obtain ⟨before, after, hsplit, -⟩ := List.lookup_eq_some_iff.1 hx
    have hlt : x < b.symbols.length := hsane.entries (i, x) (by simp [hsplit])
    exact congrArg some (skip_of_lt _ hlt).symm

/-- Behind the body its symbols and scopes are passed over. -/
theorem Embeds.pass_block {j k : Nat} (hsane : Sane j k b) (hgrows : GrowsBelow c' b' b₁)
    (hin : ∀ d ∈ c'.children, ∀ x ∈ d.preorder, hole < x.id ∧ x.id ≤ hole + gap)
    (hstruct : ∀ x ∈ c'.preorder, x.kind ≠ .structDeclaration) :
    ∃ d g, Embeds (hf.embedding b.symbols.length d) (skip b.scopes.length g) b b₁ := by
  obtain ⟨new, hnew, hown⟩ := hgrows.symbols
  obtain ⟨entries, hentries, hbelow⟩ := hgrows.entries
  have hsymbols := h.length_symbols
  have hscopes := h.length_scopes
  have hlength := hgrows.scopes
  refine ⟨new.length, b₁.scopes.length - b'.scopes.length, h.pass_symbols hf hnew, fun i => ?_,
    h.pass_scopes hf hsane _ hlength hgrows.same, fun i => ?_,
    h.pass_entries hf hsane _ hentries fun p hp => ?_, ?_⟩
  · show skip b.symbols.length new.length _ = _
    rw [skip_of_le _ (by omega), hnew, List.length_append, hsymbols]
    omega
  · rw [skip_of_le _ (by omega)]
    omega
  · obtain ⟨d, hd, x, hx, hpx⟩ := hbelow p hp
    exact hpx ▸ hin d hd x hx
  · have hnone : (new.filter fun s => s.kind == .structType) = [] := by
      rw [List.filter_eq_nil_iff]
      intro s hs
      obtain ⟨d, hd, x, hx, -, hkind⟩ := hown s hs
      intro hk
      exact hstruct x (Node.mem_preorder_trans hx (Node.mem_preorder_of_mem_children hd))
        (hkind (by simpa using hk))
    rw [← h.structs]
    simp [Model.structs, hnew, hnone]

end Passed

theorem bindAll_append (chain : List Nat) (cs ds : List Placed) (b : Bindings) :
    bindAll chain (cs ++ ds) b = bindAll chain ds (bindAll chain cs b) := List.foldl_append

/-- The two walks correspond behind the file, with the symbols and scopes of the body passed over. -/
theorem Embeds.bind_holds (h : Holds f m m' n n') (hm : Emptied f c c' m m')
    (hin : ∀ d ∈ c'.children, ∀ x ∈ d.preorder, hole < x.id ∧ x.id ≤ hole + gap)
    (hstruct : ∀ x ∈ c'.preorder, x.kind ≠ .structDeclaration) {chain : List Nat} {b b' : Bindings}
    (hb : Embeds (hf.embedding 0 0) (skip 0 0) b b') (hsane : Sane 0 0 b)
    (hchain : ∀ j ∈ chain, j < b.scopes.length) :
    ∃ s d k g, s ≤ (Bindings.bind chain n b).symbols.length ∧ b.scopes.length ≤ k ∧
      Embeds (hf.embedding s d) (skip k g) (Bindings.bind chain n b)
        (Bindings.bind chain n' b') := by
  have hκ : Function.Injective (skip 0 0) := skip_injective 0 0
  have hsame (chain : List Nat) : chain.map (skip 0 0) = chain := by
    rw [skip_zero_eq, List.map_id]
  induction h generalizing chain b b' with
  | here =>
    have hscope : m.kind.opensScope = true := by
      rcases hm.method with hk | hk <;> rw [hk] <;> rfl
    obtain ⟨hparts, hparts'⟩ := boundParts_of_emptied (e := hf.embedding 0 0) hm
    have hopened := (hb.openScope m.kind.scopeKind chain chain m.id m'.id).declareAll hκ
      (b.scopes.length :: chain) (scopeSymbols m)
    have hsane := (hsane.now.openScope m.kind.scopeKind chain m.id).declareAll
      (b.scopes.length :: chain) (scopeSymbols m)
    obtain ⟨d, g, hpassed⟩ := hopened.pass_block hf hsane
      (growsBelow_bind hm.block (b.scopes.length :: chain) _) hin hstruct
    rw [bind_scope hscope, bind_scope (hm.kind ▸ hscope), hm.kind, hparts, hparts',
      scopeSymbols_of_emptied (e := hf.embedding 0 0) hm, ← hb.nextScope_zero, skip_zero]
    rw [hsame] at hpassed
    exact ⟨_, d, _, g, Nat.le_refl _, hsane.keptScopes, hpassed⟩
  | @inside n n' d d' holder member parts below ih =>
    have hscope : n.kind.opensScope = true := by
      revert holder
      cases n.kind <;> decide
    obtain ⟨hsymbols, left, right, hparts, hparts'⟩ :=
      symbols_of_inside (e := hf.embedding 0 0) holder member parts below hm
    set inner := b.scopes.length :: chain with hinner
    have hopened := (hb.openScope n.kind.scopeKind chain chain n.id n'.id).declareAll hκ
      inner (scopeSymbols n)
    rw [hsame] at hopened
    have hleft := hopened.bindAll_of_map_eq hκ (hsame inner) left
    have hsane := ((hsane.openScope n.kind.scopeKind chain n.id).now.declareAll
      inner (scopeSymbols n)).bindAll inner left
    have hopen : ∀ j ∈ inner, j < _ := fun j hj => Nat.lt_of_lt_of_le (by
      rw [Bindings.openScope, List.length_append]
      rcases List.mem_cons.1 hj with rfl | hj
      · exact Nat.lt_succ_self _
      · exact Nat.lt_succ_of_lt (hchain j hj)) hsane.keptScopes
    obtain ⟨s, d₁, k, g, hs, hk, hbelow⟩ :=
      ih hleft ⟨hsane.entries, hsane.scopes, Nat.zero_le _, Nat.zero_le _⟩ hopen
    have hpassed : inner.map (skip k g) = inner := by
      conv_rhs => rw [← List.map_id inner]
      exact List.map_congr_left fun j hj => skip_of_lt _ (Nat.lt_of_lt_of_le (hopen j hj) hk)
    have hright := hbelow.bindAll_of_map_eq (skip_injective k g) hpassed right
    have hsane' := (hsane.bind inner d).now.bindAll inner right
    rw [bind_scope hscope, bind_scope (parts.kind ▸ hscope), parts.kind, hparts, hparts', hsymbols,
      ← hb.nextScope_zero, skip_zero, bindAll_append, bindAll_append]
    refine ⟨s, d₁, k, g, Nat.le_trans hs hsane'.keptSymbols, ?_, hright⟩
    exact Nat.le_of_lt (Nat.lt_of_lt_of_le (hopen _ List.mem_cons_self) hk)

end Walks

end Bindings

/-! ## The models -/

/-- The numbers up to `n` and the `d` numbers passed over. -/
theorem range_eq_skip {s n : Nat} (d : Nat) (hs : s ≤ n) : List.range (n + d) =
    (List.range s).map (skip s d) ++
      (List.range' s d ++ (List.range' s (n - s)).map (skip s d)) := by
  have hfirst : (List.range s).map (skip s d) = List.range s := by
    conv_rhs => rw [← List.map_id (List.range s)]
    exact List.map_congr_left fun i hi => skip_of_lt _ (List.mem_range.1 hi)
  have hlast : (List.range' s (n - s)).map (skip s d) = List.range' (s + d) (n - s) := by
    rw [Nat.add_comm s d, ← List.map_add_range']
    refine List.map_congr_left fun i hi => ?_
    rw [skip_of_le _ (List.mem_range'_1.1 hi).1, Nat.add_comm]
  rw [hfirst, hlast, List.range'_append_1, List.range_eq_range', List.range_eq_range']
  have happend := List.range'_append_1 (s := 0) (m := s) (n := d + (n - s))
  rw [Nat.zero_add] at happend
  rw [happend]
  congr 1
  omega

namespace Model

/-- Files whose names correspond, with the same structs, have the same types. -/
theorem embeds_build_of_embeds {f : Place → Place} {hole gap s d : Nat} {root n n' : Placed}
    (hf : Node.Fits f hole gap root) {κ : Nat → Nat}
    (hb : Bindings.Embeds (hf.embedding s d) κ (Bindings.ofRoot (some n))
      (Bindings.ofRoot (some n')))
    (hs : s ≤ (Bindings.ofRoot (some n)).symbols.length) (nullableContext : Bool) :
    (build (some n) nullableContext).Embeds (hf.embedding s d) id
      (build (some n') nullableContext) := by
  set b := Bindings.ofRoot (some n)
  set b' := Bindings.ofRoot (some n')
  have hwritten : (written (some n) b ⟨structs b, nullableContext⟩).Embeds (hf.embedding s d) id
      (written (some n') b' ⟨structs b', nullableContext⟩) :=
    embeds_written hb.entries hb.symbols ⟨⟨rfl, rfl, fun _ => rfl⟩, hb.structs, fun _ => rfl⟩
  have hlength : b'.symbols.length = b.symbols.length + d := by
    have hnext : skip s d (b.symbols.length + 0) = b'.symbols.length + 0 := hb.nextSymbol 0
    rwa [Nat.add_zero, Nat.add_zero, skip_of_le _ hs, eq_comm] at hnext
  have hrange : List.range b.symbols.length =
      List.range s ++ List.range' s (b.symbols.length - s) := by
    simpa [skip_zero_eq] using range_eq_skip 0 hs
  have houtside : ∀ y ∈ List.range' s d, ∀ x, (hf.embedding s d).symbol x ≠ y := by
    intro y hy x
    have hy := List.mem_range'_1.1 hy
    show skip s d x ≠ y
    unfold skip
    split <;> omega
  rw [build_eq, build_eq, hlength, range_eq_skip d hs, List.foldl_append, List.foldl_append, hrange,
    List.foldl_append]
  exact ((hwritten.foldl_inferAt (List.range s)).foldl_inferAt_outside houtside).foldl_inferAt
    (List.range' s (b.symbols.length - s))

end Model

end NullLint
