import NullLint.Proofs.Check.Reports
import NullLint.Proofs.Semantics.MethodBodies
import NullLint.Proofs.Syntax.Substitution

/-!
# Findings beside a method body

In two files that differ in the body of one method the findings outside that method are the same.
-/

namespace NullLint

namespace BodySite

variable {s : BodySite} {x : Placed} {j d : Nat} {nullableContext : Bool}

/-! ## Answers -/

theorem node?_file (hx : x ∈ s.file.preorder) :
    (Model.build (some s.file) nullableContext).node? x.id = some x := by
  obtain ⟨path, hpath⟩ := Node.exists_descends hx []
  simp [Model.node?, Node.path?_of_descends s.serial.numbered hpath]

theorem node?_bareFile (hx : x ∈ s.bareFile.preorder) :
    (Model.build (some s.bareFile) nullableContext).node? x.id = some x := by
  obtain ⟨path, hpath⟩ := Node.exists_descends hx []
  simp [Model.node?, Node.path?_of_descends s.bareSerial.numbered hpath]

theorem Beside.map_mem (hx : s.Beside x) : x.map s.place ∈ s.file.preorder :=
  (s.holds.around.map_mem s.bareSerial s.serial hx.1 hx.2).1

section Answers

variable (h : (Model.build (some s.bareFile) nullableContext).Embeds (s.fits.embedding j d) id
  (Model.build (some s.file) nullableContext))
include h

theorem typeOf_file (hx : s.Beside x) :
    (Model.build (some s.file) nullableContext).host.typeOf (x.map s.place).id =
      (Model.build (some s.bareFile) nullableContext).host.typeOf x.id := by
  simp only [Model.host, node?_file hx.map_mem, node?_bareFile hx.1, Option.bind_some]
  rw [h.typeOf_map x, Option.map_id]
  rfl

theorem symbolOf_file (hx : s.Beside x) :
    (Model.build (some s.file) nullableContext).host.symbolOf (x.map s.place).id =
      ((Model.build (some s.bareFile) nullableContext).host.symbolOf x.id).map
        (s.fits.embedding j d).symbol := by
  simp only [Model.host, node?_file hx.map_mem, node?_bareFile hx.1, Option.bind_some,
    Node.kind_map]
  split
  · exact h.symbolAt_map x
  · rfl

theorem nullState_file (hx : s.Beside x) (scope scope' : Option Nat) :
    (Model.build (some s.file) nullableContext).host.nullState (x.map s.place).id scope' =
      (Model.build (some s.bareFile) nullableContext).host.nullState x.id scope := by
  have hstate : Verdict.Coarser id _
      ((Model.build (some s.file) nullableContext).nullState (x.map s.place)) :=
    h.nullState_map (covers nullableContext j d) hx
  simp only [Model.host, node?_file hx.map_mem, node?_bareFile hx.1, Option.map_some,
    Option.getD_some]
  generalize (Model.build (some s.bareFile) nullableContext).nullState x = v,
    (Model.build (some s.file) nullableContext).nullState (x.map s.place) = v' at hstate
  cases hstate with
  | same => rfl
  | ofType t => rw [Option.map_id, id_eq]

/-- The statement lists around nodes beside the method have the same flow: blocks are the same, and
in the file the body belongs to no statement. -/
theorem regionFlow_file {scope scope' : Placed}
    (hdeclared : ∀ y, (s.fits.embedding j d).symbol y ∈
        (Model.build (some s.file) nullableContext).declaredIn s.file ↔
      y ∈ (Model.build (some s.bareFile) nullableContext).declaredIn s.bareFile)
    (houter : Model.Outer (s.fits.embedding j d) s.Beside scope scope')
    (hlist : scope.kind = .block ∨ scope.kind = .compilationUnit)
    (hscope : scope ∈ s.bareFile.preorder) (hscope' : scope' ∈ s.file.preorder) :
    (Model.build (some s.file) nullableContext).host.regionFlow scope'.id =
      ((Model.build (some s.bareFile) nullableContext).host.regionFlow scope.id).map
        (s.fits.embedding j d).onRegion := by
  simp only [Model.host, node?_file hscope', node?_bareFile hscope, Option.bind_some]
  cases houter with
  | same => exact h.regionFlow?_map scope
  | holder kind => rcases hlist with hlist | hlist <;> simp [hlist] at kind
  | file kind kind' id statements =>
    obtain rfl : scope' = s.file := by
      by_contra hne
      obtain ⟨p, hp, hchild⟩ := Node.exists_parent hscope' hne
      have hhold := (s.readable.of_mem hp).mayHold hchild
      rw [kind'] at hhold
      revert hhold
      cases p.kind <;> decide
    obtain rfl : scope = s.bareFile := by
      refine s.bareSerial.numbered.eq_of_id_eq hscope s.bareFile.self_mem_preorder ?_
      have hzero : skip (s.hole + 1) s.gap scope.id = 0 := id.symm.trans s.fileId
      rw [s.bareId]
      unfold skip at hzero
      split at hzero <;> omega
    exact h.regionFlow?_of_statements kind kind' statements hdeclared

end Answers

end BodySite

/-! ## Verdicts -/

/-- The checker of a file. -/
def AnalysisOptions.checker (options : AnalysisOptions) (root : Placed) : Checker where
  root := some root
  host := (Model.build (some root) options.nullableContext).host
  rule := options.rule
  localDataflow := options.localDataflow

/-- By the answers of the host, the null operator at a node is not needed, first of all for this
reason. -/
def Checker.Judges (c : Checker) (root n : Placed) (operator : NullOperator) (reason : Reason) :
    Prop :=
  ∃ operand mark scope, IsOperation n operand mark operator ∧ IsScopeOf root n scope ∧
    c.ProvesFirst operand scope reason

theorem isOperation_map_iff (f : Place → Place) {n operand' mark' : Placed}
    {operator : NullOperator} : IsOperation (n.map f) operand' mark' operator ↔
      ∃ operand mark, IsOperation n operand mark operator ∧ operand' = operand.map f ∧
        mark' = mark.map f := by
  have hsplit (h : (n.map f).children = [operand', mark']) :
      ∃ operand mark, n.children = [operand, mark] ∧ operand' = operand.map f ∧
        mark' = mark.map f := by
    rw [Node.children_map] at h
    rcases hc : n.children with _ | ⟨operand, _ | ⟨mark, _ | _⟩⟩ <;> simp [hc] at h
    exact ⟨operand, mark, rfl, h.1.symm, h.2.symm⟩
  constructor
  · intro h
    cases h with
    | conditionalAccess kind parts expression question =>
      obtain ⟨operand, mark, hc, rfl, rfl⟩ := hsplit parts
      exact ⟨operand, mark, .conditionalAccess (by simpa using kind) hc (by simpa using expression)
        (by simpa using question), rfl, rfl⟩
    | nullAssertion kind parts expression exclamation =>
      obtain ⟨operand, mark, hc, rfl, rfl⟩ := hsplit parts
      exact ⟨operand, mark, .nullAssertion (by simpa using kind) hc (by simpa using expression)
        (by simpa using exclamation), rfl, rfl⟩
  · rintro ⟨operand, mark, h, rfl, rfl⟩
    cases h with
    | conditionalAccess kind parts expression question =>
      exact .conditionalAccess (by simpa using kind) (by simp [parts]) (by simpa using expression)
        (by simpa using question)
    | nullAssertion kind parts expression exclamation =>
      exact .nullAssertion (by simpa using kind) (by simp [parts]) (by simpa using expression)
        (by simpa using exclamation)

theorem expression?_map_eq_identifier_iff (f : Place → Place) (n : Placed) {name : String} :
    (n.map f).expression? = some (.identifier name) ↔ n.expression? = some (.identifier name) := by
  unfold Node.expression?
  rw [Node.kind_map, Node.identifier?_map]
  split <;> simp

/-- There is one way to a node. -/
theorem isScopeOf_iff {root n scope : Placed} {above : List Placed} (hnum : root.Numbered)
    (hpath : Node.Descends root [] (n :: above)) :
    IsScopeOf root n scope ↔ Path.scope? (n :: above) = some scope := by
  constructor
  · rintro ⟨above', hpath', hscope⟩
    have hfound := Node.path?_of_descends hnum hpath
    rw [Node.path?_of_descends hnum hpath', Option.some.injEq] at hfound
    rwa [← hfound]
  · exact fun hscope => ⟨above, hpath, hscope⟩

theorem of_scope?_eq_some {root n scope : Placed} {above : List Placed}
    (hpath : Node.Descends root [] (n :: above)) (h : Path.scope? (n :: above) = some scope) :
    scope ∈ root.preorder ∧ (scope.kind = .block ∨ scope.kind = .compilationUnit) := by
  have hin : scope ∈ n :: above := List.mem_cons_of_mem _ (List.mem_of_find?_eq_some h)
  exact ⟨((hpath.mem_preorder_of_mem hin).resolve_left List.not_mem_nil).1,
    by simpa using List.find?_some h⟩

/-- The nearest nodes of some kinds on two paths that correspond. -/
theorem Model.Outer.find? {e : Embedding} {D : Placed → Prop} {path path' : List Placed}
    (h : List.Forall₂ (Model.Outer e D) path path') (p : Kind → Bool) :
    Option.Rel (Model.Outer e D) (path.find? fun n => p n.kind)
      (path'.find? fun n => p n.kind) := by
  induction h with
  | nil => exact .none
  | @cons n n' path path' hn _ ih =>
    rw [List.find?_cons, List.find?_cons, hn.kind_eq]
    split
    · exact .some hn
    · exact ih

namespace BodySite

variable {s : BodySite} {x operand scope scope' : Placed} {j d : Nat} {options : AnalysisOptions}

/-- The same is proved of an operand beside the method in both files. -/
theorem proves_iff (h : (Model.build (some s.bareFile) options.nullableContext).Embeds
      (s.fits.embedding j d) id (Model.build (some s.file) options.nullableContext))
    (hregion : (Model.build (some s.file) options.nullableContext).host.regionFlow scope'.id =
      ((Model.build (some s.bareFile) options.nullableContext).host.regionFlow scope.id).map
        (s.fits.embedding j d).onRegion)
    (hoperand : s.Beside operand) (reason : Reason) :
    (options.checker s.file).Proves (operand.map s.place) scope' reason ↔
      (options.checker s.bareFile).Proves operand scope reason := by
  let host := (Model.build (some s.bareFile) options.nullableContext).host
  let host' := (Model.build (some s.file) options.nullableContext).host
  have htype : host'.typeOf (operand.map s.place).id = host.typeOf operand.id :=
    typeOf_file h hoperand
  have hstate : host'.nullState (operand.map s.place).id (some scope'.id) =
      host.nullState operand.id (some scope.id) := nullState_file h hoperand _ _
  have hsymbol : host'.symbolOf (operand.map s.place).id =
      (host.symbolOf operand.id).map (s.fits.embedding j d).symbol := symbolOf_file h hoperand
  have hmem (y : Nat) (ys : List Nat) : (s.fits.embedding j d).symbol y ∈
      ys.map (s.fits.embedding j d).symbol ↔ y ∈ ys :=
    List.mem_map_of_injective (s.fits.embedding j d).symbol_injective
  constructor
  · intro hproves
    cases hproves with
    | valueType type => exact .valueType (htype.symm.trans type)
    | flow type state => exact .flow (htype.symm.trans type) (hstate.symm.trans state)
    | localAssignment type option bare symbol region assigned inside =>
      obtain ⟨y, hy, rfl⟩ := Option.map_eq_some_iff.1 (hsymbol.symm.trans symbol)
      obtain ⟨flow, hflow, rfl⟩ := Option.map_eq_some_iff.1 (hregion.symm.trans region)
      exact .localAssignment (htype.symm.trans type) option
        ((expression?_map_eq_identifier_iff s.place operand).1 bare) hy hflow
        ((hmem y _).1 assigned) fun hin => inside ((hmem y _).2 hin)
  · intro hproves
    cases hproves with
    | valueType type => exact .valueType (htype.trans type)
    | flow type state => exact .flow (htype.trans type) (hstate.trans state)
    | @localAssignment _ _ y flow type option bare symbol region assigned inside =>
      have hy : host.symbolOf operand.id = some y := symbol
      have hflow : host.regionFlow scope.id = some flow := region
      exact .localAssignment (htype.trans type) option
        ((expression?_map_eq_identifier_iff s.place operand).2 bare)
        (hsymbol.trans (by rw [hy, Option.map_some])) (hregion.trans (congrArg _ hflow))
        ((hmem y _).2 assigned) fun hin => inside ((hmem y _).1 hin)

/-- A null operator beside the method is judged in the same way in both files. -/
theorem judges_iff (hx : s.Beside x) (operator : NullOperator) (reason : Reason) :
    (options.checker s.file).Judges s.file (x.map s.place) operator reason ↔
      (options.checker s.bareFile).Judges s.bareFile x operator reason := by
  obtain ⟨j, d, hembed⟩ := s.exists_embedding
  obtain ⟨h, hdeclared⟩ := hembed options.nullableContext
  obtain ⟨above, hpath⟩ := Node.exists_descends hx.1 []
  obtain ⟨above', hpath', habove⟩ := exists_path hpath hx j d
  have hscopes : Option.Rel (Model.Outer (s.fits.embedding j d) s.Beside)
      (Path.scope? (x :: above)) (Path.scope? (x.map s.place :: above')) :=
    Model.Outer.find? habove fun k => k == .block || k == .compilationUnit
  have hfirst {operand scope scope' : Placed} (hoperand : operand ∈ x.children)
      (hscope : Path.scope? (x :: above) = some scope)
      (hscope' : Path.scope? (x.map s.place :: above') = some scope') :
      (options.checker s.file).ProvesFirst (operand.map s.place) scope' reason ↔
        (options.checker s.bareFile).ProvesFirst operand scope reason := by
    rw [hscope, hscope'] at hscopes
    obtain ⟨houter⟩ := hscopes
    obtain ⟨hmem, hlist⟩ := of_scope?_eq_some hpath hscope
    have hmem' := (of_scope?_eq_some hpath' hscope').1
    have hregion := regionFlow_file h hdeclared houter hlist hmem hmem'
    have hproves := proves_iff h hregion (hx.below (Node.mem_preorder_of_mem_children hoperand))
    simp only [Checker.ProvesFirst, hproves]
  simp only [Checker.Judges, isScopeOf_iff s.serial.numbered hpath',
    isScopeOf_iff s.bareSerial.numbered hpath]
  constructor
  · rintro ⟨operand', mark', scope', hop', hscope', hproves⟩
    obtain ⟨operand, mark, hop, rfl, rfl⟩ := (isOperation_map_iff s.place).1 hop'
    rw [hscope'] at hscopes
    cases hscope : Path.scope? (x :: above) with
    | none =>
      rw [hscope] at hscopes
      cases hscopes
    | some scope =>
      exact ⟨operand, mark, scope, hop, rfl,
        (hfirst (by simp [hop.children_eq]) hscope hscope').1 hproves⟩
  · rintro ⟨operand, mark, scope, hop, hscope, hproves⟩
    rw [hscope] at hscopes
    cases hscope' : Path.scope? (x.map s.place :: above') with
    | none =>
      rw [hscope'] at hscopes
      cases hscopes
    | some scope' =>
      exact ⟨operand.map s.place, mark.map s.place, scope',
        (isOperation_map_iff s.place).2 ⟨operand, mark, hop, rfl, rfl⟩, rfl,
        (hfirst (by simp [hop.children_eq]) hscope hscope').2 hproves⟩

end BodySite

/-! ## Positions -/

/-- Where a node stands outside another one: how many nodes stand before it, or how many stand
between the other node and it. -/
inductive OuterPosition where
  | before (count : Nat)
  | behind (count : Nat)
  deriving DecidableEq, Repr

namespace Node

/-- Where the node numbered `i` stands outside `m`. -/
def outside? (m : Placed) (i : Nat) : Option OuterPosition :=
  if i < m.id then some (.before i)
  else if m.endId ≤ i then some (.behind (i - m.endId))
  else none

theorem outside?_eq_some {m : Placed} {i : Nat} {p : OuterPosition} (h : m.outside? i = some p) :
    i < m.id ∧ p = .before i ∨ m.endId ≤ i ∧ p = .behind (i - m.endId) := by
  unfold outside? at h
  split at h
  · exact .inl ⟨‹_›, (Option.some.inj h).symm⟩
  split at h
  · exact .inr ⟨‹_›, (Option.some.inj h).symm⟩
  · cases h

/-- Different nodes stand at different places. -/
theorem eq_of_outside?_eq {m : Placed} {i i' : Nat} {p : OuterPosition}
    (h : m.outside? i = some p) (h' : m.outside? i' = some p) : i = i' := by
  rcases outside?_eq_some h with ⟨-, rfl⟩ | ⟨hle, rfl⟩ <;>
    rcases outside?_eq_some h' with ⟨-, heq⟩ | ⟨hle', heq⟩ <;> injection heq
  · omega

theorem not_mem_of_outside? {m n : Placed} {p : OuterPosition} (hs : m.Serial)
    (h : m.outside? n.id = some p) : n ∉ m.preorder := by
  intro hn
  have := hs.id_le hn
  have := hs.endId_le hn
  have := n.id_lt_endId
  rcases outside?_eq_some h with ⟨hlt, -⟩ | ⟨hle, -⟩ <;> omega

end Node

/-- A finding outside a node: where it stands, which operator it is about and why it is reported. -/
def Finding.outside? (m : Placed) (f : Finding) : Option (OuterPosition × NullOperator × Reason) :=
  (m.outside? f.node).map fun p => (p, f.operator, f.reason)

namespace BodySite

variable {s : BodySite} {x : Placed} {options : AnalysisOptions}

/-- A node beside the method stands at the same place outside of it in both files. -/
theorem outside?_map (hx : s.Beside x) :
    s.method.outside? (x.map s.place).id = s.bareMethod.outside? x.id ∧
      (s.bareMethod.outside? x.id).isSome = true := by
  have hid : (x.map s.place).id = skip (s.hole + 1) s.gap x.id := (s.fits.embedding 0 0).id_map x
  have hmethod := s.methodId
  have hend := s.methodEnd
  have hbefore := s.beforeBody
  have hbehind := s.behindBody
  have hown := x.id_lt_endId
  rw [hid]
  unfold Node.outside?
  rcases hx.2 with hapart | hapart
  · rw [skip_of_lt _ (by omega), if_pos (by omega), if_pos (by omega)]
    exact ⟨rfl, rfl⟩
  · rw [skip_of_le _ (by omega), if_neg (by omega), if_pos (by omega), if_neg (by omega),
      if_pos (by omega), hend, Nat.add_sub_add_right]
    exact ⟨rfl, rfl⟩

/-- A null operator outside the method stands beside it in both files. -/
theorem exists_beside {n : Placed} {p : OuterPosition} (hn : n ∈ s.file.preorder)
    (hkind : Checker.isOperatorKind n.kind = true) (hp : s.method.outside? n.id = some p) :
    ∃ x, s.Beside x ∧ n = x.map s.place ∧ s.bareMethod.outside? x.id = some p := by
  have hapart : n.Apart s.method := by
    rcases (s.holds.apart_or_mem s.bareSerial s.serial).2 n hn with hapart | hin | hholder
    · exact hapart
    · exact absurd hin (Node.not_mem_of_outside? (s.serial.of_mem s.holds.around.mem.2) hp)
    · exfalso
      revert hkind hholder
      cases n.kind <;> decide
  obtain ⟨x, hx, hxa, rfl⟩ := s.holds.around.exists_of_apart s.bareSerial s.serial hn hapart
  exact ⟨x, ⟨hx, hxa⟩, rfl, (outside?_map ⟨hx, hxa⟩).1.symm.trans hp⟩

end BodySite

/-! ## Findings -/

/-- The finding at a node that is judged. -/
theorem Checker.judges_iff_finds {c : Checker} {root n : Placed} {operator : NullOperator}
    {reason : Reason} : c.Judges root n operator reason ↔
      ∃ f, c.Finds root n f ∧ f.operator = operator ∧ f.reason = reason := by
  constructor
  · rintro ⟨operand, mark, scope, hop, ⟨above, hpath, hscope⟩, hfirst⟩
    exact ⟨_, ⟨above, scope, operand, mark, operator, reason, hpath, hscope, hop, hfirst, rfl⟩, rfl,
      rfl⟩
  · rintro ⟨f, hfinds, rfl, rfl⟩
    obtain ⟨above, scope, operand, mark, _, _, hpath, hscope, hop, hfirst, rfl⟩ := hfinds
    exact ⟨operand, mark, scope, hop, ⟨above, hpath, hscope⟩, hfirst⟩

theorem undamaged_of_errors_eq_nil {file text : String} (h : (parse file text).errors = []) :
    ∀ n ∈ (parse file text).tree.nodes, n.isMalformed = false := by
  obtain ⟨-, root, hroot, -, hwf, hconforms, htokens⟩ := conforms_of_errors_eq_nil h
  have hundamaged : root.Undamaged := hconforms.undamaged hwf fun t ht => by
    obtain ⟨l, hl, rfl⟩ := htokens t ht
    exact Lexer.missing_lexFrom true 0 text.toList l hl
  intro n hn
  rw [Tree.nodes_of_placed (by rw [Tree.placed, hroot]; rfl)] at hn
  rw [Node.isMalformed, List.any_eq_false]
  intro m hm
  have hm := (Node.undamaged_placed root).2 hundamaged m (Node.mem_preorder_trans hm hn)
  simpa using hm

/-- In a tree without errors every finding counts. -/
theorem isSoundAt_of_errors_eq_nil {file text : String} (h : (parse file text).errors = [])
    {root n : Placed} (hroot : (parse file text).tree.placed = some root)
    (hn : n ∈ root.preorder) : (parse file text).tree.isSoundAt n.id = true := by
  have hnumbered : root.Numbered := by
    obtain ⟨g, -, rfl⟩ := Option.map_eq_some_iff.1 hroot
    exact Node.numbered_placed g
  obtain ⟨above, hpath⟩ := Node.exists_descends hn []
  have hsound : ∀ p ∈ n :: above, p.isMalformed = false := fun p hp =>
    undamaged_of_errors_eq_nil h p <| by
      rw [Tree.nodes_of_placed hroot]
      exact ((hpath.mem_preorder_of_mem hp).resolve_left List.not_mem_nil).1
  rw [Tree.isSoundAt, Tree.path?, hroot, Option.bind_some, Node.path?_of_descends hnumbered hpath,
    Option.bind_some, Bool.not_eq_true', Option.any_eq_false]
  intro p hp
  suffices hmem : p ∈ n :: above by simp [hsound p hmem]
  rcases Option.or_eq_some_iff.1 hp with hp | ⟨-, hp⟩
  · exact List.mem_cons_of_mem _ (List.mem_of_find?_eq_some hp)
  · exact List.mem_of_getLast? hp

theorem Tree.checker_eq {t : Tree} {root : Placed} (h : t.placed = some root)
    (options : AnalysisOptions) : t.checker options .never = options.checker root := by
  simp [Tree.checker, AnalysisOptions.checker, h]

section Outside

variable {file text : String} {root m : Placed} {options : AnalysisOptions}
  (hroot : (parse file text).tree.placed = some root) (henabled : options.rule.enabled = true)
include hroot henabled

/-- The findings outside a node, by the answers of the host. -/
theorem mem_outside_check_iff (herrors : (parse file text).errors = []) {p : OuterPosition}
    {operator : NullOperator} {reason : Reason} :
    (p, operator, reason) ∈ ((parse file text).tree.check options).filterMap (Finding.outside? m) ↔
      ∃ n ∈ root.preorder, m.outside? n.id = some p ∧
        (options.checker root).Judges root n operator reason := by
  have htree : (options.checker root).OnTree root := Checker.onTree_of_parse hroot rfl henabled rfl
  have hraw : (parse file text).tree.rawFindings options .never =
      (options.checker root).checkTree.result := by
    rw [Tree.rawFindings, Tree.checker_eq hroot]
  rw [List.mem_filterMap]
  constructor
  · rintro ⟨f, hf, hout⟩
    have hf := ((Tree.mem_check_iff _ options henabled).1 hf).1
    rw [hraw] at hf
    obtain ⟨n, hn, hfinds⟩ := htree.mem_checkTree_iff.1 hf
    obtain ⟨q, hq, hkey⟩ := Option.map_eq_some_iff.1 hout
    cases hkey
    exact ⟨n, hn, hfinds.node_eq ▸ hq, Checker.judges_iff_finds.2 ⟨f, hfinds, rfl, rfl⟩⟩
  · rintro ⟨n, hn, hp, hjudges⟩
    obtain ⟨f, hfinds, rfl, rfl⟩ := Checker.judges_iff_finds.1 hjudges
    refine ⟨f, (Tree.mem_check_iff _ options henabled).2 ⟨?_, ?_⟩, ?_⟩
    · rw [hraw]
      exact htree.mem_checkTree_iff.2 ⟨n, hn, hfinds⟩
    · rw [hfinds.node_eq]
      exact isSoundAt_of_errors_eq_nil herrors hroot hn
    · rw [Finding.outside?, hfinds.node_eq, hp, Option.map_some]

/-- No two findings outside a node stand at the same place. -/
theorem nodup_outside_check :
    (((parse file text).tree.check options).filterMap (Finding.outside? m)).Nodup := by
  have htree : (options.checker root).OnTree root := Checker.onTree_of_parse hroot rfl henabled rfl
  have hnodes : ((parse file text).tree.check options).Pairwise fun f g => f.node ≠ g.node := by
    have hall := List.pairwise_map.1 htree.nodup_checkTree
    rw [← Tree.checker_eq hroot] at hall
    rw [Tree.check, if_neg (by simp [henabled, Signal.never])]
    exact hall.filter _
  refine List.pairwise_filterMap.2 (hnodes.imp fun {f g} hne key hf key' hg => ?_)
  rintro rfl
  obtain ⟨p, hp, rfl⟩ := Option.map_eq_some_iff.1 hf
  obtain ⟨q, hq, hkey⟩ := Option.map_eq_some_iff.1 hg
  obtain rfl := congrArg Prod.fst hkey
  exact hne (Node.eq_of_outside?_eq hp hq)

end Outside

namespace BodySite

/-- What is judged outside the method is judged beside it in the file without the body. -/
theorem judges_outside_iff (s : BodySite) {options : AnalysisOptions} {p : OuterPosition}
    {operator : NullOperator} {reason : Reason} :
    (∃ n ∈ s.file.preorder, s.method.outside? n.id = some p ∧
        (options.checker s.file).Judges s.file n operator reason) ↔
      ∃ x, s.Beside x ∧ s.bareMethod.outside? x.id = some p ∧
        (options.checker s.bareFile).Judges s.bareFile x operator reason := by
  constructor
  · rintro ⟨n, hn, hp, hjudges⟩
    have hkind : Checker.isOperatorKind n.kind = true := by
      obtain ⟨_, _, _, hop, -⟩ := hjudges
      exact hop.isOperatorKind
    obtain ⟨x, hx, rfl, hx'⟩ := exists_beside hn hkind hp
    exact ⟨x, hx, hx', (judges_iff hx operator reason).1 hjudges⟩
  · rintro ⟨x, hx, hp, hjudges⟩
    exact ⟨x.map s.place, hx.map_mem, (outside?_map hx).1.trans hp,
      (judges_iff hx operator reason).2 hjudges⟩

/-- The same file without the body, from two files that differ in it. -/
theorem exists_sites {file text text' : String} {method body : Placed} {fragment : Tree}
    (herrors : (parse file text).errors = []) (herrors' : (parse file text').errors = [])
    (hmethod : method ∈ (parse file text).tree.nodes)
    (hkind : method.kind = .methodDeclaration ∨ method.kind = .constructorDeclaration)
    (hbody : body ∈ method.children) (hblock : body.kind = .block)
    (hfragment : fragment.root.map Node.kind = some .block)
    (hreplace : (parse file text).tree.replace body.id fragment = some (parse file text').tree) :
    ∃ s s' : BodySite, (parse file text).tree.placed = some s.file ∧
      (parse file text').tree.placed = some s'.file ∧ s.method = method ∧
      s'.bareFile = s.bareFile ∧ s'.bareMethod = s.bareMethod := by
  obtain ⟨-, root, hroot, hrootKind, -⟩ := conforms_of_errors_eq_nil herrors
  obtain ⟨-, root', hroot', hrootKind', -⟩ := conforms_of_errors_eq_nil herrors'
  obtain ⟨g, hg, hgKind⟩ := Option.map_eq_some_iff.1 hfragment
  have hplaced : (parse file text).tree.placed = some root.placed := by
    rw [Tree.placed, hroot, Option.map_some]
  have hplaced' : (parse file text').tree.placed = some root'.placed := by
    rw [Tree.placed, hroot', Option.map_some]
  have hserial := Node.serial_placed root
  rw [Tree.nodes_of_placed hplaced] at hmethod
  -- The body stands in a frame of the method, and the method in the frames around it.
  obtain ⟨fs, herase, hid, hsubstitute⟩ := Node.exists_frames hserial hmethod
  obtain ⟨left, right, hsplit⟩ := List.append_of_mem hbody
  let frame : Frame := ⟨method.kind, left.map Node.erase, right.map Node.erase⟩
  have hrootEq : root = Frame.plugAll fs (frame.plug body.erase) := by
    rw [← Node.erase_of_split hsplit, ← herase, Node.erase_placed]
  -- The fragment stands in the same frames.
  have hσ : Tree.lastFragment? [(body.id, fragment)] body.id = some g :=
    (Tree.lastFragment?_of_unique (e := (body.id, fragment)) (by simp) (by simp)).trans hg
  have hother {x : Placed} (hx : x ∈ root.placed.preorder) (hne : x ∉ body.preorder) :
      Tree.lastFragment? [(body.id, fragment)] x.id = none := by
    rw [Option.eq_none_iff_forall_ne_some]
    intro g' hg'
    obtain ⟨e, he, heq, -⟩ := Tree.exists_edit_of_lastFragment? hg'
    rw [List.mem_singleton] at he
    subst he
    have hbodyIn := Node.mem_preorder_trans (Node.mem_preorder_of_mem_children hbody) hmethod
    obtain rfl := hserial.numbered.eq_of_id_eq hbodyIn hx heq
    exact hne (Node.self_mem_preorder _)
  have hrootEq' : root' = Frame.plugAll fs (frame.plug g) := by
    have hresult := Tree.eq_of_replaceMany hplaced (by simp [hg]) hreplace
    have hroot'' := hroot'.symm.trans (congrArg Tree.root hresult)
    rw [Option.some.inj hroot'', hsubstitute _ fun x hx hxm => hother hx fun hxb =>
        hxm (Node.mem_preorder_trans hxb (Node.mem_preorder_of_mem_children hbody)),
      Node.substitute_of_split (hserial.of_mem hmethod).numbered hsplit fun x hx hxb =>
        hother (Node.mem_preorder_trans hx hmethod) hxb,
      Node.substitute_of_eq_some hσ]
  have hreadable : root.placed.Readable := readable_of_errors_eq_nil herrors _ <| by
    rw [Tree.nodes_of_placed hplaced]
    exact root.placed.self_mem_preorder
  have hreadable' : root'.placed.Readable := readable_of_errors_eq_nil herrors' _ <| by
    rw [Tree.nodes_of_placed hplaced']
    exact root'.placed.self_mem_preorder
  obtain ⟨s, hs, hbare, hsid⟩ := exists_of_frames hrootEq hreadable hrootKind hkind
    ((Node.kind_map _ body).trans hblock)
  obtain ⟨s', hs', hbare', hsid'⟩ := exists_of_frames hrootEq' hreadable' hrootKind' hkind hgKind
  have hsame : s'.bareFile = s.bareFile := hbare'.trans hbare.symm
  refine ⟨s, s', by rw [hplaced, hs], by rw [hplaced', hs'], ?_, hsame, ?_⟩
  · refine s.serial.numbered.eq_of_id_eq s.holds.around.mem.2 (by rwa [hs]) ?_
    rw [hsid, hid, Node.id_placed, Nat.zero_add]
  · refine s.bareSerial.numbered.eq_of_id_eq (hsame ▸ s'.holds.around.mem.1) s.holds.around.mem.1 ?_
    rw [← s.methodId, ← s'.methodId, hsid, hsid']

end BodySite

/-- Two files without errors that differ in the body of one method or constructor have the same
findings outside of it: one to one, at the same place, about the same operator and for the same
reason. -/
theorem check_outside_method {file text text' : String} (options : AnalysisOptions)
    {method body : Placed} {fragment : Tree}
    (herrors : (parse file text).errors = []) (herrors' : (parse file text').errors = [])
    (hmethod : method ∈ (parse file text).tree.nodes)
    (hkind : method.kind = .methodDeclaration ∨ method.kind = .constructorDeclaration)
    (hbody : body ∈ method.children) (hblock : body.kind = .block)
    (hfragment : fragment.root.map Node.kind = some .block)
    (hreplace : (parse file text).tree.replace body.id fragment = some (parse file text').tree) :
    ∃ method', (parse file text').tree.node? method.id = some method' ∧
      method'.kind = method.kind ∧
      (((parse file text).tree.check options).filterMap (Finding.outside? method)).Perm
        (((parse file text').tree.check options).filterMap (Finding.outside? method')) := by
  obtain ⟨s, s', hroot, hroot', rfl, hfile, hbare⟩ :=
    BodySite.exists_sites herrors herrors' hmethod hkind hbody hblock hfragment hreplace
  have hbeside (x : Placed) : s'.Beside x ↔ s.Beside x := by
    rw [BodySite.Beside, BodySite.Beside, hfile, hbare]
  refine ⟨s'.method, Tree.node?_eq_some_iff.2 ⟨?_, ?_⟩, ?_, ?_⟩
  · rw [Tree.nodes_of_placed hroot']
    exact s'.holds.around.mem.2
  · rw [s'.methodId, hbare, s.methodId]
  · rw [s'.emptied.kind, hbare, s.emptied.kind]
  cases henabled : options.rule.enabled with
  | false => simp [Tree.check, henabled]
  | true =>
    refine (List.perm_ext_iff_of_nodup (nodup_outside_check hroot henabled)
      (nodup_outside_check hroot' henabled)).2 ?_
    rintro ⟨p, operator, reason⟩
    rw [mem_outside_check_iff hroot henabled herrors, s.judges_outside_iff,
      mem_outside_check_iff hroot' henabled herrors', s'.judges_outside_iff, hfile, hbare]
    simp only [hbeside]

theorem Tree.injective_parts : Function.Injective fun t : Tree => (t.file, t.root) := by
  rintro ⟨file, root⟩ ⟨file', root'⟩ h
  simpa using h

/-- What one constructor does with an `x` of its own does not change what is found in the other. -/
theorem check_outside_constructor :
    let r := parse "" "class C { C() { } C(int x) { x!.f(); } }"
    let r' := parse "" "class C { C() { T x = y!; } C(int x) { x!.f(); } }"
    let found := [(OuterPosition.behind 14, NullOperator.nullAssertion, Reason.valueType)]
    ∃ method method', r.tree.node? 5 = some method ∧ r'.tree.node? 5 = some method' ∧
      (r.tree.check {}).filterMap (Finding.outside? method) = found ∧
      (r'.tree.check {}).filterMap (Finding.outside? method') = found := by
  intro r r' found
  let n (k : Nat) : Placed := (r.tree.node? k).getD default
  let fragment : Tree := (r'.tree.extract 10).getD default
  have hreplace : r.tree.replace (n 10).id fragment = some r'.tree :=
    Option.map_injective Tree.injective_parts (by decide +kernel)
  obtain ⟨method', hmethod', -, hperm⟩ := @check_outside_method "" _ _ {} (n 5) (n 10) fragment
    (by decide +kernel : r.errors = []) (by decide +kernel : r'.errors = []) (by decide +kernel)
    (by decide +kernel) (by decide +kernel) (by decide +kernel) (by decide +kernel) hreplace
  have hid : (n 5).id = 5 := by decide +kernel
  have hfound : (r.tree.check {}).filterMap (Finding.outside? (n 5)) = found := by decide +kernel
  rw [hid] at hmethod'
  rw [hfound] at hperm
  exact ⟨n 5, method', by decide +kernel, hmethod', hfound, (List.singleton_perm.1 hperm).symm⟩

end NullLint
