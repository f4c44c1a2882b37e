import NullLint.Proofs.Check.Reports
import NullLint.Proofs.Semantics.EmbeddedAssignment
import NullLint.Proofs.Semantics.EmbeddedNullState
import NullLint.Proofs.Semantics.Scoping

/-!
# Without the nullable context

Without a nullable context the model of a file knows less: reference types lose their marks. Every
finding of such a run is also a finding of the run with the nullable context, though perhaps for
another reason.
-/

namespace NullLint

/-- A type as it is outside a nullable context. -/
def TypeFacts.unmarked : TypeFacts → TypeFacts
  | .reference _ => .reference .unannotated
  | t => t

theorem TypeFacts.keepsSort_unmarked : TypeFacts.KeepsSort TypeFacts.unmarked where
  value := rfl
  nullableValue := rfl
  reference _ := rfl

/-- What types without marks show to be not null, they show with their marks. -/
theorem Verdict.Coarser.notNull {v v' : Verdict} (h : v.Coarser TypeFacts.unmarked v')
    (hv : v = .notNull) : v' = .notNull := by
  cases h with
  | same => exact hv
  | ofType t =>
    rcases t with _ | _ | _ | mark
    · cases hv
    · rfl
    · cases hv
    · cases hv

/-- A file inside itself. -/
def Embedding.refl : Embedding where
  place p := p
  node i := i
  symbol x := x
  id_place _ := rfl
  node_injective _ _ h := h
  symbol_injective _ _ h := h

@[simp]
theorem Embedding.map_refl (n : Placed) : n.map Embedding.refl.place = n := n.map_self

@[simp]
theorem Embedding.onSymbol_refl (s : Symbol) : Embedding.refl.onSymbol s = s := by
  have hid : Node.map Embedding.refl.place = id := funext Embedding.map_refl
  rw [Embedding.onSymbol, hid, Option.map_id]
  rfl

@[simp]
theorem Embedding.onRegion_refl (flow : RegionFlow) : Embedding.refl.onRegion flow = flow := by
  simp [Embedding.onRegion, Embedding.refl]

namespace Model

variable (root : Option Placed)

/-- The model without the nullable context is that with it, but for the marks of types. -/
theorem embeds_build : (build root false).Embeds .refl TypeFacts.unmarked (build root true) := by
  let b := Bindings.ofRoot root
  have hwritten : (written root b ⟨structs b, false⟩).Embeds .refl TypeFacts.unmarked
      (written root b ⟨structs b, true⟩) :=
    embeds_written (fun i => by simp [Embedding.refl])
      (fun x => by
        have hid : Embedding.refl.onSymbol = id := funext Embedding.onSymbol_refl
        rw [hid, Option.map_id]
        rfl)
      ⟨TypeFacts.keepsSort_unmarked, rfl, fun nullable => rfl⟩
  have hfold := hwritten.foldl_inferAt (List.range b.symbols.length)
  simpa [build_eq, Embedding.refl] using hfold

theorem covers_build : (build root false).Covers .refl (fun _ => True) (build root true) where
  below _ _ := trivial
  ancestors {n} _ := by
    have hsame : (build root true).ancestors (n.map Embedding.refl.place) =
        (build root false).ancestors n := by
      simp [Model.ancestors]
    rw [hsame, List.forall₂_same]
    intro p _
    simpa using Outer.same (e := .refl) (D := fun _ => True) (n := p) trivial

theorem node?_build (nullable : Bool) (id : Nat) :
    (build root nullable).node? id = (root.bind fun r => r.path? id).bind List.head? := by
  simp [Model.node?]

theorem typeOf_host (id : Nat) : (build root false).host.typeOf id =
    ((build root true).host.typeOf id).map TypeFacts.unmarked := by
  simp only [Model.host, node?_build]
  cases (root.bind fun r => r.path? id).bind List.head? with
  | none => rfl
  | some n => simpa using (embeds_build root).typeOf_map n

theorem symbolOf_host (id : Nat) :
    (build root false).host.symbolOf id = (build root true).host.symbolOf id := by
  simp [Model.host, node?_build, Model.symbolAt]

theorem nullState_host (id : Nat) (scope : Option Nat) :
    ((build root false).host.nullState id scope).Coarser TypeFacts.unmarked
      ((build root true).host.nullState id scope) := by
  simp only [Model.host, node?_build]
  cases (root.bind fun r => r.path? id).bind List.head? with
  | none =>
    rw [Option.map_none, Option.map_none]
    exact .same _
  | some n =>
    have hstate := (embeds_build root).nullState_map (covers_build root) (n := n) trivial
    rw [Embedding.map_refl] at hstate
    exact hstate

theorem regionFlow_host (region : Nat) :
    (build root false).host.regionFlow region = (build root true).host.regionFlow region := by
  simp only [Model.host, node?_build]
  cases (root.bind fun r => r.path? region).bind List.head? with
  | none => rfl
  | some n =>
    have hflow := (embeds_build root).regionFlow?_map n
    have hid : Embedding.refl.onRegion = id := funext Embedding.onRegion_refl
    rw [Embedding.map_refl, hid, Option.map_id] at hflow
    exact hflow.symm

end Model

namespace Tree

variable {t : Tree} {options : AnalysisOptions} {signal : Signal}

/-- What is proved without the nullable context is proved with it for the same reason. -/
theorem proves_with_context {operand scope : Placed} {reason : Reason}
    (h : (t.checker { options with nullableContext := false } signal).Proves operand scope reason) :
    (t.checker { options with nullableContext := true } signal).Proves operand scope reason := by
  have htype := Model.typeOf_host t.placed operand.id
  have hreference {mark : NullMark}
      (hoff : (Model.build t.placed false).host.typeOf operand.id = some (.reference mark)) :
      ∃ mark', (Model.build t.placed true).host.typeOf operand.id = some (.reference mark') := by
    rw [hoff] at htype
    rcases hon : (Model.build t.placed true).host.typeOf operand.id with _ | _ | _ | mark'
    · simp [hon] at htype
    · simp [hon, TypeFacts.unmarked] at htype
    · simp [hon, TypeFacts.unmarked] at htype
    · exact ⟨mark', rfl⟩
  cases h with
  | valueType type =>
    have type : (Model.build t.placed false).host.typeOf operand.id = some .value := type
    rw [type] at htype
    refine .valueType ?_
    show (Model.build t.placed true).host.typeOf operand.id = some .value
    rcases hon : (Model.build t.placed true).host.typeOf operand.id with _ | facts
    · simp [hon] at htype
    · rw [hon, Option.map_some, Option.some.injEq, eq_comm,
        TypeFacts.keepsSort_unmarked.eq_value_iff] at htype
      rw [htype]
  | flow type state =>
    obtain ⟨mark', hon⟩ := hreference type
    exact .flow hon ((Model.nullState_host t.placed operand.id (some scope.id)).notNull state)
  | localAssignment type option bare symbol region assigned inside =>
    obtain ⟨mark', hon⟩ := hreference type
    exact .localAssignment hon option bare ((Model.symbolOf_host _ _).symm.trans symbol)
      ((Model.regionFlow_host _ _).symm.trans region) assigned inside

/-- A finding without the nullable context is there with it, perhaps for another reason. -/
theorem exists_finding_with_context {file text : String} {f : Finding}
    (hf : f ∈ (parse file text).tree.check { options with nullableContext := false }) :
    ∃ g ∈ (parse file text).tree.check { options with nullableContext := true },
      g = { f with reason := g.reason } := by
  cases henabled : options.rule.enabled with
  | false => simp [check, henabled] at hf
  | true =>
    obtain ⟨hraw, hsound⟩ := (mem_check_iff _ { options with nullableContext := false } henabled).1 hf
    have hroot := congrArg (Option.map Node.placed) (root_parse file text)
    have hoff : ((parse file text).tree.checker { options with nullableContext := false }
      .never).OnTree _ := Checker.onTree_of_parse hroot hroot henabled rfl
    have hon : ((parse file text).tree.checker { options with nullableContext := true }
      .never).OnTree _ := Checker.onTree_of_parse hroot hroot henabled rfl
    obtain ⟨n, hn, above, scope, operand, mark, operator, reason, hpath, hscope, hop, hfirst, rfl⟩ :=
      hoff.mem_checkTree_iff.1 hraw
    obtain ⟨first, hproves⟩ := (proves_with_context hfirst.1).exists_first
    let on : Checker := (parse file text).tree.checker { options with nullableContext := true } .never
    have hg : on.report n operand mark above operator first ∈ on.checkTree.result :=
      hon.mem_checkTree_iff.2 ⟨n, hn, above, scope, operand, mark, operator, first, hpath, hscope,
        hop, hproves, rfl⟩
    exact ⟨on.report n operand mark above operator first,
      (mem_check_iff _ { options with nullableContext := true } henabled).2 ⟨hg, hsound⟩, rfl⟩

end Tree

/-- Every operator reported without the nullable context is reported with it. -/
theorem check_without_context_subset (file text : String) (options : AnalysisOptions) :
    ((parse file text).tree.check { options with nullableContext := false }).map Finding.node ⊆
      ((parse file text).tree.check { options with nullableContext := true }).map Finding.node := by
  intro node hnode
  obtain ⟨f, hf, rfl⟩ := List.mem_map.1 hnode
  obtain ⟨g, hg, hsame⟩ := Tree.exists_finding_with_context hf
  rw [hsame] at hg
  exact List.mem_map.2 ⟨_, hg, rfl⟩

end NullLint
