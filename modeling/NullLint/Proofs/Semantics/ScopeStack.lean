import NullLint.Proofs.Semantics.Inference

/-!
# Scopes mirror the tree

A tree can be bound without recursion, with a list of what is still to be done and one current
scope (`Binder`). A node that opens a scope makes it the current one and puts what is below it on
the list, with the end of the scope behind it. A scope knows the one around it, so that names are
looked up along these links and the end of a scope goes back along them.

The links follow the tree: the scope that a node opens lies in the scope of the nearest node around
it that opens one (`scopes_mirror_tree`).
-/

namespace NullLint

namespace Bindings

open Node (Descends)

variable {b b' : Bindings} {root n c : Placed} {above : List Placed} {current : Option Nat}

/-! ## Links -/

/-- The scope around a scope. -/
def parent? (b : Bindings) (i : Nat) : Option Nat := b.scopes[i]?.bind Scope.parent

/-- A scope and the scopes around it, innermost first. Links lead to earlier scopes. -/
def around (b : Bindings) (i : Nat) : List Nat :=
  i :: match b.parent? i with
    | some p => if p < i then b.around p else []
    | none => []
termination_by i

/-- The scopes in which a name is looked up. -/
def openScopes (b : Bindings) (current : Option Nat) : List Nat := current.elim [] b.around

theorem head?_openScopes : (b.openScopes current).head? = current := by
  cases current with
  | none => rfl
  | some i =>
    rw [openScopes, Option.elim_some, around]
    rfl

/-! ## The work list -/

/-- What is still to be done. -/
inductive Task where
  | visit (n : Placed)
  /-- Declare a local of a declared type. -/
  | declareLocal (type : Option Placed) (d : Placed)
  | exitScope

/-- The bindings made so far, the scope that the next name belongs to, and what is still to be
done. -/
structure Binder where
  bindings : Bindings
  current : Option Nat
  work : List Task

/-- What is to be done below a node. -/
def tasks (n : Placed) : List Task :=
  match n.kind with
  | .localDeclarationStatement => n.variableDeclaration?.toList.flatMap fun v =>
      v.declarators.flatMap fun d =>
        d.initializer?.toList.map .visit ++ [.declareLocal (some v.type) d]
  | .identifierName => []
  | _ => (boundParts n).map .visit

namespace Binder

/-- One task. A node that opens a scope declares what belongs to it at once; the end of the scope
comes behind the tasks below the node. -/
def step (s : Binder) : Option Binder :=
  let chain := s.bindings.openScopes s.current
  match s.work with
  | [] => none
  | .exitScope :: rest => some { s with current := s.current.bind s.bindings.parent?, work := rest }
  | .declareLocal type d :: rest =>
    some { s with
      bindings := s.bindings.declareVariable chain .localVariable type d
      work := rest }
  | .visit n :: rest =>
    if n.kind.opensScope then
      let (chain, opened) := s.bindings.openScope n.kind.scopeKind chain n.id
      some
        { bindings := declareAll chain opened (scopeSymbols n)
          current := chain.head?
          work := tasks n ++ .exitScope :: rest }
    else
      some { s with
        bindings := if n.kind = .identifierName then s.bindings.bindName chain n else s.bindings
        work := tasks n ++ rest }

/-- The node that the next task visits. -/
def visited (s : Binder) : List Placed :=
  match s.work with
  | .visit n :: _ => [n]
  | _ => []

/-- Task after task, with the nodes visited on the way. -/
inductive Runs : Binder → List Placed → Binder → Prop
  | done (s : Binder) : Runs s [] s
  | step {s s' s'' : Binder} {ns : List Placed} (h : s.step = some s') (rest : Runs s' ns s'') :
      Runs s (s.visited ++ ns) s''

theorem Runs.trans {s s' s'' : Binder} {ns ns' : List Placed} (h : Runs s ns s')
    (h' : Runs s' ns' s'') : Runs s (ns ++ ns') s'' := by
  induction h with
  | done => exact h'
  | step h rest ih =>
    rw [List.append_assoc]
    exact .step h (ih h')

end Binder

/-! ## Binding task by task -/

/-- What a task does inside the scopes `chain`. -/
def does (chain : List Nat) (b : Bindings) : Task → Bindings
  | .visit n => bind chain n b
  | .declareLocal type d => b.declareVariable chain .localVariable type d
  | .exitScope => b

theorem tasks_eq_visits (hname : n.kind ≠ .identifierName)
    (hlocal : n.kind ≠ .localDeclarationStatement) : tasks n = (boundParts n).map .visit := by
  unfold tasks
  split
  · contradiction
  · contradiction
  · rfl

theorem bind_eq_tasks_of_opensScope (hk : n.kind.opensScope = true) (chain : List Nat)
    (b : Bindings) : bind chain n b = (tasks n).foldl (does (b.scopes.length :: chain))
      (declareAll (b.scopes.length :: chain) (b.openScope n.kind.scopeKind chain n.id).2
        (scopeSymbols n)) := by
  have hname : n.kind ≠ .identifierName := by
    intro h
    simp [h, Kind.opensScope] at hk
  have hlocal : n.kind ≠ .localDeclarationStatement := by
    intro h
    simp [h, Kind.opensScope] at hk
  rw [bind_scope hk, tasks_eq_visits hname hlocal, List.foldl_map]
  rfl

theorem bind_eq_tasks (hk : n.kind.opensScope = false) (chain : List Nat) (b : Bindings) :
    bind chain n b = (tasks n).foldl (does chain)
      (if n.kind = .identifierName then b.bindName chain n else b) := by
  by_cases hname : n.kind = .identifierName
  · rw [bind_name hname, if_pos hname]
    simp [tasks, hname]
  rw [if_neg hname]
  by_cases hlocal : n.kind = .localDeclarationStatement
  · rw [bind_local hlocal]
    simp only [tasks, hlocal]
    cases n.variableDeclaration? with
    | none => rfl
    | some v =>
      simp only [Option.elim_some, Option.toList_some, List.flatMap_cons, List.flatMap_nil,
        List.append_nil, List.foldl_flatMap, List.foldl_append, List.foldl_map, List.foldl_cons,
        List.foldl_nil, does, bindAll, declareVariable_eq_declareAll]
  · rw [bind_other hk hname hlocal, tasks_eq_visits hname hlocal, List.foldl_map]
    rfl

/-! ## Scopes without names -/

/-- The scopes without the names in them. -/
def frames (b : Bindings) : List Scope := b.scopes.map fun s => { s with names := [] }

@[simp]
theorem length_frames (b : Bindings) : b.frames.length = b.scopes.length := by
  simp [frames]

theorem parent?_eq (b : Bindings) (i : Nat) : b.parent? i = b.frames[i]?.bind Scope.parent := by
  rw [parent?, frames, List.getElem?_map]
  cases b.scopes[i]? <;> rfl

theorem map_frames {α : Type} {f : Scope → α} (hf : ∀ s, f { s with names := [] } = f s)
    (b : Bindings) : b.frames.map f = b.scopes.map f := by
  simp [frames, hf]

@[simp]
theorem frames_openScope (b : Bindings) (kind : ScopeKind) (chain : List Nat) (i : Nat) :
    (b.openScope kind chain i).2.frames = b.frames ++ [⟨kind, chain.head?, i, []⟩] := by
  simp [openScope, frames]

@[simp]
theorem frames_declare (b : Bindings) (chain : List Nat) (s : Symbol) :
    (b.declare chain s).frames = b.frames := by
  cases chain with
  | nil => rfl
  | cons i outer =>
    refine List.ext_getElem? fun j => ?_
    simp only [frames, declare, List.getElem?_map, List.getElem?_modify]
    cases b.scopes[j]? with
    | none => rfl
    | some scope => by_cases hij : i = j <;> simp [hij, Scope.declare]

@[simp]
theorem frames_declareAll (b : Bindings) (chain : List Nat) (ss : List Symbol) :
    (b.declareAll chain ss).frames = b.frames := by
  induction ss generalizing b with
  | nil => rfl
  | cons s ss ih => exact (ih _).trans (frames_declare b chain s)

@[simp]
theorem frames_bindName (b : Bindings) (chain : List Nat) (n : Placed) :
    (b.bindName chain n).frames = b.frames := by
  unfold bindName
  split
  · rfl
  · split <;> rfl

theorem getElem?_frames (h : b.frames <+: b'.frames) {i : Nat} (hi : i < b.scopes.length) :
    b'.frames[i]? = b.frames[i]? := by
  obtain ⟨new, hnew⟩ := h
  rw [← hnew, List.getElem?_append_left (by simpa using hi)]

theorem parent?_congr (h : b.frames <+: b'.frames) {i : Nat} (hi : i < b.scopes.length) :
    b'.parent? i = b.parent? i := by
  rw [parent?_eq, parent?_eq, getElem?_frames h hi]

/-- New scopes leave the links of the old ones alone. -/
theorem around_congr (h : b.frames <+: b'.frames) {i : Nat} (hi : i < b.scopes.length) :
    b'.around i = b.around i := by
  induction i using Nat.strong_induction_on with
  | h i ih =>
    rw [around, around, parent?_congr h hi]
    cases b.parent? i with
    | none => rfl
    | some p =>
      by_cases hp : p < i
      · simp only [if_pos hp, ih p hp (hp.trans hi)]
      · simp only [if_neg hp]

theorem openScopes_congr (h : b.frames <+: b'.frames) (hi : ∀ i ∈ current, i < b.scopes.length) :
    b'.openScopes current = b.openScopes current := by
  cases current with
  | none => rfl
  | some i => exact around_congr h (hi i rfl)

/-! ## Links and ancestors -/

/-- The scope is the one of the nearest of these nodes that opens one. -/
def ScopeOf (b : Bindings) (current : Option Nat) (above : List Placed) : Prop :=
  (current.map fun i => b.frames[i]?.map Scope.node) =
    (above.find? fun a => a.kind.opensScope).map fun a => some a.id

theorem ScopeOf.lt_length (h : b.ScopeOf current above) {i : Nat} (hi : i ∈ current) :
    i < b.scopes.length := by
  obtain rfl := Option.mem_def.1 hi
  rw [ScopeOf, Option.map_some] at h
  obtain ⟨a, -, ha⟩ := Option.map_eq_some_iff.1 h.symm
  obtain ⟨s, hs, -⟩ := Option.map_eq_some_iff.1 ha.symm
  simpa using (List.getElem?_eq_some_iff.1 hs).1

theorem ScopeOf.mono (h : b.ScopeOf current above) (hframes : b.frames <+: b'.frames) :
    b'.ScopeOf current above := by
  cases hc : current with
  | none =>
    subst hc
    exact h
  | some i =>
    have hi := h.lt_length hc
    subst hc
    rw [ScopeOf, ← h, Option.map_some, Option.map_some, getElem?_frames hframes hi]

section Opened

variable {kind : ScopeKind} {i : Nat} (hframes : b.frames ++ [⟨kind, current, i, []⟩] <+: b'.frames)
include hframes

theorem getElem?_opened : b'.frames[b.scopes.length]? = some ⟨kind, current, i, []⟩ := by
  obtain ⟨new, hnew⟩ := hframes
  simp [← hnew, ← length_frames]

/-- The scope around a new scope is the one that was the current one. -/
theorem parent?_opened : b'.parent? b.scopes.length = current := by
  rw [parent?_eq, getElem?_opened hframes]
  rfl

theorem openScopes_opened (hcurrent : ∀ p ∈ current, p < b.scopes.length) :
    b'.openScopes (some b.scopes.length) = b.scopes.length :: b.openScopes current := by
  have hprefix : b.frames <+: b'.frames := (List.prefix_append _ _).trans hframes
  rw [openScopes, Option.elim_some, around, parent?_opened hframes]
  cases current with
  | none => rfl
  | some p =>
    have hp : p < b.scopes.length := hcurrent p rfl
    simp only [if_pos hp, around_congr hprefix hp]
    rfl

end Opened

/-- Scopes were opened for the nodes visited so far that open one, in the order of the visits, each
in the scope of the nearest node around it. -/
structure Mirrors (root : Placed) (visited : List Placed) (b : Bindings) : Prop where
  opened : b.frames.map (fun s => (s.kind, s.node)) =
    (visited.filter fun n => n.kind.opensScope).map fun n => (n.kind.scopeKind, n.id)
  linked : ∀ s ∈ b.frames, ∃ n above, Descends root [] (n :: above) ∧ s.node = n.id ∧
    b.ScopeOf s.parent above

namespace Mirrors

variable {visited : List Placed}

theorem empty (root : Placed) : Mirrors root [] {} where
  opened := rfl
  linked s hs := by cases hs

theorem congr (h : Mirrors root visited b) (hframes : b'.frames = b.frames) :
    Mirrors root visited b' where
  opened := by rw [hframes, h.opened]
  linked s hs := by
    obtain ⟨n, above, hpath, hnode, hscope⟩ := h.linked s (hframes ▸ hs)
    exact ⟨n, above, hpath, hnode, hscope.mono (by rw [hframes])⟩

theorem visit (h : Mirrors root visited b) (hk : n.kind.opensScope = false) :
    Mirrors root (visited ++ [n]) b where
  opened := by rw [h.opened, List.filter_append, List.filter_singleton, hk]; simp
  linked := h.linked

theorem openScope (h : Mirrors root visited b) (hk : n.kind.opensScope = true)
    (hpath : Descends root [] (n :: above)) (hscope : b.ScopeOf current above) :
    Mirrors root (visited ++ [n])
      (b.openScope n.kind.scopeKind (b.openScopes current) n.id).2 where
  opened := by
    rw [frames_openScope, List.map_append, h.opened, List.filter_append, List.filter_singleton, hk]
    simp
  linked s hs := by
    have hprefix : b.frames <+:
        (b.openScope n.kind.scopeKind (b.openScopes current) n.id).2.frames := by simp
    rw [frames_openScope, List.mem_append, List.mem_singleton] at hs
    rcases hs with hs | rfl
    · obtain ⟨m, outer, hpath, hnode, hscope⟩ := h.linked s hs
      exact ⟨m, outer, hpath, hnode, hscope.mono hprefix⟩
    · refine ⟨n, above, hpath, rfl, ?_⟩
      rw [head?_openScopes]
      exact hscope.mono hprefix

end Mirrors

/-! ## What is visited below a node -/

/-- The way from `n` down to `c` passes no other node that opens a scope. -/
def Within (n c : Placed) : Prop :=
  ∃ between, (∀ above, Descends n above (c :: (between ++ n :: above))) ∧
    ∀ m ∈ between, m.kind.opensScope = false

namespace Within

theorem child (hc : c ∈ n.children) : Within n c :=
  ⟨[], fun _ => .down hc (.here _ _), by simp⟩

/-- By a child that opens no scope. -/
theorem through {d : Placed} (hd : d ∈ n.children) (hk : d.kind.opensScope = false)
    (h : Within d c) : Within n c := by
  obtain ⟨between, hpath, hbetween⟩ := h
  refine ⟨between ++ [d], fun above => ?_, ?_⟩
  · rw [List.append_assoc]
    exact .down hd (hpath (n :: above))
  · simpa [or_imp, forall_and, hk] using hbetween

/-- The scope of the nearest node above stays the same. -/
theorem scopeOf (h : Within n c) (hpath : Descends root [] (n :: above))
    (hscope : b.ScopeOf current (n :: above)) :
    ∃ outer, Descends root [] (c :: outer) ∧ b.ScopeOf current outer := by
  obtain ⟨between, hdown, hbetween⟩ := h
  refine ⟨between ++ n :: above, hpath.trans (hdown above), ?_⟩
  have hnone : (between.find? fun a => a.kind.opensScope) = none := by simpa using hbetween
  rw [ScopeOf, List.find?_append, hnone, Option.none_or]
  exact hscope

theorem initializer {d e : Placed} (hd : d ∈ n.children) (hk : d.kind = .variableDeclarator)
    (he : d.initializer? = some e) : Within n e := by
  obtain ⟨clause, hclause, hck, -, he⟩ := Node.initializer?_eq_some he
  exact .through hd (by rw [hk]; rfl)
    (.through hclause (by rw [hck]; rfl) (.child (List.mem_of_getElem? he)))

theorem part (hc : c ∈ parts n) : Within n c := by
  unfold parts at hc
  split at hc
  · cases hv : n.memberAccess? with
    | none => simp [hv] at hc
    | some v =>
      obtain ⟨-, rest, hchildren⟩ := Node.memberAccess?_eq_some hv
      obtain rfl : c = v.expression := by simpa [hv] using hc
      exact .child (by simp [hchildren])
  · cases hv : n.creation? with
    | none => simp [hv] at hc
    | some v =>
      obtain ⟨-, hargs⟩ := Node.creation?_eq_some hv
      cases hl : n.childOfKind? .argumentList with
      | none => simp [hv, hargs, hl] at hc
      | some list =>
        obtain ⟨hlist, hlk⟩ := Node.childOfKind?_eq_some hl
        simp only [hv, hargs, hl, Option.map_some, Option.getD_some] at hc
        exact .through hlist (by rw [hlk]; rfl) (.child (List.mem_filter.1 hc).1)
  · cases hc
  · split at hc
    · cases hc
    · exact .child (List.mem_filter.1 hc).1

theorem boundPart (hc : c ∈ boundParts n) : Within n c := by
  unfold boundParts at hc
  split at hc
  case h_1 | h_2 | h_5 | h_6 | h_7 | h_8 | h_10 => exact .child (List.mem_filter.1 hc).1
  case h_3 | h_4 =>
    obtain ⟨v, hv, hc⟩ := List.mem_flatMap.1 hc
    exact .child (mem_children_of_body (Option.mem_toList.1 hv) (Option.mem_toList.1 hc))
  case h_9 =>
    obtain ⟨v, hv, hc⟩ := List.mem_flatMap.1 hc
    obtain ⟨d, hd, he⟩ := List.mem_filterMap.1 hc
    obtain ⟨hd, hk⟩ := Node.mem_declarators (Option.mem_toList.1 hv) hd
    exact .initializer hd hk he
  case h_11 => exact part hc

end Within

/-- A visit below a node is of a smaller one, and no scope lies between the two. -/
theorem below_of_mem_tasks (h : .visit c ∈ tasks n) : c.size < n.size ∧ Within n c := by
  unfold tasks at h
  split at h
  · obtain ⟨v, hv, h⟩ := List.mem_flatMap.1 h
    obtain ⟨d, hd, h⟩ := List.mem_flatMap.1 h
    obtain ⟨hd, hk⟩ := Node.mem_declarators (Option.mem_toList.1 hv) hd
    have he : d.initializer? = some c := by simpa using h
    exact ⟨(initializer_below hd he).2, .initializer hd hk he⟩
  · cases h
  · have hc : c ∈ boundParts n := by simpa using h
    exact ⟨(boundParts_below hc).2, .boundPart hc⟩

theorem exitScope_notMem_tasks (n : Placed) : .exitScope ∉ tasks n := by
  unfold tasks
  split <;> simp

/-- The nodes that a task goes through. -/
def Task.nodes : Task → List Placed
  | .visit n => n.preorder
  | _ => []

theorem flatMap_nodes_sublist (n : Placed) : ((tasks n).flatMap Task.nodes).Sublist n.preorder := by
  unfold tasks
  split
  · cases hv : n.variableDeclaration? with
    | none => simp
    | some v =>
      have hsub := (flatMap_initializers_sublist v.declarators).trans
        (flatMap_children_sublist (sublist_declarators hv))
      simpa [List.flatMap_assoc, List.filterMap_eq_flatMap_toList, List.flatMap_map,
        Task.nodes] using hsub
  · simp
  · rw [List.flatMap_map]
    exact sublist_boundParts n

/-- What is gone through below a node comes behind it, side by side. -/
theorem cons_flatMap_nodes_sublist (n : Placed) :
    (n :: (tasks n).flatMap Task.nodes).Sublist n.preorder := by
  obtain ⟨below, hbelow⟩ := n.preorder_eq_cons
  have hsub := flatMap_nodes_sublist n
  rw [hbelow, List.sublist_cons_iff] at hsub
  rw [hbelow]
  refine hsub.elim (.cons_cons n) fun ⟨r, hr, _⟩ => ?_
  have hn : n ∈ (tasks n).flatMap Task.nodes := by simp [hr]
  obtain ⟨t, ht, hn⟩ := List.mem_flatMap.1 hn
  cases t with
  | visit c =>
    have hle : n.size ≤ c.size := (Node.preorder_sublist hn).length_le
    exact absurd (below_of_mem_tasks ht).1 hle.not_gt
  | _ => cases hn

/-! ## Runs -/

/-- Below the nodes `above`, the tasks do what binding does and mirror the tree. Whatever else is to
be done, they are done at some time; the current scope is then as before, the nodes visited are
among those that the tasks go through, in order, and the scopes opened are theirs. -/
def Mirror (root : Placed) (above : List Placed) (ts : List Task) : Prop :=
  ∀ (b : Bindings) (current : Option Nat) (before : List Placed) (rest : List Task),
    Mirrors root before b → b.ScopeOf current above →
      ∃ visited b', b' = ts.foldl (does (b.openScopes current)) b ∧
        Binder.Runs ⟨b, current, ts ++ rest⟩ visited ⟨b', current, rest⟩ ∧
        visited.Sublist (ts.flatMap Task.nodes) ∧ b.frames <+: b'.frames ∧
        Mirrors root (before ++ visited) b'

namespace Mirror

variable {ts : List Task} {t : Task}

theorem nil : Mirror root above [] := fun b current before rest hb _ =>
  ⟨[], b, rfl, .done _, .slnil, List.prefix_rfl, by simpa using hb⟩

theorem cons (ht : Mirror root above [t]) (hts : Mirror root above ts) :
    Mirror root above (t :: ts) := by
  intro b current before rest hb hscope
  obtain ⟨visited, b₁, heq, hruns, hsub, hprefix, hb₁⟩ := ht b current before (ts ++ rest) hb hscope
  obtain ⟨visited', b', heq', hruns', hsub', hprefix', hb'⟩ :=
    hts b₁ current _ rest hb₁ (hscope.mono hprefix)
  refine ⟨visited ++ visited', b', ?_, hruns.trans hruns', ?_, hprefix.trans hprefix', ?_⟩
  · rw [openScopes_congr hprefix fun i hi => hscope.lt_length hi] at heq'
    rw [heq', heq]
    rfl
  · simpa using hsub.append hsub'
  · rwa [List.append_assoc] at hb'

theorem all (h : ∀ t ∈ ts, Mirror root above [t]) : Mirror root above ts := by
  induction ts with
  | nil => exact nil
  | cons t ts ih => exact (h t (by simp)).cons (ih fun u hu => h u (by simp [hu]))

theorem declareLocal (type : Option Placed) (d : Placed) :
    Mirror root above [.declareLocal type d] := by
  intro b current before rest hb _
  have hframes : (does (b.openScopes current) b (.declareLocal type d)).frames = b.frames := by
    rw [does, declareVariable_eq_declareAll, frames_declareAll]
  exact ⟨[], _, rfl, .step rfl (.done _), by simp, by simp [hframes],
    by simpa using hb.congr hframes⟩

/-- A node that opens no scope. -/
theorem visit_plain (hk : n.kind.opensScope = false) (h : Mirror root (n :: above) (tasks n)) :
    Mirror root above [.visit n] := by
  intro b current before rest hb hscope
  obtain ⟨b₁, hb₁⟩ : ∃ b₁, b₁ = if n.kind = .identifierName
      then b.bindName (b.openScopes current) n else b := ⟨_, rfl⟩
  have hframes : b₁.frames = b.frames := by
    rw [hb₁]
    split <;> simp
  have hprefix : b.frames <+: b₁.frames := by rw [hframes]
  have hscope' : b.ScopeOf current (n :: above) := by
    rwa [ScopeOf, List.find?_cons_of_neg (by simp [hk])]
  obtain ⟨visited, b', heq, hruns, hsub, hprefix', hmirrors⟩ :=
    h b₁ current (before ++ [n]) rest ((hb.visit hk).congr hframes) (hscope'.mono hprefix)
  have hstep : (Binder.mk b current (.visit n :: rest)).step =
      some ⟨b₁, current, tasks n ++ rest⟩ := by
    simp [Binder.step, hk, hb₁]
  refine ⟨n :: visited, b', ?_, .step hstep hruns, ?_, hprefix.trans hprefix', by
    simpa using hmirrors⟩
  · rw [heq, openScopes_congr hprefix fun i hi => hscope.lt_length hi, hb₁]
    exact (bind_eq_tasks hk _ b).symm
  · simpa [Task.nodes] using (hsub.cons_cons n).trans (cons_flatMap_nodes_sublist n)

/-- A node that opens a scope: the scope is the current one until the tasks below the node are
done. -/
theorem visit_scope (hk : n.kind.opensScope = true) (hpath : Descends root [] (n :: above))
    (h : Mirror root (n :: above) (tasks n)) : Mirror root above [.visit n] := by
  intro b current before rest hb hscope
  have hcurrent : ∀ p ∈ current, p < b.scopes.length := fun p hp => hscope.lt_length hp
  obtain ⟨b₁, hb₁⟩ : ∃ b₁, b₁ = declareAll (b.scopes.length :: b.openScopes current)
      (b.openScope n.kind.scopeKind (b.openScopes current) n.id).2 (scopeSymbols n) := ⟨_, rfl⟩
  have hframes : b₁.frames =
      (b.openScope n.kind.scopeKind (b.openScopes current) n.id).2.frames := by
    rw [hb₁, frames_declareAll]
  have hopened : b.frames ++ [⟨n.kind.scopeKind, current, n.id, []⟩] <+: b₁.frames := by
    rw [hframes, frames_openScope, head?_openScopes]
  have hprefix : b.frames <+: b₁.frames := (List.prefix_append _ _).trans hopened
  have hscope' : b₁.ScopeOf (some b.scopes.length) (n :: above) := by
    simp [ScopeOf, getElem?_opened hopened, hk]
  obtain ⟨visited, b', heq, hruns, hsub, hprefix', hmirrors⟩ := h b₁ (some b.scopes.length)
    (before ++ [n]) (.exitScope :: rest) ((hb.openScope hk hpath hscope).congr hframes) hscope'
  have hstep : (Binder.mk b current (.visit n :: rest)).step =
      some ⟨b₁, some b.scopes.length, tasks n ++ .exitScope :: rest⟩ := by
    simp [Binder.step, hk, hb₁, openScope]
  have hexit : (Binder.mk b' (some b.scopes.length) (.exitScope :: rest)).step =
      some ⟨b', current, rest⟩ := by
    simp [Binder.step, parent?_opened (hopened.trans hprefix')]
  refine ⟨n :: visited, b', ?_, ?_, ?_, hprefix.trans hprefix', by simpa using hmirrors⟩
  · rw [heq, openScopes_opened hopened hcurrent, hb₁]
    exact (bind_eq_tasks_of_opensScope hk _ b).symm
  · have hruns' := hruns.trans (.step hexit (.done _))
    rw [Binder.visited, List.append_nil, List.append_nil] at hruns'
    exact .step hstep hruns'
  · simpa [Task.nodes] using (hsub.cons_cons n).trans (cons_flatMap_nodes_sublist n)

/-- The nearest node above that opens a scope is the same below nodes that open none. -/
theorem within (h : Within n c) (hpath : Descends root [] (n :: above))
    (hvisit : ∀ outer, Descends root [] (c :: outer) → Mirror root outer [.visit c]) :
    Mirror root (n :: above) [.visit c] := by
  intro b current before rest hb hscope
  obtain ⟨outer, hpath', hscope'⟩ := h.scopeOf hpath hscope
  exact hvisit outer hpath' b current before rest hb hscope'

theorem visit (hpath : Descends root [] (n :: above)) : Mirror root above [.visit n] := by
  induction hsize : n.size using Nat.strong_induction_on generalizing n above with
  | h size ih =>
    subst hsize
    have htasks : Mirror root (n :: above) (tasks n) := all fun t ht => by
      cases t with
      | visit c =>
        obtain ⟨hsize, hwithin⟩ := below_of_mem_tasks ht
        exact within hwithin hpath fun outer hpath' => ih c.size hsize hpath' rfl
      | declareLocal type d => exact declareLocal type d
      | exitScope => exact absurd ht (exitScope_notMem_tasks n)
    cases hk : n.kind.opensScope with
    | false => exact visit_plain hk htasks
    | true => exact visit_scope hk hpath htasks

end Mirror

/-! ## Binding a file -/

theorem exists_root_parse (file text : String) :
    ∃ root, (parse file text).tree.placed = some root ∧ root.Numbered ∧
      root.kind = .compilationUnit := by
  obtain ⟨g, hg⟩ : ∃ g, (parse file text).tree.root = some g := ⟨_, rfl⟩
  have hkind : g.kind = .compilationUnit := by
    rw [← Option.some.inj hg]
    rfl
  refine ⟨g.placed, by rw [Tree.placed, hg]; rfl, g.numbered_placed, ?_⟩
  calc g.placed.kind = g.placed.erase.kind := (Node.kind_map _ _).symm
    _ = g.kind := by rw [Node.erase_placed]
    _ = .compilationUnit := hkind

theorem mirrors_ofRoot (root : Placed) : ∃ visited,
    Binder.Runs ⟨{}, none, [.visit root]⟩ visited ⟨ofRoot (some root), none, []⟩ ∧
      visited.Sublist root.preorder ∧ Mirrors root visited (ofRoot (some root)) := by
  obtain ⟨visited, b', heq, hruns, hsub, -, hmirrors⟩ :=
    Mirror.visit (.here root []) {} none [] [] (.empty root) rfl
  obtain rfl : b' = ofRoot (some root) := heq
  exact ⟨visited, hruns, by simpa [Task.nodes] using hsub, hmirrors⟩

/-- Just the root has nothing above it. -/
theorem find?_eq_none_iff (hnumbered : root.Numbered) (hk : root.kind.opensScope = true)
    (hpath : Descends root [] (n :: above)) :
    (above.find? fun a => a.kind.opensScope) = none ↔ n = root := by
  constructor
  · intro hnone
    by_contra hne
    obtain ⟨p, outer, rfl, -, -⟩ := hpath.exists_parent hne
    have hroot : root ∈ p :: outer := by
      obtain ⟨before, hbefore⟩ := hpath.suffix
      cases before with
      | nil => simp at hbefore
      | cons m before =>
        obtain ⟨-, hbefore⟩ := List.cons.inj hbefore
        simp [← hbefore]
    simpa [hk] using List.find?_eq_none.1 hnone root hroot
  · rintro rfl
    obtain ⟨-, rfl⟩ := List.cons.inj (hpath.eq_of_id_eq hnumbered (.here n []) rfl)
    rfl

/-- Whatever the text of a file, binding its tree with a work list comes to an end, with no current
scope; on the way nodes are visited in the order of the tree, each once at the most. For each node
visited that opens a scope, and for no other, there is one scope, in the order of the visits. The
scope around it is the one of the nearest node above that opens one, and just the scope of the root
has none around it. -/
theorem scopes_mirror_tree (file text : String) :
    let t := (parse file text).tree
    let b := Bindings.ofRoot t.placed
    ∃ root visited, t.placed = some root ∧
      Binder.Runs ⟨{}, none, [.visit root]⟩ visited ⟨b, none, []⟩ ∧
      visited.Sublist t.nodes ∧
      b.scopes.map (fun s => (s.kind, s.node)) =
        (visited.filter (fun n => n.kind.opensScope)).map (fun n => (n.kind.scopeKind, n.id)) ∧
      ∀ s ∈ b.scopes, ∃ n above, t.path? s.node = some (n :: above) ∧
        s.parent.map (fun p => b.scopes[p]?.map Scope.node) =
          (above.find? fun a => a.kind.opensScope).map (fun a => some a.id) ∧
        (s.parent = none ↔ n = root) := by
  intro t b
  obtain ⟨root, hroot, hnumbered, hkind⟩ := exists_root_parse file text
  obtain ⟨visited, hruns, hsub, hmirrors⟩ := mirrors_ofRoot root
  rw [← hroot] at hruns hmirrors
  refine ⟨root, visited, hroot, hruns, by rwa [Tree.nodes_of_placed hroot], ?_, fun s hs => ?_⟩
  · rw [← hmirrors.opened, map_frames fun _ => rfl]
  obtain ⟨n, above, hpath, hnode, hscope⟩ :=
    hmirrors.linked { s with names := [] } (List.mem_map_of_mem hs)
  have hlinks : s.parent.map (fun p => b.scopes[p]?.map Scope.node) =
      (above.find? fun a => a.kind.opensScope).map (fun a => some a.id) := by
    have hnodes (p : Nat) : b.frames[p]?.map Scope.node = b.scopes[p]?.map Scope.node := by
      rw [← List.getElem?_map, map_frames fun _ => rfl, List.getElem?_map]
    exact (congrArg (s.parent.map ·) (funext hnodes)).symm.trans hscope
  refine ⟨n, above, ?_, hlinks, ?_⟩
  · rw [show s.node = n.id from hnode]
    exact Tree.path?_of_descends hroot hnumbered hpath
  · rw [← find?_eq_none_iff hnumbered (by rw [hkind]; rfl) hpath, ← Option.map_eq_none_iff, hlinks,
      Option.map_eq_none_iff]

end Bindings

end NullLint
