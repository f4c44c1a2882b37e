import NullLint.Proofs.Semantics.AlwaysAssigned
import NullLint.Proofs.Syntax.Intervals
import Mathlib.Logic.Relation

/-!
# Layers in place of copies

What an expression reads and assigns can be told by plain recursion: the operands are gone through
in order of evaluation with the symbols assigned so far, and an operand that may not run is gone
through with a copy of them, which is thrown away behind it (`Model.copyingFlow`).

No set has to be copied for that. A layer above the symbols assigned so far does the same, and
layers can be kept in one growing list, each with a link to the layer below it, while a stack holds
what is still to be done in which layer (`FlowStack`). All three ways agree on every expression,
whatever is assigned before it.
-/

namespace NullLint

namespace Model

/-! ## Plain recursion -/

/-- Notes a read of a symbol that is neither declared in the region nor among those assigned. -/
def readPast (m : Model) (declared : List Nat) (assigned : Nat → Bool) (flowsIn : List Nat)
    (symbol : Nat) : List Nat :=
  if m.symbolIs symbol SymbolKind.isLocal && !assigned symbol && !declared.contains symbol then
    flowsIn.insert symbol
  else
    flowsIn

/-- Reads and assignments of an expression: what is assigned and what flows in behind it, from what
is assigned and flows in before it. An operand that may not run gets a copy of what is assigned. -/
def copyingFlow (m : Model) (declared : List Nat) (n : Placed) (state : List Nat × List Nat) :
    List Nat × List Nat :=
  match n.kind with
  | .identifierName =>
    match m.symbolAt n.id with
    | some symbol => (state.1, m.readPast declared state.1.contains state.2 symbol)
    | none => state
  | .assignmentExpression =>
    match _h : n.binary? with
    | some v =>
      let (assigned, flowsIn) := copyingFlow m declared v.right state
      match m.assignedSymbol? v.left.unparenthesized with
      | some symbol => (assigned.insert symbol, flowsIn)
      | none => copyingFlow m declared v.left.unparenthesized (assigned, flowsIn)
    | none => state
  | .binaryExpression =>
    match _h : n.binary? with
    | some v =>
      let (assigned, flowsIn) := copyingFlow m declared v.left state
      let behind := copyingFlow m declared v.right (assigned, flowsIn)
      if mayShortCut v.operator.kind then (assigned, behind.2) else behind
    | none => state
  | .memberAccessExpression =>
    match _h : n.memberAccess? with
    | some v => copyingFlow m declared v.expression state
    | none => state
  | k =>
    if k.isToken || k.isType then state
    else n.children.attach.foldl (fun state c => copyingFlow m declared c.1 state) state
termination_by n.size
decreasing_by
  · exact (Node.size_lt_of_binary? _h).2
  · exact Nat.lt_of_le_of_lt (Node.size_unparenthesized_le _) (Node.size_lt_of_binary? _h).1
  · exact (Node.size_lt_of_binary? _h).1
  · exact (Node.size_lt_of_binary? _h).2
  · exact Node.size_lt_of_memberAccess? _h
  · exact Node.size_lt_of_mem_children c.2

/-! ## Tasks -/

/-- What is still to be done, and the layer to do it in. -/
inductive FlowTask where
  /-- Go through an expression. -/
  | visit (n : Placed) (layer : Nat)
  /-- Give a symbol a value. -/
  | assign (symbol : Nat) (layer : Nat)
  /-- Go through an operand that may not run, in a layer of its own above this one. -/
  | branch (n : Placed) (layer : Nat)

namespace FlowTask

/-- The layer of a task. -/
def layer : FlowTask → Nat
  | visit _ i | assign _ i | branch _ i => i

/-- The size of the expression that a task goes through. -/
def size : FlowTask → Nat
  | visit n _ | branch n _ => n.size
  | assign _ _ => 0

/-- What a task does to layers. -/
def layered (m : Model) (declared : List Nat) (state : Layers × List Nat) :
    FlowTask → Layers × List Nat
  | visit n _ => m.flowThrough declared n state
  | assign symbol _ => (state.1.assign symbol, state.2)
  | branch n _ => (state.1, (m.flowThrough declared n ([] :: state.1, state.2)).2)

/-- What a task does to one set, with copies of it. -/
def copied (m : Model) (declared : List Nat) (state : List Nat × List Nat) :
    FlowTask → List Nat × List Nat
  | visit n _ => m.copyingFlow declared n state
  | assign symbol _ => (state.1.insert symbol, state.2)
  | branch n _ => (state.1, (m.copyingFlow declared n state).2)

end FlowTask

/-- The tasks that an expression comes down to, in order of evaluation. -/
def flowTasks (m : Model) (n : Placed) (layer : Nat) : List FlowTask :=
  match n.kind with
  | .identifierName => []
  | .assignmentExpression =>
    match n.binary? with
    | some v =>
      [.visit v.right layer,
        match m.assignedSymbol? v.left.unparenthesized with
        | some symbol => .assign symbol layer
        | none => .visit v.left.unparenthesized layer]
    | none => []
  | .binaryExpression =>
    match n.binary? with
    | some v =>
      [.visit v.left layer,
        if mayShortCut v.operator.kind then .branch v.right layer else .visit v.right layer]
    | none => []
  | .memberAccessExpression =>
    match n.memberAccess? with
    | some v => [.visit v.expression layer]
    | none => []
  | k => if k.isToken || k.isType then [] else n.children.map (.visit · layer)

/-- What flows in behind an expression that has no parts to go through. -/
def flowsInAt (m : Model) (declared : List Nat) (assigned : Nat → Bool) (flowsIn : List Nat)
    (n : Placed) : List Nat :=
  match n.kind with
  | .identifierName =>
    match m.symbolAt n.id with
    | some symbol => m.readPast declared assigned flowsIn symbol
    | none => flowsIn
  | _ => flowsIn

variable {m : Model} {declared : List Nat} {n : Placed}

theorem layer_of_mem_flowTasks {t : FlowTask} {i : Nat} (h : t ∈ m.flowTasks n i) :
    t.layer = i := by
  unfold flowTasks at h
  grind [FlowTask.layer]

theorem size_lt_of_mem_flowTasks {t : FlowTask} {i : Nat} (h : t ∈ m.flowTasks n i) :
    t.size < n.size := by
  have hpos := n.size_pos
  have hmap {c : Placed} (hc : c ∈ n.children) : c.size < n.size := Node.size_lt_of_mem_children hc
  have hbinary {v : Node.Binary Place} (hv : n.binary? = some v) :
      v.left.size < n.size ∧ v.left.unparenthesized.size < n.size ∧ v.right.size < n.size :=
    ⟨(Node.size_lt_of_binary? hv).1,
      (Node.size_unparenthesized_le _).trans_lt (Node.size_lt_of_binary? hv).1,
      (Node.size_lt_of_binary? hv).2⟩
  have hmember {v : Node.MemberAccess Place} (hv : n.memberAccess? = some v) :
      v.expression.size < n.size := Node.size_lt_of_memberAccess? hv
  unfold flowTasks at h
  grind [FlowTask.size]

/-- Layers go through an expression task by task. -/
theorem flowThrough_eq_foldl (i : Nat) (state : Layers × List Nat) :
    m.flowThrough declared n state = (m.flowTasks n i).foldl (FlowTask.layered m declared)
      (state.1, m.flowsInAt declared state.1.holds state.2 n) := by
  fun_cases flowThrough m declared n state
  case case1 symbol hsymbol hk => simp [flowTasks, flowsInAt, *]; rfl
  case case12 =>
    simp_all only [flowTasks, flowsInAt, Bool.false_eq_true, if_false, List.foldl_map]
    exact List.foldl_attach (f := fun state c => m.flowThrough declared c state)
  all_goals simp_all [flowTasks, flowsInAt, FlowTask.layered]

/-- Copies go through an expression task by task. -/
theorem copyingFlow_eq_foldl (i : Nat) (state : List Nat × List Nat) :
    m.copyingFlow declared n state = (m.flowTasks n i).foldl (FlowTask.copied m declared)
      (state.1, m.flowsInAt declared state.1.contains state.2 n) := by
  fun_cases copyingFlow m declared n state
  case case12 =>
    simp_all only [flowTasks, flowsInAt, Bool.false_eq_true, if_false, List.foldl_map]
    exact List.foldl_attach (f := fun state c => m.copyingFlow declared c state)
  all_goals simp_all +zetaDelta [flowTasks, flowsInAt, FlowTask.copied]

/-! ## Layers and copies -/

/-- The layers hold the symbols of the copy, and a layer with none below it is the copy. -/
structure SameFlow (layered : Layers × List Nat) (copied : List Nat × List Nat) : Prop where
  flowsIn : layered.2 = copied.2
  holds : layered.1.holds = copied.1.contains
  nonempty : layered.1 ≠ []
  single : ∀ layer, layered.1 = [layer] → layer = copied.1

namespace SameFlow

variable {layered : Layers × List Nat} {copied : List Nat × List Nat}

/-- At the start there is one layer, with what is assigned so far. -/
theorem start (assigned flowsIn : List Nat) :
    SameFlow ([assigned], flowsIn) (assigned, flowsIn) where
  flowsIn := rfl
  holds := by
    funext x
    simp [Layers.holds]
  nonempty := by simp
  single layer h := by simpa using h.symm

theorem flowsInAt (h : SameFlow layered copied) (n : Placed) :
    SameFlow (layered.1, m.flowsInAt declared layered.1.holds layered.2 n)
      (copied.1, m.flowsInAt declared copied.1.contains copied.2 n) :=
  ⟨by rw [h.holds, h.flowsIn], h.holds, h.nonempty, h.single⟩

theorem assign (h : SameFlow layered copied) (x : Nat) :
    SameFlow (layered.1.assign x, layered.2) (copied.1.insert x, copied.2) := by
  obtain ⟨layers, flowsIn⟩ := layered
  cases layers with
  | nil => exact absurd rfl h.nonempty
  | cons layer below =>
    refine ⟨h.flowsIn, ?_, by simp [Layers.assign], fun layer' hl => ?_⟩
    · funext y
      have hholds := congrFun h.holds y
      simp only [Layers.holds, Layers.assign, List.any_cons] at hholds ⊢
      rw [Bool.eq_iff_iff] at hholds ⊢
      simp only [Bool.or_eq_true, List.contains_iff_mem, List.mem_insert_iff] at hholds ⊢
      rw [or_assoc, hholds]
    · obtain ⟨rfl, rfl⟩ : layer.insert x = layer' ∧ below = [] := by simpa [Layers.assign] using hl
      rw [h.single layer rfl]

/-- An empty layer on top stands for a copy. -/
theorem copy (h : SameFlow layered copied) : SameFlow ([] :: layered.1, layered.2) copied where
  flowsIn := h.flowsIn
  holds := by
    rw [← h.holds]
    funext x
    simp [Layers.holds]
  nonempty := by simp
  single layer hl := absurd (List.cons.inj hl).2 h.nonempty

/-- What is read with a copy is kept, and the copy is thrown away. -/
theorem discard (h : SameFlow layered copied) {scratch : Layers × List Nat}
    {behind : List Nat × List Nat} (hbehind : SameFlow scratch behind) :
    SameFlow (layered.1, scratch.2) (copied.1, behind.2) :=
  ⟨hbehind.flowsIn, h.holds, h.nonempty, h.single⟩

theorem foldl {ts : List FlowTask} (step : ∀ t ∈ ts, ∀ layered copied, SameFlow layered copied →
      SameFlow (FlowTask.layered m declared layered t) (FlowTask.copied m declared copied t))
    (h : SameFlow layered copied) : SameFlow (ts.foldl (FlowTask.layered m declared) layered)
      (ts.foldl (FlowTask.copied m declared) copied) := by
  induction ts generalizing layered copied with
  | nil => exact h
  | cons t ts ih =>
    exact ih (fun u hu => step u (List.mem_cons_of_mem _ hu)) (step t List.mem_cons_self _ _ h)

/-- Every expression does the same to layers as to copies. -/
theorem through (n : Placed) (h : SameFlow layered copied) :
    SameFlow (m.flowThrough declared n layered) (m.copyingFlow declared n copied) := by
  induction hn : n.size using Nat.strong_induction_on generalizing n layered copied with
  | h size ih =>
    subst hn
    rw [flowThrough_eq_foldl 0, copyingFlow_eq_foldl 0]
    refine (h.flowsInAt n).foldl fun t ht layered copied h => ?_
    have hsize := size_lt_of_mem_flowTasks ht
    cases t with
    | visit e i => exact ih e.size hsize e h rfl
    | assign x i => exact h.assign x
    | branch e i => exact h.discard (ih e.size hsize e h.copy rfl)

end SameFlow

/-! ## The stack of tasks -/

/-- A layer in the list of layers, with a link to the one below it. -/
structure FlowLayer where
  parent : Option Nat
  assigned : List Nat

/-- Whether a symbol is in a layer or below it. Links lead towards the front of the list. -/
def assignedIn (layers : List FlowLayer) (symbol i : Nat) : Bool :=
  match layers[i]? with
  | some layer =>
    layer.assigned.contains symbol ||
      match layer.parent with
      | some p => if p < i then assignedIn layers symbol p else false
      | none => false
  | none => false
termination_by i

/-- The tasks to do, next one first, the layers made so far and what flows in. -/
structure FlowStack where
  tasks : List FlowTask
  layers : List FlowLayer
  flowsIn : List Nat

namespace FlowStack

/-- One task. The tasks that it comes down to are put on the stack; a branch makes a layer at the
end of the list. -/
def step (m : Model) (declared : List Nat) (s : FlowStack) : Option FlowStack :=
  match s.tasks with
  | [] => none
  | .visit n i :: rest =>
    some
      { s with
        tasks := m.flowTasks n i ++ rest
        flowsIn := m.flowsInAt declared (assignedIn s.layers · i) s.flowsIn n }
  | .assign symbol i :: rest =>
    some
      { s with
        tasks := rest
        layers := s.layers.modify i fun layer =>
          { layer with assigned := layer.assigned.insert symbol } }
  | .branch n i :: rest =>
    some
      { s with
        tasks := .visit n s.layers.length :: rest
        layers := s.layers ++ [⟨some i, []⟩] }

/-- Task after task. -/
def Runs (m : Model) (declared : List Nat) : FlowStack → FlowStack → Prop :=
  Relation.ReflTransGen fun s s' => s.step m declared = some s'

theorem Runs.step {s s' s'' : FlowStack} (h : s.step m declared = some s')
    (hruns : Runs m declared s' s'') : Runs m declared s s'' :=
  .head h hruns

end FlowStack

/-! ## Links -/

/-- The layers met on the way down from a layer. -/
inductive Chain (layers : List FlowLayer) : Nat → Layers → Prop
  | bottom {i : Nat} {assigned : List Nat} (h : layers[i]? = some ⟨none, assigned⟩) :
      Chain layers i [assigned]
  | above {i p : Nat} {assigned : List Nat} {below : Layers}
      (h : layers[i]? = some ⟨some p, assigned⟩) (hp : p < i) (hbelow : Chain layers p below) :
      Chain layers i (assigned :: below)

namespace Chain

variable {layers layers' : List FlowLayer} {i : Nat} {chain below : Layers} {top top' : List Nat}
  {parent : Option Nat}

theorem ne_nil (h : Chain layers i chain) : chain ≠ [] := by
  cases h <;> simp

theorem getElem? (h : Chain layers i (top :: below)) : ∃ p, layers[i]? = some ⟨p, top⟩ := by
  cases h with
  | bottom h => exact ⟨_, h⟩
  | above h => exact ⟨_, h⟩

theorem assignedIn (h : Chain layers i chain) : (Model.assignedIn layers · i) = chain.holds := by
  induction h with
  | bottom h =>
    funext x
    rw [Model.assignedIn, h]
    simp [Layers.holds]
  | above h hp _ ih =>
    funext x
    have hbelow := congrFun ih x
    rw [Model.assignedIn, h]
    simp_all [Layers.holds]

/-- Only the layers down to the front matter. -/
theorem congr (h : Chain layers i chain) (heq : ∀ j ≤ i, layers'[j]? = layers[j]?) :
    Chain layers' i chain := by
  induction h with
  | bottom h => exact .bottom ((heq _ le_rfl).trans h)
  | above h hp _ ih =>
    exact .above ((heq _ le_rfl).trans h) hp (ih fun j hj => heq j (hj.trans hp.le))

/-- The layers below a layer stay when it changes. -/
theorem set (h : Chain layers i (top :: below)) (hi : layers[i]? = some ⟨parent, top⟩)
    (more : List FlowLayer) : Chain (layers.set i ⟨parent, top'⟩ ++ more) i (top' :: below) := by
  have hlt : i < layers.length := (List.getElem?_eq_some_iff.1 hi).1
  have hset : (layers.set i ⟨parent, top'⟩ ++ more)[i]? = some ⟨parent, top'⟩ := by
    rw [List.getElem?_append_left (by simpa using hlt), List.getElem?_set_self hlt]
  have hbelow {p : Nat} (hp : p < i) (h : Chain layers p below) :
      Chain (layers.set i ⟨parent, top'⟩ ++ more) p below := by
    refine h.congr fun j hj => ?_
    rw [List.getElem?_append_left (by simp; omega), List.getElem?_set_ne (by omega)]
  cases h with
  | bottom h =>
    obtain ⟨rfl, -⟩ := FlowLayer.mk.inj (Option.some.inj (h.symm.trans hi))
    exact .bottom hset
  | above h hp hchain =>
    obtain ⟨rfl, -⟩ := FlowLayer.mk.inj (Option.some.inj (h.symm.trans hi))
    exact .above hset hp (hbelow hp hchain)

/-- A layer with a link to the last of a chain goes on top of it. -/
theorem push (h : Chain layers i chain) :
    Chain (layers ++ [⟨some i, top⟩]) layers.length (top :: chain) := by
  obtain ⟨bottom, below, rfl⟩ := List.exists_cons_of_ne_nil h.ne_nil
  obtain ⟨p, hi⟩ := h.getElem?
  have hlt : i < layers.length := (List.getElem?_eq_some_iff.1 hi).1
  exact .above (by simp) hlt (h.congr fun j hj => List.getElem?_append_left (by omega))

end Chain

/-! ## Tasks and layers -/

/-- The tasks on the stack do to layer `i`, with those below it, what `f` does to layers. Whatever
else is on the stack, they are done at some time; the layer has then changed as under `f`, all other
layers are as before, and new ones may stand behind them. -/
def Leads (m : Model) (declared : List Nat) (tasks : List FlowTask) (i : Nat)
    (f : Layers × List Nat → Layers × List Nat) : Prop :=
  ∀ (layers : List FlowLayer) (parent : Option Nat) (top : List Nat) (below : Layers)
    (flowsIn : List Nat) (rest : List FlowTask),
    layers[i]? = some ⟨parent, top⟩ → Chain layers i (top :: below) →
      ∃ top' flowsIn' more, f (top :: below, flowsIn) = (top' :: below, flowsIn') ∧
        FlowStack.Runs m declared ⟨tasks ++ rest, layers, flowsIn⟩
          ⟨rest, layers.set i ⟨parent, top'⟩ ++ more, flowsIn'⟩

namespace Leads

theorem set_of_getElem? {layers : List FlowLayer} {i : Nat} {layer : FlowLayer}
    (h : layers[i]? = some layer) : layers.set i layer = layers := by
  obtain ⟨hlt, rfl⟩ := List.getElem?_eq_some_iff.1 h
  exact List.set_getElem_self hlt

variable {tasks others : List FlowTask} {i : Nat} {f g : Layers × List Nat → Layers × List Nat}

theorem nil : Leads m declared [] i id := by
  intro layers parent top below flowsIn rest hi _
  refine ⟨top, flowsIn, [], rfl, ?_⟩
  rw [List.append_nil, set_of_getElem? hi]
  exact .refl

/-- One part of the stack after the other. -/
theorem append (hf : Leads m declared tasks i f) (hg : Leads m declared others i g) :
    Leads m declared (tasks ++ others) i (g ∘ f) := by
  intro layers parent top below flowsIn rest hi hchain
  obtain ⟨mid, flowsMid, more, hfeq, hfruns⟩ :=
    hf layers parent top below flowsIn (others ++ rest) hi hchain
  have hlt : i < layers.length := (List.getElem?_eq_some_iff.1 hi).1
  have hi' : (layers.set i ⟨parent, mid⟩ ++ more)[i]? = some ⟨parent, mid⟩ := by
    rw [List.getElem?_append_left (by simpa using hlt), List.getElem?_set_self hlt]
  obtain ⟨top', flowsIn', more', hgeq, hgruns⟩ :=
    hg _ parent mid below flowsMid rest hi' (hchain.set hi more)
  refine ⟨top', flowsIn', more ++ more', by simp [hfeq, hgeq], ?_⟩
  rw [List.set_append_left _ _ (by simpa using hlt), List.set_set, List.append_assoc] at hgruns
  rw [List.append_assoc]
  exact hfruns.trans hgruns

theorem foldl {ts : List FlowTask}
    (h : ∀ t ∈ ts, Leads m declared [t] i (FlowTask.layered m declared · t)) :
    Leads m declared ts i fun state => ts.foldl (FlowTask.layered m declared) state := by
  induction ts with
  | nil => exact nil
  | cons t ts ih =>
    exact (h t List.mem_cons_self).append (ih fun u hu => h u (List.mem_cons_of_mem _ hu))

theorem assign (x : Nat) :
    Leads m declared [.assign x i] i fun state => (state.1.assign x, state.2) := by
  intro layers parent top below flowsIn rest hi hchain
  refine ⟨top.insert x, flowsIn, [], rfl, .single ?_⟩
  simp [FlowStack.step, List.modify_eq_set_getElem?, hi]

/-- A branch is gone through in a new layer, which nothing links to afterwards. -/
theorem branch (h : ∀ k, Leads m declared [.visit n k] k (m.flowThrough declared n)) :
    Leads m declared [.branch n i] i fun state =>
      (state.1, (m.flowThrough declared n ([] :: state.1, state.2)).2) := by
  intro layers parent top below flowsIn rest hi hchain
  obtain ⟨scratch, flowsIn', more, heq, hruns⟩ := h layers.length (layers ++ [⟨some i, []⟩])
    (some i) [] (top :: below) flowsIn rest (by simp) hchain.push
  refine ⟨top, flowsIn', ⟨some i, scratch⟩ :: more, by simp [heq], .step rfl ?_⟩
  rw [set_of_getElem? hi]
  simpa using hruns

/-- An expression is gone through by the tasks that it comes down to. -/
theorem visit_of_tasks (h : Leads m declared (m.flowTasks n i) i fun state =>
      (m.flowTasks n i).foldl (FlowTask.layered m declared) state) :
    Leads m declared [.visit n i] i (m.flowThrough declared n) := by
  intro layers parent top below flowsIn rest hi hchain
  obtain ⟨top', flowsIn', more, heq, hruns⟩ := h layers parent top below
    (m.flowsInAt declared (Layers.holds (top :: below)) flowsIn n) rest hi hchain
  refine ⟨top', flowsIn', more, (flowThrough_eq_foldl i _).trans heq, .step ?_ hruns⟩
  rw [← hchain.assignedIn]
  rfl

theorem visit (n : Placed) (i : Nat) :
    Leads m declared [.visit n i] i (m.flowThrough declared n) := by
  induction hn : n.size using Nat.strong_induction_on generalizing n i with
  | h size ih =>
    subst hn
    refine visit_of_tasks (foldl fun t ht => ?_)
    have hsize := size_lt_of_mem_flowTasks ht
    obtain rfl := layer_of_mem_flowTasks ht
    cases t with
    | visit e i => exact ih e.size hsize e i rfl
    | assign x i => exact assign x
    | branch e i => exact branch fun k => ih e.size hsize e k rfl

end Leads

/-! ## All three ways agree -/

/-- Going through an expression with layers, whether by recursion or with a stack of tasks and
linked layers, gives what plain recursion with copies gives: the same symbols are assigned behind it
and the same ones flow in, whatever is assigned and flows in before it. -/
theorem expressionFlow_eq_copies (m : Model) (declared : List Nat) (n : Placed)
    (assigned flowsIn : List Nat) :
    m.expressionFlow declared n (assigned, flowsIn) =
        m.copyingFlow declared n (assigned, flowsIn) ∧
      ∃ scratch, FlowStack.Runs m declared ⟨[.visit n 0], [⟨none, assigned⟩], flowsIn⟩
        ⟨[], ⟨none, (m.copyingFlow declared n (assigned, flowsIn)).1⟩ :: scratch,
          (m.copyingFlow declared n (assigned, flowsIn)).2⟩ := by
  have hvisit : Leads m declared [.visit n 0] 0 (m.flowThrough declared n) := Leads.visit n 0
  obtain ⟨assigned', flowsIn', scratch, heq, hruns⟩ :=
    hvisit [⟨none, assigned⟩] none assigned [] flowsIn [] rfl (.bottom rfl)
  have hsame : SameFlow (m.flowThrough declared n ([assigned], flowsIn))
      (m.copyingFlow declared n (assigned, flowsIn)) := (SameFlow.start assigned flowsIn).through n
  rw [heq] at hsame
  have hcopied : m.copyingFlow declared n (assigned, flowsIn) = (assigned', flowsIn') :=
    Prod.ext (hsame.single assigned' rfl).symm hsame.flowsIn.symm
  refine ⟨?_, scratch, ?_⟩
  · rw [expressionFlow, heq, hcopied]
    rfl
  · rw [hcopied]
    exact hruns

end Model

end NullLint
