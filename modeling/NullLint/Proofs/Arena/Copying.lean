import NullLint.Arena.Copy
import NullLint.Proofs.Arena.Walks
import NullLint.Proofs.Syntax.Substitution

/-!
# Copying is rebuilding

Working off a frame changes the list of nodes built, and it does so whatever frames are below it
(`Performs`). So what a copy does to a node is put together from what it does to its children: it
builds what the tree of the node is rebuilt to (`performs_rebuild`), and the new arena is the forest
of the trees built so far, first one first.
-/

namespace NullLint

/-- A tree with the positions of its nodes, which `g` tells from their numbers. -/
def Node.relocate (g : Nat → Nat) (n : Placed) : Node Nat := n.map fun a => g a.id

namespace Node

variable {g : Nat → Nat}

@[simp] theorem relocate_token (a : Place) (t : Token) :
    (token a t : Placed).relocate g = .token (g a.id) t := rfl

@[simp] theorem relocate_branch (a : Place) (k : Kind) (cs : List Placed) :
    (branch a k cs).relocate g = .branch (g a.id) k (cs.map (relocate g)) := map_branch _ _ _ _

@[simp] theorem tag_relocate (n : Placed) : (n.relocate g).tag = g n.id := tag_map _ n

@[simp] theorem erase_relocate (n : Placed) : (n.relocate g).erase = n.erase := map_map _ _ n

end Node

namespace Arena

/-! ## Rounds -/

section Rounds

variable {σ : Substitutes} {s : CopyState}

theorem CopyState.run_add (j k : Nat) (s : CopyState) :
    run σ (j + k) s = run σ k (run σ j s) := by
  induction j generalizing s with
  | zero => rw [Nat.zero_add, run]
  | succ j ih => rw [Nat.succ_add, run, ih, run]

/-- A copy with nothing left to do rests. -/
theorem CopyState.run_of_todo_eq_nil (h : s.todo = []) (k : Nat) : run σ k s = s := by
  induction k with
  | zero => rfl
  | succ k ih => rw [run, step, h, ih]

variable {is js : List Nat} {i : Nat}

@[simp] theorem roundsOf_cons :
    roundsOf σ (i :: is) = nodeRounds σ i + roundsOf σ is := rfl

@[simp] theorem roundsOf_append : roundsOf σ (is ++ js) = roundsOf σ is + roundsOf σ js := by
  induction is with
  | nil => exact (Nat.zero_add _).symm
  | cons i is ih => rw [List.cons_append, roundsOf_cons, ih, roundsOf_cons, Nat.add_assoc]

theorem roundsOf_sublist (h : is.Sublist js) : roundsOf σ is ≤ roundsOf σ js := by
  induction h with
  | slnil => exact le_rfl
  | cons j _ ih => exact ih.trans (Nat.le_add_left _ _)
  | cons_cons j _ ih => exact Nat.add_le_add_left ih _

theorem roundsOf_perm (h : is.Perm js) : roundsOf σ is = roundsOf σ js := by
  induction h with
  | nil => rfl
  | cons i _ ih => rw [roundsOf_cons, roundsOf_cons, ih]
  | swap i j is => simp only [roundsOf_cons, Nat.add_left_comm]
  | trans _ _ ih ih' => exact ih.trans ih'

theorem nodeRounds_le (h : i ∈ is) : nodeRounds σ i ≤ roundsOf σ is := by
  have hle : roundsOf σ [i] ≤ roundsOf σ is := roundsOf_sublist (List.singleton_sublist.2 h)
  simpa [roundsOf] using hle

end Rounds

/-- The frames are worked off in at most `bound` rounds. Of the trees that were built before,
`build` makes those that are built then, last ones first. -/
def Performs (σ : Substitutes) (frames : List Frame) (bound : Nat)
    (build : List Green → List Green) : Prop :=
  ∀ (todo : List Frame) (ns : List (Node Nat)) (target : Arena), target.Forest ns.reverse →
    ∃ rounds ≤ bound, ∃ (ms : List (Node Nat)) (target' : Arena),
      CopyState.run σ rounds ⟨frames ++ todo, ns.map Node.tag, target⟩ =
          ⟨todo, ms.map Node.tag, target'⟩ ∧
        target'.Forest ms.reverse ∧ ms.map Node.erase = build (ns.map Node.erase)

variable {σ : Substitutes} {frames frames' : List Frame} {frame : Frame} {bound bound' : Nat}
  {build build' : List Green → List Green} {source : Arena} {p : Option Nat} {substitute : Bool}

theorem performs_nil : Performs σ [] 0 fun built => built :=
  fun _ ns target h => ⟨0, le_rfl, ns, target, rfl, h, rfl⟩

theorem Performs.mono (h : Performs σ frames bound build) (hle : bound ≤ bound') :
    Performs σ frames bound' build := by
  intro todo ns target hforest
  obtain ⟨rounds, hrounds, hrun⟩ := h todo ns target hforest
  exact ⟨rounds, hrounds.trans hle, hrun⟩

theorem Performs.append (h : Performs σ frames bound build)
    (h' : Performs σ frames' bound' build') :
    Performs σ (frames ++ frames') (bound + bound') fun built => build' (build built) := by
  intro todo ns target hforest
  obtain ⟨j, hj, ms, target', hrun, hms, hbuild⟩ := h (frames' ++ todo) ns target hforest
  obtain ⟨k, hk, os, target'', hrun', hos, hbuild'⟩ := h' todo ms target' hms
  refine ⟨j + k, Nat.add_le_add hj hk, os, target'', ?_, hos, by rw [hbuild', hbuild]⟩
  rw [CopyState.run_add, List.append_assoc, hrun, hrun']

theorem Performs.cons (h : Performs σ [frame] bound build)
    (h' : Performs σ frames bound' build') :
    Performs σ (frame :: frames) (bound + bound') fun built => build' (build built) :=
  h.append h'

/-- A frame that is replaced by other ones. -/
theorem Performs.step (h : Performs σ frames bound build)
    (hstep : ∀ todo built target,
      CopyState.step σ ⟨frame :: todo, built, target⟩ = ⟨frames ++ todo, built, target⟩) :
    Performs σ [frame] (bound + 1) build := by
  intro todo ns target hforest
  obtain ⟨rounds, hrounds, hrun⟩ := h todo ns target hforest
  refine ⟨rounds + 1, Nat.succ_le_succ hrounds, ?_⟩
  rwa [CopyState.run, List.singleton_append, hstep]

/-! ## Frames -/

section Frames

variable {i count : Nat} {k : Kind} {is : List Nat} {t : Token}

theorem step_token (h : source.Holds p (.token i t))
    (hσ : substitute = true → σ i = none) (todo : List Frame) (built : List Nat)
    (target : Arena) :
    CopyState.step σ ⟨.enter source (some i) substitute :: todo, built, target⟩ =
      ⟨todo, target.size :: built, (target.addToken t.kind t.data t.missing).2⟩ := by
  have hnone : (if substitute then σ i else none) = none := by simpa using hσ
  cases h with
  | token hnode hdata => simp [CopyState.step, hnone, hnode, Arena.token?, hdata, addToken]

theorem step_branch (h : source.node? i = some { kind := k, parent := p, children := is })
    (hσ : substitute = true → σ i = none) (todo : List Frame) (built : List Nat)
    (target : Arena) :
    CopyState.step σ ⟨.enter source (some i) substitute :: todo, built, target⟩ =
      ⟨is.map (fun c => .enter source (some c) substitute) ++
        .exit source (some i) is.length :: todo, built, target⟩ := by
  have hnone : (if substitute then σ i else none) = none := by simpa using hσ
  simp [CopyState.step, hnone, h]

theorem step_replaced {fragment : Fragment} (hσ : σ i = some fragment) (todo : List Frame)
    (built : List Nat) (target : Arena) :
    CopyState.step σ ⟨.enter source (some i) true :: todo, built, target⟩ =
      ⟨.enter fragment.arena fragment.root false :: todo, built, target⟩ := by
  simp [CopyState.step, hσ]

theorem setMissing_addNode (a : Arena) (k : Kind) (is : List Nat) :
    (a.addNode k is).2.setMissing a.size false = (a.addNode k is).2 := by
  have hnodes : (a.addNode k is).2.nodes.modify a.size (fun n => { n with missing := false }) =
      (a.addNode k is).2.nodes := by
    refine List.ext_getElem? fun j => ?_
    rw [List.getElem?_modify]
    split
    · subst j
      simp [addNode, size]
    · exact id_map _
  rw [setMissing, hnodes]

theorem step_exit (h : source.node? i = some { kind := k, parent := p, children := is })
    (todo : List Frame) (built : List Nat) (target : Arena) :
    CopyState.step σ ⟨.exit source (some i) count :: todo, built, target⟩ =
      ⟨todo, target.size :: built.drop count,
        (target.addNode k (built.take count).reverse).2⟩ := by
  have hmissing := setMissing_addNode target k (built.take count).reverse
  simpa [CopyState.step, h] using ⟨rfl, hmissing⟩

theorem performs_token (h : source.Holds p (.token i t))
    (hσ : substitute = true → σ i = none) :
    Performs σ [.enter source (some i) substitute] 1 fun built => .leaf t :: built := by
  intro todo ns target hforest
  refine ⟨1, le_rfl, .token target.size t :: ns,
    (target.addToken t.kind t.data t.missing).2, ?_, ?_, rfl⟩
  · exact step_token h hσ todo _ target
  · rw [List.reverse_cons]
    exact hforest.addToken t

theorem performs_exit (h : source.node? i = some { kind := k, parent := p, children := is }) :
    Performs σ [.exit source (some i) count] 1 fun built =>
      .group k (built.take count).reverse :: built.drop count := by
  intro todo ns target hforest
  have htake : (ns.take count).reverse.map Node.tag = ((ns.map Node.tag).take count).reverse := by
    rw [List.map_reverse, List.map_take]
  refine ⟨1, le_rfl, .branch target.size k (ns.take count).reverse :: ns.drop count,
    (target.addNode k ((ns.take count).reverse.map Node.tag)).2, ?_, ?_, ?_⟩
  · rw [CopyState.run, CopyState.run, List.singleton_append, step_exit h, htake, List.map_cons,
      List.map_drop]
    rfl
  · rw [List.reverse_cons]
    refine Forest.addNode ?_ k
    rwa [← List.reverse_append, List.take_append_drop]
  · simp [Node.erase_branch, List.map_reverse, List.map_take, List.map_drop]

/-- A branch is built from what is built for its children. -/
theorem performs_branch {cs : List (Node Nat)} (h : source.Holds p (.branch i k cs))
    (hσ : substitute = true → σ i = none)
    (hcs : Performs σ (cs.map fun c => .enter source (some c.tag) substitute) bound build) :
    Performs σ [.enter source (some i) substitute] (bound + 2) fun built =>
      .group k ((build built).take cs.length).reverse :: (build built).drop cs.length := by
  cases h with
  | branch hnode _ =>
    refine (hcs.append (performs_exit hnode)).step fun todo built target => ?_
    simpa [Function.comp_def] using step_branch hnode hσ todo built target

end Frames

/-! ## Trees -/

theorem performs_copyAll {cs : List (Node Nat)} (h : ∀ c ∈ cs,
      Performs σ [.enter source (some c.tag) false] (2 * c.size) fun built => c.erase :: built) :
    Performs σ (cs.map fun c => .enter source (some c.tag) false)
      (2 * (cs.flatMap Node.preorder).length)
      fun built => (cs.map Node.erase).reverse ++ built := by
  induction cs with
  | nil => exact performs_nil
  | cons c cs ih =>
    have hboth := (h c (by simp)).cons (ih fun d hd => h d (by simp [hd]))
    simp only [List.map_cons, List.flatMap_cons, List.length_append, List.reverse_cons,
      List.append_assoc, List.singleton_append, Nat.mul_add]
    exact hboth

/-- Where nothing is replaced, a tree is built as it is. -/
theorem performs_copy {n : Node Nat} (h : source.Holds p n) :
    Performs σ [.enter source (some n.tag) false] (2 * n.size) fun built => n.erase :: built := by
  induction h with
  | token hnode hdata =>
    exact (performs_token (.token hnode hdata) fun h : false = true => nomatch h).mono (by simp)
  | @branch p i k cs hnode hcs ih =>
    have hbranch := performs_branch (.branch hnode hcs) (fun h : false = true => nomatch h)
      (performs_copyAll ih)
    have htake (built : List Green) :
        Green.group k (((cs.map Node.erase).reverse ++ built).take cs.length).reverse ::
          ((cs.map Node.erase).reverse ++ built).drop cs.length =
            (Node.branch i k cs).erase :: built := by
      have hlength : cs.length = (cs.map Node.erase).reverse.length := by simp
      rw [hlength, List.take_left, List.drop_left, List.reverse_reverse, Node.erase_branch]
    simp only [htake] at hbranch
    exact hbranch.mono (by simp; omega)

/-- The arena of a fragment is the forest of just this tree, or of none. -/
def Fragment.Shows (fragment : Fragment) (green : Option Green) : Prop :=
  ∃ n : Option (Node Nat), fragment.root = n.map Node.tag ∧ n.map Node.erase = green ∧
    fragment.arena.Forest n.toList

/-- A fragment is built as it is, if there is anything to build. -/
theorem performs_fragment {fragment : Fragment} {green : Option Green}
    (h : fragment.Shows green) :
    Performs σ [.enter fragment.arena fragment.root false] (1 + 2 * fragment.arena.size)
      fun built => green.toList ++ built := by
  obtain ⟨n, hroot, rfl, hforest⟩ := h
  rw [hroot]
  cases n with
  | none =>
    exact (performs_nil.step fun todo built target => by simp [CopyState.step]).mono (by omega)
  | some n =>
    have hsize : n.size = fragment.arena.size := hforest.size_eq
    exact (performs_copy (hforest.holds n (by simp))).mono (by omega)

/-- The substitutes for the nodes of a tree show what takes their place there. -/
def Substitutes.Show (σ : Substitutes) (g : Nat → Nat) (τ : Tree.Substitution) : Prop :=
  ∀ id, Option.Rel Fragment.Shows (σ (g id)) (τ id)

variable {g : Nat → Nat} {τ : Tree.Substitution}

theorem Substitutes.Show.eq_none (hσ : σ.Show g τ) {id : Nat} (hτ : τ id = none) :
    σ (g id) = none := by
  have hshow := hσ id
  rw [hτ] at hshow
  cases hfragment : σ (g id) with
  | none => rfl
  | some fragment => exact absurd (hfragment ▸ hshow) nofun

theorem rebuild_of_eq_some {n : Placed} {green : Option Green} (h : τ n.id = some green) :
    (fun built => Tree.rebuild τ built n) = fun built => green.toList ++ built := by
  funext built
  cases n with
  | token a t => simp only [Tree.rebuild, show τ a.id = some green from h]
  | branch a k cs => simp only [Tree.rebuild, show τ a.id = some green from h]

theorem performs_replaced (hσ : σ.Show g τ) {n : Placed} {green : Option Green}
    (hτ : τ n.id = some green) :
    Performs σ [.enter source (some (g n.id)) true] (nodeRounds σ (g n.id))
      fun built => Tree.rebuild τ built n := by
  have hshow := hσ n.id
  rw [hτ] at hshow
  cases hfragment : σ (g n.id) with
  | none => exact absurd (hfragment ▸ hshow) nofun
  | some fragment =>
    rw [hfragment, Option.rel_some_some] at hshow
    rw [rebuild_of_eq_some hτ]
    refine Performs.mono ((performs_fragment hshow).step (step_replaced hfragment)) ?_
    simp only [nodeRounds, hfragment, Option.map_some, Option.getD_some]
    omega

/-- The children of a branch are built one after the other. -/
theorem performs_rebuildAll {cs : List Placed} (h : ∀ c ∈ cs,
      Performs σ [.enter source (some (g c.id)) true]
        (roundsOf σ (c.relocate g).indices) fun built => Tree.rebuild τ built c) :
    Performs σ (cs.map fun c => .enter source (some (g c.id)) true)
      (roundsOf σ (cs.flatMap fun c => (c.relocate g).indices))
      fun built => Tree.rebuildAll τ built cs := by
  induction cs with
  | nil => exact performs_nil
  | cons c cs ih =>
    have hboth := (h c (by simp)).cons (ih fun d hd => h d (by simp [hd]))
    simpa [Tree.rebuildAll] using hboth

/-- What is done to a node of the source is what rebuilding does to it. -/
theorem performs_rebuild (hσ : σ.Show g τ) {n : Placed} (h : source.Holds p (n.relocate g)) :
    Performs σ [.enter source (some (g n.id)) true]
      (roundsOf σ (n.relocate g).indices) fun built => Tree.rebuild τ built n := by
  induction n using Node.replacing_induction τ generalizing p with
  | replaced n green hτ =>
    have hmem : g n.id ∈ (n.relocate g).indices := by
      simpa using (n.relocate g).tag_mem_indices
    exact (performs_replaced hσ hτ).mono (nodeRounds_le hmem)
  | token a t hτ =>
    have hbuild : (fun built => Tree.rebuild τ built (.token a t)) =
        fun built => Green.leaf t :: built := by
      funext built
      simp only [Tree.rebuild, hτ]
    rw [hbuild]
    refine (performs_token h fun _ => hσ.eq_none hτ).mono ?_
    simp [nodeRounds]
    omega
  | branch a k cs hτ ih =>
    have hbuild : (fun built => Tree.rebuild τ built (.branch a k cs)) = fun built =>
        .group k ((Tree.rebuildAll τ built cs).take cs.length).reverse ::
          (Tree.rebuildAll τ built cs).drop cs.length := by
      funext built
      simp only [Tree.rebuild, hτ]
    rw [Node.relocate_branch] at h ⊢
    have hall := performs_rebuildAll fun c hc => ih c hc (h.child (List.mem_map_of_mem hc))
    have hbranch := performs_branch h (fun _ => hσ.eq_none hτ)
      (by simpa [Function.comp_def] using hall)
    rw [List.length_map] at hbranch
    rw [hbuild]
    refine hbranch.mono ?_
    simp [nodeRounds, List.flatMap_map]
    omega

/-! ## Whole copies -/

/-- A copy in which no node is entered twice has enough rounds. -/
theorem roundsOf_le {is : List Nat} (hnodup : is.Nodup) (hlt : ∀ i ∈ is, i < source.size) :
    roundsOf σ is ≤ roundsOf σ (List.range source.size) := by
  have hsubset : is ⊆ List.range source.size := fun i hi => List.mem_range.2 (hlt i hi)
  obtain ⟨js, hperm, hsub⟩ := List.subperm_of_subset hnodup hsubset
  calc roundsOf σ is
    _ = roundsOf σ js := roundsOf_perm hperm.symm
    _ ≤ roundsOf σ (List.range source.size) := roundsOf_sublist hsub

mutual

/-- Rebuilding a node builds one node at most. -/
theorem length_rebuild_le (built : List Green) (n : Placed) :
    (Tree.rebuild τ built n).length ≤ built.length + 1 := by
  cases n with
  | token a t =>
    rw [Tree.rebuild]
    split
    · rename_i green _
      cases green <;> simp
    · simp
  | branch a k cs =>
    rw [Tree.rebuild]
    split
    · rename_i green _
      cases green <;> simp
    · have hall := length_rebuildAll_le built cs
      simp only [List.length_cons, List.length_drop]
      omega

theorem length_rebuildAll_le (built : List Green) (cs : List Placed) :
    (Tree.rebuildAll τ built cs).length ≤ built.length + cs.length := by
  match cs with
  | [] => exact le_rfl
  | c :: cs =>
    have hc := length_rebuild_le built c
    have hcs := length_rebuildAll_le (Tree.rebuild τ built c) cs
    rw [Tree.rebuildAll, List.length_cons]
    omega

end

/-- A copy ends, and its arena is the forest of just the tree that rebuilding gives. -/
theorem copySubtree_shows (hσ : σ.Show g τ) {n : Placed} (h : source.Holds p (n.relocate g))
    (hnodup : (n.relocate g).indices.Nodup) (hlt : ∀ i ∈ (n.relocate g).indices, i < source.size) :
    (copySubtree σ source (some (g n.id))).Shows (Tree.rebuild τ [] n).head? := by
  obtain ⟨rounds, hrounds, ms, target, hrun, hforest, hbuild⟩ :=
    performs_rebuild hσ h [] [] {} forest_empty
  replace hbuild : ms.map Node.erase = Tree.rebuild τ [] n := hbuild
  have hend : CopyState.run σ (roundsOf σ (List.range source.size))
      { todo := [.enter source (some (g n.id)) true] } = ⟨[], ms.map Node.tag, target⟩ := by
    have hle := hrounds.trans (roundsOf_le hnodup hlt)
    obtain ⟨more, hmore⟩ := Nat.exists_eq_add_of_le hle
    rw [hmore, CopyState.run_add]
    exact (congrArg (CopyState.run σ more) hrun).trans (CopyState.run_of_todo_eq_nil rfl more)
  have hlength : ms.length ≤ 1 := by
    rw [← List.length_map Node.erase, hbuild]
    exact length_rebuild_le [] n
  have hsingle : ms.reverse = ms.head?.toList := by
    cases ms with
    | nil => rfl
    | cons m ms =>
      obtain rfl : ms = [] := List.eq_nil_of_length_eq_zero (by simpa using hlength)
      rfl
  refine ⟨ms.head?, ?_, ?_, ?_⟩
  · rw [copySubtree, hend, List.head?_map]
  · rw [← List.head?_map, hbuild]
  · rw [copySubtree, hend, ← hsingle]
    exact hforest

end Arena

end NullLint
