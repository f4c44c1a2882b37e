import NullLint.Proofs.Syntax.Numbering

/-!
# Substitution

A node that has a fragment becomes that fragment, and every other node is copied with its
children substituted. An edit of a tree works with a list of the nodes built so far, from which a
branch takes back as many as it had children; as long as no fragment is empty these are its own
children, and the edit is this substitution.
-/

namespace NullLint

namespace Node

mutual

/-- The node with the fragments of `σ` put in for the nodes of these numbers. Nothing is replaced
inside a fragment. -/
def substitute (σ : Nat → Option Green) : Placed → Green
  | .token a t => (σ a.id).getD (.leaf t)
  | .branch a k cs => (σ a.id).getD (.group k (substituteAll σ cs))

/-- The substitution in each of a list of nodes. -/
def substituteAll (σ : Nat → Option Green) : List Placed → List Green
  | [] => []
  | c :: cs => substitute σ c :: substituteAll σ cs

end

variable {σ : Nat → Option Green}

theorem substituteAll_eq_map (σ : Nat → Option Green) (cs : List Placed) :
    substituteAll σ cs = cs.map (substitute σ) := by
  induction cs with
  | nil => rfl
  | cons c cs ih => simp [substituteAll, ih]

theorem substitute_of_eq_some {n : Placed} {g : Green} (h : σ n.id = some g) :
    n.substitute σ = g := by
  cases n with
  | token a t =>
    have ha : σ a.id = some g := h
    simp [substitute, ha]
  | branch a k cs =>
    have ha : σ a.id = some g := h
    simp [substitute, ha]

theorem substitute_token {a : Place} {t : Token} (h : σ a.id = none) :
    (token a t).substitute σ = .leaf t := by
  simp [substitute, h]

theorem substitute_branch {a : Place} {k : Kind} {cs : List Placed} (h : σ a.id = none) :
    (branch a k cs).substitute σ = .group k (cs.map (substitute σ)) := by
  simp [substitute, h, substituteAll_eq_map]

/-- Induction over a tree down to the nodes that `σ` replaces. -/
theorem replacing_induction {γ : Type} (σ : Nat → Option γ) {motive : Placed → Prop}
    (replaced : ∀ n g, σ n.id = some g → motive n)
    (token : ∀ a t, σ a.id = none → motive (.token a t))
    (branch : ∀ a k cs, σ a.id = none → (∀ c ∈ cs, motive c) → motive (.branch a k cs))
    (n : Placed) : motive n := by
  induction n using Node.induction with
  | token a t =>
    cases h : σ a.id with
    | none => exact token a t h
    | some g => exact replaced _ g h
  | branch a k cs ih =>
    cases h : σ a.id with
    | none => exact branch a k cs h ih
    | some g => exact replaced _ g h

/-- A substitution that gives each node its own copy changes nothing. -/
theorem substitute_self (n : Placed) (h : ∀ m ∈ n.preorder, ∀ g, σ m.id = some g → g = m.erase) :
    n.substitute σ = n.erase := by
  induction n using replacing_induction σ with
  | replaced n g hσ => exact (substitute_of_eq_some hσ).trans (h n (self_mem_preorder n) g hσ)
  | token a t hσ => exact substitute_token hσ
  | branch a k cs hσ ih =>
    rw [substitute_branch hσ, erase_branch]
    refine congrArg _ (List.map_congr_left fun c hc => ih c hc fun m hm => h m ?_)
    exact mem_preorder_branch.2 (.inr ⟨c, hc, hm⟩)

/-! ## The outermost nodes replaced -/

mutual

/-- The nodes that `σ` replaces and that lie inside no other such node, in order. -/
def outermost (σ : Nat → Option Green) : Placed → List Placed
  | .token a t => if (σ a.id).isSome then [.token a t] else []
  | .branch a k cs => if (σ a.id).isSome then [.branch a k cs] else outermostAll σ cs

/-- The outermost nodes replaced in each of a list of nodes. -/
def outermostAll (σ : Nat → Option Green) : List Placed → List Placed
  | [] => []
  | c :: cs => outermost σ c ++ outermostAll σ cs

end

theorem outermostAll_eq_flatMap (σ : Nat → Option Green) (cs : List Placed) :
    outermostAll σ cs = cs.flatMap (outermost σ) := by
  induction cs with
  | nil => rfl
  | cons c cs ih => simp [outermostAll, ih]

theorem outermost_of_eq_some {n : Placed} {g : Green} (h : σ n.id = some g) :
    n.outermost σ = [n] := by
  have hsome : (σ n.id).isSome = true := by simp [h]
  cases n with
  | token a t => exact if_pos hsome
  | branch a k cs => exact if_pos hsome

theorem outermost_token {a : Place} {t : Token} (h : σ a.id = none) :
    (token a t).outermost σ = [] := by
  simp [outermost, h]

theorem outermost_branch {a : Place} {k : Kind} {cs : List Placed} (h : σ a.id = none) :
    (branch a k cs).outermost σ = cs.flatMap (outermost σ) := by
  simp [outermost, h, outermostAll_eq_flatMap]

theorem of_mem_outermost {m n : Placed} (h : m ∈ n.outermost σ) :
    m ∈ n.preorder ∧ ∃ g, σ m.id = some g := by
  induction n using replacing_induction σ with
  | replaced n g hσ =>
    obtain rfl : m = n := by simpa [outermost_of_eq_some hσ] using h
    exact ⟨self_mem_preorder m, g, hσ⟩
  | token a t hσ => simp [outermost_token hσ] at h
  | branch a k cs hσ ih =>
    rw [outermost_branch hσ] at h
    obtain ⟨c, hc, hm⟩ := List.mem_flatMap.1 h
    obtain ⟨hpre, hg⟩ := ih c hc hm
    exact ⟨mem_preorder_branch.2 (.inr ⟨c, hc, hpre⟩), hg⟩

/-- A node that `σ` replaces lies in an outermost one. -/
theorem exists_outermost {m n : Placed} {g : Green} (hm : m ∈ n.preorder) (h : σ m.id = some g) :
    ∃ o ∈ n.outermost σ, m ∈ o.preorder := by
  induction n using replacing_induction σ with
  | replaced n g' hσ => exact ⟨n, by simp [outermost_of_eq_some hσ], hm⟩
  | token a t hσ =>
    obtain rfl : m = .token a t := by simpa using hm
    exact absurd (hσ.symm.trans h) (by simp)
  | branch a k cs hσ ih =>
    rcases mem_preorder_branch.1 hm with rfl | ⟨c, hc, hm⟩
    · exact absurd (hσ.symm.trans h) (by simp)
    · obtain ⟨o, ho, hmo⟩ := ih c hc hm
      exact ⟨o, outermost_branch hσ ▸ List.mem_flatMap.2 ⟨c, hc, ho⟩, hmo⟩

/-- If each fragment has one node of some kinds less than the node it replaces, substitution takes
away one such node for each outermost node replaced. -/
theorem countP_substitute (σ : Nat → Option Green) (p : Kind → Bool) (n : Placed)
    (h : ∀ m ∈ n.outermost σ, ∀ g, σ m.id = some g →
      m.preorder.countP (fun m => p m.kind) = g.preorder.countP (fun m => p m.kind) + 1) :
    n.preorder.countP (fun m => p m.kind) =
      (n.substitute σ).preorder.countP (fun m => p m.kind) + (n.outermost σ).length := by
  induction n using replacing_induction σ with
  | replaced n g hσ =>
    rw [outermost_of_eq_some hσ] at h ⊢
    rw [substitute_of_eq_some hσ]
    exact h n (List.mem_singleton_self n) g hσ
  | token a t hσ =>
    rw [substitute_token hσ, outermost_token hσ]
    rfl
  | branch a k cs hσ ih =>
    rw [outermost_branch hσ] at h ⊢
    have hcs : (cs.flatMap preorder).countP (fun m => p m.kind) =
        ((cs.map (substitute σ)).flatMap preorder).countP (fun m => p m.kind) +
          (cs.flatMap (outermost σ)).length := by
      clear hσ
      induction cs with
      | nil => rfl
      | cons c cs ihcs =>
        simp only [List.flatMap_cons, List.map_cons, List.countP_append, List.length_append]
        simp only [List.flatMap_cons, List.mem_append] at h
        have hc := ih c (by simp) fun m hm => h m (.inl hm)
        have hrest := ihcs (fun d hd => ih d (by simp [hd])) fun m hm => h m (.inr hm)
        omega
    rw [substitute_branch hσ, preorder_branch, preorder_branch, List.countP_cons, List.countP_cons,
      hcs, Nat.add_right_comm]
    rfl

end Node

namespace Tree

mutual

/-- Rebuilding a node puts its substitution on top of the nodes built so far. -/
theorem rebuild_eq (σ : Nat → Option Green) (built : List Green) (n : Placed) :
    rebuild (fun id => (σ id).map some) built n = n.substitute σ :: built := by
  cases n with
  | token a t =>
    cases hσ : σ a.id with
    | none => simp [rebuild, hσ, Node.substitute_token hσ]
    | some g => simp [rebuild, hσ, Node.substitute]
  | branch a k cs =>
    cases hσ : σ a.id with
    | none =>
      -- The children lie on top, last one first, so the branch takes back just these.
      have hall := rebuildAll_eq σ built cs
      have hlen : (cs.map (Node.substitute σ)).reverse.length = cs.length := by simp
      simp only [rebuild, hσ, Option.map_none, Node.substitute_branch hσ, hall]
      rw [← hlen, List.take_left, List.drop_left, List.reverse_reverse]
    | some g => simp [rebuild, hσ, Node.substitute]

theorem rebuildAll_eq (σ : Nat → Option Green) (built : List Green) (cs : List Placed) :
    rebuildAll (fun id => (σ id).map some) built cs =
      (cs.map (Node.substitute σ)).reverse ++ built := by
  match cs with
  | [] => rfl
  | c :: cs =>
    simp only [rebuildAll]
    rw [rebuild_eq σ built c, rebuildAll_eq σ _ cs]
    simp

end

/-- The fragment that the last edit of a node puts in its place. -/
def lastFragment? (edits : List (Nat × Tree)) (id : Nat) : Option Green :=
  (edits.filter fun e => e.1 == id).getLast?.bind fun e => e.2.root

theorem exists_edit_of_lastFragment? {edits : List (Nat × Tree)} {id : Nat} {g : Green}
    (h : lastFragment? edits id = some g) : ∃ e ∈ edits, e.1 = id ∧ e.2.root = some g := by
  obtain ⟨e, he, hg⟩ := Option.bind_eq_some_iff.1 h
  obtain ⟨hmem, hid⟩ := List.mem_filter.1 (List.mem_of_getLast? he)
  exact ⟨e, hmem, by simpa using hid, hg⟩

theorem lastFragment?_of_unique {edits : List (Nat × Tree)} {e : Nat × Tree} (he : e ∈ edits)
    (hunique : ∀ e' ∈ edits, e'.1 = e.1 → e' = e) : lastFragment? edits e.1 = e.2.root := by
  have hne : (edits.filter fun e' => e'.1 == e.1) ≠ [] :=
    List.ne_nil_of_mem (List.mem_filter.2 ⟨he, by simp⟩)
  have hlast := List.getLast?_eq_some_getLast hne
  obtain ⟨hmem, hid⟩ := List.mem_filter.1 (List.getLast_mem hne)
  rw [hunique _ hmem (by simpa using hid)] at hlast
  rw [lastFragment?, hlast, Option.bind_some]

theorem substitution_eq {edits : List (Nat × Tree)}
    (h : ∀ e ∈ edits, e.2.root.isSome = true) :
    substitution edits = fun id => (lastFragment? edits id).map some := by
  funext id
  have hlast : (edits.filter fun e => e.1 == id).getLast? =
      edits.reverse.find? fun e => e.1 == id := by
    rw [List.getLast?_eq_head?_reverse, ← List.filter_reverse, List.head?_filter]
  simp only [substitution, lastFragment?, hlast]
  cases hfind : edits.reverse.find? fun e => e.1 == id with
  | none => rfl
  | some e =>
    have he : e ∈ edits := List.mem_reverse.1 (List.mem_of_find?_eq_some hfind)
    obtain ⟨g, hg⟩ := Option.isSome_iff_exists.1 (h e he)
    simp [hg]

/-- Replacing nodes of a tree by fragments that are not empty is substitution. -/
theorem replaceMany_eq {t : Tree} {root : Placed} {edits : List (Nat × Tree)}
    (hroot : t.placed = some root) (hedits : ∀ e ∈ edits, e.2.root.isSome = true)
    (htargets : ∀ e ∈ edits, e.1 < t.size) :
    t.replaceMany edits = some ⟨t.file, some (root.substitute (lastFragment? edits))⟩ := by
  have hall : (edits.all fun e => decide (e.1 < t.size)) = true := by simpa using htargets
  simp [replaceMany, hall, hroot, substitution_eq hedits, rebuild_eq]

theorem replaceMany_eq_none_iff {t : Tree} {edits : List (Nat × Tree)} :
    t.replaceMany edits = none ↔ ∃ e ∈ edits, ¬ e.1 < t.size := by
  unfold replaceMany
  simp only [List.all_eq_true, decide_eq_true_eq]
  split
  · rename_i h
    simpa using h
  · rename_i h
    simpa using h

theorem eq_of_replaceMany {t result : Tree} {root : Placed} {edits : List (Nat × Tree)}
    (hroot : t.placed = some root) (hedits : ∀ e ∈ edits, e.2.root.isSome = true)
    (h : t.replaceMany edits = some result) :
    result = ⟨t.file, some (root.substitute (lastFragment? edits))⟩ := by
  have htargets : ∀ e ∈ edits, e.1 < t.size := by
    intro e he
    by_contra hlt
    rw [replaceMany_eq_none_iff.2 ⟨e, he, hlt⟩] at h
    cases h
  rw [replaceMany_eq hroot hedits htargets] at h
  exact (Option.some.inj h).symm

end Tree

end NullLint
