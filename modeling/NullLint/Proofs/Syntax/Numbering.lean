import NullLint.Syntax.Tree
import Mathlib.Data.List.Nodup
import Mathlib.Data.List.Pairwise

/-!
# Numbers, tags and paths

Laying a tree out changes nothing but the tags. The nodes are numbered in preorder, so each
number names one node, and the path found for a number is the only chain of children that leads
from the root to that node.
-/

namespace NullLint.Node

variable {α β γ : Type}

/-- Induction over a tree, with one hypothesis for all children. -/
@[elab_as_elim, induction_eliminator]
theorem induction {motive : Node α → Prop} (token : ∀ a t, motive (.token a t))
    (branch : ∀ a k cs, (∀ c ∈ cs, motive c) → motive (.branch a k cs)) (n : Node α) :
    motive n :=
  match n with
  | .token a t => token a t
  | .branch a k cs => branch a k cs fun c _ => induction token branch c

/-! ## Traversals -/

theorem self_mem_preorder (n : Node α) : n ∈ n.preorder := by
  cases n <;> simp

theorem mem_preorder_branch {a : α} {k : Kind} {cs : List (Node α)} {m : Node α} :
    m ∈ (branch a k cs).preorder ↔ m = branch a k cs ∨ ∃ c ∈ cs, m ∈ c.preorder := by
  simp

/-- What lies below a node below `n` lies below `n`. -/
theorem eq_or_mem_child_of_mem_preorder {m n : Node α} (h : m ∈ n.preorder) :
    m = n ∨ ∃ c ∈ n.children, m ∈ c.preorder := by
  cases n with
  | token a t => exact .inl (by simpa using h)
  | branch a k cs => exact mem_preorder_branch.1 h

theorem mem_preorder_trans {m n o : Node α} (h : m ∈ n.preorder) (h' : n ∈ o.preorder) :
    m ∈ o.preorder := by
  induction o with
  | token a t => simp_all
  | branch a k cs ih =>
    rcases mem_preorder_branch.1 h' with rfl | ⟨c, hc, hn⟩
    · exact h
    · exact mem_preorder_branch.2 (.inr ⟨c, hc, ih c hc hn⟩)

theorem mem_preorder_of_mem_children {c n : Node α} (h : c ∈ n.children) : c ∈ n.preorder := by
  cases n with
  | token => simp at h
  | branch a k cs => exact mem_preorder_branch.2 (.inr ⟨c, h, self_mem_preorder c⟩)

theorem preorder_sublist {m n : Node α} (h : m ∈ n.preorder) : m.preorder.Sublist n.preorder := by
  induction n with
  | token a t => simp_all
  | branch a k cs ih =>
    rcases mem_preorder_branch.1 h with rfl | ⟨c, hc, hm⟩
    · exact .refl _
    · obtain ⟨before, after, rfl⟩ := List.append_of_mem hc
      simp only [preorder_branch, List.flatMap_append, List.flatMap_cons]
      refine List.Sublist.cons _ ((ih c hc hm).trans ?_)
      exact (List.sublist_append_left _ _).trans (List.sublist_append_right _ _)

/-- The tokens of a node are the leaves among the nodes below it. -/
theorem filterMap_token?_preorder (n : Node α) : n.preorder.filterMap token? = n.tokens := by
  induction n with
  | token a t => rfl
  | branch a k cs ih =>
    simp only [preorder_branch, tokens_branch, List.filterMap_cons, token?,
      List.filterMap_flatMap]
    exact List.flatMap_congr ih

/-! ## Tags -/

theorem map_branch (f : α → β) (a : α) (k : Kind) (cs : List (Node α)) :
    (branch a k cs).map f = branch (f a) k (cs.map (map f)) := by
  simp [map, mapAll_eq_map]

theorem map_map (g : β → γ) (f : α → β) (n : Node α) : (n.map f).map g = n.map (g ∘ f) := by
  induction n with
  | token a t => rfl
  | branch a k cs ih =>
    simp only [map_branch, List.map_map, Function.comp]
    exact congrArg _ (List.map_congr_left fun c hc => ih c hc)

theorem map_self (n : Node α) : n.map (fun a => a) = n := by
  induction n with
  | token a t => rfl
  | branch a k cs ih => simpa [map_branch] using List.map_congr_left ih

@[simp] theorem erase_green (n : Green) : n.erase = n := n.map_self

@[simp] theorem kind_map (f : α → β) (n : Node α) : (n.map f).kind = n.kind := by
  cases n <;> rfl

@[simp] theorem tokens_map (f : α → β) (n : Node α) : (n.map f).tokens = n.tokens := by
  induction n with
  | token a t => rfl
  | branch a k cs ih => simpa [map_branch, List.flatMap_map] using List.flatMap_congr ih

/-! ## Layout -/

theorem erase_branch (a : α) (k : Kind) (cs : List (Node α)) :
    (branch a k cs).erase = .group k (cs.map erase) := map_branch _ _ _ _

mutual

theorem erase_number (next : Nat) (n : Node α) : (n.number next).1.erase = n.erase := by
  cases n with
  | token => rfl
  | branch a k cs =>
    simp only [number, erase_branch]
    rw [erase_numberAll]

theorem erase_numberAll (next : Nat) (cs : List (Node α)) :
    (numberAll next cs).1.map erase = cs.map erase := by
  match cs with
  | [] => rfl
  | c :: cs =>
    simp only [numberAll, List.map_cons]
    rw [erase_number, erase_numberAll]

end

mutual

theorem erase_layOut (next offset : Nat) (n : Node α) :
    (n.layOut next offset).1.erase = n.erase := by
  cases n with
  | token a t =>
    simp only [layOut]
    split <;> rfl
  | branch a k cs =>
    simp only [layOut]
    split
    · simp only [erase_branch]
      rw [erase_numberAll]
    · simp only [erase_branch]
      rw [erase_layOutAll]

theorem erase_layOutAll (next offset : Nat) (cs : List (Node α)) :
    (layOutAll next offset cs).1.map erase = cs.map erase := by
  match cs with
  | [] => rfl
  | c :: cs =>
    simp only [layOutAll, List.map_cons]
    rw [erase_layOut, erase_layOutAll]

end

/-- A tree laid out is the tree itself, once its places are forgotten. -/
@[simp] theorem erase_placed (n : Green) : n.placed.erase = n := by
  simp [placed, erase_layOut]

theorem tokens_placed (n : Green) : n.placed.tokens = n.tokens := by
  have h : n.placed.erase.tokens = n.placed.tokens := tokens_map _ _
  rw [← h, erase_placed]

/-! ## Numbers -/

mutual

theorem ids_number (next : Nat) (n : Node α) :
    (n.number next).1.preorder.map id = List.range' next n.size ∧
      (n.number next).2 = next + n.size := by
  cases n with
  | token => simp [number, id, tag]
  | branch a k cs =>
    obtain ⟨hids, hnext⟩ := ids_numberAll (next + 1) cs
    simp only [number, preorder_branch, List.map_cons, size_branch, hids, hnext]
    exact ⟨rfl, by omega⟩

theorem ids_numberAll (next : Nat) (cs : List (Node α)) :
    ((numberAll next cs).1.flatMap preorder).map id =
        List.range' next (cs.flatMap preorder).length ∧
      (numberAll next cs).2 = next + (cs.flatMap preorder).length := by
  match cs with
  | [] => simp [numberAll]
  | c :: cs =>
    obtain ⟨hids, hnext⟩ := ids_number next c
    obtain ⟨hids', hnext'⟩ := ids_numberAll (next + c.size) cs
    simp only [numberAll, List.flatMap_cons, List.map_append, hnext, hids, hids', hnext',
      List.length_append]
    exact ⟨List.range'_append_1, Nat.add_assoc _ _ _⟩

end

mutual

theorem ids_layOut (next offset : Nat) (n : Node α) :
    (n.layOut next offset).1.preorder.map id = List.range' next n.size ∧
      (n.layOut next offset).2.1 = next + n.size := by
  cases n with
  | token a t =>
    simp only [layOut]
    split <;> simp [id, tag, tokenPlace]
  | branch a k cs =>
    simp only [layOut]
    split
    · obtain ⟨hids, hnext⟩ := ids_numberAll (next + 1) cs
      simp only [preorder_branch, List.map_cons, size_branch, hids, hnext]
      exact ⟨rfl, by omega⟩
    · obtain ⟨hids, hnext⟩ := ids_layOutAll (next + 1) offset cs
      simp only [preorder_branch, List.map_cons, size_branch, hids, hnext]
      exact ⟨rfl, by omega⟩

theorem ids_layOutAll (next offset : Nat) (cs : List (Node α)) :
    ((layOutAll next offset cs).1.flatMap preorder).map id =
        List.range' next (cs.flatMap preorder).length ∧
      (layOutAll next offset cs).2.1 = next + (cs.flatMap preorder).length := by
  match cs with
  | [] => simp [layOutAll]
  | c :: cs =>
    obtain ⟨hids, hnext⟩ := ids_layOut next offset c
    obtain ⟨hids', hnext'⟩ := ids_layOutAll (next + c.size) (layOut next offset c).2.2 cs
    simp only [layOutAll, List.flatMap_cons, List.map_append, hnext, hids, hids', hnext',
      List.length_append]
    exact ⟨List.range'_append_1, Nat.add_assoc _ _ _⟩

end

/-- The nodes of a tree laid out are numbered in preorder. -/
theorem ids_placed (n : Node α) : n.placed.preorder.map id = List.range n.size := by
  rw [List.range_eq_range']
  exact (ids_layOut 0 0 n).1

/-- No two nodes below `n` have the same number. -/
def Numbered (n : Placed) : Prop := (n.preorder.map id).Nodup

theorem numbered_placed (n : Node α) : n.placed.Numbered := by
  unfold Numbered
  rw [ids_placed]
  exact List.nodup_range

namespace Numbered

variable {n : Placed} (h : n.Numbered)
include h

theorem eq_of_id_eq {m m' : Placed} (hm : m ∈ n.preorder) (hm' : m' ∈ n.preorder)
    (e : m.id = m'.id) : m = m' :=
  List.inj_on_of_nodup_map h hm hm' e

theorem of_mem {m : Placed} (hm : m ∈ n.preorder) : m.Numbered :=
  List.Nodup.sublist ((preorder_sublist hm).map id) h

end Numbered

/-- A node is not below its own children. -/
theorem Numbered.id_ne_of_mem_child {n c m : Placed} (h : n.Numbered) (hc : c ∈ n.children)
    (hm : m ∈ c.preorder) : n.id ≠ m.id := by
  cases n with
  | token => simp at hc
  | branch a k cs =>
    intro e
    unfold Numbered at h
    rw [preorder_branch, List.map_cons, List.nodup_cons] at h
    refine h.1 (List.mem_map.2 ⟨m, List.mem_flatMap.2 ⟨c, hc, hm⟩, e.symm⟩)

/-! ## Paths -/

/-- The list leads from `n`, whose ancestors are `above`, down to its first element. -/
inductive Descends : Placed → List Placed → List Placed → Prop where
  | here (n : Placed) (above : List Placed) : Descends n above (n :: above)
  | down {n c : Placed} {above path : List Placed} (child : c ∈ n.children)
      (rest : Descends c (n :: above) path) : Descends n above path

namespace Descends

variable {n c m : Placed} {above path : List Placed}

theorem head_mem (h : Descends n above path) : ∀ m ∈ path.head?, m ∈ n.preorder := by
  induction h with
  | here n above => simp [self_mem_preorder]
  | down child rest ih =>
    intro m hm
    exact mem_preorder_trans (ih m hm) (mem_preorder_of_mem_children child)

/-- A path goes on to a child of the node it leads to. -/
theorem step (h : Descends n above (m :: path)) (hc : c ∈ m.children) :
    Descends n above (c :: m :: path) := by
  generalize e : m :: path = q at h
  induction h with
  | here n above =>
    obtain ⟨rfl, rfl⟩ := List.cons.inj e
    exact .down hc (.here _ _)
  | down child rest ih => exact .down child (ih e)

theorem suffix (h : Descends n above path) : (n :: above) <:+ path := by
  induction h with
  | here n above => exact List.suffix_refl _
  | down child rest ih => exact (List.suffix_cons _ _).trans ih

/-- Two neighbours on a path are child and parent, and the path leads to a node below both. -/
theorem of_infix {p : Placed} (h : Descends n above path) (hin : [c, p] <:+: path) :
    [c, p] <:+: n :: above ∨
      c ∈ p.children ∧ p ∈ n.preorder ∧ ∀ m ∈ path.head?, m ∈ c.preorder := by
  induction h with
  | here n above => exact .inl hin
  | down child rest ih =>
    rcases ih hin with hin | ⟨hc, hp, hm⟩
    · rcases List.infix_cons_iff.1 hin with hpre | hin
      · obtain ⟨hc, hpre'⟩ := List.cons_prefix_cons.1 hpre
        obtain ⟨hp, _⟩ := List.cons_prefix_cons.1 hpre'
        subst hc hp
        exact .inr ⟨child, self_mem_preorder _, rest.head_mem⟩
      · exact .inl hin
    · exact .inr ⟨hc, mem_preorder_trans hp (mem_preorder_of_mem_children child), hm⟩

/-- A path starts with paths to the nodes on it. -/
theorem of_suffix {p : Placed} {outer : List Placed} (h : Descends n above path)
    (hsuffix : (p :: outer) <:+ path) : (p :: outer) <:+ above ∨ Descends n above (p :: outer) := by
  induction h with
  | here n above =>
    rcases List.suffix_cons_iff.1 hsuffix with heq | hsuffix
    · exact .inr (heq ▸ .here n above)
    · exact .inl hsuffix
  | @down n c above path child rest ih =>
    rcases ih hsuffix with hsuffix | hdown
    · rcases List.suffix_cons_iff.1 hsuffix with heq | hsuffix
      · exact .inr (heq ▸ .here n above)
      · exact .inl hsuffix
    · exact .inr (.down child hdown)

theorem trans {path' : List Placed} (h : Descends n above (m :: path))
    (h' : Descends m path path') : Descends n above path' := by
  generalize e : m :: path = q at h
  induction h with
  | here n above =>
    obtain ⟨rfl, rfl⟩ := List.cons.inj e
    exact h'
  | down child rest ih => exact .down child (ih e)

/-- A path leads to a node below every node on it. -/
theorem mem_preorder_of_mem {p : Placed} (h : Descends n above path) (hp : p ∈ path) :
    p ∈ above ∨ p ∈ n.preorder ∧ ∀ m ∈ path.head?, m ∈ p.preorder := by
  induction h with
  | here n above =>
    rcases List.mem_cons.1 hp with rfl | hp
    · exact .inr ⟨self_mem_preorder _, by simp [self_mem_preorder]⟩
    · exact .inl hp
  | @down n c above path child rest ih =>
    have hc := mem_preorder_of_mem_children child
    rcases ih hp with hp | ⟨hp, hm⟩
    · rcases List.mem_cons.1 hp with rfl | hp
      · exact .inr ⟨self_mem_preorder _, fun m hm => mem_preorder_trans (rest.head_mem m hm) hc⟩
      · exact .inl hp
    · exact .inr ⟨mem_preorder_trans hp hc, hm⟩

/-- Two neighbours on a path from a root are child and parent. -/
theorem step_of_infix {p : Placed} (h : Descends n [] path) (hin : [c, p] <:+: path) :
    c ∈ p.children ∧ p ∈ n.preorder ∧ ∀ m ∈ path.head?, m ∈ c.preorder := by
  refine (h.of_infix hin).resolve_left fun hroot => ?_
  simpa using hroot.length_le

theorem of_suffix_root {p : Placed} {outer : List Placed} (h : Descends n [] path)
    (hsuffix : (p :: outer) <:+ path) : Descends n [] (p :: outer) :=
  (h.of_suffix hsuffix).resolve_left (by simp)

end Descends

theorem exists_descends {n e : Placed} (he : e ∈ n.preorder) (above : List Placed) :
    ∃ path, Descends n above (e :: path) := by
  induction n using Node.induction generalizing above with
  | token a t =>
    obtain rfl : e = .token a t := by simpa using he
    exact ⟨above, .here _ _⟩
  | branch a k cs ih =>
    rcases mem_preorder_branch.1 he with rfl | ⟨c, hc, he⟩
    · exact ⟨above, .here _ _⟩
    · obtain ⟨path, hpath⟩ := ih c hc he (.branch a k cs :: above)
      exact ⟨path, .down hc hpath⟩

theorem preorder_eq_cons (n : Node α) : ∃ below, n.preorder = n :: below := by
  cases n with
  | token a t => exact ⟨[], rfl⟩
  | branch a k cs => exact ⟨_, preorder_branch a k cs⟩

theorem sublist_flatMap_preorder (cs : List (Node α)) : cs.Sublist (cs.flatMap preorder) := by
  induction cs with
  | nil => exact .slnil
  | cons c cs ih =>
    obtain ⟨below, hc⟩ := c.preorder_eq_cons
    rw [List.flatMap_cons, hc]
    exact .cons_cons _ (ih.trans (List.sublist_append_right _ _))

theorem Numbered.nodup_children {n : Placed} (h : n.Numbered) : (n.children.map id).Nodup := by
  cases n with
  | token => simp
  | branch a k cs =>
    unfold Numbered at h
    rw [preorder_branch, List.map_cons, List.nodup_cons] at h
    exact h.2.sublist ((sublist_flatMap_preorder cs).map id)

/-- Two children of a node that share a node are the same. -/
theorem Numbered.child_eq {n c d m m' : Placed} (h : n.Numbered) (hc : c ∈ n.children)
    (hd : d ∈ n.children) (hm : m ∈ c.preorder) (hm' : m' ∈ d.preorder) (e : m.id = m'.id) :
    c = d := by
  cases n with
  | token => simp at hc
  | branch a k cs =>
    unfold Numbered at h
    rw [preorder_branch, List.map_cons, List.nodup_cons, List.map_flatMap, List.nodup_flatMap] at h
    by_contra hne
    have : Std.Symm (Function.onFun List.Disjoint fun c : Placed => c.preorder.map id) :=
      ⟨fun _ _ h _ ha hb => h hb ha⟩
    refine h.2.2.forall hc hd hne (List.mem_map_of_mem hm) ?_
    rw [e]
    exact List.mem_map_of_mem hm'

/-- A path to a node below `p` passes `p`. -/
theorem Descends.through {n p m : Placed} {above path : List Placed} (hn : n.Numbered)
    (h : Descends n above (m :: path)) (hp : p ∈ n.preorder) (hm : m ∈ p.preorder) :
    ∃ above', Descends p above' (m :: path) := by
  generalize e : m :: path = q at h
  induction h with
  | here n above =>
    obtain ⟨rfl, rfl⟩ := List.cons.inj e
    cases m with
    | token a t =>
      obtain rfl : p = .token a t := by simpa using hp
      exact ⟨_, .here _ _⟩
    | branch a k cs =>
      rcases mem_preorder_branch.1 hp with rfl | ⟨c, hc, hpc⟩
      · exact ⟨_, .here _ _⟩
      · exact absurd rfl (hn.id_ne_of_mem_child hc (mem_preorder_trans hm hpc))
  | @down n c above q child rest ih =>
    subst e
    cases n with
    | token => simp at child
    | branch a k cs =>
      rcases mem_preorder_branch.1 hp with rfl | ⟨d, hd, hpd⟩
      · exact ⟨above, .down child rest⟩
      · obtain rfl := hn.child_eq child hd (rest.head_mem m (by simp))
          (mem_preorder_trans hm hpd) rfl
        exact ih (hn.of_mem (mem_preorder_of_mem_children child)) hpd rfl

mutual

theorem pathFrom_eq_none (target : Nat) (above : List Placed) (n : Placed)
    (h : ∀ m ∈ n.preorder, m.id ≠ target) : n.pathFrom target above = none := by
  cases n with
  | token a t =>
    have hroot : a.id ≠ target := h _ (self_mem_preorder _)
    simp [pathFrom, hroot]
  | branch a k cs =>
    have hroot : a.id ≠ target := h _ (self_mem_preorder _)
    simp only [pathFrom, if_neg hroot]
    apply pathFromAll_eq_none
    intro c hc m hm
    exact h m (mem_preorder_branch.2 (.inr ⟨c, hc, hm⟩))

theorem pathFromAll_eq_none (target : Nat) (above : List Placed) (cs : List Placed)
    (h : ∀ c ∈ cs, ∀ m ∈ c.preorder, m.id ≠ target) : pathFromAll target above cs = none := by
  match cs with
  | [] => rfl
  | c :: cs =>
    simp only [pathFromAll]
    rw [pathFrom_eq_none target above c (h c (by simp))]
    exact pathFromAll_eq_none target above cs fun d hd => h d (by simp [hd])

end

theorem pathFromAll_eq_of_mem {target : Nat} {above path : List Placed} {c : Placed}
    {cs : List Placed} (hc : c ∈ cs) (hpath : c.pathFrom target above = some path)
    (hnodup : ((cs.flatMap preorder).map id).Nodup) (hm : ∃ m ∈ c.preorder, m.id = target) :
    pathFromAll target above cs = some path := by
  induction cs with
  | nil => simp at hc
  | cons d ds ih =>
    simp only [pathFromAll]
    by_cases hd : c = d
    · subst hd
      rw [hpath]
    · have hc' : c ∈ ds := by simpa [hd] using hc
      simp only [List.flatMap_cons, List.map_append, List.nodup_append] at hnodup
      have hnone : d.pathFrom target above = none := by
        apply pathFrom_eq_none
        intro m hmd e
        obtain ⟨m', hm', e'⟩ := hm
        refine hnodup.2.2 m.id (List.mem_map_of_mem hmd) m'.id
          (List.mem_map_of_mem (List.mem_flatMap.2 ⟨c, hc', hm'⟩)) (e.trans e'.symm)
      rw [hnone]
      exact ih hc' hnodup.2.1

theorem pathFrom_of_descends {n m : Placed} {above path : List Placed} (hn : n.Numbered)
    (h : Descends n above (m :: path)) : n.pathFrom m.id above = some (m :: path) := by
  generalize e : m :: path = q at h
  induction h with
  | here n above =>
    obtain ⟨rfl, rfl⟩ := List.cons.inj e
    cases m <;> simp [pathFrom, id, tag]
  | @down n c above q child rest ih =>
    subst e
    have hm : m ∈ c.preorder := rest.head_mem m (by simp)
    cases n with
    | token => simp at child
    | branch a k cs =>
      have hne : a.id ≠ m.id := hn.id_ne_of_mem_child child hm
      simp only [pathFrom, if_neg hne]
      refine pathFromAll_eq_of_mem child
        (ih (hn.of_mem (mem_preorder_of_mem_children child)) rfl) ?_ ⟨m, hm, rfl⟩
      unfold Numbered at hn
      rw [preorder_branch, List.map_cons, List.nodup_cons] at hn
      exact hn.2

/-- The path to a node is the chain of children that leads to it. -/
theorem path?_of_descends {n m : Placed} {path : List Placed} (hn : n.Numbered)
    (h : Descends n [] (m :: path)) : n.path? m.id = some (m :: path) :=
  pathFrom_of_descends hn h

/-- A path from a root is found by the number of the node that it leads to. -/
theorem Descends.eq_of_id_eq {root m n : Placed} {path outer : List Placed} (h : root.Numbered)
    (hpath : Descends root [] (n :: path)) (houter : Descends root [] (m :: outer))
    (hid : m.id = n.id) : m :: outer = n :: path := by
  have hfound := path?_of_descends h houter
  rw [hid, path?_of_descends h hpath] at hfound
  exact (Option.some.inj hfound).symm

/-- What is found by a number is the path that leads down to the node of this number. -/
theorem descends_of_path? {root : Placed} {path : List Placed} (h : root.Numbered) {id : Nat}
    (hpath : root.path? id = some path) : Descends root [] path := by
  by_cases hm : ∃ m ∈ root.preorder, m.id = id
  · obtain ⟨m, hm, rfl⟩ := hm
    obtain ⟨above, hdescends⟩ := exists_descends hm []
    rw [path?_of_descends h hdescends] at hpath
    exact Option.some.inj hpath ▸ hdescends
  · have hnone := pathFrom_eq_none id [] root fun m hmem hid => hm ⟨m, hmem, hid⟩
    rw [path?, hnone] at hpath
    cases hpath

/-- Behind a node other than the root stands its parent. -/
theorem Descends.exists_parent {root c : Placed} {path : List Placed}
    (hpath : Descends root [] (c :: path)) (hne : c ≠ root) :
    ∃ p outer, path = p :: outer ∧ p ∈ root.preorder ∧ c ∈ p.children := by
  cases path with
  | nil =>
    obtain ⟨before, hsuffix⟩ := hpath.suffix
    have hlength := congrArg List.length hsuffix
    obtain rfl : before = [] := List.length_eq_zero_iff.1 (by simpa using hlength)
    exact absurd (List.cons.inj hsuffix).1.symm hne
  | cons p outer =>
    obtain ⟨hc, hp, -⟩ := hpath.step_of_infix (List.infix_append [] [c, p] outer)
    exact ⟨p, outer, rfl, hp, hc⟩

end NullLint.Node

namespace NullLint.Tree

theorem path?_of_descends {t : Tree} {root n : Placed} {path : List Placed}
    (hroot : t.placed = some root) (h : root.Numbered)
    (hpath : Node.Descends root [] (n :: path)) : t.path? n.id = some (n :: path) := by
  rw [path?, hroot, Option.bind_some, Node.path?_of_descends h hpath]

end NullLint.Tree
