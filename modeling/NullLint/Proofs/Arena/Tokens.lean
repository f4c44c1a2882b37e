import NullLint.Proofs.Arena.Walks
import NullLint.Proofs.Syntax.Derivation

/-!
# Changing tokens in an arena

Each token node of a forest has an entry of its own, so a change of one token leaves the trees
without it as they are. The change of the first or of the last token below a node is the change of
the first or of the last token of its tree.
-/

namespace NullLint

namespace Node

variable {α : Type} {n l : Node α}

theorem mem_preorder_of_firstLeaf? (h : n.firstLeaf? = some l) : l ∈ n.preorder := by
  induction n with
  | token a t => simpa [firstLeaf?] using h.symm
  | branch a k cs ih =>
    cases cs with
    | nil => cases h
    | cons c cs => exact mem_preorder_branch.2 (.inr ⟨c, by simp, ih c (by simp) h⟩)

theorem mem_preorder_of_lastLeaf? (h : n.lastLeaf? = some l) : l ∈ n.preorder := by
  induction n with
  | token a t => simpa [lastLeaf?] using h.symm
  | branch a k cs ih =>
    rw [lastLeaf?, lastLeafIn?_eq] at h
    obtain ⟨c, hlast, h⟩ := Option.bind_eq_some_iff.1 h
    have hc : c ∈ cs := List.mem_of_getLast? hlast
    exact mem_preorder_branch.2 (.inr ⟨c, hc, ih c hc h⟩)

end Node

namespace Arena

variable {a : Arena} {p : Option Nat} {n : Node Nat} {ns : List (Node Nat)} {i j d : Nat}
  {f : TokenData → TokenData}

@[simp] theorem nodes_updateAt (o : Option Nat) : (a.updateAt o f).nodes = a.nodes := by
  cases o with
  | none => rfl
  | some i =>
    rw [updateAt, Option.map_some, Option.getD_some, updateToken]
    split <;> rfl

@[simp] theorem node?_updateAt (o : Option Nat) : (a.updateAt o f).node? j = a.node? j := by
  simp [node?]

@[simp] theorem length_tokens_updateAt (o : Option Nat) :
    (a.updateAt o f).tokens.length = a.tokens.length := by
  cases o with
  | none => rfl
  | some i =>
    rw [updateAt, Option.map_some, Option.getD_some, updateToken]
    split
    · exact List.length_modify ..
    · rfl

/-- No two nodes share an entry. -/
def Unshared (a : Arena) : Prop :=
  ∀ i j d, (a.node? i).bind ArenaNode.data = some d → (a.node? j).bind ArenaNode.data = some d →
    i = j

theorem Forest.unshared (h : a.Forest ns) : a.Unshared := by
  have hpairwise : a.nodes.Pairwise fun m m' =>
      ∀ d, m.data = some d → ∀ d', m'.data = some d' → d ≠ d' := by
    rw [← List.pairwise_filterMap, h.data]
    exact List.nodup_range
  rw [List.pairwise_iff_getElem] at hpairwise
  intro i j d hi hj
  obtain ⟨m, hm, hmd⟩ := Option.bind_eq_some_iff.1 hi
  obtain ⟨m', hm', hmd'⟩ := Option.bind_eq_some_iff.1 hj
  obtain ⟨hilt, rfl⟩ := List.getElem?_eq_some_iff.1 hm
  obtain ⟨hjlt, rfl⟩ := List.getElem?_eq_some_iff.1 hm'
  rcases Nat.lt_trichotomy i j with hlt | heq | hlt
  · exact absurd rfl (hpairwise i j hilt hjlt hlt d hmd d hmd')
  · exact heq
  · exact absurd rfl (hpairwise j i hjlt hilt hlt d hmd' d hmd)

section Unshared

variable (ha : a.Unshared)
include ha

/-- A tree without the changed token stays as it is. -/
theorem Holds.updateAt (h : a.Holds p n) {o : Option Nat} (ho : ∀ i ∈ o, i ∉ n.indices) :
    (a.updateAt o f).Holds p n := by
  induction h with
  | @token p j d t hnode hdata =>
    refine .token (d := d) (by simpa using hnode) ?_
    cases o with
    | none => exact hdata
    | some i =>
      rw [Arena.updateAt, Option.map_some, Option.getD_some, updateToken]
      split
      · rename_i e he
        have hne : e ≠ d := by
          rintro rfl
          exact ho i rfl (by simpa using ha i j e he (by simp [hnode]))
        simpa [List.getElem?_modify, hne] using hdata
      · exact hdata
  | @branch p j k cs hnode hcs ih =>
    exact .branch (by simpa using hnode) fun c hc =>
      ih c hc fun i hi hmem => ho i hi (Node.mem_indices_of_child hc hmem)

omit ha in
theorem Holds.updateToken {t u : Token} (h : a.Holds p (.token i t)) (hkind : u.kind = t.kind)
    (hmissing : u.missing = t.missing) (hdata : u.data = f t.data) :
    (a.updateAt (some i) f).Holds p (.token i u) := by
  cases h with
  | @token _ _ d _ hnode hentry =>
    refine .token (d := d) (by simpa [hkind, hmissing] using hnode) ?_
    simp [Arena.updateAt, Arena.updateToken, hnode, hentry, hdata]

/-- What a change of a token makes of a tree. -/
structure Changed (b : Arena) (p : Option Nat) (n m : Node Nat) : Prop where
  holds : b.Holds p m
  tag : m.tag = n.tag
  indices : m.indices = n.indices

variable {F : Token → Token} (hF : ∀ t, (F t).kind = t.kind ∧ (F t).missing = t.missing ∧
  (F t).data = f t.data)
include hF

theorem Holds.updateFirst (h : a.Holds p n) (hnodup : n.indices.Nodup) :
    ∃ m, (a.updateAt (n.firstLeaf?.map Node.tag) f).Changed p n m ∧
      m.erase = Tree.updateFirst F n.erase := by
  induction h with
  | @token p i d t hnode hdata =>
    obtain ⟨hkind, hmissing, hentry⟩ := hF t
    exact ⟨.token i (F t), ⟨(Holds.token hnode hdata).updateToken hkind hmissing hentry, rfl, rfl⟩,
      rfl⟩
  | @branch p i k cs hnode hcs ih =>
    cases cs with
    | nil => exact ⟨.branch i k [], ⟨.branch hnode nofun, rfl, rfl⟩, rfl⟩
    | cons c cs =>
      rw [Node.indices_branch, List.flatMap_cons, List.nodup_cons, List.nodup_append] at hnodup
      obtain ⟨m, hm, hmF⟩ := ih c (by simp) hnodup.2.1
      refine ⟨.branch i k (m :: cs), ⟨.branch ?_ fun e he => ?_, rfl, ?_⟩, ?_⟩
      · simpa [hm.tag] using hnode
      · rcases List.mem_cons.1 he with rfl | he
        · exact hm.holds
        · refine (hcs e (by simp [he])).updateAt ha fun j hj hmem => ?_
          obtain ⟨l, hl, rfl⟩ := Option.map_eq_some_iff.1 hj
          exact hnodup.2.2.2 _ (List.mem_map_of_mem (Node.mem_preorder_of_firstLeaf? hl)) _
            (List.mem_flatMap.2 ⟨e, he, hmem⟩) rfl
      · simp [hm.indices]
      · simp [Node.erase_branch, hmF, Tree.updateFirst]

theorem Holds.updateLast (h : a.Holds p n) (hnodup : n.indices.Nodup) :
    ∃ m, (a.updateAt (n.lastLeaf?.map Node.tag) f).Changed p n m ∧
      m.erase = Tree.updateLast F n.erase := by
  induction h with
  | @token p i d t hnode hdata =>
    obtain ⟨hkind, hmissing, hentry⟩ := hF t
    exact ⟨.token i (F t), ⟨(Holds.token hnode hdata).updateToken hkind hmissing hentry, rfl, rfl⟩,
      rfl⟩
  | @branch p i k cs hnode hcs ih =>
    rcases List.eq_nil_or_concat' cs with rfl | ⟨before, c, rfl⟩
    · exact ⟨.branch i k [], ⟨.branch hnode nofun, rfl, rfl⟩, rfl⟩
    · rw [Node.lastLeaf?, Node.lastLeafIn?_eq, List.getLast?_concat, Option.bind_some]
      rw [Node.indices_branch, List.flatMap_append, List.nodup_cons, List.nodup_append] at hnodup
      obtain ⟨m, hm, hmF⟩ := ih c (by simp) (by simpa using hnodup.2.2.1)
      refine ⟨.branch i k (before ++ [m]), ⟨.branch ?_ fun e he => ?_, rfl, ?_⟩, ?_⟩
      · simpa [hm.tag] using hnode
      · rcases List.mem_append.1 he with he | he
        · refine (hcs e (by simp [he])).updateAt ha fun j hj hmem => ?_
          obtain ⟨l, hl, rfl⟩ := Option.map_eq_some_iff.1 hj
          have hlast : l.tag ∈ c.indices := List.mem_map_of_mem (Node.mem_preorder_of_lastLeaf? hl)
          exact hnodup.2.2.2 _ (List.mem_flatMap.2 ⟨e, he, hmem⟩) _ (by simpa using hlast) rfl
        · obtain rfl := List.mem_singleton.1 he
          exact hm.holds
      · simp [hm.indices]
      · simp [Node.erase_branch, hmF, Tree.updateLast_group]

end Unshared

/-- A change keeps the forest, with the changed tree in it. -/
theorem Forest.updateAt {m : Node Nat} {o : Option Nat} (h : a.Forest [n])
    (hm : (a.updateAt o f).Changed none n m) : (a.updateAt o f).Forest [m] where
  holds := by simpa using hm.holds
  indices := by simpa [hm.indices, size] using h.indices
  data := by simpa using h.data

/-- New trivia before the first token and behind the last one are those that the tree gets. -/
theorem Forest.outerTrivia (h : a.Forest [n]) (leading trailing : List Trivia) :
    let b := a.updateAt (a.firstToken n.tag) fun d => { d with leading }
    ∃ m : Node Nat, (b.updateAt (b.lastToken n.tag) fun d => { d with trailing }).Forest [m] ∧
      m.tag = n.tag ∧ m.erase = Tree.updateLast (fun t => { t with trailing })
        (Tree.updateFirst (fun t => { t with leading }) n.erase) := by
  intro b
  have hn := h.holds n (by simp)
  obtain ⟨l, hl, hleading⟩ := hn.updateFirst (f := fun d => { d with leading })
    (F := fun t => { t with leading }) h.unshared (fun _ => ⟨rfl, rfl, rfl⟩)
    (h.nodup_of_mem (by simp))
  rw [← hn.firstToken h.size_eq.le] at hl
  have hforest : b.Forest [l] := h.updateAt hl
  obtain ⟨m, hm, htrailing⟩ := hl.holds.updateLast (f := fun d => { d with trailing })
    (F := fun t => { t with trailing }) hforest.unshared (fun _ => ⟨rfl, rfl, rfl⟩)
    (hforest.nodup_of_mem (by simp))
  rw [← hl.holds.lastToken hforest.size_eq.le, hl.tag] at hm
  exact ⟨m, hforest.updateAt hm, hm.tag.trans hl.tag, by rw [htrailing, hleading]⟩

end Arena

end NullLint
