import NullLint.Proofs.Syntax.Intervals
import NullLint.Proofs.Syntax.Relabeling
import NullLint.Proofs.Syntax.Substitution

/-!
# Trees with a hole

A subtree stands in frames, one for each node around it. Two trees with the same frames and different
subtrees in them are the same but for the subtree and the numbers and positions of what stands behind
it: each node beside the hole of one tree is found in the other, under another number.
-/

namespace NullLint

namespace Node

/-! ## Tags -/

/-- A node is determined by its shape and its tags. -/
theorem eq_of_erase_eq {α : Type} {n n' : Node α} (herase : n.erase = n'.erase)
    (htags : n.preorder.map tag = n'.preorder.map tag) : n = n' := by
  induction n generalizing n' with
  | token a t =>
    cases n' with
    | token a' t' => simp_all [erase, map, tag]
    | branch a' k' cs' => simp [erase, map] at herase
  | branch a k cs ih =>
    cases n' with
    | token a' t' => simp [erase, map] at herase
    | branch a' k' cs' =>
      simp only [erase_branch, branch.injEq, true_and] at herase
      simp only [preorder_branch, List.map_cons, List.cons.injEq] at htags
      obtain ⟨rfl, hchildren⟩ := herase
      obtain ⟨rfl, htags⟩ : a = a' ∧ _ := htags
      suffices hcs : cs = cs' by rw [hcs]
      induction cs generalizing cs' with
      | nil =>
        cases cs' with
        | nil => rfl
        | cons => simp at hchildren
      | cons c cs ihcs =>
        cases cs' with
        | nil => simp at hchildren
        | cons c' cs' =>
          obtain ⟨hc, hcs⟩ := List.cons.inj hchildren
          have hsize : c.size = c'.size := by
            rw [← size_map (fun _ => ()) c, ← size_map (fun _ => ()) c']
            exact congrArg size hc
          simp only [List.flatMap_cons, List.map_append] at htags
          obtain ⟨hfirst, hrest⟩ := List.append_inj htags (by simpa [size] using hsize)
          rw [ih c (by simp) hc hfirst, ihcs (fun d hd => ih d (by simp [hd])) cs' hcs hrest]

/-- Nodes are determined by their shapes and their tags. -/
theorem eq_of_map_erase_eq {α : Type} {cs cs' : List (Node α)}
    (herase : cs.map erase = cs'.map erase)
    (htags : (cs.flatMap preorder).map tag = (cs'.flatMap preorder).map tag) : cs = cs' := by
  cases cs with
  | nil => simpa using herase.symm
  | cons c cs =>
    have heq : branch c.tag .block (c :: cs) = branch c.tag .block cs' :=
      eq_of_erase_eq (by rw [erase_branch, erase_branch, herase])
        (by simp only [preorder_branch, List.map_cons, htags]; rfl)
    injection heq

end Node

/-! ## Frames -/

/-- What stands around a child of a node: the kind of the node, and the children on both sides. -/
structure Frame where
  kind : Kind
  left : List Green
  right : List Green

namespace Frame

/-- The node with a child put in. -/
def plug (f : Frame) (g : Green) : Green := .group f.kind (f.left ++ g :: f.right)

/-- The tree with a subtree put in, outermost frame first. -/
def plugAll (fs : List Frame) (g : Green) : Green := fs.foldr plug g

/-- Number of nodes before the child. -/
def before (f : Frame) : Nat := (f.left.flatMap Node.preorder).length + 1

/-- Number of nodes behind the child. -/
def behind (f : Frame) : Nat := (f.right.flatMap Node.preorder).length

/-- Number of nodes before the subtree. -/
def beforeAll : List Frame → Nat
  | [] => 0
  | f :: fs => f.before + beforeAll fs

/-- Number of nodes behind the subtree. -/
def behindAll : List Frame → Nat
  | [] => 0
  | f :: fs => behindAll fs + f.behind

theorem size_plug (f : Frame) (g : Green) : (f.plug g).size = f.before + g.size + f.behind := by
  simp [plug, before, behind, Node.size]
  omega

theorem size_plugAll (fs : List Frame) (g : Green) :
    (plugAll fs g).size = beforeAll fs + g.size + behindAll fs := by
  induction fs with
  | nil => simp [plugAll, beforeAll, behindAll]
  | cons f fs ih =>
    have hstep : (plugAll (f :: fs) g).size = _ := f.size_plug (plugAll fs g)
    rw [hstep, ih, beforeAll, behindAll]
    omega

end Frame

namespace Node

variable {root n c m : Placed} {σ : Nat → Option Green}

/-- The numbers below nodes beside each other. -/
theorem Serial.ids_children {n : Placed} (h : n.Serial) : (n.children.flatMap preorder).map id =
    List.range' (n.id + 1) (n.children.flatMap preorder).length := by
  cases n with
  | token => rfl
  | branch a k cs =>
    have hids : (branch a k cs).preorder.map id =
        List.range' a.id ((cs.flatMap preorder).length + 1) := by
      rw [h, size_branch]
      rfl
    rw [preorder_branch, List.map_cons, List.range'_succ] at hids
    exact (List.cons.inj hids).2

theorem length_flatMap_preorder {α : Type} (cs : List (Node α)) :
    (cs.flatMap preorder).length = ((cs.map erase).flatMap preorder).length := by
  induction cs with
  | nil => rfl
  | cons c cs ih =>
    simp only [List.flatMap_cons, List.map_cons, List.length_append, ih]
    congr 1
    exact (size_map _ c).symm

/-- The numbers of a list of nodes, part by part. -/
theorem ids_append {as bs : List Placed} {first : Nat}
    (hids : (as ++ bs).map id = List.range' first (as ++ bs).length) :
    as.map id = List.range' first as.length ∧
      bs.map id = List.range' (first + as.length) bs.length := by
  rw [List.map_append, List.length_append, ← List.range'_append_1] at hids
  exact List.append_inj hids (by simp)

/-- The number of a child, from the nodes before it. -/
theorem Serial.id_of_split {n c : Placed} {l r : List Placed} (h : n.Serial)
    (hc : n.children = l ++ c :: r) :
    c.id = n.id + (Frame.mk n.kind (l.map erase) (r.map erase)).before := by
  have hids := h.ids_children
  rw [hc, List.flatMap_append, List.flatMap_cons] at hids
  obtain ⟨below, hbelow⟩ := c.preorder_eq_cons
  have hrest := (ids_append (ids_append hids).2).1
  rw [hbelow, List.map_cons, List.length_cons, List.range'_succ] at hrest
  rw [(List.cons.inj hrest).1, Frame.before, ← length_flatMap_preorder]
  omega

theorem erase_of_split {l r : List Placed} (hc : n.children = l ++ c :: r) :
    n.erase = (Frame.mk n.kind (l.map erase) (r.map erase)).plug c.erase := by
  cases n with
  | token => simp at hc
  | branch a k cs =>
    obtain rfl : cs = l ++ c :: r := hc
    simp [erase_branch, Frame.plug]

/-- A substitution below one child leaves the others. -/
theorem substitute_of_split {l r : List Placed} (h : n.Numbered) (hc : n.children = l ++ c :: r)
    (hσ : ∀ x ∈ n.preorder, x ∉ c.preorder → σ x.id = none) :
    n.substitute σ = (Frame.mk n.kind (l.map erase) (r.map erase)).plug (c.substitute σ) := by
  have hcn : c ∈ n.children := by simp [hc]
  cases n with
  | token => simp at hc
  | branch a k cs =>
    obtain rfl : cs = l ++ c :: r := hc
    have hnone : σ a.id = none := hσ _ (self_mem_preorder _) fun hmem =>
      h.id_ne_of_mem_child hcn hmem rfl
    have hdistinct := h.nodup_children
    have hside {d : Placed} (hd : d ∈ (branch a k (l ++ c :: r)).children) (hne : d.id ≠ c.id) :
        d.substitute σ = d.erase := by
      refine substitute_self d fun x hx g hg => ?_
      rw [hσ x (mem_preorder_trans hx (mem_preorder_of_mem_children hd)) fun hxc =>
        hne (congrArg id (h.child_eq hd hcn hx hxc rfl))] at hg
      cases hg
    simp only [children_branch, List.map_append, List.map_cons, List.nodup_append,
      List.nodup_cons, List.mem_map, List.mem_cons] at hdistinct
    have hleft : l.map (substitute σ) = l.map erase := List.map_congr_left fun d hd =>
      hside (by simp [hd]) fun heq => hdistinct.2.2 _ ⟨d, hd, rfl⟩ _ (.inl rfl) heq
    have hright : r.map (substitute σ) = r.map erase := List.map_congr_left fun d hd =>
      hside (by simp [hd]) fun heq => hdistinct.2.1.1 ⟨d, hd, heq⟩
    rw [substitute_branch hnone, List.map_append, List.map_cons, hleft, hright]
    rfl

/-- A subtree stands in frames that a substitution below it leaves. -/
theorem exists_frames (h : root.Serial) (hm : m ∈ root.preorder) :
    ∃ fs, root.erase = Frame.plugAll fs m.erase ∧ m.id = root.id + Frame.beforeAll fs ∧
      ∀ σ, (∀ x ∈ root.preorder, x ∉ m.preorder → σ x.id = none) →
        root.substitute σ = Frame.plugAll fs (m.substitute σ) := by
  induction root using Node.induction with
  | token a t =>
    obtain rfl : m = .token a t := by simpa using hm
    exact ⟨[], rfl, rfl, fun σ _ => rfl⟩
  | branch a k cs ih =>
    rcases mem_preorder_branch.1 hm with rfl | ⟨c, hc, hmc⟩
    · exact ⟨[], rfl, rfl, fun σ _ => rfl⟩
    have hcn : c ∈ (branch a k cs).preorder := mem_preorder_of_mem_children hc
    obtain ⟨fs, herase, hid, hfs⟩ := ih c hc (h.of_mem hcn) hmc
    obtain ⟨l, r, hsplit⟩ := List.append_of_mem hc
    refine ⟨⟨k, l.map erase, r.map erase⟩ :: fs, ?_, ?_, fun σ hσ => ?_⟩
    · rw [erase_of_split (n := branch a k cs) hsplit, herase]
      rfl
    · have hchild := h.id_of_split (n := branch a k cs) hsplit
      rw [kind_branch] at hchild
      rw [Frame.beforeAll]
      omega
    · rw [substitute_of_split (n := branch a k cs) h.numbered hsplit fun x hx hxc =>
        hσ x hx fun hxm => hxc (mem_preorder_trans hxm hmc),
        hfs σ fun x hx => hσ x (mem_preorder_trans hx hcn)]
      rfl

end Node

/-! ## Two trees with the same frames -/

/-- The number `i` when the numbers from `first` on move by a gap. -/
def skip (first gap i : Nat) : Nat := if i < first then i else i + gap

theorem skip_of_lt {first i : Nat} (gap : Nat) (h : i < first) : skip first gap i = i := if_pos h

theorem skip_of_le {first i : Nat} (gap : Nat) (h : first ≤ i) : skip first gap i = i + gap :=
  if_neg (Nat.not_lt.2 h)

@[simp]
theorem skip_zero (first i : Nat) : skip first 0 i = i := by simp [skip]

theorem skip_zero_eq (first : Nat) : skip first 0 = id := funext (skip_zero first)

theorem skip_injective (first gap : Nat) : Function.Injective (skip first gap) := by
  intro i j h
  unfold skip at h
  split at h <;> split at h <;> omega

namespace Node

/-- Two nodes with the same children, but for one of them. -/
structure Parts (f : Place → Place) (c c' n n' : Placed) : Prop where
  kind : n'.kind = n.kind
  id : n'.id = (f n.tag).id
  children : ∃ left right, n.children = left ++ c :: right ∧
    n'.children = left.map (map f) ++ c' :: right.map (map f)

namespace Parts

variable {f : Place → Place} {c c' n n' : Placed} {p : Kind → Bool}

/-- The first child of some kinds, if the hole is not of one of them. -/
theorem find?_eq (h : Parts f c c' n n') (hc : p c.kind = false) (hc' : p c'.kind = false) :
    n'.children.find? (fun d => p d.kind) =
      (n.children.find? fun d => p d.kind).map (Node.map f) := by
  obtain ⟨left, right, hn, hn'⟩ := h.children
  simp only [hn, hn', List.find?_append, List.find?_cons, hc, hc', List.find?_map,
    Function.comp_def, Node.kind_map, Option.map_or]

/-- The children of some kinds, if the hole is not of one of them. -/
theorem filter_eq (h : Parts f c c' n n') (hc : p c.kind = false) (hc' : p c'.kind = false) :
    n'.children.filter (fun d => p d.kind) =
      (n.children.filter fun d => p d.kind).map (Node.map f) := by
  obtain ⟨left, right, hn, hn'⟩ := h.children
  simp [hn, hn', hc, hc', List.filter_map, Function.comp_def]

/-- The children of some kinds, if the hole is among them. -/
theorem exists_filter (h : Parts f c c' n n') (hc : p c.kind = true) (hc' : p c'.kind = true) :
    ∃ left right, n.children.filter (fun d => p d.kind) = left ++ c :: right ∧
      n'.children.filter (fun d => p d.kind) =
        left.map (Node.map f) ++ c' :: right.map (Node.map f) := by
  obtain ⟨left, right, hn, hn'⟩ := h.children
  refine ⟨left.filter fun d => p d.kind, right.filter fun d => p d.kind, ?_, ?_⟩
  · simp [hn, hc]
  · simp [hn', hc', List.filter_map, Function.comp_def]

end Parts

/-- Two trees with the same frames around the subtrees `c` and `c'`. -/
inductive Around (f : Place → Place) (c c' : Placed) : Placed → Placed → Prop where
  | here : Around f c c' c c'
  | inside {n n' d d' : Placed} (parts : Parts f d d' n n') (below : Around f c c' d d') :
      Around f c c' n n'

/-- Numbers up to the hole stay, and those behind it move by a gap to the places of `root`. -/
structure Fits (f : Place → Place) (hole gap : Nat) (root : Placed) : Prop where
  id : ∀ p, (f p).id = skip (hole + 1) gap p.id
  place : ∀ x ∈ root.preorder, ∀ p, (f p).id = x.id → f p = x.tag

end Node

namespace Node.Fits

variable {f : Place → Place} {hole gap : Nat} {root : Placed} (h : Fits f hole gap root)
include h

/-- Nodes of the same shapes beside the hole. -/
theorem map_eq {cs cs' : List Placed} {first first' : Nat}
    (herase : cs.map Node.erase = cs'.map Node.erase) (hin : ∀ c ∈ cs', c ∈ root.preorder)
    (hids : (cs.flatMap Node.preorder).map Node.id =
      List.range' first (cs.flatMap Node.preorder).length)
    (hids' : (cs'.flatMap Node.preorder).map Node.id =
      List.range' first' (cs'.flatMap Node.preorder).length)
    (hmoved : first + (cs.flatMap Node.preorder).length ≤ hole + 1 ∧ first' = first ∨
      hole < first ∧ first' = first + gap) :
    cs' = cs.map (Node.map f) := by
  have hlength : (cs'.flatMap Node.preorder).length = (cs.flatMap Node.preorder).length := by
    rw [Node.length_flatMap_preorder, ← herase, ← Node.length_flatMap_preorder]
  have hnumbers : (cs'.flatMap Node.preorder).map Node.id =
      ((cs.flatMap Node.preorder).map Node.id).map (skip (hole + 1) gap) := by
    rw [hids, hids', hlength]
    refine List.ext_getElem (by simp) fun i hi _ => ?_
    simp only [List.length_range'] at hi
    simp only [List.getElem_range', List.getElem_map, Nat.one_mul]
    rcases hmoved with ⟨hle, rfl⟩ | ⟨hlt, rfl⟩
    · rw [skip_of_lt _ (by omega)]
    · rw [skip_of_le _ (by omega)]
      omega
  rw [List.map_map] at hnumbers
  refine Node.eq_of_map_erase_eq ?_ ?_
  · rw [← herase, List.map_map]
    refine List.map_congr_left fun c _ => ?_
    simp [Node.erase, Node.map_map, Function.comp_def]
  · have hflat : (cs.map (Node.map f)).flatMap Node.preorder =
        (cs.flatMap Node.preorder).map (Node.map f) := by
      simp only [List.flatMap_map, List.map_flatMap, Node.preorder_map]
    rw [hflat, List.map_map]
    refine List.ext_getElem (by simp [hlength]) fun i hi hi' => ?_
    simp only [List.length_map] at hi hi'
    have hid : (cs'.flatMap Node.preorder)[i].id =
        skip (hole + 1) gap (cs.flatMap Node.preorder)[i].id := by
      have hget : _ = _ := congrArg (fun l => l[i]?) hnumbers
      rwa [List.getElem?_map, List.getElem?_map, List.getElem?_eq_getElem hi,
        List.getElem?_eq_getElem hi', Option.map_some, Option.map_some, Option.some.injEq] at hget
    obtain ⟨c, hc, hx⟩ := List.mem_flatMap.1 (List.getElem_mem hi)
    simp only [List.getElem_map, Function.comp_apply, Node.tag_map]
    exact (h.place _ (Node.mem_preorder_trans hx (hin c hc)) _ ((h.id _).trans hid.symm)).symm

omit h in
/-- A node in a frame, with the numbers of what is before, in and behind the hole. -/
theorem split_children {n : Placed} {frame : Frame} {g : Green} (hs : n.Serial)
    (herase : n.erase = frame.plug g) :
    ∃ left c right, n.children = left ++ c :: right ∧ n.kind = frame.kind ∧
      left.map Node.erase = frame.left ∧ c.erase = g ∧ right.map Node.erase = frame.right ∧
      c.id = n.id + frame.before ∧
      (left.flatMap Node.preorder).map Node.id =
        List.range' (n.id + 1) (left.flatMap Node.preorder).length ∧
      (right.flatMap Node.preorder).map Node.id =
        List.range' (n.id + frame.before + g.size) (right.flatMap Node.preorder).length := by
  have hkind : n.kind = frame.kind := by
    rw [← Node.kind_map (fun _ => ()) n]
    exact congrArg Node.kind herase
  have hchildren : n.children.map Node.erase = frame.left ++ g :: frame.right := by
    have hc := congrArg Node.children herase
    rwa [Node.erase, Node.children_map] at hc
  obtain ⟨left, rest, hc, hleft, hrest⟩ := List.map_eq_append_iff.1 hchildren
  obtain ⟨c, right, rfl, hce, hright⟩ := List.map_eq_cons_iff.1 hrest
  have hids := hs.ids_children
  rw [hc, List.flatMap_append, List.flatMap_cons] at hids
  obtain ⟨hids, hrest⟩ := Node.ids_append hids
  obtain ⟨-, hrest⟩ := Node.ids_append hrest
  have hbefore : frame.before = (left.flatMap Node.preorder).length + 1 := by
    rw [Frame.before, ← hleft, ← Node.length_flatMap_preorder]
  have hsize : c.preorder.length = g.size := by
    rw [← hce]
    exact (Node.size_map _ c).symm
  have hid : c.id = n.id + frame.before := by
    rw [hs.id_of_split hc, hkind, hleft, hright]
  refine ⟨left, c, right, hc, hkind, hleft, hce, hright, hid, hids, ?_⟩
  rwa [hsize, show n.id + 1 + (left.flatMap Node.preorder).length + g.size =
    n.id + frame.before + g.size by omega] at hrest

/-- Two nodes in the same frame, with the hole in what is put in. -/
theorem parts {n n' : Placed} {frame : Frame} {g g' : Green} (hs : n.Serial) (hs' : n'.Serial)
    (hn' : n' ∈ root.preorder) (herase : n.erase = frame.plug g) (herase' : n'.erase = frame.plug g')
    (hid : n'.id = n.id) (hsize : g'.size = g.size + gap) (hbefore : n.id + frame.before ≤ hole)
    (hbehind : hole < n.id + frame.before + g.size) :
    ∃ c c', Parts f c c' n n' ∧ c.erase = g ∧ c'.erase = g' ∧ c.id = n.id + frame.before ∧
      c'.id = c.id ∧ c ∈ n.children ∧ c' ∈ n'.children := by
  obtain ⟨left, c, right, hc, hkind, hleft, hce, hright, hcid, hids, hids₂⟩ :=
    split_children hs herase
  obtain ⟨left', c', right', hc', hkind', hleft', hce', hright', hcid', hids', hids₂'⟩ :=
    split_children hs' herase'
  have hin {d : Placed} (hd : d ∈ left' ++ c' :: right') : d ∈ root.preorder :=
    Node.mem_preorder_trans (Node.mem_preorder_of_mem_children (hc' ▸ hd)) hn'
  have hlength : (left.flatMap Node.preorder).length + 1 = frame.before := by
    rw [Frame.before, ← hleft, ← Node.length_flatMap_preorder]
  have hlefts : left' = left.map (Node.map f) :=
    h.map_eq (hleft.trans hleft'.symm) (fun d hd => hin (by simp [hd])) hids hids'
      (.inl ⟨by omega, by rw [hid]⟩)
  have hrights : right' = right.map (Node.map f) :=
    h.map_eq (hright.trans hright'.symm) (fun d hd => hin (by simp [hd])) hids₂ hids₂'
      (.inr ⟨hbehind, by omega⟩)
  refine ⟨c, c', ⟨hkind'.trans hkind.symm, ?_, left, right, hc, ?_⟩, hce, hce', hcid, by omega,
    by simp [hc], by simp [hc']⟩
  · rw [hid, h.id]
    exact (skip_of_lt _ (by omega)).symm
  · rw [hc', hlefts, hrights]

/-- Two trees with the same frames, with the hole in what is put in. -/
theorem around {fs : List Frame} {n n' : Placed} {g g' : Green} (hs : n.Serial) (hs' : n'.Serial)
    (hn' : n' ∈ root.preorder) (herase : n.erase = Frame.plugAll fs g)
    (herase' : n'.erase = Frame.plugAll fs g') (hid : n'.id = n.id)
    (hsize : g'.size = g.size + gap) (hbefore : n.id + Frame.beforeAll fs ≤ hole)
    (hbehind : hole < n.id + Frame.beforeAll fs + g.size) :
    ∃ c c', Around f c c' n n' ∧ c.erase = g ∧ c'.erase = g' ∧
      c.id = n.id + Frame.beforeAll fs ∧ c'.id = c.id ∧ c ∈ n.preorder ∧ c' ∈ n'.preorder := by
  induction fs generalizing n n' with
  | nil =>
    exact ⟨n, n', .here, herase, herase', by simp [Frame.beforeAll], hid, n.self_mem_preorder,
      n'.self_mem_preorder⟩
  | cons frame fs ih =>
    rw [Frame.beforeAll] at hbefore hbehind ⊢
    obtain ⟨d, d', hparts, hd, hd', hdid, hdid', hdn, hdn'⟩ :=
      h.parts hs hs' hn' (show _ = frame.plug (Frame.plugAll fs g) from herase)
        (show _ = frame.plug (Frame.plugAll fs g') from herase') hid
        (by rw [Frame.size_plugAll, Frame.size_plugAll, hsize]; omega) (by omega)
        (by rw [Frame.size_plugAll]; omega)
    have hdn := Node.mem_preorder_of_mem_children hdn
    have hdn' := Node.mem_preorder_of_mem_children hdn'
    obtain ⟨c, c', haround, hc, hc', hcid, hcid', hcd, hcd'⟩ :=
      ih (hs.of_mem hdn) (hs'.of_mem hdn') (Node.mem_preorder_trans hdn' hn') hd hd' hdid'
        (by omega) (by omega)
    exact ⟨c, c', .inside hparts haround, hc, hc', by omega, hcid', Node.mem_preorder_trans hcd hdn,
      Node.mem_preorder_trans hcd' hdn'⟩

end Node.Fits

namespace Node

/-- The place in `root` for a place whose number moves. -/
def moved (root : Placed) (hole gap : Nat) (p : Place) : Place :=
  ((root.preorder.find? fun x => x.id == skip (hole + 1) gap p.id).map tag).getD
    { p with id := skip (hole + 1) gap p.id }

theorem fits_moved {root : Placed} (h : root.Numbered) (hole gap : Nat) :
    Fits (root.moved hole gap) hole gap root where
  id p := by
    unfold moved
    cases hx : root.preorder.find? fun x => x.id == skip (hole + 1) gap p.id with
    | none => rfl
    | some x => simpa using List.find?_some hx
  place x hx p hid := by
    unfold moved at hid ⊢
    cases hy : root.preorder.find? fun x => x.id == skip (hole + 1) gap p.id with
    | none =>
      rw [hy] at hid
      exact absurd hid.symm (by simpa using List.find?_eq_none.1 hy x hx)
    | some y =>
      rw [hy] at hid
      rw [h.eq_of_id_eq hx (List.mem_of_find?_eq_some hy) hid.symm]
      rfl

/-! ## Nodes beside the hole -/

/-- Neither of the two nodes holds the other. -/
def Apart (x c : Placed) : Prop := x.endId ≤ c.id ∨ c.endId ≤ x.id

variable {n n' c c' d x y : Placed} {f : Place → Place} {left right : List Placed}

theorem Apart.symm (h : x.Apart c) : c.Apart x := Or.symm h

theorem Apart.below (h : x.Apart c) (hs : x.Serial) (hy : y ∈ x.preorder) : y.Apart c := by
  have := hs.id_le hy
  have := hs.endId_le hy
  unfold Apart at *
  omega

theorem not_apart_of_mem (hs : n.Serial) (hc : c ∈ n.preorder) : ¬ n.Apart c := by
  have := hs.id_le hc
  have := hs.endId_le hc
  have := c.id_lt_endId
  unfold Apart
  omega

theorem apart_of_sides (hs : n.Serial) (hsplit : n.children = left ++ d :: right)
    (hc : c ∈ d.preorder) (hy : y ∈ left ++ right) (hx : x ∈ y.preorder) : x.Apart c := by
  have hpairs := hs.pairwise_children
  rw [hsplit] at hpairs
  obtain ⟨-, hright, hleft⟩ := List.pairwise_append.1 hpairs
  have hmem {e : Placed} (he : e ∈ left ++ d :: right) : e.Serial :=
    hs.of_mem (mem_preorder_of_mem_children (hsplit ▸ he))
  have hd := hmem (e := d) (by simp)
  have := hd.id_le hc
  have := hd.endId_le hc
  rcases List.mem_append.1 hy with hy | hy
  · have := (hmem (by simp [hy])).endId_le hx
    have := hleft y hy d (by simp)
    exact .inl (by omega)
  · have := (hmem (by simp [hy])).id_le hx
    have := (List.pairwise_cons.1 hright).1 y hy
    exact .inr (by omega)

/-- What is not in the child with the hole stands beside the hole or holds it. -/
theorem apart_or_mem (hs : n.Serial) (hsplit : n.children = left ++ d :: right)
    (hc : c ∈ d.preorder) (hx : x ∈ n.preorder) : x = n ∨ x.Apart c ∨ x ∈ d.preorder := by
  rcases eq_or_mem_child_of_mem_preorder hx with rfl | ⟨y, hy, hxy⟩
  · exact .inl rfl
  · rw [hsplit, List.mem_append, List.mem_cons] at hy
    rcases hy with hy | rfl | hy
    · exact .inr (.inl (apart_of_sides hs hsplit hc (List.mem_append_left _ hy) hxy))
    · exact .inr (.inr hxy)
    · exact .inr (.inl (apart_of_sides hs hsplit hc (List.mem_append_right _ hy) hxy))

/-- A node that does not hold the hole stands beside it or with it in the same child. -/
theorem mem_sides_of_apart (hs : n.Serial) (hsplit : n.children = left ++ d :: right)
    (hc : c ∈ d.preorder) (hx : x ∈ n.preorder) (hapart : x.Apart c) :
    (∃ y ∈ left ++ right, x ∈ y.preorder) ∨ x ∈ d.preorder := by
  have hd : d ∈ n.children := by simp [hsplit]
  rcases eq_or_mem_child_of_mem_preorder hx with rfl | ⟨y, hy, hxy⟩
  · exact absurd hapart
      (not_apart_of_mem hs (mem_preorder_trans hc (mem_preorder_of_mem_children hd)))
  · rw [hsplit, List.mem_append, List.mem_cons] at hy
    rcases hy with hy | rfl | hy
    · exact .inl ⟨y, List.mem_append_left _ hy, hxy⟩
    · exact .inr hxy
    · exact .inl ⟨y, List.mem_append_right _ hy, hxy⟩

namespace Around

theorem mem (h : Around f c c' n n') : c ∈ n.preorder ∧ c' ∈ n'.preorder := by
  induction h with
  | here => exact ⟨self_mem_preorder _, self_mem_preorder _⟩
  | inside parts below ih =>
    obtain ⟨left, right, hc, hc'⟩ := parts.children
    exact ⟨mem_preorder_trans ih.1 (mem_preorder_of_mem_children (by simp [hc])),
      mem_preorder_trans ih.2 (mem_preorder_of_mem_children (by simp [hc']))⟩

/-- A hole in what fills a hole. -/
theorem trans {m m' : Placed} (h : Around f m m' n n') (hm : Around f c c' m m') :
    Around f c c' n n' := by
  induction h with
  | here => exact hm
  | inside parts _ ih => exact .inside parts ih

/-- A node beside the hole stands in the other tree too. -/
theorem map_mem (h : Around f c c' n n') (hs : n.Serial) (hs' : n'.Serial) (hx : x ∈ n.preorder)
    (hapart : x.Apart c) : x.map f ∈ n'.preorder ∧ (x.map f).Apart c' := by
  induction h with
  | here => exact absurd hapart.symm (not_apart_of_mem hs hx)
  | inside parts below ih =>
    obtain ⟨left, right, hc, hc'⟩ := parts.children
    have hd := mem_preorder_of_mem_children (hc ▸ List.mem_append_right _ (List.mem_cons_self))
    have hd' := mem_preorder_of_mem_children (hc' ▸ List.mem_append_right _ (List.mem_cons_self))
    rcases mem_sides_of_apart hs hc below.mem.1 hx hapart with ⟨y, hy, hxy⟩ | hxd
    · have hmap : x.map f ∈ (y.map f).preorder := preorder_map f y ▸ List.mem_map_of_mem hxy
      have hside : y.map f ∈ left.map (map f) ++ right.map (map f) :=
        List.map_append ▸ List.mem_map_of_mem hy
      refine ⟨mem_preorder_trans hmap (mem_preorder_of_mem_children ?_),
        apart_of_sides hs' hc' below.mem.2 hside hmap⟩
      rw [hc', List.mem_append, List.mem_cons]
      rcases List.mem_append.1 hside with hside | hside
      · exact .inl hside
      · exact .inr (.inr hside)
    · obtain ⟨hmem, hapart'⟩ := ih (hs.of_mem hd) (hs'.of_mem hd') hxd
      exact ⟨mem_preorder_trans hmem hd', hapart'⟩

/-- Every node beside the hole of the other tree comes from one beside the hole. -/
theorem exists_of_apart (h : Around f c c' n n') (hs : n.Serial) (hs' : n'.Serial)
    (hy : y ∈ n'.preorder) (hapart : y.Apart c') :
    ∃ x ∈ n.preorder, x.Apart c ∧ y = x.map f := by
  induction h with
  | here => exact absurd hapart.symm (not_apart_of_mem hs' hy)
  | inside parts below ih =>
    obtain ⟨left, right, hc, hc'⟩ := parts.children
    have hd := mem_preorder_of_mem_children (hc ▸ List.mem_append_right _ (List.mem_cons_self))
    have hd' := mem_preorder_of_mem_children (hc' ▸ List.mem_append_right _ (List.mem_cons_self))
    rcases mem_sides_of_apart hs' hc' below.mem.2 hy hapart with ⟨z, hz, hyz⟩ | hyd
    · rw [← List.map_append] at hz
      obtain ⟨w, hw, rfl⟩ := List.mem_map.1 hz
      rw [preorder_map] at hyz
      obtain ⟨x, hx, rfl⟩ := List.mem_map.1 hyz
      refine ⟨x, mem_preorder_trans hx (mem_preorder_of_mem_children ?_),
        apart_of_sides hs hc below.mem.1 hw hx, rfl⟩
      rw [hc, List.mem_append, List.mem_cons]
      rcases List.mem_append.1 hw with hw | hw
      · exact .inl hw
      · exact .inr (.inr hw)
    · obtain ⟨x, hx, hxa, rfl⟩ := ih (hs.of_mem hd) (hs'.of_mem hd') hyd
      exact ⟨x, mem_preorder_trans hx hd, hxa, rfl⟩

end Around

end Node

end NullLint
