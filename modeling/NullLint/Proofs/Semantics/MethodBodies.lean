import NullLint.Proofs.Semantics.BodyBinding
import NullLint.Proofs.Semantics.EmbeddedAssignment
import NullLint.Proofs.Semantics.EmbeddedNullState
import NullLint.Proofs.Semantics.Scoping

/-!
# Models of a file with and without a method body

Beside a method the models of a file with its body and of the file without give the same answers.
-/

namespace NullLint

/-! ## What the grammar puts around a method body -/

namespace Kind

/-- Around a method there are only files, namespaces and types. -/
theorem holdsMembers_of_mayHold {k c : Kind} (h : k.mayHold c = true)
    (hc : c = .methodDeclaration ∨ c = .constructorDeclaration ∨ c.holdsMembers = true) :
    k.holdsMembers = true ∧ Bindings.isMemberKind c = true := by
  have hmember : c = .compilationUnit ∨ c = .namespaceDeclaration ∨ c = .classDeclaration ∨
      c = .structDeclaration ∨ c = .methodDeclaration ∨ c = .constructorDeclaration := by
    revert hc
    cases c <;> decide
  rcases hmember with rfl | rfl | rfl | rfl | rfl | rfl <;> revert h <;> cases k <;> decide

end Kind

namespace Node

variable {f : Place → Place} {c c' m m' n n' : Placed}

theorem Around.holds (h : Around f m m' n n') (hr : n'.Readable) (hkind : m'.kind = m.kind)
    (hm : m.kind = .methodDeclaration ∨ m.kind = .constructorDeclaration) :
    Holds f m m' n n' := by
  induction h with
  | here => exact .here
  | @inside n n' d d' parts below ih =>
    obtain ⟨left, right, -, hn'⟩ := parts.children
    have hd' : d' ∈ n'.children := by simp [hn']
    have hbelow := ih (hr.child hd')
    obtain ⟨hsame, hk⟩ := hbelow.kind_eq hkind hm
    rw [← hsame] at hk
    obtain ⟨hholder, hmember⟩ := Kind.holdsMembers_of_mayHold (hr.mayHold hd') hk
    exact .inside (parts.kind ▸ hholder) (hsame ▸ hmember) parts hbelow

/-- Every node stands beside the method, in it or around it, in the file without the body and in the
file with it. -/
theorem Holds.apart_or_mem (h : Holds f m m' n n') (hs : n.Serial) (hs' : n'.Serial) :
    (∀ x ∈ n.preorder, x.Apart m ∨ x ∈ m.preorder ∨ x.kind.holdsMembers = true) ∧
      ∀ x ∈ n'.preorder, x.Apart m' ∨ x ∈ m'.preorder ∨ x.kind.holdsMembers = true := by
  induction h with
  | here => exact ⟨fun x hx => .inr (.inl hx), fun x hx => .inr (.inl hx)⟩
  | inside holder member parts below ih =>
    obtain ⟨left, right, hc, hc'⟩ := parts.children
    obtain ⟨hbelow, hbelow'⟩ := ih (hs.of_mem (mem_preorder_of_mem_children (by simp [hc])))
      (hs'.of_mem (mem_preorder_of_mem_children (by simp [hc'])))
    refine ⟨fun x hx => ?_, fun x hx => ?_⟩
    · rcases Node.apart_or_mem hs hc below.around.mem.1 hx with rfl | hapart | hin
      · exact .inr (.inr holder)
      · exact .inl hapart
      · exact hbelow x hin
    · rcases Node.apart_or_mem hs' hc' below.around.mem.2 hx with rfl | hapart | hin
      · exact .inr (.inr (parts.kind ▸ holder))
      · exact .inl hapart
      · exact hbelow' x hin

/-- In a method with a body, the body is the only block, and there is a name. -/
theorem Parts.emptied (h : Parts f c c' n n') (hr : n'.Readable)
    (hk : n.kind = .methodDeclaration ∨ n.kind = .constructorDeclaration)
    (hc : c.kind = .semicolon) (hc' : c'.kind = .block) : Emptied f c c' n n' := by
  obtain ⟨left, right, hn, hn'⟩ := h.children
  obtain ⟨before, name, list, body, rest, hchildren, hbefore, hname, hlist, hbody, hrest⟩ :=
    Bindings.children_of_method hr (h.kind ▸ hk)
  let isBody (d : Placed) : Bool := d.kind == .block || d.kind == .arrowExpressionClause
  have hnone {ds : List Placed} (hds : ∀ d ∈ ds, d.kind.isTypePart = true) :
      ds.filter isBody = [] := by
    rw [List.filter_eq_nil_iff]
    intro d hd hbody
    have htype := hds d hd
    revert hbody htype
    simp only [isBody]
    cases d.kind <;> decide
  have hone : (n'.children.filter isBody).length ≤ 1 := by
    rw [hchildren]
    simp only [List.filter_append, List.filter_cons, hnone hbefore, hnone hrest, isBody, hname, hlist]
    have := List.length_filter_le isBody body.toList
    cases body <;> simp_all
  rw [hn', List.filter_append, List.filter_cons, if_pos (by simp [isBody, hc']),
    List.length_append, List.length_cons] at hone
  have hbare {ds : List Placed} (hds : ((ds.map (map f)).filter isBody).length = 0) :
      ∀ d ∈ ds, d.kind ≠ .block ∧ d.kind ≠ .arrowExpressionClause := by
    intro d hd
    have hd := List.filter_eq_nil_iff.1 (List.eq_nil_of_length_eq_zero hds) _
      (List.mem_map_of_mem hd)
    simpa [isBody] using hd
  refine { h with method := hk, semicolon := hc, block := hc', name := ?_, bare := ?_ }
  · have hmem : name ∈ n'.children := by simp [hchildren]
    rw [hn', List.mem_append, List.mem_cons] at hmem
    rcases hmem with hmem | rfl | hmem
    · obtain ⟨d, hd, rfl⟩ := List.mem_map.1 hmem
      exact ⟨d, by simp [hn, hd], by simpa using hname⟩
    · rw [hc'] at hname
      cases hname
    · obtain ⟨d, hd, rfl⟩ := List.mem_map.1 hmem
      exact ⟨d, by simp [hn, hd], by simpa using hname⟩
  · intro d hd
    rw [hn, List.mem_append, List.mem_cons] at hd
    rcases hd with hd | rfl | hd
    · exact hbare (by omega) d hd
    · simp [hc]
    · exact hbare (by omega) d hd

end Node

/-- A file, and the same file with the body of one method taken out. -/
structure BodySite where
  place : Place → Place
  hole : Nat
  gap : Nat
  file : Placed
  method : Placed
  body : Placed
  bareFile : Placed
  bareMethod : Placed
  semicolon : Placed
  fits : Node.Fits place hole gap file
  holds : Node.Holds place bareMethod method bareFile file
  emptied : Node.Emptied place semicolon body bareMethod method
  leaf : semicolon.preorder = [semicolon]
  serial : file.Serial
  bareSerial : bareFile.Serial
  readable : file.Readable
  kind : file.kind = .compilationUnit
  fileId : file.id = 0
  bareId : bareFile.id = 0
  bodyId : body.id = hole
  bodySize : body.size = gap + 1
  methodId : method.id = bareMethod.id
  methodEnd : method.endId = bareMethod.endId + gap
  beforeBody : bareMethod.id ≤ hole
  behindBody : hole < bareMethod.endId

/-- The token that stands for the body of a method without one. -/
def Token.noBody : Token := { kind := .semicolon, text := ";" }

namespace BodySite

/-- What is in a frame of a method can be taken out. -/
theorem exists_of_frames {g root : Green} {fs : List Frame} {frame : Frame}
    (hroot : root = Frame.plugAll fs (frame.plug g)) (hr : root.placed.Readable)
    (hkind : root.kind = .compilationUnit)
    (hmethod : frame.kind = .methodDeclaration ∨ frame.kind = .constructorDeclaration)
    (hblock : g.kind = .block) :
    ∃ s : BodySite, s.file = root.placed ∧
      s.bareFile = (Frame.plugAll fs (frame.plug (.leaf .noBody))).placed ∧
      s.method.id = Frame.beforeAll fs := by
  let bare := Frame.plugAll fs (frame.plug (.leaf .noBody))
  let hole := Frame.beforeAll fs + frame.before
  let gap := g.size - 1
  have hserial := Node.serial_placed root
  have hbareSerial := Node.serial_placed bare
  have hsize : g.size = gap + 1 := by
    have := g.size_pos
    omega
  have hbareSize : (frame.plug (.leaf .noBody)).size =
      frame.before + 1 + frame.behind := frame.size_plug _
  have hplug : (frame.plug g).size = (frame.plug (.leaf .noBody)).size + gap := by
    rw [frame.size_plug, hsize, hbareSize]
    omega
  have hfits := Node.fits_moved hserial.numbered hole gap
  have hsame (n : Node Place) : n.erase.kind = n.kind := n.kind_map _
  have hsizes (n : Node Place) : n.erase.size = n.size := n.size_map _
  obtain ⟨m, m', haround, hm, hm', hmid, hmid', hmem, hmem'⟩ :=
    hfits.around hbareSerial hserial root.placed.self_mem_preorder (Node.erase_placed bare)
      ((Node.erase_placed root).trans hroot) (by rw [Node.id_placed, Node.id_placed]) hplug
      (by rw [Node.id_placed]; omega) (by rw [Node.id_placed, hbareSize]; omega)
  rw [Node.id_placed, Nat.zero_add] at hmid
  obtain ⟨c, c', hparts, hc, hc', hcid, hcid', hcmem, hcmem'⟩ :=
    hfits.parts (hbareSerial.of_mem hmem) (hserial.of_mem hmem') hmem' hm hm' hmid'
      (hsize.trans (Nat.add_comm gap 1)) (by omega) (by rw [hmid, Node.size_token]; omega)
  have hmkind : m.kind = frame.kind := by rw [← hsame, hm]; rfl
  have hckind : c.kind = .semicolon := by rw [← hsame, hc]; rfl
  have hckind' : c'.kind = .block := by rw [← hsame, hc', hblock]
  refine ⟨{ place := root.placed.moved hole gap, hole := hole, gap := gap, file := root.placed
            method := m', body := c', bareFile := bare.placed, bareMethod := m, semicolon := c
            fits := hfits
            holds := haround.holds hr hparts.kind (hmkind ▸ hmethod)
            emptied := hparts.emptied (hr.of_mem hmem') (hmkind ▸ hmethod) hckind hckind'
            leaf := ?_
            serial := hserial, bareSerial := hbareSerial, readable := hr
            kind := ?_, fileId := Node.id_placed root, bareId := Node.id_placed bare
            bodyId := ?_, bodySize := ?_, methodId := hmid', methodEnd := ?_
            beforeBody := ?_, behindBody := ?_ }, rfl, rfl, hmid'.trans hmid⟩
  · cases c with
    | token a t => rfl
    | branch a k cs => cases hc
  · rw [← hsame, Node.erase_placed, hkind]
  · rw [hcid', hcid, hmid]
  · rw [← hsizes, hc', hsize]
  · rw [Node.endId, Node.endId, ← hsizes m', hm', ← hsizes m, hm, hplug, hmid', Nat.add_assoc]
  · omega
  · rw [Node.endId, ← hsizes, hm, hbareSize]
    omega

/-! ## Names -/

variable (s : BodySite)

theorem body_mem : s.body ∈ s.file.preorder := by
  obtain ⟨left, right, -, hn'⟩ := s.emptied.children
  exact Node.mem_preorder_trans (Node.mem_preorder_of_mem_children (by simp [hn']))
    s.holds.around.mem.2

/-- The numbers inside the body. -/
theorem inside_body : ∀ d ∈ s.body.children, ∀ x ∈ d.preorder,
    s.hole < x.id ∧ x.id ≤ s.hole + s.gap := by
  intro d hd x hx
  have hbody := s.serial.of_mem s.body_mem
  have hlt := hbody.id_lt_child hd
  have hle := (hbody.of_mem (Node.mem_preorder_of_mem_children hd)).id_le hx
  have hend := hbody.endId_le (Node.mem_preorder_trans hx (Node.mem_preorder_of_mem_children hd))
  have hown := x.id_lt_endId
  have hid := s.bodyId
  have hsize := s.bodySize
  simp only [Node.endId] at hend hown
  omega

/-- A body declares no types. -/
theorem no_struct : ∀ x ∈ s.body.preorder, x.kind ≠ .structDeclaration := by
  intro x hx hk
  have hholds := (s.readable.of_mem s.body_mem).of_mayHold (p := fun k => !k.holdsMembers)
    (fun k c hk hhold => by
      by_contra hc
      have hc : c.holdsMembers = true := by simpa using hc
      simp [(Kind.holdsMembers_of_mayHold hhold (.inr (.inr hc))).1] at hk)
    (by rw [s.emptied.block]; rfl) hx
  rw [hk] at hholds
  cases hholds

theorem embeds_bindings : ∃ j d κ, j ≤ (Bindings.ofRoot (some s.bareFile)).symbols.length ∧
    Bindings.Embeds (s.fits.embedding j d) κ (Bindings.ofRoot (some s.bareFile))
      (Bindings.ofRoot (some s.file)) := by
  have hempty : Bindings.Embeds (s.fits.embedding 0 0) (skip 0 0) {} {} :=
    ⟨fun _ => by simp, fun i => skip_zero 0 _, fun _ => .none,
      fun i => skip_zero 0 _, fun _ => rfl, rfl⟩
  have hopen : ∀ j ∈ ([] : List Nat), j < ({} : Bindings).scopes.length := by simp
  obtain ⟨j, d, k, g, hj, -, hembeds⟩ :=
    hempty.bind_holds s.fits s.holds s.emptied s.inside_body s.no_struct .empty hopen
  exact ⟨j, d, skip k g, hj, hembeds⟩

/-! ## Beside the method -/

/-- The node stands beside the method. -/
def Beside (x : Placed) : Prop := x ∈ s.bareFile.preorder ∧ x.Apart s.bareMethod

variable {s} {x n n' m : Placed} {above above' path : List Placed} {j d : Nat}

theorem Beside.below (h : s.Beside x) (hn : n ∈ x.preorder) : s.Beside n :=
  ⟨Node.mem_preorder_trans hn h.1, h.2.below (s.bareSerial.of_mem h.1) hn⟩

/-- Below a node beside the method the paths are the same. -/
theorem exists_path_of_beside (hall : ∀ z ∈ n.preorder, s.Beside z)
    (h : Node.Descends n above (x :: path))
    (habove : List.Forall₂ (Model.Outer (s.fits.embedding j d) s.Beside) above above') :
    ∃ path', Node.Descends (n.map s.place) above' (x.map s.place :: path') ∧
      List.Forall₂ (Model.Outer (s.fits.embedding j d) s.Beside) path path' := by
  generalize hq : x :: path = q at h
  induction h generalizing above' with
  | here n above =>
    obtain ⟨rfl, rfl⟩ := List.cons.inj hq
    exact ⟨above', .here _ _, habove⟩
  | @down n c above q child rest ih =>
    obtain ⟨path', hpath', hrel⟩ := ih
      (fun z hz => hall z (Node.mem_preorder_trans hz (Node.mem_preorder_of_mem_children child)))
      (.cons (.same (hall n n.self_mem_preorder)) habove) hq
    refine ⟨path', .down ?_ hpath', hrel⟩
    rw [Node.children_map]
    exact List.mem_map_of_mem child

/-- A node around the method is the same in both files, but for what holds the method. -/
theorem outer_of_inside {c c' : Placed} (hn : n ∈ s.bareFile.preorder)
    (holder : n.kind.holdsMembers = true) (member : Bindings.isMemberKind c.kind = true)
    (parts : Node.Parts s.place c c' n n')
    (below : Node.Holds s.place s.bareMethod s.method c c') :
    Model.Outer (s.fits.embedding j d) s.Beside n n' := by
  have hid := Bindings.id_eq_of_parts (e := s.fits.embedding j d) parts
  by_cases hk : n.kind = .compilationUnit
  · have hstatement {k : Kind} (hk : Bindings.isMemberKind k = true) : k.isStatement = false := by
      revert hk
      cases k <;> decide
    have hc := hstatement member
    have hc' : c'.kind.isStatement = false :=
      (below.kind_eq s.emptied.kind s.emptied.method).1 ▸ hc
    have hlist := statements_of_isList (n := n) (by rw [hk]; rfl)
    have hlist' := statements_of_isList (n := n') (by rw [parts.kind, hk]; rfl)
    refine .file hk (parts.kind.trans hk) hid ?_ fun z hz => ?_
    · rw [hlist, hlist']
      exact parts.filter_eq hc hc'
    · obtain ⟨left, right, hchildren, -⟩ := parts.children
      rw [hlist, List.mem_filter] at hz
      have hside : z ∈ left ++ right := by
        have hmem := hchildren ▸ hz.1
        rw [List.mem_append, List.mem_cons] at hmem
        rw [List.mem_append]
        refine hmem.imp_right (Or.resolve_left · ?_)
        rintro rfl
        simp [hc] at hz
      exact ⟨Node.mem_preorder_trans (Node.mem_preorder_of_mem_children hz.1) hn,
        Node.apart_of_sides (s.bareSerial.of_mem hn) hchildren below.around.mem.1 hside
          z.self_mem_preorder⟩
  · refine .holder ?_ parts.kind hid
    revert holder hk
    cases n.kind <;> decide

theorem exists_path_of_holds (hholds : Node.Holds s.place s.bareMethod s.method n n')
    (hn : n ∈ s.bareFile.preorder) (h : Node.Descends n above (x :: path)) (hx : s.Beside x)
    (habove : List.Forall₂ (Model.Outer (s.fits.embedding j d) s.Beside) above above') :
    ∃ path', Node.Descends n' above' (x.map s.place :: path') ∧
      List.Forall₂ (Model.Outer (s.fits.embedding j d) s.Beside) path path' := by
  generalize hm : s.bareMethod = m at hholds
  generalize hm' : s.method = m' at hholds
  induction hholds generalizing above above' with
  | here =>
    subst hm
    have hxm : x ∈ s.bareMethod.preorder := h.head_mem x rfl
    exact absurd hx.2.symm (Node.not_apart_of_mem (s.bareSerial.of_mem hn) hxm)
  | @inside n n' c c' holder member parts below ih =>
    subst hm hm'
    obtain ⟨left, right, hc, hc'⟩ := parts.children
    have hserial := s.bareSerial.of_mem hn
    have houter := outer_of_inside (j := j) (d := d) hn holder member parts below
    cases h with
    | here =>
      exact absurd hx.2 (Node.not_apart_of_mem hserial
        (Node.Holds.around (.inside holder member parts below)).mem.1)
    | @down _ y _ _ child rest =>
      -- A child beside the method is the same in both files; the path goes on in the other one.
      have hbeside (hy : y ∈ left ++ right) (hy' : y.map s.place ∈ n'.children) :
          ∃ path', Node.Descends n' above' (x.map s.place :: path') ∧
            List.Forall₂ (Model.Outer (s.fits.embedding j d) s.Beside) path path' := by
        have hall : ∀ z ∈ y.preorder, s.Beside z := fun z hz =>
          ⟨Node.mem_preorder_trans hz
            (Node.mem_preorder_trans (Node.mem_preorder_of_mem_children child) hn),
            Node.apart_of_sides hserial hc below.around.mem.1 hy hz⟩
        obtain ⟨path', hpath', hrel⟩ := exists_path_of_beside hall rest (.cons houter habove)
        exact ⟨path', .down hy' hpath', hrel⟩
      rcases List.mem_append.1 (hc ▸ child) with hy | hy
      · exact hbeside (List.mem_append_left _ hy)
          (hc' ▸ List.mem_append_left _ (List.mem_map_of_mem hy))
      rcases List.mem_cons.1 hy with rfl | hy
      · obtain ⟨path', hpath', hrel⟩ := ih
          (Node.mem_preorder_trans (Node.mem_preorder_of_mem_children child) hn) rest
          (.cons houter habove)
        exact ⟨path', .down (by simp [hc']) hpath', hrel⟩
      · exact hbeside (List.mem_append_right _ hy)
          (hc' ▸ List.mem_append_right _ (List.mem_cons_of_mem _ (List.mem_map_of_mem hy)))

/-- The ways to the same node in both files. -/
theorem exists_path (h : Node.Descends s.bareFile [] (x :: path)) (hx : s.Beside x) (j d : Nat) :
    ∃ path', Node.Descends s.file [] (x.map s.place :: path') ∧
      List.Forall₂ (Model.Outer (s.fits.embedding j d) s.Beside) path path' :=
  exists_path_of_holds s.holds s.bareFile.self_mem_preorder h hx .nil

theorem covers (nullableContext : Bool) (j d : Nat) :
    (Model.build (some s.bareFile) nullableContext).Covers (s.fits.embedding j d) s.Beside
      (Model.build (some s.file) nullableContext) where
  below h hc := h.below hc
  ancestors {n} hn := by
    obtain ⟨path, hpath⟩ := Node.exists_descends hn.1 []
    obtain ⟨path', hpath', hrel⟩ := exists_path hpath hn j d
    have hfound := Node.path?_of_descends s.bareSerial.numbered hpath
    have hfound' : s.file.path? (n.map (s.fits.embedding j d).place).id =
        some (n.map s.place :: path') := Node.path?_of_descends s.serial.numbered hpath'
    simpa only [Model.ancestors, Model.root_build, Option.bind_some, hfound, hfound',
      Option.getD_some, List.tail_cons] using hrel

/-! ## What the file declares -/

/-- The file up to the body: every node beside the body or around it. -/
theorem around_body (s : BodySite) :
    Node.Around s.place s.semicolon s.body s.bareFile s.file :=
  s.holds.around.trans (.inside s.emptied.toParts .here)

/-- A declarator stands beside the body or in it. -/
theorem apart_body_or_mem (hx : x ∈ s.file.preorder) (hk : x.kind = .variableDeclarator) :
    x.Apart s.body ∨ x ∈ s.body.preorder := by
  obtain ⟨left, right, -, hc⟩ := s.emptied.children
  have hserial := s.serial.of_mem s.holds.around.mem.2
  rcases (s.holds.apart_or_mem s.bareSerial s.serial).2 x hx with hapart | hin | hholder
  · exact .inl (hapart.symm.below hserial (Node.mem_preorder_of_mem_children (by simp [hc]))).symm
  · refine (Node.apart_or_mem hserial hc s.body.self_mem_preorder hin).resolve_left ?_
    rintro rfl
    rw [s.emptied.kind] at hk
    rcases s.emptied.method with hmethod | hmethod <;> simp [hk] at hmethod
  · rw [hk] at hholder
    cases hholder

/-- A declarator stands beside the place of the body. -/
theorem apart_semicolon (hx : x ∈ s.bareFile.preorder) (hk : x.kind = .variableDeclarator) :
    x.Apart s.semicolon := by
  obtain ⟨left, right, hc, -⟩ := s.emptied.children
  have hserial := s.bareSerial.of_mem s.holds.around.mem.1
  rcases (s.holds.apart_or_mem s.bareSerial s.serial).1 x hx with hapart | hin | hholder
  · exact (hapart.symm.below hserial (Node.mem_preorder_of_mem_children (by simp [hc]))).symm
  · rcases Node.apart_or_mem hserial hc s.semicolon.self_mem_preorder hin with rfl | hapart | hin
    · rcases s.emptied.method with hmethod | hmethod <;> simp [hk] at hmethod
    · exact hapart
    · rw [s.leaf, List.mem_singleton] at hin
      rw [hin, s.emptied.semicolon] at hk
      cases hk
  · rw [hk] at hholder
    cases hholder

/-- A declarator in the body names no symbol that the file has without the body. -/
theorem symbolAt_body_ne (hx : x ∈ s.body.preorder) (hk : x.kind = .variableDeclarator)
    {κ : Nat → Nat} (h : Bindings.Embeds (s.fits.embedding j d) κ
      (Bindings.ofRoot (some s.bareFile)) (Bindings.ofRoot (some s.file))) (y : Nat) :
    (Bindings.ofRoot (some s.file)).symbolOf.lookup x.id ≠
      some ((s.fits.embedding j d).symbol y) := by
  intro hfound
  have hfile := Node.mem_preorder_trans hx s.body_mem
  have hin : s.hole < x.id ∧ x.id ≤ s.hole + s.gap := by
    rcases Node.eq_or_mem_child_of_mem_preorder hx with rfl | ⟨c, hc, hxc⟩
    · rw [s.emptied.block] at hk
      cases hk
    · exact s.inside_body c hc x hxc
  obtain ⟨before, after, hsplit, -⟩ := List.lookup_eq_some_iff.1 hfound
  rcases Bindings.recorded_bind [] s.file _ (hsplit ▸ List.mem_append_right _ List.mem_cons_self)
    with ⟨n, hn, hname, hid⟩ | ⟨t, ht, hdecl⟩
  · obtain rfl := s.serial.numbered.eq_of_id_eq hfile hn hid
    rw [hname] at hk
    cases hk
  · obtain ⟨t₀, -, rfl⟩ := Option.map_eq_some_iff.1 ((h.symbols y).symm.trans ht)
    exact Bindings.embedding_node_ne s.fits j d hin _ hdecl

theorem mem_declaredIn_iff {m : Model} {region : Placed} {y : Nat} : y ∈ m.declaredIn region ↔
    ∃ x ∈ region.preorder, x.kind = .variableDeclarator ∧ m.symbolAt x.id = some y := by
  simp [Model.declaredIn, and_assoc]

/-- The locals of the body are no names outside. -/
theorem declaredIn_file (nullableContext : Bool) {κ : Nat → Nat}
    (h : Bindings.Embeds (s.fits.embedding j d) κ (Bindings.ofRoot (some s.bareFile))
      (Bindings.ofRoot (some s.file))) (y : Nat) :
    (s.fits.embedding j d).symbol y ∈
        (Model.build (some s.file) nullableContext).declaredIn s.file ↔
      y ∈ (Model.build (some s.bareFile) nullableContext).declaredIn s.bareFile := by
  have hat (i : Nat) : (Model.build (some s.file) nullableContext).symbolAt
      ((s.fits.embedding j d).node i) =
      ((Model.build (some s.bareFile) nullableContext).symbolAt i).map
        (s.fits.embedding j d).symbol := by
    simpa [Model.symbolAt] using h.entries i
  rw [mem_declaredIn_iff, mem_declaredIn_iff]
  constructor
  · rintro ⟨x, hx, hk, hy⟩
    rcases apart_body_or_mem hx hk with hapart | hin
    · obtain ⟨z, hz, -, rfl⟩ := s.around_body.exists_of_apart s.bareSerial s.serial hx hapart
      rw [show (z.map s.place).id = (s.fits.embedding j d).node z.id from
        (s.fits.embedding j d).id_map z, hat, Option.map_eq_some_iff] at hy
      obtain ⟨y', hy', hsame⟩ := hy
      obtain rfl := (s.fits.embedding j d).symbol_injective hsame
      exact ⟨z, hz, by simpa using hk, hy'⟩
    · exact absurd (by simpa [Model.symbolAt] using hy) (symbolAt_body_ne hin hk h y)
  · rintro ⟨x, hx, hk, hy⟩
    have hapart := apart_semicolon hx hk
    refine ⟨x.map s.place, (s.around_body.map_mem s.bareSerial s.serial hx hapart).1,
      by simpa using hk, ?_⟩
    rw [show (x.map s.place).id = (s.fits.embedding j d).node x.id from
      (s.fits.embedding j d).id_map x, hat, hy]
    rfl

/-- The model of the file without the body is found in the model of the file with it. -/
theorem exists_embedding (s : BodySite) : ∃ j d, ∀ nullableContext,
    (Model.build (some s.bareFile) nullableContext).Embeds (s.fits.embedding j d) id
        (Model.build (some s.file) nullableContext) ∧
      ∀ y, (s.fits.embedding j d).symbol y ∈
          (Model.build (some s.file) nullableContext).declaredIn s.file ↔
        y ∈ (Model.build (some s.bareFile) nullableContext).declaredIn s.bareFile := by
  obtain ⟨j, d, κ, hj, hembeds⟩ := s.embeds_bindings
  exact ⟨j, d, fun nullableContext => ⟨Model.embeds_build_of_embeds s.fits hembeds hj nullableContext,
    declaredIn_file nullableContext hembeds⟩⟩

end BodySite

end NullLint
