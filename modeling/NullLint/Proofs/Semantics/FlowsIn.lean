import NullLint.Proofs.Semantics.AlwaysAssigned

/-!
# What flows into a region

A variable that a path through a region reads before it assigns it flows into the region, with one
exception: the flow looks at the value of an assignment before its target, although the target is
evaluated first. What a target reads is not seen to flow in if the value assigns it on every path.
-/

namespace NullLint

/-- The path reads the variable before it assigns it. -/
def ReadsFirst (x : Nat) (p : List Access) : Prop :=
  ∃ before after, p = before ++ .read x :: after ∧ .assign x ∉ before

/-- What the path reads first is in the target of an assignment below the node, which runs before
the value, and the value assigns the variable on each of its own paths. -/
def ReadInTarget (m : Model) (n : Placed) (x : Nat) (p : List Access) : Prop :=
  ∃ before target value after, p = before ++ target ++ value ++ after ∧ .assign x ∉ before ∧
    ReadsFirst x target ∧ ∃ a ∈ n.preorder, ∃ b, a.kind = .assignmentExpression ∧
      a.binary? = some b ∧ (∀ y, m.refersTo y b.left = false) ∧
      (∃ ending, Takes m b.left target ending) ∧ (∃ ending, Takes m b.right value ending) ∧
      ∀ q ending, Takes m b.right q ending → .assign x ∈ q

/-- The path reads the variable before it assigns it, and not in such a target. -/
structure ReadsOutside (m : Model) (n : Placed) (x : Nat) (p : List Access) : Prop where
  readsFirst : ReadsFirst x p
  outside : ¬ ReadInTarget m n x p

namespace ReadsFirst

variable {x : Nat} {p q : List Access}

theorem not_nil : ¬ ReadsFirst x [] := by
  rintro ⟨before, after, heq, -⟩
  simp at heq

theorem of_append (h : ReadsFirst x (p ++ q)) :
    ReadsFirst x p ∨ .assign x ∉ p ∧ ReadsFirst x q := by
  obtain ⟨before, after, heq, hne⟩ := h
  rcases List.append_eq_append_iff.1 heq with ⟨rest, rfl, rfl⟩ | ⟨rest, rfl, hq⟩
  · simp only [List.mem_append, not_or] at hne
    exact .inr ⟨hne.1, rest, after, rfl, hne.2⟩
  · cases rest with
    | nil => exact .inr ⟨by simpa using hne, [], after, hq.symm, List.not_mem_nil⟩
    | cons a rest =>
      obtain ⟨rfl, -⟩ := List.cons.inj hq
      exact .inl ⟨before, rest, rfl, hne⟩

theorem of_singleton {y : Nat} (h : ReadsFirst x [.read y]) : x = y := by
  obtain ⟨before, after, heq, -⟩ := h
  cases before with
  | nil => simp_all
  | cons a before => simp at heq

/-- An assignment at the end of a path reads nothing. -/
theorem of_append_assign (ys : List Nat) (h : ReadsFirst x (p ++ ys.map .assign)) :
    ReadsFirst x p := by
  rcases h.of_append with h | ⟨-, before, after, heq, -⟩
  · exact h
  · have hread : Access.read x ∈ ys.map Access.assign := by simp [heq]
    simp at hread

end ReadsFirst

theorem ReadInTarget.append {m : Model} {n : Placed} {x : Nat} {p : List Access}
    (h : ReadInTarget m n x p) {first : List Access} (hne : .assign x ∉ first)
    (last : List Access) : ReadInTarget m n x (first ++ p ++ last) := by
  obtain ⟨before, target, value, after, rfl, hbefore, h⟩ := h
  refine ⟨first ++ before, target, value, after ++ last, ?_, ?_, h⟩
  · simp only [List.append_assoc]
  · simpa only [List.mem_append, not_or] using ⟨hne, hbefore⟩

namespace ReadsOutside

variable {m : Model} {n : Placed} {x : Nat} {p q : List Access}

theorem of_append (h : ReadsOutside m n x (p ++ q)) :
    ReadsOutside m n x p ∨ .assign x ∉ p ∧ ReadsOutside m n x q := by
  rcases h.readsFirst.of_append with hp | ⟨hne, hq⟩
  · exact .inl ⟨hp, fun hin => h.outside (by simpa using hin.append List.not_mem_nil q)⟩
  · exact .inr ⟨hne, hq, fun hin => h.outside (by simpa using hin.append hne [])⟩

theorem of_append_assign (ys : List Nat) (h : ReadsOutside m n x (p ++ ys.map .assign)) :
    ReadsOutside m n x p :=
  ⟨h.readsFirst.of_append_assign ys,
    fun hin => h.outside (by simpa using hin.append List.not_mem_nil (ys.map .assign))⟩

end ReadsOutside

/-- A path through one statement. -/
theorem TakesAll.of_singleton {m : Model} {s : Placed} {p : List Access} {ending : Ending}
    (h : TakesAll m [s] p ending) (hs : s.kind.isStatement = true) : Takes m s p ending := by
  cases h with
  | cons first goesOn rest =>
    cases rest
    rw [List.append_nil]
    exact first.ending_eq (.inl hs) goesOn ▸ first
  | left first => exact first

/-! ## Steps that follow a path -/

/-- The step follows a path through the code it stands for: it forgets nothing that flows in, the
variable is not taken as assigned before the path assigns it, and a read before that is seen to
flow in unless it is in a target. -/
structure Follows {σ : Type} (m : Model) (root : Placed) (x : Nat) (held flows : σ → Prop)
    (p : List Access) (ending : Ending) (f : σ → σ) : Prop where
  keeps : ∀ s, flows s → flows (f s)
  clear : ending ≠ .left → .assign x ∉ p → ∀ s, ¬ held s → ¬ held (f s)
  sees : ReadsOutside m root x p → ∀ s, ¬ held s → flows (f s)

namespace Follows

variable {σ : Type} {m : Model} {root : Placed} {x : Nat} {held flows : σ → Prop}
  {p q : List Access} {ending last : Ending} {f g : σ → σ}

theorem idle : Follows m root x held flows [] ending fun s => s where
  keeps _ hs := hs
  clear _ _ _ hs := hs
  sees hread := absurd hread.readsFirst ReadsFirst.not_nil

theorem comp (hf : Follows m root x held flows p ending f) (hgoesOn : ending ≠ .left)
    (hg : Follows m root x held flows q last g) :
    Follows m root x held flows (p ++ q) last fun s => g (f s) where
  keeps s hs := hg.keeps _ (hf.keeps s hs)
  clear hlast hne s hs := by
    simp only [List.mem_append, not_or] at hne
    exact hg.clear hlast hne.2 _ (hf.clear hgoesOn hne.1 s hs)
  sees hread s hs := by
    rcases hread.of_append with hread | ⟨hne, hread⟩
    · exact hg.keeps _ (hf.sees hread s hs)
    · exact hg.sees hread _ (hf.clear hgoesOn hne s hs)

/-- Assignments at the end of a path are not missed. -/
theorem append_assign (hf : Follows m root x held flows p ending f) (ys : List Nat) :
    Follows m root x held flows (p ++ ys.map .assign) ending f where
  keeps := hf.keeps
  clear hlast hne := hf.clear hlast fun hmem => hne (List.mem_append_left _ hmem)
  sees hread := hf.sees (hread.of_append_assign ys)

/-- Another step in which as much flows in follows the path too. -/
theorem of_flows (hf : Follows m root x held flows p ending f)
    (hflows : ∀ s, flows (f s) → flows (g s))
    (hclear : last ≠ .left → .assign x ∉ p → ∀ s, ¬ held s → ¬ held (g s)) :
    Follows m root x held flows p last g where
  keeps s hs := hflows s (hf.keeps s hs)
  clear := hclear
  sees hread s hs := hflows s (hf.sees hread s hs)

/-- A path that has left does not come to the next step. -/
theorem leave (hf : Follows m root x held flows p .left f) (hg : ∀ s, flows s → flows (g s)) :
    Follows m root x held flows p .left fun s => g (f s) where
  keeps s hs := hg _ (hf.keeps s hs)
  clear hlast := absurd rfl hlast
  sees hread s hs := hg _ (hf.sees hread s hs)

theorem keeps_foldl {ns : List Placed} {F : Placed → σ → σ}
    (hkeeps : ∀ n ∈ ns, ∀ s, flows s → flows (F n s)) (s : σ) (hs : flows s) :
    flows (ns.foldl (fun s n => F n s) s) := by
  induction ns generalizing s with
  | nil => exact hs
  | cons n ns ih =>
    exact ih (fun c hc => hkeeps c (by simp [hc])) _ (hkeeps n (by simp) s hs)

/-- A path through some nodes is followed by their steps one after the other. -/
theorem foldl {ns : List Placed} {F : Placed → σ → σ} (hpath : TakesAll m ns p last)
    (h : ∀ n ∈ ns, ∀ p ending, Takes m n p ending → Follows m root x held flows p ending (F n))
    (hkeeps : ∀ n ∈ ns, ∀ s, flows s → flows (F n s)) :
    Follows m root x held flows p last fun s => ns.foldl (fun s n => F n s) s := by
  induction ns generalizing p with
  | nil =>
    cases hpath
    exact idle
  | cons n ns ih =>
    cases hpath with
    | cons first goesOn rest =>
      exact (h n (by simp) _ _ first).comp goesOn
        (ih rest (fun c hc => h c (by simp [hc])) fun c hc => hkeeps c (by simp [hc]))
    | left first =>
      have hfirst := h n (by simp) _ _ first
      exact hfirst.leave (keeps_foldl fun c hc => hkeeps c (by simp [hc]))

end Follows

/-! ## Expressions -/

namespace Model

variable {m : Model} {root : Placed} {declared : List Nat} {n : Placed} {x : Nat} {p : List Access}
  {ending : Ending}

/-- Some layer holds the variable. -/
def Assigned (x : Nat) (state : Layers × List Nat) : Prop := state.1.holds x = true

/-- The variable flows in. -/
def FlowsIn {α : Type} (x : Nat) (state : α × List Nat) : Prop := x ∈ state.2

/-- The flow of an expression that follows every path through it. -/
def Tracks (m : Model) (root : Placed) (declared : List Nat) (x : Nat) (n : Placed) : Prop :=
  ∀ p ending, Takes m n p ending →
    Follows m root x (Assigned x) (FlowsIn x) p ending (m.flowThrough declared n)

theorem holds_assign {layers : Layers} {y : Nat} :
    (layers.assign y).holds x = true ↔ layers.holds x = true ∨ x = y := by
  cases layers with
  | nil => simp [Layers.assign, Layers.holds]
  | cons layer below =>
    simp only [Layers.assign, Layers.holds, List.any_cons, Bool.or_eq_true, List.contains_iff_mem,
      List.mem_insert_iff]
    tauto

theorem subset_noteRead {layers : Layers} {flowsIn : List Nat} {y : Nat} :
    flowsIn ⊆ m.noteRead declared layers flowsIn y := by
  unfold noteRead
  split
  · exact fun z hz => List.mem_insert_iff.2 (.inr hz)
  · exact List.Subset.refl _

theorem mem_noteRead {layers : Layers} {flowsIn : List Nat}
    (hlocal : m.symbolIs x SymbolKind.isLocal = true) (hheld : ¬ layers.holds x = true)
    (hx : x ∉ declared) : x ∈ m.noteRead declared layers flowsIn x := by
  unfold noteRead
  rw [if_pos (by simp [hlocal, hheld, hx])]
  exact List.mem_insert_self

/-- Without `?.` and `?[` every path comes to the end of an expression. -/
theorem ending_eq_through (h : n.Readable) (hn : n.isExpression = true)
    (hplain : ∀ c ∈ n.preorder, c.kind ≠ .conditionalAccessExpression)
    (hpath : Takes m n p ending) : ending = .through := by
  induction hsize : n.size using Nat.strongRecOn generalizing n p ending with
  | ind size ih =>
    subst hsize
    have hchild {c : Placed} {p : List Access} {ending : Ending} (hc : c ∈ n.children)
        (hexpr : c.isExpression = true) (hpath : Takes m c p ending) : ending = .through :=
      ih c.size (Node.size_lt_of_mem_children hc) (h.child hc) hexpr (fun d hd => hplain d
        (Node.mem_preorder_trans hd (Node.mem_preorder_of_mem_children hc))) hpath rfl
    cases hpath with
    | member hk hv chain =>
      obtain ⟨v', hv', hexpr, -⟩ := h.memberAccess hk
      obtain rfl := Option.some.inj (hv.symm.trans hv')
      obtain ⟨-, _, hc⟩ := Node.memberAccess?_eq_some hv
      exact hchild (by simp [hc]) hexpr chain
    | access hk | accessNull hk => exact absurd hk (hplain n n.self_mem_preorder)
    | assertion hk parts chain =>
      obtain ⟨e, mark, hc, hexpr, -⟩ := h.parts_of_operator (.inr hk)
      obtain ⟨rfl, -⟩ := List.cons.inj (parts.symm.trans hc)
      exact hchild (by simp [hc]) hexpr chain
    | skippedCall hk parts chain =>
      obtain ⟨e, list, hc, hexpr, -⟩ := h.parts_of_call hk
      obtain ⟨rfl, -⟩ := List.cons.inj (parts.symm.trans hc)
      exact absurd (hchild (by simp [hc]) hexpr chain) (by decide)
    | list hk | exit hk =>
      rcases hk with hk | hk <;> simp [Node.isExpression, hk, Kind.isExpression] at hn
    | thenBranch hk | elseBranch hk | loop hk =>
      simp [Node.isExpression, hk, Kind.isExpression] at hn
    | _ => rfl

section Parts

/-! How the flow of an expression follows its paths, given that those below it do. -/

variable (h : n.Readable) (hbelow : ∀ c ∈ n.preorder, c.size < n.size → c.isExpression = true →
  m.Tracks root declared x c)
include hbelow

theorem tracks_child {c : Placed} (hc : c ∈ n.children) (hexpr : c.isExpression = true) :
    m.Tracks root declared x c :=
  hbelow c (Node.mem_preorder_of_mem_children hc) (Node.size_lt_of_mem_children hc) hexpr

include h

theorem keeps_child {c : Placed} (hc : c ∈ n.children) (hexpr : c.isExpression = true)
    (s : Layers × List Nat) (hs : FlowsIn x s) : FlowsIn x (m.flowThrough declared c s) := by
  obtain ⟨p, hp⟩ := (h.child hc).exists_takes_expression (m := m) hexpr
  exact (tracks_child hbelow hc hexpr p _ hp).keeps s hs

theorem follows_value {c : Placed} (hc : c ∈ n.children) (hexpr : c.isExpression = true)
    (hpath : TakesAll m [c] p .through) :
    Follows m root x (Assigned x) (FlowsIn x) p .through (m.flowThrough declared c) :=
  Follows.foldl (F := m.flowThrough declared) hpath
    (fun e he q ending hq => by
      obtain rfl := List.mem_singleton.1 he
      exact tracks_child hbelow hc hexpr q ending hq)
    fun e he s hs => by
      obtain rfl := List.mem_singleton.1 he
      exact keeps_child h hbelow hc hexpr s hs

theorem follows_arguments {list : Placed} (hl : list ∈ n.children)
    (hk : list.kind.isArguments = true) (hpath : TakesAll m list.arguments p .through) :
    Follows m root x (Assigned x) (FlowsIn x) p .through (m.flowThrough declared list) := by
  have htracks {e : Placed} (he : e ∈ list.arguments) : e.Readable ∧ e.isExpression = true ∧
      m.Tracks root declared x e := by
    obtain ⟨hmem, hexpr⟩ := List.mem_filter.1 he
    exact ⟨(h.child hl).child hmem, hexpr, hbelow e
      (Node.mem_preorder_trans (Node.mem_preorder_of_mem_children hmem)
        (Node.mem_preorder_of_mem_children hl))
      (Nat.lt_trans (Node.size_lt_of_mem_children hmem) (Node.size_lt_of_mem_children hl)) hexpr⟩
  rw [flowThrough_plain (by revert hk; cases list.kind <;> decide),
    (h.child hl).parts_of_arguments hk]
  refine .foldl hpath (fun e he => (htracks he).2.2) fun e he s hs => ?_
  obtain ⟨hreadable, hexpr, htracks⟩ := htracks he
  obtain ⟨p, hp⟩ := hreadable.exists_takes_expression (m := m) hexpr
  exact (htracks p _ hp).keeps s hs

theorem follows_unary {u : Node.Unary Place}
    (hk : n.kind = .prefixUnaryExpression ∨ n.kind = .postfixUnaryExpression)
    (hu : n.unary? = some u) (hpath : TakesAll m [u.operand] p .through) :
    Follows m root x (Assigned x) (FlowsIn x) p .through (m.flowThrough declared n) := by
  obtain ⟨hexpr, hparts⟩ := h.parts_of_unary? hu
  have hmem := (Node.mem_parts.1 (hparts ▸ List.mem_singleton_self _)).1
  rw [flowThrough_plain (by rcases hk with hk | hk <;> rw [hk] <;> rfl), hparts]
  exact follows_value h hbelow hmem hexpr hpath

/-- The right operand may run or not. What it assigns stays in a layer of its own. -/
theorem follows_shortCircuit {b : Node.Binary Place} (hk : n.kind = .binaryExpression)
    (hb : n.binary? = some b) (hop : mayShortCut b.operator.kind = true)
    (hpath : TakesAll m [b.left] p .through ∨ TakesAll m [b.left, b.right] p .through) :
    Follows m root x (Assigned x) (FlowsIn x) p .through (m.flowThrough declared n) := by
  obtain ⟨hleft, hright⟩ := h.sides_of_binary? hb
  have hkeeps := keeps_child h hbelow hright.1 hright.2
  rw [flowThrough_shortCircuit hk hb hop]
  rcases hpath with hpath | hpath
  · have hfirst := follows_value h hbelow hleft.1 hleft.2 hpath
    exact ⟨fun s hs => hkeeps _ (hfirst.keeps s hs), hfirst.clear,
      fun hread s hs => hkeeps _ (hfirst.sees hread s hs)⟩
  · cases hpath with
    | cons first goesOn rest =>
      have hfirst := tracks_child hbelow hleft.1 hleft.2 _ _ first
      have hsecond := follows_value h hbelow hright.1 hright.2 rest
      refine ⟨fun s hs => hkeeps _ (hfirst.keeps s hs), fun hlast hne => ?_, fun hread s hs => ?_⟩
      · exact hfirst.clear goesOn fun hmem => hne (List.mem_append_left _ hmem)
      · rcases hread.of_append with hread | ⟨hne, hread⟩
        · exact hkeeps _ (hfirst.sees hread s hs)
        · -- The new layer is empty.
          refine hsecond.sees hread _ ?_
          simpa [Assigned, Layers.holds] using hfirst.clear goesOn hne s hs

/-- The value is looked at before the target, which has to see its reads all the same. -/
theorem follows_assignTarget {b : Node.Binary Place} (hk : n.kind = .assignmentExpression)
    (hb : n.binary? = some b) (hname : ∀ y, m.refersTo y b.left = false)
    (hplain : ∀ c ∈ n.preorder, c.kind ≠ .conditionalAccessExpression)
    (hroot : n ∈ root.preorder) (hpath : TakesAll m [b.left, b.right] p .through) :
    Follows m root x (Assigned x) (FlowsIn x) p .through (m.flowThrough declared n) := by
  obtain ⟨hleft, hright⟩ := h.sides_of_binary? hb
  rw [flowThrough_assignTarget hk hb hname, flowThrough_unparenthesized (h.child hleft.1)]
  cases hpath with
  | cons first goesOn rest =>
    have hfirst := tracks_child hbelow hleft.1 hleft.2 _ _ first
    have hsecond := follows_value h hbelow hright.1 hright.2 rest
    refine ⟨fun s hs => hfirst.keeps _ (hsecond.keeps s hs), fun hlast hne s hs => ?_,
      fun hread s hs => ?_⟩
    · simp only [List.mem_append, not_or] at hne
      exact hfirst.clear goesOn hne.1 _ (hsecond.clear hlast hne.2 s hs)
    · rcases hread.of_append with htarget | ⟨-, hvalue⟩
      · -- On some path the value leaves the variable unassigned.
        obtain ⟨q, last, hq, hne⟩ : ∃ q last, Takes m b.right q last ∧ .assign x ∉ q := by
          by_contra hall
          push Not at hall
          cases rest with
          | cons second goesOn' rest =>
            cases rest
            exact hread.outside ⟨[], _, _, [], by simp, List.not_mem_nil, htarget.readsFirst, n,
              hroot, b, hk, hb, hname, ⟨_, first⟩, ⟨_, second⟩, hall⟩
        obtain rfl := ending_eq_through (h.child hright.1) hright.2 (fun c hc => hplain c
          (Node.mem_preorder_trans hc (Node.mem_preorder_of_mem_children hright.1))) hq
        have hvalue := tracks_child hbelow hright.1 hright.2 q _ hq
        exact hfirst.sees htarget _ (hvalue.clear (by decide) hne s hs)
      · exact hfirst.keeps _ (hsecond.sees hvalue s hs)

end Parts

/-- The flow of an expression follows every path through it. -/
theorem tracks_expression (hlocal : m.symbolIs x SymbolKind.isLocal = true) (hx : x ∉ declared)
    (h : n.Readable) (hn : n.isExpression = true)
    (hplain : ∀ c ∈ n.preorder, c.kind ≠ .conditionalAccessExpression)
    (hroot : n ∈ root.preorder) : m.Tracks root declared x n := by
  induction hsize : n.size using Nat.strongRecOn generalizing n with
  | ind size ih =>
    subst hsize
    have hbelow : ∀ c ∈ n.preorder, c.size < n.size → c.isExpression = true →
        m.Tracks root declared x c := fun c hc hlt hexpr =>
      ih c.size hlt (h.of_mem hc) hexpr (fun d hd => hplain d (Node.mem_preorder_trans hd hc))
        (Node.mem_preorder_trans hc hroot) rfl
    intro p ending hpath
    obtain rfl := ending_eq_through h hn hplain hpath
    cases hpath with
    | @read _ y hk hy =>
      rw [flowThrough_name hk hy]
      refine ⟨fun s hs => subset_noteRead hs, fun _ _ s hs => hs, fun hread s hs => ?_⟩
      obtain rfl := hread.readsFirst.of_singleton
      exact mem_noteRead hlocal hs hx
    | unbound hk hy =>
      rw [flowThrough_unbound hk hy]
      exact .idle
    | constant hk =>
      rw [flowThrough_plain (by rcases hk with hk | hk <;> rw [hk] <;> rfl), h.parts_of_constant hk]
      exact .idle
    | parenthesized hk he inside =>
      obtain ⟨-, hexpr, _, _, hc⟩ := Node.inner?_eq_some he
      rw [flowThrough_plain (by rw [hk]; rfl), h.parts_of_inner? he]
      exact follows_value h hbelow (by simp [hc]) hexpr inside
    | member hk hv chain =>
      obtain ⟨-, _, hc⟩ := Node.memberAccess?_eq_some hv
      obtain ⟨v', hv', hexpr, -⟩ := h.memberAccess hk
      obtain rfl := Option.some.inj (hv.symm.trans hv')
      rw [flowThrough_memberAccess hv]
      exact tracks_child hbelow (by simp [hc]) hexpr _ _ chain
    | access hk => exact absurd hk (hplain n n.self_mem_preorder)
    | assertion hk parts chain =>
      obtain ⟨e, mark, hc, hexpr, hparts⟩ := h.parts_of_operator (.inr hk)
      obtain ⟨rfl, -⟩ := List.cons.inj (parts.symm.trans hc)
      rw [flowThrough_plain (by rw [hk]; rfl), hparts]
      exact tracks_child hbelow (by simp [hc]) hexpr _ _ chain
    | call hk parts chain arguments =>
      obtain ⟨e, list, hc, hexpr, hl, hparts⟩ := h.parts_of_call hk
      obtain ⟨rfl, rfl, -⟩ : _ = e ∧ _ = list ∧ _ = [] := by simpa [parts] using hc
      rw [flowThrough_plain (by rcases hk with hk | hk <;> rw [hk] <;> rfl), hparts]
      exact (tracks_child hbelow (by simp [hc]) hexpr _ _ chain).comp (by decide)
        (follows_arguments h hbelow (by simp [hc]) hl arguments)
    | creation hk hl arguments =>
      obtain ⟨list, hl', hparts⟩ := h.parts_of_creation hk
      obtain rfl := Option.some.inj (hl.symm.trans hl')
      obtain ⟨hmem, hlk⟩ := Node.childOfKind?_eq_some hl
      rw [flowThrough_plain (by rw [hk]; rfl), hparts]
      exact follows_arguments h hbelow hmem (by rw [hlk]; rfl) arguments
    | @step _ u y p hk hu hop hy operand =>
      exact (follows_unary h hbelow hk hu operand).append_assign [y]
    | operand hk hu hy operand => exact follows_unary h hbelow hk hu operand
    | @binary _ b _ hk hb operands =>
      cases hop : mayShortCut b.operator.kind with
      | true => exact follows_shortCircuit h hbelow hk hb hop (.inr operands)
      | false =>
        obtain ⟨hleft, hright⟩ := h.sides_of_binary? hb
        rw [flowThrough_binary hk hb hop]
        cases operands with
        | cons first goesOn rest =>
          exact (tracks_child hbelow hleft.1 hleft.2 _ _ first).comp goesOn
            (follows_value h hbelow hright.1 hright.2 rest)
    | shortCircuit hk hb hop left =>
      exact follows_shortCircuit h hbelow hk hb (mayShortCut_iff.2 hop) (.inl left)
    | @assign _ b y p hk hb hy value =>
      obtain ⟨-, hright⟩ := h.sides_of_binary? hb
      rw [flowThrough_assign hk hb hy]
      have hvalue := follows_value h hbelow hright.1 hright.2 value
      refine ⟨hvalue.keeps, fun hlast hne s hs => ?_,
        fun hread => hvalue.sees (hread.of_append_assign [y])⟩
      simp only [List.mem_append, List.mem_singleton, Access.assign.injEq, not_or] at hne
      rw [Assigned, holds_assign]
      exact not_or.2 ⟨hvalue.clear hlast hne.1 s hs, hne.2⟩
    | assignTarget hk hb hname parts =>
      exact follows_assignTarget h hbelow hk hb hname hplain hroot parts
    | list hk =>
      rcases hk with hk | hk <;> simp [Node.isExpression, hk, Kind.isExpression] at hn
    | declaration hk | initialized hk | uninitialized hk | effect hk | empty hk | thenBranch hk
    | elseBranch hk | loop hk => simp [Node.isExpression, hk, Kind.isExpression] at hn

/-! ## Statements -/

/-- The variable is among those assigned. -/
def AssignedIn (x : Nat) (state : List Nat × List Nat) : Prop := x ∈ state.1

section Statements

variable (hlocal : m.symbolIs x SymbolKind.isLocal = true) (hx : x ∉ declared) (h : n.Readable)
  (hplain : ∀ c ∈ n.preorder, c.kind ≠ .conditionalAccessExpression)
  (hroot : n ∈ root.preorder)
include hlocal hx h hplain hroot

theorem follows_expressionFlow (hn : n.isExpression = true) (hpath : Takes m n p ending) :
    Follows m root x (AssignedIn x) (FlowsIn x) p ending (m.expressionFlow declared n) := by
  have hflow := tracks_expression hlocal hx h hn hplain hroot p ending hpath
  have hheld (s : List Nat × List Nat) (hs : ¬ AssignedIn x s) :
      ¬ Assigned x (([s.1], s.2) : Layers × List Nat) := by
    simpa [Assigned, AssignedIn, Layers.holds] using hs
  refine ⟨fun s hs => hflow.keeps ([s.1], s.2) hs, fun hlast hne s hs => ?_,
    fun hread s hs => hflow.sees hread ([s.1], s.2) (hheld s hs)⟩
  have hclear := hflow.clear hlast hne _ (hheld s hs)
  simp only [expressionFlow, AssignedIn]
  simp only [Assigned] at hclear
  generalize m.flowThrough declared n ([s.1], s.2) = r at hclear ⊢
  obtain ⟨layers, flowsIn⟩ := r
  cases layers with
  | nil => simp
  | cons layer below =>
    simp only [Layers.holds, List.any_cons, Bool.or_eq_true, List.contains_iff_mem,
      not_or] at hclear
    exact hclear.1

theorem keeps_expressionFlow (hn : n.isExpression = true) (s : List Nat × List Nat)
    (hs : FlowsIn x s) : FlowsIn x (m.expressionFlow declared n s) := by
  obtain ⟨p, hp⟩ := h.exists_takes_expression (m := m) hn
  exact (follows_expressionFlow hlocal hx h hplain hroot hn hp).keeps s hs

theorem follows_valueFlow {e : Placed} (he : e ∈ n.preorder) (hexpr : e.isExpression = true)
    (hpath : TakesAll m [e] p .through) :
    Follows m root x (AssignedIn x) (FlowsIn x) p .through (m.expressionFlow declared e) := by
  have hplain' : ∀ c ∈ e.preorder, c.kind ≠ .conditionalAccessExpression := fun c hc =>
    hplain c (Node.mem_preorder_trans hc he)
  have hroot' : e ∈ root.preorder := Node.mem_preorder_trans he hroot
  refine Follows.foldl (F := m.expressionFlow declared) hpath (fun c hc q ending hq => ?_)
    fun c hc => ?_
  · obtain rfl := List.mem_singleton.1 hc
    exact follows_expressionFlow hlocal hx (h.of_mem he) hplain' hroot' hexpr hq
  · obtain rfl := List.mem_singleton.1 hc
    exact keeps_expressionFlow hlocal hx (h.of_mem he) hplain' hroot' hexpr

theorem follows_declaratorFlow (hk : n.kind = .variableDeclarator) (hpath : Takes m n p ending) :
    Follows m root x (AssignedIn x) (FlowsIn x) p ending
      fun state => m.declaratorFlow declared state n := by
  unfold declaratorFlow
  cases hpath with
  | uninitialized _ he =>
    simp only [he]
    exact .idle
  | initialized _ he value =>
    have hvalue := follows_valueFlow hlocal hx h hplain hroot (Node.mem_preorder_of_initializer? he)
      (h.initializer.1 _ he) value
    simp only [he]
    cases hy : m.symbolAt n.id with
    | none => exact hvalue.append_assign []
    | some y =>
      refine ⟨hvalue.keeps, fun hlast hne s hs => ?_,
        fun hread => hvalue.sees (hread.of_append_assign [y])⟩
      simp only [Option.toList_some, List.map_cons, List.map_nil, List.mem_append,
        List.mem_singleton, Access.assign.injEq, not_or] at hne
      rw [AssignedIn, List.mem_insert_iff, not_or]
      exact ⟨hne.2, hvalue.clear hlast hne.1 s hs⟩
  | _ => simp_all

theorem keeps_declaratorFlow (s : List Nat × List Nat) (hs : FlowsIn x s) :
    FlowsIn x (m.declaratorFlow declared s n) := by
  unfold declaratorFlow
  cases he : n.initializer? with
  | none => exact hs
  | some e =>
    have hmem := Node.mem_preorder_of_initializer? he
    have hvalue := keeps_expressionFlow hlocal hx (h.of_mem hmem)
      (fun c hc => hplain c (Node.mem_preorder_trans hc hmem))
      (Node.mem_preorder_trans hmem hroot) (h.initializer.1 e he) s hs
    simp only
    split
    · exact hvalue
    · exact hvalue

end Statements

/-- A branch that is come through does not assign the variable, so neither does the `if`. -/
theorem not_mem_joinBranches {before : List Nat} {first second : Bool × List Nat}
    (h : first.1 = false ∧ x ∉ first.2 ∨ second.1 = false ∧ x ∉ second.2) :
    x ∉ (joinBranches before first second).2 := by
  obtain ⟨exits, assigned⟩ := first
  obtain ⟨exits', assigned'⟩ := second
  rcases h with ⟨rfl, hx⟩ | ⟨rfl, hx⟩
  · cases exits' with
    | true => exact hx
    | false => exact fun hmem => hx (List.mem_filter.1 hmem).1
  · cases exits with
    | true => exact hx
    | false => exact fun hmem => hx (by simpa using (List.mem_filter.1 hmem).2)

/-- The flow of a statement that follows every path through it. -/
def TracksStatement (m : Model) (root : Placed) (declared : List Nat) (x : Nat) (n : Placed) :
    Prop :=
  ∀ p ending, Takes m n p ending → Follows m root x (AssignedIn x) (FlowsIn x) p ending
    fun state => (m.statementFlow declared n state).2

theorem TracksStatement.keeps (hn : m.TracksStatement root declared x n) (h : n.Readable)
    (hstatement : n.kind.isStatement = true) (s : List Nat × List Nat) (hs : FlowsIn x s) :
    FlowsIn x (m.statementFlow declared n s).2 := by
  obtain ⟨p, ending, hp⟩ := h.exists_takes (m := m) (.inr (.inl hstatement))
  exact (hn p ending hp).keeps s hs

section Branches

/-! How an `if` follows its paths, given that its parts do. -/

variable {v : Node.IfView Place} (h : n.Readable) (hk : n.kind = .ifStatement)
  (hv : n.ifStatement? = some v)
  (hcondition : ∀ p ending, Takes m v.condition p ending → ending = .through ∧
    Follows m root x (AssignedIn x) (FlowsIn x) p ending (m.expressionFlow declared v.condition))
  (hbranch : m.TracksStatement root declared x v.thenBranch)
  (hother : ∀ other, v.elseBranch = some other → m.TracksStatement root declared x other)
include h hk hv hcondition hbranch hother

omit hcondition in
/-- The flow of an `if` sees what is read in its condition. -/
theorem keeps_condition (s : List Nat × List Nat)
    (hs : FlowsIn x (m.expressionFlow declared v.condition s)) :
    FlowsIn x (m.statementFlow declared n s).2 := by
  obtain ⟨-, hthen, helse⟩ := h.parts_of_ifStatement? hv
  have hfirst := hbranch.keeps (h.child hthen.1) hthen.2 _ hs
  cases he : v.elseBranch with
  | none =>
    rw [statementFlow_if declared s hk hv he]
    exact hfirst
  | some other =>
    obtain ⟨hmem, hs⟩ := helse other he
    rw [statementFlow_ifElse declared s hk hv he]
    exact (hother other he).keeps (h.of_mem hmem) hs _ hfirst

theorem follows_thenBranch (hpath : TakesAll m [v.condition, v.thenBranch] p ending) :
    Follows m root x (AssignedIn x) (FlowsIn x) p ending
      fun state => (m.statementFlow declared n state).2 := by
  obtain ⟨-, hthen, helse⟩ := h.parts_of_ifStatement? hv
  cases hpath with
  | left first => exact absurd (hcondition _ _ first).1 (by decide)
  | cons first goesOn rest =>
    have hsecond := rest.of_singleton hthen.2
    have hboth := (hcondition _ _ first).2.comp goesOn (hbranch _ _ hsecond)
    refine hboth.of_flows (fun s hs => ?_) fun hlast hne s hs => ?_
    · cases he : v.elseBranch with
      | none =>
        rw [statementFlow_if declared s hk hv he]
        exact hs
      | some other =>
        obtain ⟨hmem, hstatement⟩ := helse other he
        rw [statementFlow_ifElse declared s hk hv he]
        exact (hother other he).keeps (h.of_mem hmem) hstatement _ hs
    · have hclear := hboth.clear hlast hne s hs
      simp only [List.mem_append, not_or] at hne
      cases he : v.elseBranch with
      | none =>
        rw [statementFlow_if declared s hk hv he]
        exact (hcondition _ _ first).2.clear goesOn hne.1 s hs
      | some other =>
        rw [statementFlow_ifElse declared s hk hv he]
        obtain rfl := hsecond.ending_eq (.inl hthen.2) hlast
        have hexits := (passes_of_takes declared (h.child hthen.1) hthen.2 hsecond
          (m.expressionFlow declared v.condition s)).1
        exact not_mem_joinBranches (.inl ⟨hexits, hclear⟩)

theorem follows_elseBranch (hpath : TakesAll m (v.condition :: v.elseBranch.toList) p ending) :
    Follows m root x (AssignedIn x) (FlowsIn x) p ending
      fun state => (m.statementFlow declared n state).2 := by
  obtain ⟨-, hthen, helse⟩ := h.parts_of_ifStatement? hv
  have hkeeps := keeps_condition h hk hv hbranch hother
  cases hpath with
  | left first => exact absurd (hcondition _ _ first).1 (by decide)
  | cons first goesOn rest =>
    have hfirst := (hcondition _ _ first).2
    cases he : v.elseBranch with
    | none =>
      rw [he] at rest
      cases rest
      rw [List.append_nil]
      refine hfirst.of_flows hkeeps fun hlast hne s hs => ?_
      rw [statementFlow_if declared s hk hv he]
      exact hfirst.clear goesOn hne s hs
    | some other =>
      rw [he] at rest
      obtain ⟨hmem, hstatement⟩ := helse other he
      have hsecond := rest.of_singleton hstatement
      have hfollows := hother other he _ _ hsecond
      refine ⟨fun s hs => hkeeps s (hfirst.keeps s hs), fun hlast hne s hs => ?_,
        fun hread s hs => ?_⟩
      · simp only [List.mem_append, not_or] at hne
        have hclear := hfirst.clear goesOn hne.1 s hs
        rw [statementFlow_ifElse declared s hk hv he]
        obtain rfl := hsecond.ending_eq (.inl hstatement) hlast
        exact not_mem_joinBranches (.inr ⟨(passes_of_takes declared (h.of_mem hmem) hstatement
          hsecond _).1, hfollows.clear hlast hne.2 ((m.expressionFlow declared v.condition s).1, _)
            hclear⟩)
      · rcases hread.of_append with hread | ⟨hne, hread⟩
        · exact hkeeps s (hfirst.sees hread s hs)
        · rw [statementFlow_ifElse declared s hk hv he]
          exact hfollows.sees hread ((m.expressionFlow declared v.condition s).1, _)
            (hfirst.clear goesOn hne s hs)

end Branches

section Loop

variable {v : Node.WhileView Place}
  (hcondition : ∀ p ending, Takes m v.condition p ending → ending = .through ∧
    Follows m root x (AssignedIn x) (FlowsIn x) p ending (m.expressionFlow declared v.condition))
  (hbody : m.TracksStatement root declared x v.body)
  (hkeeps : ∀ s, FlowsIn x s → FlowsIn x (m.statementFlow declared v.body s).2)
include hcondition hbody hkeeps

/-- What a loop reads first in any of its rounds is seen in the first one. -/
theorem flowsIn_of_turns {rounds : Nat}
    (hpath : TakesAll m
      ((List.replicate rounds [v.condition, v.body]).flatten ++ [v.condition]) p ending)
    (hread : ReadsOutside m root x p) (s : List Nat × List Nat) (hs : ¬ AssignedIn x s) :
    FlowsIn x (m.statementFlow declared v.body (m.expressionFlow declared v.condition s)).2 := by
  induction rounds generalizing p with
  | zero =>
    cases hpath with
    | left first => exact absurd (hcondition _ _ first).1 (by decide)
    | cons first goesOn rest =>
      cases rest
      rw [List.append_nil] at hread
      exact hkeeps _ ((hcondition _ _ first).2.sees hread s hs)
  | succ rounds ih =>
    rw [List.replicate_succ, List.flatten_cons, List.cons_append, List.cons_append] at hpath
    cases hpath with
    | left first => exact absurd (hcondition _ _ first).1 (by decide)
    | cons first goesOn rest =>
      have hfirst := (hcondition _ _ first).2
      rcases hread.of_append with hread | ⟨hne, hread⟩
      · exact hkeeps _ (hfirst.sees hread s hs)
      have hclear := hfirst.clear goesOn hne s hs
      cases rest with
      | left second => exact (hbody _ _ second).sees hread _ hclear
      | cons second goesOn' rest =>
        rcases hread.of_append with hread | ⟨-, hread⟩
        · exact (hbody _ _ second).sees hread _ hclear
        · exact ih rest hread

theorem follows_loop (hk : n.kind = .whileStatement) (hv : n.whileStatement? = some v)
    {rounds : Nat} (hpath : TakesAll m
      ((List.replicate rounds [v.condition, v.body]).flatten ++ [v.condition]) p ending) :
    Follows m root x (AssignedIn x) (FlowsIn x) p ending
      fun state => (m.statementFlow declared n state).2 := by
  have hsees := flowsIn_of_turns hcondition hbody hkeeps hpath
  obtain ⟨rest, hturns⟩ : ∃ rest,
      (List.replicate rounds [v.condition, v.body]).flatten ++ [v.condition] =
        v.condition :: rest := by
    cases rounds with
    | zero => exact ⟨[], rfl⟩
    | succ k => exact ⟨_, rfl⟩
  rw [hturns] at hpath
  cases hpath with
  | left first => exact absurd (hcondition _ _ first).1 (by decide)
  | cons first goesOn rest =>
    have hfirst := (hcondition _ _ first).2
    refine ⟨fun s hs => ?_, fun hlast hne s hs => ?_, fun hread s hs => ?_⟩
    · rw [statementFlow_while declared s hk hv]
      exact hkeeps _ (hfirst.keeps s hs)
    · rw [statementFlow_while declared s hk hv]
      exact hfirst.clear goesOn (fun hmem => hne (List.mem_append_left _ hmem)) s hs
    · rw [statementFlow_while declared s hk hv]
      exact hsees hread s hs

end Loop

theorem snd_foldl_statementFlow {ss : List Placed} (exits : Bool) (state : List Nat × List Nat) :
    (ss.foldl (fun r s =>
      (r.1 || (m.statementFlow declared s r.2).1, (m.statementFlow declared s r.2).2))
      (exits, state)).2 = ss.foldl (fun state s => (m.statementFlow declared s state).2) state := by
  induction ss generalizing exits state with
  | nil => rfl
  | cons s ss ih => exact ih _ _

/-- The flow of a statement follows every path through it. -/
theorem tracks_statement (hlocal : m.symbolIs x SymbolKind.isLocal = true) (hx : x ∉ declared)
    (h : n.Readable) (hn : n.kind.isStatement = true)
    (hplain : ∀ c ∈ n.preorder, c.kind ≠ .conditionalAccessExpression)
    (hroot : n ∈ root.preorder) : m.TracksStatement root declared x n := by
  induction hsize : n.size using Nat.strongRecOn generalizing n with
  | ind size ih =>
    subst hsize
    have hbelow {c : Placed} (hc : c ∈ n.preorder) (hlt : c.size < n.size)
        (hs : c.kind.isStatement = true) : m.TracksStatement root declared x c :=
      ih c.size hlt (h.of_mem hc) hs (fun d hd => hplain d (Node.mem_preorder_trans hd hc))
        (Node.mem_preorder_trans hc hroot) rfl
    have hexpression {c : Placed} (hc : c ∈ n.preorder) (hexpr : c.isExpression = true)
        (p : List Access) (ending : Ending) (hpath : Takes m c p ending) : ending = .through ∧
          Follows m root x (AssignedIn x) (FlowsIn x) p ending (m.expressionFlow declared c) := by
      have hplain' : ∀ d ∈ c.preorder, d.kind ≠ .conditionalAccessExpression := fun d hd =>
        hplain d (Node.mem_preorder_trans hd hc)
      exact ⟨ending_eq_through (h.of_mem hc) hexpr hplain' hpath, follows_expressionFlow hlocal hx
        (h.of_mem hc) hplain' (Node.mem_preorder_trans hc hroot) hexpr hpath⟩
    have hvalue {p : List Access} (hpath : TakesAll m n.value?.toList p .through) :
        Follows m root x (AssignedIn x) (FlowsIn x) p .through (m.valueFlow declared n.value?) := by
      cases he : n.value? with
      | none =>
        rw [he] at hpath
        cases hpath
        exact .idle
      | some e =>
        rw [he] at hpath
        obtain ⟨-, hexpr, hmem⟩ := Node.value?_eq_some he
        exact follows_valueFlow hlocal hx h hplain hroot (Node.mem_preorder_of_mem_children hmem)
          hexpr hpath
    intro p ending hpath
    cases hpath with
    | list hk statements =>
      have hk : n.kind = .block := by
        rcases hk with hk | hk
        · exact hk
        · simp [hk, Kind.isStatement] at hn
      have hmem {s : Placed} := Node.mem_statements_of_list (n := n) (e := s) (.inl hk)
      have htracks {s : Placed} (hs : s ∈ n.statements) :
          (s.Readable ∧ s.kind.isStatement = true) ∧ m.TracksStatement root declared x s := by
        obtain ⟨hs, hstatement⟩ := hmem.1 hs
        exact ⟨⟨h.child hs, hstatement⟩, hbelow (Node.mem_preorder_of_mem_children hs)
          (Node.size_lt_of_mem_children hs) hstatement⟩
      simp only [statementFlow_block declared _ hk, snd_foldl_statementFlow]
      exact .foldl statements (fun s hs => (htracks hs).2) fun s hs =>
        (htracks hs).2.keeps (htracks hs).1.1 (htracks hs).1.2
    | @declaration _ v _ hk hv declarators =>
      have hbelow {d : Placed} (hd : d ∈ v.declarators) : d.kind = .variableDeclarator ∧
          d.Readable ∧ (∀ c ∈ d.preorder, c.kind ≠ .conditionalAccessExpression) ∧
          d ∈ root.preorder := by
        obtain ⟨hmem, hdk⟩ := Node.mem_declarators hv hd
        have hmem := Node.mem_preorder_of_mem_children hmem
        exact ⟨hdk, h.of_mem hmem, fun c hc => hplain c (Node.mem_preorder_trans hc hmem),
          Node.mem_preorder_trans hmem hroot⟩
      unfold statementFlow
      simp only [hk, hv]
      refine .foldl (F := fun d state => m.declaratorFlow declared state d) declarators
        (fun d hd p ending hp => ?_) fun d hd s hs => ?_
      · obtain ⟨hdk, hd, hplain, hroot⟩ := hbelow hd
        exact follows_declaratorFlow hlocal hx hd hplain hroot hdk hp
      · obtain ⟨-, hd, hplain, hroot⟩ := hbelow hd
        exact keeps_declaratorFlow hlocal hx hd hplain hroot s hs
    | effect hk value =>
      unfold statementFlow
      simp only [hk]
      exact hvalue value
    | exit hk value =>
      have hflow : Follows m root x (AssignedIn x) (FlowsIn x) p .left
          (m.valueFlow declared n.value?) :=
        (hvalue value).of_flows (fun s hs => hs) (absurd rfl)
      unfold statementFlow
      rcases hk with hk | hk
      · simpa only [hk] using hflow
      · simpa only [hk] using hflow
    | empty hk =>
      unfold statementFlow
      simp only [hk]
      exact .idle
    | @thenBranch _ v _ _ hk hv parts =>
      obtain ⟨hcondition, hbranch, hother⟩ := h.parts_of_ifStatement? hv
      exact follows_thenBranch h hk hv
        (hexpression (Node.mem_preorder_of_mem_children hcondition.1) hcondition.2)
        (hbelow (Node.mem_preorder_of_mem_children hbranch.1)
          (Node.size_lt_of_mem_children hbranch.1) hbranch.2)
        (fun other he => hbelow (hother other he).1
          ((Node.size_lt_of_ifStatement? hv).2.2 other he) (hother other he).2) parts
    | @elseBranch _ v _ _ hk hv parts =>
      obtain ⟨hcondition, hbranch, hother⟩ := h.parts_of_ifStatement? hv
      exact follows_elseBranch h hk hv
        (hexpression (Node.mem_preorder_of_mem_children hcondition.1) hcondition.2)
        (hbelow (Node.mem_preorder_of_mem_children hbranch.1)
          (Node.size_lt_of_mem_children hbranch.1) hbranch.2)
        (fun other he => hbelow (hother other he).1
          ((Node.size_lt_of_ifStatement? hv).2.2 other he) (hother other he).2) parts
    | @loop _ v _ _ hk hv rounds turns =>
      obtain ⟨v', hv', hcondition, hbody⟩ := h.whileStatement hk
      obtain rfl := Option.some.inj (hv.symm.trans hv')
      obtain ⟨-, _, _, _, _, hc⟩ := Node.whileStatement?_eq_some hv
      have htracks := hbelow (Node.mem_preorder_of_mem_children (by simp [hc]))
        (Node.size_lt_of_whileStatement? hv).2 hbody
      exact follows_loop (hexpression (Node.mem_preorder_of_mem_children (by simp [hc])) hcondition)
        htracks (htracks.keeps (h.child (by simp [hc])) hbody) hk hv turns
    | constant hk | call hk | skippedCall hk | step hk | operand hk =>
      rcases hk with hk | hk <;> simp [hk, Kind.isStatement] at hn
    | _ => simp_all [Kind.isStatement]

/-! ## Regions -/

/-- What a path through a region reads first flows into the region. -/
theorem mem_flowsIn_of_readsOutside (h : n.Readable) (hn : n.isExpression = true ∨
    n.kind.isStatement = true ∨ n.kind = .compilationUnit)
    (hplain : ∀ c ∈ n.preorder, c.kind ≠ .conditionalAccessExpression)
    (hlocal : m.symbolIs x SymbolKind.isLocal = true) (hx : x ∉ m.declaredIn n)
    {flow : RegionFlow} (hflow : m.regionFlow? n = some flow)
    (hpath : Takes m n p ending) (hread : ReadsOutside m n x p) : x ∈ flow.flowsIn := by
  rcases hn with hn | hn
  · rw [regionFlow?_expression hn, Option.some.injEq] at hflow
    subst hflow
    exact (follows_expressionFlow hlocal hx h hplain n.self_mem_preorder hn hpath).sees hread
      ([], []) List.not_mem_nil
  · rw [regionFlow?_statements hn, Option.some.injEq] at hflow
    subst hflow
    have htracks {s : Placed} (hs : s ∈ n.statements) :
        (s.Readable ∧ s.kind.isStatement = true) ∧
          m.TracksStatement n (m.declaredIn n) x s := by
      have hmem := Node.mem_preorder_of_mem_statements hs
      obtain ⟨hreadable, hstatement⟩ := mem_statements h hs
      exact ⟨⟨hreadable, hstatement⟩, tracks_statement hlocal hx hreadable hstatement
        (fun c hc => hplain c (Node.mem_preorder_trans hc hmem)) hmem⟩
    have hfollows : Follows m n x (AssignedIn x) (FlowsIn x) p ending fun state =>
        n.statements.foldl (fun state s => (m.statementFlow (m.declaredIn n) s state).2) state :=
      .foldl (takesAll_statements hn hpath) (fun s hs => (htracks hs).2) fun s hs =>
        (htracks hs).2.keeps (htracks hs).1.1 (htracks hs).1.2
    exact hfollows.sees hread ([], []) List.not_mem_nil

end Model

/-- Of a region of a text without errors and without `?.`, a block, the file, a statement or an
expression: what a path through it reads before assigning it, and the region does not declare,
flows into the region, or else the read is in the target of an assignment whose value assigns it. -/
theorem flowsIn_on_paths {file text : String} (nullable : Bool)
    (herrors : (parse file text).errors = [])
    (hplain : ∀ n ∈ (parse file text).tree.nodes, n.kind ≠ .conditionalAccessExpression)
    {region : Placed} (hregion : region ∈ (parse file text).tree.nodes)
    (hkind : region.isExpression = true ∨ region.kind.isStatement = true ∨
      region.kind = .compilationUnit) :
    let m := Model.build (parse file text).tree.placed nullable
    ∃ flow, m.regionFlow? region = some flow ∧ (∃ p ending, Takes m region p ending) ∧
      ∀ p ending, Takes m region p ending → ∀ x, m.symbolIs x SymbolKind.isLocal = true →
        x ∉ m.declaredIn region → ReadsFirst x p →
          x ∈ flow.flowsIn ∨ ReadInTarget m region x p := by
  intro m
  have hreadable := readable_of_errors_eq_nil herrors region hregion
  have hpaths : ∃ p ending, Takes m region p ending := hreadable.exists_takes hkind
  obtain ⟨flow, hflow, -⟩ := m.regionFlow?_gains hreadable hkind
  refine ⟨flow, hflow, hpaths, fun p ending hpath x hlocal hx hread => ?_⟩
  refine or_iff_not_imp_right.2 fun houtside => ?_
  exact Model.mem_flowsIn_of_readsOutside hreadable hkind
    (fun c hc => hplain c (Node.mem_preorder_trans hc hregion)) hlocal hx hflow hpath
    ⟨hread, houtside⟩

/-- The path through `a[x] = 1` reads `x`, which flows in. -/
theorem flowsIn_on_paths_index :
    let r := parse "" "int x = 2; a[x] = 1;"
    let m := Model.build r.tree.placed true
    let region := (r.tree.node? 12).getD default
    r.errors = [] ∧ Takes m region [.read 0] .through ∧
      ∃ flow, m.regionFlow? region = some flow ∧ 0 ∈ flow.flowsIn := by
  intro r m region
  let n (k : Nat) : Placed := (r.tree.node? k).getD default
  have herrors : r.errors = [] := by decide +kernel
  have hplain : ∀ n ∈ r.tree.nodes, n.kind ≠ .conditionalAccessExpression := by decide +kernel
  have hregion : region ∈ r.tree.nodes ∧ region.isExpression = true := by decide +kernel
  have hkinds : region.kind = .assignmentExpression ∧
      (n 13).unparenthesized.kind = .elementAccessExpression ∧
      (n 13).kind = .elementAccessExpression ∧ (n 14).kind = .identifierName ∧
      (n 18).kind = .identifierName ∧ (n 22).kind = .literalExpression := by decide +kernel
  have hparts : region.children = [n 13, n 21, n 22] ∧ (n 13).children = [n 14, n 16] ∧
      (n 16).arguments = [n 18] := by decide +kernel
  have hsymbols : m.symbolAt (n 14).id = none ∧ m.symbolAt (n 18).id = some 0 ∧
      m.symbolIs 0 SymbolKind.isLocal = true ∧ 0 ∉ m.declaredIn region := by decide +kernel
  have hassignments : ∀ c ∈ region.preorder, c.kind = .assignmentExpression → c = region := by
    decide +kernel
  obtain ⟨hassignment, htargetKind, helement, hname, hindex, hliteral⟩ := hkinds
  obtain ⟨hassignmentParts, helementParts, harguments⟩ := hparts
  obtain ⟨hunbound, hbound, hlocal, hdeclared⟩ := hsymbols
  have hbinary : region.binary? = some ⟨n 13, n 21, n 22⟩ := by
    simp only [Node.binary?, hassignment, hassignmentParts]
  have htarget : Takes m (n 13) ([] ++ [.read 0]) .through :=
    .call (.inr helement) helementParts (.unbound hname hunbound)
      (harguments ▸ .singleton (.read hindex hbound) (by decide))
  have hvalue : Takes m (n 22) [] .through := .constant (.inl hliteral)
  have hpath : Takes m region [.read 0] .through :=
    .assignTarget hassignment hbinary (fun x => by simp [Model.refersTo, htargetKind])
      (.cons htarget (by decide) (.singleton hvalue (by decide)))
  obtain ⟨flow, hflow, -, hpaths⟩ := flowsIn_on_paths true herrors hplain hregion.1 (.inl hregion.2)
  refine ⟨herrors, hpath, flow, hflow, ?_⟩
  refine (hpaths _ _ hpath 0 hlocal hdeclared ⟨[], [], rfl, List.not_mem_nil⟩).resolve_right ?_
  rintro ⟨_, _, _, _, -, -, -, a, ha, b, hk, hb, -, -, -, hassigns⟩
  obtain rfl := hassignments a ha hk
  obtain rfl := Option.some.inj (hbinary.symm.trans hb)
  exact absurd (hassigns [] _ hvalue) List.not_mem_nil

/-- In `a[x] = x = 1` the index is read before `x` is assigned, and `x` does not flow in. -/
theorem flowsIn_target_read :
    let r := parse "" "int x = 2; a[x] = x = 1;"
    let m := Model.build r.tree.placed true
    let region := (r.tree.node? 12).getD default
    r.errors = [] ∧ (∀ n ∈ r.tree.nodes, n.kind ≠ .conditionalAccessExpression) ∧
      m.symbolIs 0 SymbolKind.isLocal = true ∧ 0 ∉ m.declaredIn region ∧
      (m.regionFlow? region).map RegionFlow.flowsIn = some [] ∧
      Takes m region [.read 0, .assign 0] .through ∧ ReadsFirst 0 [.read 0, .assign 0] := by
  intro r m region
  let n (k : Nat) : Placed := (r.tree.node? k).getD default
  have herrors : r.errors = [] := by decide +kernel
  have hplain : ∀ n ∈ r.tree.nodes, n.kind ≠ .conditionalAccessExpression := by decide +kernel
  have hflow : m.symbolIs 0 SymbolKind.isLocal = true ∧ 0 ∉ m.declaredIn region ∧
      (m.regionFlow? region).map RegionFlow.flowsIn = some [] := by decide +kernel
  have hkinds : region.kind = .assignmentExpression ∧
      (n 13).unparenthesized.kind = .elementAccessExpression ∧
      (n 13).kind = .elementAccessExpression ∧ (n 14).kind = .identifierName ∧
      (n 18).kind = .identifierName ∧ (n 22).kind = .assignmentExpression ∧
      (n 26).kind = .literalExpression := by decide +kernel
  have hparts : region.children = [n 13, n 21, n 22] ∧ (n 13).children = [n 14, n 16] ∧
      (n 16).arguments = [n 18] ∧ (n 22).children = [n 23, n 25, n 26] := by decide +kernel
  have hsymbols : m.symbolAt (n 14).id = none ∧ m.symbolAt (n 18).id = some 0 ∧
      m.refersTo 0 (n 23) = true := by decide +kernel
  obtain ⟨hassignment, htargetKind, helement, hname, hindex, hinner, hliteral⟩ := hkinds
  obtain ⟨hassignmentParts, helementParts, harguments, hinnerParts⟩ := hparts
  obtain ⟨hunbound, hbound, hrefers⟩ := hsymbols
  have hbinary : region.binary? = some ⟨n 13, n 21, n 22⟩ := by
    simp only [Node.binary?, hassignment, hassignmentParts]
  have htarget : Takes m (n 13) ([] ++ [.read 0]) .through :=
    .call (.inr helement) helementParts (.unbound hname hunbound)
      (harguments ▸ .singleton (.read hindex hbound) (by decide))
  have hinnerBinary : (n 22).binary? = some ⟨n 23, n 25, n 26⟩ := by
    simp only [Node.binary?, hinner, hinnerParts]
  have hvalue : Takes m (n 22) ([] ++ [.assign 0]) .through :=
    .assign hinner hinnerBinary hrefers (.singleton (.constant (.inl hliteral)) (by decide))
  exact ⟨herrors, hplain, hflow.1, hflow.2.1, hflow.2.2, .assignTarget hassignment hbinary
    (fun x => by simp [Model.refersTo, htargetKind])
    (.cons htarget (by decide) (.singleton hvalue (by decide))),
    [], [.assign 0], rfl, List.not_mem_nil⟩

end NullLint
