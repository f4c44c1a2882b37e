import NullLint.Semantics.DefiniteAssignment
import NullLint.Proofs.Semantics.Outcomes
import NullLint.Proofs.Semantics.Paths

/-!
# What is assigned on every path

The symbols that the flow of a region counts as always assigned are assigned on every path that
comes to the end of the region, unless the path passes over arguments behind a `?.` or `?[` that
assign them: such arguments are counted as if they always ran.
-/

namespace NullLint

namespace Model

variable {m : Model} {declared : List Nat} {n : Placed} {x : Nat}

/-! ## One node -/

theorem refersTo_iff {e : Placed} :
    m.refersTo x e = true ↔ m.assignedSymbol? e.unparenthesized = some x := by
  unfold refersTo assignedSymbol?
  split <;> simp_all

theorem assignedSymbol?_eq_none {e : Placed} (h : ∀ x, m.refersTo x e = false) :
    m.assignedSymbol? e.unparenthesized = none := by
  rw [Option.eq_none_iff_forall_ne_some]
  intro x hx
  rw [← refersTo_iff, h x] at hx
  cases hx

theorem mayShortCut_iff {k : Kind} : mayShortCut k = true ↔
    k = .ampersandAmpersand ∨ k = .barBar ∨ k = .questionQuestion := by
  cases k <;> decide

section FlowThrough

variable {b : Node.Binary Place}

theorem flowThrough_name (hk : n.kind = .identifierName) {x : Nat}
    (hx : m.symbolAt n.id = some x) : m.flowThrough declared n = fun state =>
      (state.1, m.noteRead declared state.1 state.2 x) := by
  funext state
  rw [flowThrough]
  simp only [hk, hx]

theorem flowThrough_unbound (hk : n.kind = .identifierName) (hx : m.symbolAt n.id = none) :
    m.flowThrough declared n = fun state => state := by
  funext state
  rw [flowThrough]
  simp only [hk, hx]

theorem layers_flowThrough_name (hk : n.kind = .identifierName) (state : Layers × List Nat) :
    (m.flowThrough declared n state).1 = state.1 := by
  cases hx : m.symbolAt n.id with
  | none => rw [flowThrough_unbound hk hx]
  | some x => rw [flowThrough_name hk hx]

theorem flowThrough_assign (hk : n.kind = .assignmentExpression) (hb : n.binary? = some b)
    (hx : m.refersTo x b.left = true) :
    m.flowThrough declared n = fun state =>
      ((m.flowThrough declared b.right state).1.assign x,
        (m.flowThrough declared b.right state).2) := by
  funext state
  rw [refersTo_iff] at hx
  rw [flowThrough]
  simp only [hk]
  split
  · rename_i v hv
    obtain rfl : b = v := Option.some.inj (hb.symm.trans hv)
    rw [hx]
  · rename_i hv
    simp [hb] at hv

theorem flowThrough_assignTarget (hk : n.kind = .assignmentExpression) (hb : n.binary? = some b)
    (hx : ∀ x, m.refersTo x b.left = false) :
    m.flowThrough declared n = fun state =>
      m.flowThrough declared b.left.unparenthesized (m.flowThrough declared b.right state) := by
  funext state
  rw [flowThrough]
  simp only [hk]
  split
  · rename_i v hv
    obtain rfl : b = v := Option.some.inj (hb.symm.trans hv)
    rw [assignedSymbol?_eq_none hx]
  · rename_i hv
    simp [hb] at hv

theorem flowThrough_binary (hk : n.kind = .binaryExpression) (hb : n.binary? = some b)
    (hop : mayShortCut b.operator.kind = false) :
    m.flowThrough declared n = fun state =>
      m.flowThrough declared b.right (m.flowThrough declared b.left state) := by
  funext state
  rw [flowThrough]
  simp only [hk]
  split
  · rename_i v hv
    obtain rfl : b = v := Option.some.inj (hb.symm.trans hv)
    rw [if_neg (by simp [hop])]
  · rename_i hv
    simp [hb] at hv

theorem flowThrough_shortCircuit (hk : n.kind = .binaryExpression)
    (hb : n.binary? = some b) (hop : mayShortCut b.operator.kind = true) :
    m.flowThrough declared n = fun state =>
      ((m.flowThrough declared b.left state).1,
        (m.flowThrough declared b.right ([] :: (m.flowThrough declared b.left state).1,
          (m.flowThrough declared b.left state).2)).2) := by
  funext state
  rw [flowThrough]
  simp only [hk]
  split
  · rename_i v hv
    obtain rfl : b = v := Option.some.inj (hb.symm.trans hv)
    rw [if_pos hop]
  · rename_i hv
    simp [hb] at hv

theorem layers_flowThrough_shortCircuit (hk : n.kind = .binaryExpression)
    (hb : n.binary? = some b) (hop : mayShortCut b.operator.kind = true)
    (state : Layers × List Nat) :
    (m.flowThrough declared n state).1 = (m.flowThrough declared b.left state).1 := by
  rw [flowThrough_shortCircuit hk hb hop]

theorem flowThrough_memberAccess {v : Node.MemberAccess Place} (hv : n.memberAccess? = some v) :
    m.flowThrough declared n = m.flowThrough declared v.expression := by
  funext state
  rw [flowThrough]
  simp only [(Node.memberAccess?_eq_some hv).1]
  split
  · rename_i v' hv'
    obtain rfl : v = v' := Option.some.inj (hv.symm.trans hv')
    rfl
  · rename_i hv'
    simp [hv] at hv'

/-- Tokens and types do nothing. -/
theorem flowThrough_of_not_runs (hk : n.kind.runs = false) :
    m.flowThrough declared n = fun state => state := by
  have hne {k : Kind} (hruns : k.runs = true) : n.kind ≠ k := by
    rintro rfl
    simp [hk] at hruns
  funext state
  rw [flowThrough]
  split
  · rename_i hkind
    exact absurd hkind (hne rfl)
  · rename_i hkind
    exact absurd hkind (hne rfl)
  · rename_i hkind
    exact absurd hkind (hne rfl)
  · rename_i hkind
    exact absurd hkind (hne rfl)
  · rw [if_pos (by simpa only [Kind.runs, Bool.not_eq_false'] using hk)]

end FlowThrough

/-- Kinds of nodes that do what their parts do, one after the other. -/
def isPlain (k : Kind) : Bool :=
  k.runs && k != .identifierName && k != .assignmentExpression && k != .binaryExpression &&
    k != .memberAccessExpression

theorem flowThrough_plain (h : isPlain n.kind = true) :
    m.flowThrough declared n = fun state =>
      n.parts.foldl (fun state c => m.flowThrough declared c state) state := by
  funext state
  simp only [isPlain, Bool.and_eq_true, bne_iff_ne, ne_eq] at h
  obtain ⟨⟨⟨⟨hruns, hname⟩, hassign⟩, hbinary⟩, hmember⟩ := h
  have hchildren : m.flowThrough declared n state =
      n.children.foldl (fun state c => m.flowThrough declared c state) state := by
    rw [flowThrough]
    split
    · contradiction
    · contradiction
    · contradiction
    · contradiction
    · rw [if_neg (by simpa [Kind.runs] using hruns)]
      exact List.foldl_attach (f := fun state c => m.flowThrough declared c state)
  rw [hchildren, Node.parts]
  clear hchildren
  generalize n.children = cs
  induction cs generalizing state with
  | nil => rfl
  | cons c cs ih =>
    rw [List.foldl_cons, List.filter_cons, ih]
    split
    · rfl
    · rename_i hc
      rw [flowThrough_of_not_runs (by simpa using hc)]

/-- Parentheses do nothing. -/
theorem flowThrough_unparenthesized (h : n.Readable) :
    m.flowThrough declared n.unparenthesized = m.flowThrough declared n := by
  induction n using Node.inner_induction with
  | stop n hi => rw [Node.unparenthesized_of_inner?_eq_none hi]
  | inner n e hi ih =>
    obtain ⟨hk, -, opening, rest, hc⟩ := Node.inner?_eq_some hi
    rw [Node.unparenthesized_of_inner? hi, ih (h.child (by simp [hc])),
      flowThrough_plain (n := n) (by rw [hk]; rfl), h.parts_of_inner? hi]
    rfl

/-! ## Symbols that a step adds -/

/-- The step puts only symbols with the property into the innermost layer, and leaves the layers
below as they are. -/
def AddsOnly (P : Nat → Prop) (step : Layers × List Nat → Layers × List Nat) : Prop :=
  ∀ layer below flowsIn, ∃ layer', (step (layer :: below, flowsIn)).1 = layer' :: below ∧
    ∀ x ∈ layer', x ∈ layer ∨ P x

namespace AddsOnly

variable {P Q : Nat → Prop} {f g : Layers × List Nat → Layers × List Nat}

theorem of_layers_eq (h : ∀ state, (f state).1 = state.1) : AddsOnly P f :=
  fun layer below flowsIn => ⟨layer, h (layer :: below, flowsIn), fun _ => .inl⟩

theorem mono (h : AddsOnly P f) (hPQ : ∀ x, P x → Q x) : AddsOnly Q f := by
  intro layer below flowsIn
  obtain ⟨layer', heq, hadds⟩ := h layer below flowsIn
  exact ⟨layer', heq, fun x hx => (hadds x hx).imp_right (hPQ x)⟩

theorem comp (hf : AddsOnly P f) (hg : AddsOnly P g) : AddsOnly P fun state => g (f state) := by
  intro layer below flowsIn
  obtain ⟨layer', heq, hadds⟩ := hf layer below flowsIn
  obtain ⟨layer'', heq', hadds'⟩ := hg layer' below (f (layer :: below, flowsIn)).2
  rw [← heq] at heq'
  refine ⟨layer'', heq', fun x hx => ?_⟩
  exact (hadds' x hx).elim (hadds x) .inr

/-- Only the layers count. -/
theorem congr (hf : AddsOnly P f) (h : ∀ state, (g state).1 = (f state).1) : AddsOnly P g := by
  intro layer below flowsIn
  rw [h]
  exact hf layer below flowsIn

theorem assign (hf : AddsOnly P f) {x : Nat} (hx : P x) :
    AddsOnly P fun state => ((f state).1.assign x, (f state).2) := by
  intro layer below flowsIn
  obtain ⟨layer', heq, hadds⟩ := hf layer below flowsIn
  refine ⟨layer'.insert x, by simp [heq, Layers.assign], fun y hy => ?_⟩
  rcases List.mem_insert_iff.1 hy with rfl | hy
  · exact .inr hx
  · exact hadds y hy

theorem foldl {ns : List Placed} {f : Placed → Layers × List Nat → Layers × List Nat}
    (h : ∀ n ∈ ns, AddsOnly P (f n)) :
    AddsOnly P fun state => ns.foldl (fun state n => f n state) state := by
  induction ns with
  | nil => exact of_layers_eq fun _ => rfl
  | cons n ns ih => exact (h n (by simp)).comp (ih fun c hc => h c (by simp [hc]))

end AddsOnly

/-! ## Expressions -/

theorem assigns_self {b : Node.Binary Place} (hk : n.kind = .assignmentExpression)
    (hb : n.binary? = some b) (hx : m.refersTo x b.left = true) : m.assigns n x = true := by
  unfold assigns
  rw [List.any_eq_true]
  exact ⟨n, Node.self_mem_preorder n, by simp [hk, hb, hx]⟩

/-- An expression adds only symbols that it assigns somewhere. -/
theorem addsOnly_assigns (h : n.Readable) :
    AddsOnly (fun x => m.assigns n x = true) (m.flowThrough declared n) := by
  induction hsize : n.size using Nat.strongRecOn generalizing n with
  | ind size ih =>
    subst hsize
    have hchild {c : Placed} (hc : c ∈ n.children) :
        AddsOnly (fun x => m.assigns n x = true) (m.flowThrough declared c) :=
      (ih c.size (Node.size_lt_of_mem_children hc) (h.child hc) rfl).mono fun x hx =>
        assigns_of_mem (Node.mem_preorder_of_mem_children hc) hx
    by_cases hruns : n.kind.runs = true
    swap
    · rw [flowThrough_of_not_runs (by simpa using hruns)]
      exact .of_layers_eq fun _ => rfl
    by_cases hname : n.kind = .identifierName
    · exact .of_layers_eq (layers_flowThrough_name hname)
    by_cases hassign : n.kind = .assignmentExpression
    · obtain ⟨b, hb, -⟩ := h.binary (.inr hassign)
      obtain ⟨⟨hleft, -⟩, hright, -⟩ := h.sides_of_binary? hb
      by_cases hx : ∃ x, m.refersTo x b.left = true
      · obtain ⟨x, hx⟩ := hx
        rw [flowThrough_assign hassign hb hx]
        exact (hchild hright).assign (assigns_self hassign hb hx)
      · simp only [not_exists, Bool.not_eq_true] at hx
        rw [flowThrough_assignTarget hassign hb hx, flowThrough_unparenthesized (h.child hleft)]
        exact (hchild hright).comp (hchild hleft)
    by_cases hbinary : n.kind = .binaryExpression
    · obtain ⟨b, hb, -⟩ := h.binary (.inl hbinary)
      obtain ⟨⟨hleft, -⟩, hright, -⟩ := h.sides_of_binary? hb
      cases hop : mayShortCut b.operator.kind with
      | true => exact (hchild hleft).congr (layers_flowThrough_shortCircuit hbinary hb hop)
      | false =>
        rw [flowThrough_binary hbinary hb hop]
        exact (hchild hleft).comp (hchild hright)
    by_cases hmember : n.kind = .memberAccessExpression
    · obtain ⟨v, hv, -⟩ := h.memberAccess hmember
      obtain ⟨-, rest, hc⟩ := Node.memberAccess?_eq_some hv
      rw [flowThrough_memberAccess hv]
      exact hchild (by simp [hc])
    · rw [flowThrough_plain (by simp [isPlain, *])]
      exact .foldl fun c hc => hchild (Node.mem_parts.1 hc).1

end Model

/-! ## Paths through expressions -/

/-- The path assigns the symbol, or it passes over arguments that do. -/
def AssignedOn (m : Model) (p : List Access) (x : Nat) : Prop :=
  .assign x ∈ p ∨ ∃ list, .skip list ∈ p ∧ m.assigns list x = true

namespace AssignedOn

variable {m : Model} {p q : List Access} {x : Nat}

theorem mono (h : AssignedOn m p x) (hpq : p ⊆ q) : AssignedOn m q x :=
  h.imp (@hpq _) fun ⟨list, hlist, hx⟩ => ⟨list, hpq hlist, hx⟩

end AssignedOn

namespace Model

variable {m : Model} {declared : List Nat} {n : Placed} {p : List Access} {ending : Ending}

theorem AddsOnly.on_subset {f : Layers × List Nat → Layers × List Nat} {q : List Access}
    (h : AddsOnly (AssignedOn m p) f) (hpq : p ⊆ q) : AddsOnly (AssignedOn m q) f :=
  h.mono fun _ hx => hx.mono hpq

/-- A path through nodes whose flows add only what is assigned on the way. -/
theorem addsOnly_foldl {ns : List Placed} {last : Ending} (hpath : TakesAll m ns p last)
    (hlast : last ≠ .left)
    (h : ∀ n ∈ ns, ∀ p ending, Takes m n p ending → AddsOnly (AssignedOn m p)
      (m.flowThrough declared n)) :
    AddsOnly (AssignedOn m p) fun state =>
      ns.foldl (fun state n => m.flowThrough declared n state) state := by
  induction ns generalizing p with
  | nil => exact .of_layers_eq fun _ => rfl
  | cons n ns ih =>
    cases hpath with
    | cons first goesOn rest =>
      have hrest := ih rest fun c hc => h c (by simp [hc])
      exact ((h n (by simp) _ _ first).on_subset (List.subset_append_left _ _)).comp
        (hrest.on_subset (List.subset_append_right _ _))
    | left => exact absurd rfl hlast

section Parts

/-! What an expression adds, given what the expressions below it add. -/

variable (h : n.Readable)
  (hbelow : ∀ c ∈ n.preorder, c.size < n.size → c.isExpression = true → ∀ p ending,
    Takes m c p ending → AddsOnly (AssignedOn m p) (m.flowThrough declared c))
include hbelow

theorem addsOnly_child {c : Placed} (hc : c ∈ n.children) (hexpr : c.isExpression = true)
    (hpath : Takes m c p ending) : AddsOnly (AssignedOn m p) (m.flowThrough declared c) :=
  hbelow c (Node.mem_preorder_of_mem_children hc) (Node.size_lt_of_mem_children hc) hexpr _ _ hpath

theorem addsOnly_value {c : Placed} (hc : c ∈ n.children) (hexpr : c.isExpression = true)
    (hpath : TakesAll m [c] p .through) :
    AddsOnly (AssignedOn m p) (m.flowThrough declared c) :=
  addsOnly_foldl hpath (by decide) fun e he q ending hq => by
    obtain rfl := List.mem_singleton.1 he
    exact addsOnly_child hbelow hc hexpr hq

include h

theorem addsOnly_arguments {list : Placed} (hl : list ∈ n.children)
    (hk : list.kind.isArguments = true) (hpath : TakesAll m list.arguments p .through) :
    AddsOnly (AssignedOn m p) (m.flowThrough declared list) := by
  rw [flowThrough_plain (by revert hk; cases list.kind <;> decide),
    (h.child hl).parts_of_arguments hk]
  refine addsOnly_foldl hpath (by decide) fun e he p ending hpath => ?_
  obtain ⟨hmem, hexpr⟩ := List.mem_filter.1 he
  exact hbelow e
    (Node.mem_preorder_trans (Node.mem_preorder_of_mem_children hmem)
      (Node.mem_preorder_of_mem_children hl))
    (Nat.lt_trans (Node.size_lt_of_mem_children hmem) (Node.size_lt_of_mem_children hl))
    hexpr _ _ hpath

theorem addsOnly_operator {e : Placed} {rest : List Placed}
    (hk : n.kind = .conditionalAccessExpression ∨ n.kind = .suppressNullableWarningExpression)
    (parts : n.children = e :: rest) (hpath : Takes m e p ending) :
    AddsOnly (AssignedOn m p) (m.flowThrough declared n) := by
  obtain ⟨e', mark, hc, hexpr, hparts⟩ := h.parts_of_operator hk
  obtain ⟨rfl, -⟩ := List.cons.inj (parts.symm.trans hc)
  rw [flowThrough_plain (by rcases hk with hk | hk <;> rw [hk] <;> rfl), hparts]
  exact addsOnly_child hbelow (by simp [hc]) hexpr hpath

theorem addsOnly_unary {u : Node.Unary Place}
    (hk : n.kind = .prefixUnaryExpression ∨ n.kind = .postfixUnaryExpression)
    (hu : n.unary? = some u) (hpath : TakesAll m [u.operand] p .through) :
    AddsOnly (AssignedOn m p) (m.flowThrough declared n) := by
  obtain ⟨hexpr, hparts⟩ := h.parts_of_unary? hu
  have hmem := (Node.mem_parts.1 (hparts ▸ List.mem_singleton_self _)).1
  rw [flowThrough_plain (by rcases hk with hk | hk <;> rw [hk] <;> rfl), hparts]
  exact addsOnly_value hbelow hmem hexpr hpath

/-- A call adds what its two parts add, whether the arguments are gone through or passed over. -/
theorem addsOnly_call {e list : Placed} {rest : List Placed} {q : List Access}
    (hk : n.kind = .invocationExpression ∨ n.kind = .elementAccessExpression)
    (parts : n.children = e :: list :: rest) (hpath : Takes m e p ending)
    (harguments : list.kind.isArguments = true →
      AddsOnly (AssignedOn m q) (m.flowThrough declared list)) :
    AddsOnly (AssignedOn m (p ++ q)) (m.flowThrough declared n) := by
  obtain ⟨e', list', hc, hexpr, hl, hparts⟩ := h.parts_of_call hk
  obtain ⟨rfl, rfl, -⟩ : e = e' ∧ list = list' ∧ rest = [] := by simpa [parts] using hc
  rw [flowThrough_plain (by rcases hk with hk | hk <;> rw [hk] <;> rfl), hparts]
  exact ((addsOnly_child hbelow (by simp [hc]) hexpr hpath).on_subset
    (List.subset_append_left _ _)).comp
    ((harguments hl).on_subset (List.subset_append_right _ _))

end Parts

/-- An expression adds only what is assigned on each path through it. -/
theorem addsOnly_assignedOn (h : n.Readable) (hn : n.isExpression = true)
    (hpath : Takes m n p ending) : AddsOnly (AssignedOn m p) (m.flowThrough declared n) := by
  induction hsize : n.size using Nat.strongRecOn generalizing n p ending with
  | ind size ih =>
    subst hsize
    have hbelow : ∀ c ∈ n.preorder, c.size < n.size → c.isExpression = true → ∀ p ending,
        Takes m c p ending → AddsOnly (AssignedOn m p) (m.flowThrough declared c) :=
      fun c hc hlt hexpr p ending hpath => ih c.size hlt (h.of_mem hc) hexpr hpath rfl
    cases hpath with
    | read hk => exact .of_layers_eq (layers_flowThrough_name hk)
    | unbound hk => exact .of_layers_eq (layers_flowThrough_name hk)
    | constant hk =>
      rw [flowThrough_plain (by rcases hk with hk | hk <;> rw [hk] <;> rfl), h.parts_of_constant hk]
      exact .of_layers_eq fun _ => rfl
    | parenthesized hk he inside =>
      obtain ⟨-, hexpr, _, _, hc⟩ := Node.inner?_eq_some he
      rw [flowThrough_plain (by rw [hk]; rfl), h.parts_of_inner? he]
      exact addsOnly_value hbelow (by simp [hc]) hexpr inside
    | member hk hv chain =>
      obtain ⟨-, _, hc⟩ := Node.memberAccess?_eq_some hv
      obtain ⟨v', hv', hexpr, -⟩ := h.memberAccess hk
      obtain rfl := Option.some.inj (hv.symm.trans hv')
      rw [flowThrough_memberAccess hv]
      exact addsOnly_child hbelow (by simp [hc]) hexpr chain
    | access hk parts chain => exact addsOnly_operator h hbelow (.inl hk) parts chain
    | accessNull hk parts chain => exact addsOnly_operator h hbelow (.inl hk) parts chain
    | assertion hk parts chain => exact addsOnly_operator h hbelow (.inr hk) parts chain
    | call hk parts chain arguments =>
      exact addsOnly_call h hbelow hk parts chain fun hl =>
        addsOnly_arguments h hbelow (by simp [parts]) hl arguments
    | skippedCall hk parts chain =>
      -- The flow takes in the arguments all the same.
      exact addsOnly_call h hbelow hk parts chain fun _ =>
        (addsOnly_assigns (h.child (by simp [parts]))).mono fun x hx => .inr ⟨_, by simp, hx⟩
    | creation hk hl arguments =>
      obtain ⟨list, hl', hparts⟩ := h.parts_of_creation hk
      obtain rfl := Option.some.inj (hl.symm.trans hl')
      obtain ⟨hmem, hlk⟩ := Node.childOfKind?_eq_some hl
      rw [flowThrough_plain (by rw [hk]; rfl), hparts]
      exact addsOnly_arguments h hbelow hmem (by rw [hlk]; rfl) arguments
    | step hk hu hop hx operand =>
      exact (addsOnly_unary h hbelow hk hu operand).on_subset (List.subset_append_left _ _)
    | operand hk hu hx operand => exact addsOnly_unary h hbelow hk hu operand
    | @binary _ b _ hk hb operands =>
      obtain ⟨hleft, hright⟩ := h.sides_of_binary? hb
      cases operands with
      | cons first goesOn rest =>
        have hfirst := addsOnly_child hbelow hleft.1 hleft.2 first
        cases hop : mayShortCut b.operator.kind with
        | true =>
          exact (hfirst.on_subset (List.subset_append_left _ _)).congr
            (layers_flowThrough_shortCircuit hk hb hop)
        | false =>
          rw [flowThrough_binary hk hb hop]
          exact (hfirst.on_subset (List.subset_append_left _ _)).comp
            ((addsOnly_value hbelow hright.1 hright.2 rest).on_subset
              (List.subset_append_right _ _))
    | shortCircuit hk hb hop left =>
      obtain ⟨hleft, -⟩ := h.sides_of_binary? hb
      exact (addsOnly_value hbelow hleft.1 hleft.2 left).congr
        (layers_flowThrough_shortCircuit hk hb (mayShortCut_iff.2 hop))
    | assign hk hb hx value =>
      obtain ⟨-, hright⟩ := h.sides_of_binary? hb
      rw [flowThrough_assign hk hb hx]
      exact ((addsOnly_value hbelow hright.1 hright.2 value).on_subset
        (List.subset_append_left _ _)).assign (.inl (by simp))
    | assignTarget hk hb hx parts =>
      obtain ⟨hleft, hright⟩ := h.sides_of_binary? hb
      rw [flowThrough_assignTarget hk hb hx, flowThrough_unparenthesized (h.child hleft.1)]
      cases parts with
      | cons first goesOn rest =>
        -- The flow looks at the two sides in the other order.
        exact ((addsOnly_value hbelow hright.1 hright.2 rest).on_subset
          (List.subset_append_right _ _)).comp
          ((addsOnly_child hbelow hleft.1 hleft.2 first).on_subset (List.subset_append_left _ _))
    | list hk | exit hk =>
      rcases hk with hk | hk <;> simp [Node.isExpression, hk, Kind.isExpression] at hn
    | declaration hk | initialized hk | uninitialized hk | effect hk | empty hk | thenBranch hk
    | elseBranch hk | loop hk => simp [Node.isExpression, hk, Kind.isExpression] at hn

/-! ## Paths through statements -/

/-- Only what the path assigns is new. -/
def GainsOn (m : Model) (p : List Access) (before after : List Nat) : Prop :=
  ∀ x ∈ after, x ∈ before ∨ AssignedOn m p x

namespace GainsOn

variable {q : List Access} {before between after : List Nat}

theorem refl (assigned : List Nat) : GainsOn m p assigned assigned := fun _ => .inl

theorem on_subset (h : GainsOn m p before after) (hpq : p ⊆ q) : GainsOn m q before after :=
  fun x hx => (h x hx).imp_right fun hx => hx.mono hpq

theorem trans (h : GainsOn m p before between) (h' : GainsOn m q between after) :
    GainsOn m (p ++ q) before after := by
  intro x hx
  rcases h' x hx with hx | hx
  · exact h.on_subset (List.subset_append_left _ _) x hx
  · exact .inr (hx.mono (List.subset_append_right _ _))

end GainsOn

section Flow

variable (declared : List Nat) (state : List Nat × List Nat)

theorem expressionFlow_gains (h : n.Readable) (hn : n.isExpression = true)
    (hpath : Takes m n p ending) : GainsOn m p state.1 (m.expressionFlow declared n state).1 := by
  have hadds : AddsOnly (AssignedOn m p) (m.flowThrough declared n) :=
    addsOnly_assignedOn h hn hpath
  obtain ⟨layer, heq, hadds⟩ := hadds state.1 [] state.2
  intro x hx
  refine hadds x ?_
  simpa [expressionFlow, heq] using hx

theorem expressionFlow_gains_all (h : n.Readable) (hn : n.isExpression = true) {ns : List Placed}
    (hpath : TakesAll m (n :: ns) p ending) :
    GainsOn m p state.1 (m.expressionFlow declared n state).1 := by
  cases hpath with
  | cons first =>
    exact (expressionFlow_gains declared state h hn first).on_subset (List.subset_append_left _ _)
  | left first => exact expressionFlow_gains declared state h hn first

theorem declaratorFlow_gains (h : n.Readable) (hk : n.kind = .variableDeclarator)
    (hpath : Takes m n p ending) : GainsOn m p state.1 (m.declaratorFlow declared state n).1 := by
  unfold declaratorFlow
  cases hpath with
  | uninitialized _ he =>
    rw [he]
    exact .refl _
  | initialized _ he value =>
    have hvalue := expressionFlow_gains_all declared state
      (h.of_mem (Node.mem_preorder_of_initializer? he)) (h.initializer.1 _ he) value
    simp only [he]
    cases hx : m.symbolAt n.id with
    | none => simpa using hvalue
    | some x =>
      intro y hy
      rcases List.mem_insert_iff.1 hy with rfl | hy
      · exact .inr (.inl (by simp))
      · exact hvalue.on_subset (List.subset_append_left _ _) y hy
  | _ => simp_all

theorem declarators_gain {ds : List Placed}
    (h : ∀ d ∈ ds, d.Readable ∧ d.kind = .variableDeclarator)
    (hpath : TakesAll m ds p .through) :
    GainsOn m p state.1 (ds.foldl (m.declaratorFlow declared) state).1 := by
  induction ds generalizing p state with
  | nil =>
    cases hpath
    exact .refl _
  | cons d ds ih =>
    obtain ⟨hd, hk⟩ := h d (by simp)
    cases hpath with
    | cons first goesOn rest =>
      exact (declaratorFlow_gains declared state hd hk first).trans
        (ih _ (fun c hc => h c (by simp [hc])) rest)

/-- The flow of a statement that a path comes through: it does not count as an exit, and only what
the path assigns is new. -/
def Passes (m : Model) (declared : List Nat) (s : Placed) (p : List Access) : Prop :=
  ∀ state : List Nat × List Nat, (m.statementFlow declared s state).1 = false ∧
    GainsOn m p state.1 (m.statementFlow declared s state).2.1

theorem statements_gain {ss : List Placed} (hstatement : ∀ s ∈ ss, s.kind.isStatement = true)
    (h : ∀ s ∈ ss, ∀ p, Takes m s p .through → m.Passes declared s p)
    (hpath : TakesAll m ss p .through) (exits : Bool) :
    (ss.foldl (fun r s =>
        (r.1 || (m.statementFlow declared s r.2).1, (m.statementFlow declared s r.2).2))
        (exits, state)).1 = exits ∧
      GainsOn m p state.1 (ss.foldl (fun r s =>
        (r.1 || (m.statementFlow declared s r.2).1, (m.statementFlow declared s r.2).2))
        (exits, state)).2.1 := by
  induction ss generalizing p state with
  | nil =>
    cases hpath
    exact ⟨rfl, .refl _⟩
  | cons s ss ih =>
    cases hpath with
    | @cons _ _ q r ending _ first goesOn rest =>
      obtain rfl := first.ending_eq (.inl (hstatement s (by simp))) goesOn
      obtain ⟨hexits, hgains⟩ := h s (by simp) q first state
      simp only [List.foldl_cons, hexits, Bool.or_false]
      obtain ⟨hexits', hgains'⟩ := ih (m.statementFlow declared s state).2
        (fun c hc => hstatement c (by simp [hc])) (fun c hc => h c (by simp [hc])) rest
      exact ⟨hexits', hgains.trans hgains'⟩

theorem statementFlow_block (hk : n.kind = .block) :
    m.statementFlow declared n state = n.statements.foldl (fun r c =>
      (r.1 || (m.statementFlow declared c r.2).1, (m.statementFlow declared c r.2).2))
      (false, state) := by
  rw [statementFlow]
  simp only [hk, Node.statements, List.foldl_filter]
  exact List.foldl_attach (f := fun r c => if c.kind.isStatement = true then
    (r.1 || (m.statementFlow declared c r.2).1, (m.statementFlow declared c r.2).2) else r)

/-- A branch that is come through decides what is gained behind an `if`. -/
theorem joinBranches_gains {assigned before : List Nat} {first second : Bool × List Nat}
    (h : first.1 = false ∧ GainsOn m p before first.2 ∨
      second.1 = false ∧ GainsOn m p before second.2) :
    (joinBranches assigned first second).1 = false ∧
      GainsOn m p before (joinBranches assigned first second).2 := by
  obtain ⟨exits₁, assigned₁⟩ := first
  obtain ⟨exits₂, assigned₂⟩ := second
  rcases h with ⟨rfl, hgains⟩ | ⟨rfl, hgains⟩
  · cases exits₂ with
    | true => exact ⟨rfl, hgains⟩
    | false => exact ⟨rfl, fun x hx => hgains x (List.mem_filter.1 hx).1⟩
  · cases exits₁ with
    | true => exact ⟨rfl, hgains⟩
    | false => exact ⟨rfl, fun x hx => hgains x (by simpa using (List.mem_filter.1 hx).2)⟩

section If

variable {v : Node.IfView Place} (hk : n.kind = .ifStatement) (hv : n.ifStatement? = some v)
include hk hv

theorem statementFlow_if (hother : v.elseBranch = none) :
    m.statementFlow declared n state =
      (false, (m.expressionFlow declared v.condition state).1,
        (m.statementFlow declared v.thenBranch
          (m.expressionFlow declared v.condition state)).2.2) := by
  rw [statementFlow]
  simp only [hk]
  split
  · rename_i w hw
    obtain rfl : v = w := Option.some.inj (hv.symm.trans hw)
    split
    · rename_i other hother'
      simp [hother] at hother'
    · rfl
  · rename_i hw
    simp [hv] at hw

theorem statementFlow_ifElse {other : Placed} (hother : v.elseBranch = some other) :
    let before := m.expressionFlow declared v.condition state
    let first := m.statementFlow declared v.thenBranch before
    let second := m.statementFlow declared other (before.1, first.2.2)
    let joined := joinBranches before.1 (first.1, first.2.1) (second.1, second.2.1)
    m.statementFlow declared n state = (joined.1, joined.2, second.2.2) := by
  intro before first second joined
  rw [statementFlow]
  simp only [hk]
  split
  · rename_i w hw
    obtain rfl : v = w := Option.some.inj (hv.symm.trans hw)
    split
    · rename_i other' hother'
      obtain rfl : other = other' := Option.some.inj (hother.symm.trans hother')
      rfl
    · rename_i hother'
      simp [hother] at hother'
  · rename_i hw
    simp [hv] at hw

end If

theorem statementFlow_while {v : Node.WhileView Place} (hk : n.kind = .whileStatement)
    (hv : n.whileStatement? = some v) :
    m.statementFlow declared n state =
      (false, (m.expressionFlow declared v.condition state).1,
        (m.statementFlow declared v.body
          (m.expressionFlow declared v.condition state)).2.2) := by
  rw [statementFlow]
  simp only [hk]
  split
  · rename_i w hw
    obtain rfl : v = w := Option.some.inj (hv.symm.trans hw)
    rfl
  · rename_i hw
    simp [hv] at hw

/-- A path comes through a statement only where the flow does not count an exit. -/
theorem passes_of_takes (h : n.Readable) (hn : n.kind.isStatement = true)
    (hpath : Takes m n p .through) : m.Passes declared n p := by
  induction hsize : n.size using Nat.strongRecOn generalizing n p with
  | ind size ih =>
    subst hsize
    have hbelow {c : Placed} {p : List Access} (hc : c ∈ n.preorder) (hlt : c.size < n.size)
        (hs : c.kind.isStatement = true) (hpath : Takes m c p .through) : m.Passes declared c p :=
      ih c.size hlt (h.of_mem hc) hs hpath rfl
    intro state
    cases hpath with
    | list hk statements =>
      have hk : n.kind = .block := by
        rcases hk with hk | hk
        · exact hk
        · simp [hk, Kind.isStatement] at hn
      have hmem {s : Placed} := Node.mem_statements_of_list (n := n) (e := s) (.inl hk)
      rw [statementFlow_block declared state hk]
      refine statements_gain declared state (fun s hs => (hmem.1 hs).2) (fun s hs p hp => ?_)
        statements false
      obtain ⟨hs, hstatement⟩ := hmem.1 hs
      exact hbelow (Node.mem_preorder_of_mem_children hs) (Node.size_lt_of_mem_children hs)
        hstatement hp
    | declaration hk hv declarators =>
      rw [statementFlow]
      simp only [hk, hv, true_and]
      refine declarators_gain declared state (fun d hd => ?_) declarators
      obtain ⟨hmem, hdk⟩ := Node.mem_declarators hv hd
      exact ⟨h.child hmem, hdk⟩
    | effect hk value =>
      obtain ⟨e, he, hexpr⟩ := h.expressionStatement hk
      have hmem : e ∈ n.children := (Node.value?_eq_some he).2.2
      rw [he] at value
      rw [statementFlow]
      simp only [hk, he, valueFlow, true_and]
      exact expressionFlow_gains_all declared state (h.child hmem) hexpr value
    | empty hk =>
      rw [statementFlow]
      simp only [hk, true_and]
      exact .refl _
    | @thenBranch _ v _ _ hk hv parts =>
      obtain ⟨hcondition, hbranch, helse⟩ := h.parts_of_ifStatement? hv
      obtain ⟨q, r, _, rfl, hq, hr⟩ := parts.of_pair hbranch.2
      have hbefore := expressionFlow_gains declared state
        (h.child hcondition.1) hcondition.2 hq
      cases hother : v.elseBranch with
      | none =>
        rw [statementFlow_if declared state hk hv hother]
        exact ⟨rfl, hbefore.on_subset (List.subset_append_left _ _)⟩
      | some other =>
        obtain ⟨hbranchExits, hgains⟩ :=
          hbelow (Node.mem_preorder_of_mem_children hbranch.1)
            (Node.size_lt_of_mem_children hbranch.1) hbranch.2 hr
            (m.expressionFlow declared v.condition state)
        rw [statementFlow_ifElse declared state hk hv hother]
        exact joinBranches_gains (.inl ⟨hbranchExits, hbefore.trans hgains⟩)
    | @elseBranch _ v _ _ hk hv parts =>
      obtain ⟨hcondition, hbranch, helse⟩ := h.parts_of_ifStatement? hv
      cases hother : v.elseBranch with
      | none =>
        rw [hother] at parts
        rw [statementFlow_if declared state hk hv hother]
        exact ⟨rfl, expressionFlow_gains_all declared state (h.child hcondition.1) hcondition.2
          parts⟩
      | some other =>
        rw [hother] at parts
        obtain ⟨hmem, hs⟩ := helse other hother
        obtain ⟨q, r, _, rfl, hq, hr⟩ := parts.of_pair hs
        have hbefore := expressionFlow_gains declared state
          (h.child hcondition.1) hcondition.2 hq
        rw [statementFlow_ifElse declared state hk hv hother]
        obtain ⟨hbranchExits, hgains⟩ :=
          hbelow hmem ((Node.size_lt_of_ifStatement? hv).2.2 other hother) hs hr
            ((m.expressionFlow declared v.condition state).1, _)
        exact joinBranches_gains (.inr ⟨hbranchExits, hbefore.trans hgains⟩)
    | @loop _ v _ _ hk hv rounds turns =>
      obtain ⟨v', hv', hcondition, -⟩ := h.whileStatement hk
      obtain rfl := Option.some.inj (hv.symm.trans hv')
      obtain ⟨-, _, _, _, _, hc⟩ := Node.whileStatement?_eq_some hv
      obtain ⟨rest, hturns⟩ : ∃ rest,
          (List.replicate rounds [v.condition, v.body]).flatten ++ [v.condition] =
            v.condition :: rest := by
        cases rounds with
        | zero => exact ⟨[], rfl⟩
        | succ k => exact ⟨_, rfl⟩
      rw [hturns] at turns
      rw [statementFlow_while declared state hk hv]
      exact ⟨rfl, expressionFlow_gains_all declared state (h.child (by simp [hc])) hcondition
        turns⟩
    | constant hk | call hk | step hk | operand hk =>
      rcases hk with hk | hk <;> simp [hk, Kind.isStatement] at hn
    | _ => simp_all [Kind.isStatement]

/-! ## Regions -/

/-- The flow of a list of statements that a path comes through. -/
theorem region_gains {ss : List Placed} (h : ∀ s ∈ ss, s.Readable ∧ s.kind.isStatement = true)
    (hpath : TakesAll m ss p .through) :
    GainsOn m p state.1
      (ss.foldl (fun state s => (m.statementFlow declared s state).2) state).1 := by
  induction ss generalizing p state with
  | nil =>
    cases hpath
    exact .refl _
  | cons s ss ih =>
    obtain ⟨hs, hk⟩ := h s (by simp)
    cases hpath with
    | cons first goesOn rest =>
      obtain rfl := first.ending_eq (.inl hk) goesOn
      exact (passes_of_takes declared hs hk first state).2.trans
        (ih _ (fun c hc => h c (by simp [hc])) rest)

end Flow

theorem mem_statements {s : Placed} (h : n.Readable) (hs : s ∈ n.statements) :
    s.Readable ∧ s.kind.isStatement = true := by
  unfold Node.statements at hs
  split at hs
  · obtain ⟨hmem, hk⟩ := List.mem_filter.1 hs
    exact ⟨h.child hmem, hk⟩
  · obtain ⟨hmem, hk⟩ := List.mem_filter.1 hs
    exact ⟨h.child hmem, hk⟩
  · split at hs
    · rename_i hk
      obtain rfl := List.mem_singleton.1 hs
      exact ⟨h, hk⟩
    · cases hs

/-- A path through a statement or a file goes through its statements. -/
theorem takesAll_statements (hn : n.kind.isStatement = true ∨ n.kind = .compilationUnit)
    (hpath : Takes m n p ending) : TakesAll m n.statements p ending := by
  by_cases hlist : n.kind = .block ∨ n.kind = .compilationUnit
  · cases hpath with
    | list _ statements => exact statements
    | constant hk | call hk | skippedCall hk | step hk | operand hk | exit hk =>
      rcases hk with hk | hk <;> simp [hk] at hlist
    | _ => simp_all
  · obtain ⟨hblock, hfile⟩ := not_or.1 hlist
    have hself : n.statements = [n] := by
      unfold Node.statements
      split
      · contradiction
      · contradiction
      · rw [if_pos (hn.resolve_right hfile)]
    rw [hself]
    by_cases hleft : ending = .left
    · subst hleft
      exact .left hpath
    · obtain rfl := hpath.ending_eq hn hleft
      exact .singleton hpath (by decide)

theorem regionFlow?_expression (hn : n.isExpression = true) :
    m.regionFlow? n = some
      ⟨(m.expressionFlow (m.declaredIn n) n ([], [])).1.filter fun s =>
        m.symbolIs s SymbolKind.isLocal, (m.expressionFlow (m.declaredIn n) n ([], [])).2⟩ := by
  have hnot : ¬ (n.kind = .compilationUnit ∨ n.kind.isStatement = true) := fun hs => by
    simp [Node.not_isExpression_of_isStatement hs.symm] at hn
  rw [regionFlow?, if_neg hnot, if_pos (show n.kind.isExpression = true from hn)]
  rfl

theorem regionFlow?_statements (hn : n.kind.isStatement = true ∨ n.kind = .compilationUnit) :
    m.regionFlow? n = some
      ⟨(n.statements.foldl (fun state s => (m.statementFlow (m.declaredIn n) s state).2)
        ([], [])).1.filter fun s => m.symbolIs s SymbolKind.isLocal,
      (n.statements.foldl (fun state s => (m.statementFlow (m.declaredIn n) s state).2)
        ([], [])).2⟩ := by
  rw [regionFlow?, if_pos hn.symm]
  rfl

/-- The flow of a region gains on a path to its end what the path assigns. -/
theorem regionFlow?_gains (m : Model) (h : n.Readable) (hn : n.isExpression = true ∨
    n.kind.isStatement = true ∨ n.kind = .compilationUnit) :
    ∃ flow, m.regionFlow? n = some flow ∧ ∀ p ending, Takes m n p ending → ending ≠ .left →
      GainsOn m p [] flow.alwaysAssigned := by
  rcases hn with hn | hn
  · refine ⟨_, regionFlow?_expression hn, fun p ending hpath _ x hx => ?_⟩
    exact expressionFlow_gains _ _ h hn hpath x (List.mem_filter.1 hx).1
  · refine ⟨_, regionFlow?_statements hn, fun p ending hpath hleft x hx => ?_⟩
    obtain rfl := hpath.ending_eq hn hleft
    exact region_gains _ _ (fun s hs => mem_statements h hs) (takesAll_statements hn hpath) x
      (List.mem_filter.1 hx).1

end Model

/-- Of a region of a text without errors, a block, the file, a statement or an expression, the
symbols counted as always assigned are assigned on every path that comes to its end, or else the
path passes over arguments that assign them. -/
theorem alwaysAssigned_on_paths {file text : String} (nullable : Bool)
    (herrors : (parse file text).errors = []) {region : Placed}
    (hregion : region ∈ (parse file text).tree.nodes)
    (hkind : region.isExpression = true ∨ region.kind.isStatement = true ∨
      region.kind = .compilationUnit) :
    let m := Model.build (parse file text).tree.placed nullable
    ∃ flow, m.regionFlow? region = some flow ∧
      (∃ p ending, Takes m region p ending) ∧
      ∀ p ending, Takes m region p ending → ending ≠ .left →
        ∀ x ∈ flow.alwaysAssigned, AssignedOn m p x := by
  intro m
  have hreadable := readable_of_errors_eq_nil herrors region hregion
  have hpaths : ∃ p ending, Takes m region p ending := hreadable.exists_takes hkind
  obtain ⟨flow, hflow, hgains⟩ := m.regionFlow?_gains hreadable hkind
  refine ⟨flow, hflow, hpaths, fun p ending hp hleft x hx => ?_⟩
  exact (hgains p ending hp hleft x hx).resolve_left List.not_mem_nil

/-- Every path to the end of `int x; if (f()) x = 1; else return; a?.g(x);` assigns `x`. -/
theorem alwaysAssigned_on_paths_branches :
    let r := parse "" "int x; if (f()) x = 1; else return; a?.g(x);"
    let m := Model.build r.tree.placed true
    let file := (r.tree.node? 0).getD default
    r.errors = [] ∧ (m.regionFlow? file).map RegionFlow.alwaysAssigned = some [0] ∧
      ∀ p ending, Takes m file p ending → ending ≠ .left → AssignedOn m p 0 := by
  intro r m file
  have herrors : r.errors = [] := by decide +kernel
  have hflow : (m.regionFlow? file).map RegionFlow.alwaysAssigned = some [0] := by decide +kernel
  have hfile : file ∈ r.tree.nodes := by decide +kernel
  obtain ⟨flow, hregion, -, hpaths⟩ :=
    alwaysAssigned_on_paths true herrors hfile (.inr (.inr (by decide +kernel)))
  refine ⟨herrors, hflow, fun p ending hp hleft => hpaths p ending hp hleft 0 ?_⟩
  rw [hregion, Option.map_some, Option.some.injEq] at hflow
  simp [hflow]

/-- In `a?.f(x = 1);` the assignment is passed over where `a` is null, and `x` counts as always
assigned. -/
theorem alwaysAssigned_passed_over :
    let r := parse "" "string a = null; int x; a?.f(x = 1);"
    let m := Model.build r.tree.placed true
    let statement := (r.tree.node? 17).getD default
    r.errors = [] ∧ (m.regionFlow? statement).map RegionFlow.alwaysAssigned = some [1] ∧
      ∃ p, Takes m statement p .through ∧ .assign 1 ∉ p := by
  intro r m statement
  let n (k : Nat) : Placed := (r.tree.node? k).getD default
  have hread : r.errors = [] ∧
      (m.regionFlow? statement).map RegionFlow.alwaysAssigned = some [1] := by decide +kernel
  have hkinds : statement.kind = .expressionStatement ∧ (n 18).kind = .invocationExpression ∧
      (n 19).kind = .memberAccessExpression ∧ (n 20).kind = .conditionalAccessExpression ∧
      (n 21).kind = .identifierName ∧ m.symbolAt (n 21).id = some 0 := by decide +kernel
  have hparts : statement.value? = some (n 18) ∧ (n 18).children = [n 19, n 27] ∧
      (n 19).children = [n 20, n 24, n 25] ∧ (n 20).children = [n 21, n 23] := by decide +kernel
  obtain ⟨heffect, hinvocation, hmember, haccess, hname, hsymbol⟩ := hkinds
  obtain ⟨hvalue, hcallParts, hmemberParts, haccessParts⟩ := hparts
  have hcut : Takes m (n 20) [.read 0] .cut := .accessNull haccess haccessParts (.read hname hsymbol)
  have hchain : Takes m (n 19) [.read 0] .cut :=
    .member (v := ⟨n 20, n 24, n 25⟩) hmember
      (by simp only [Node.memberAccess?, hmember, hmemberParts]) hcut
  have hcall : Takes m (n 18) ([.read 0] ++ [.skip (n 27)]) .cut :=
    .skippedCall (.inl hinvocation) hcallParts hchain
  refine ⟨hread.1, hread.2, [.read 0, .skip (n 27)], .effect heffect ?_, by simp⟩
  rw [hvalue]
  exact .singleton hcall (by decide)

end NullLint
