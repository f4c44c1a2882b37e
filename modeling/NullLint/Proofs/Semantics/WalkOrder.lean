import NullLint.Proofs.Semantics.Walk
import NullLint.Proofs.Syntax.Intervals
import NullLint.Proofs.Syntax.Positions
import Mathlib.Logic.Relation

/-!
# The walk never comes back

The walk for the null state of an expression goes from expression to expression, and a limit on its
steps cuts it off. Without the limit it ends all the same (`Model.Walks`), since no expression comes
twice.

From an assignment or a `??` the walk goes down to the right operand. From a reference it jumps to a
value in a statement that ends before the statement of the reference begins. Between two jumps it
goes down inside one expression, where no statement list lies in between. So the statement from
which the next jump is made holds all expressions since the last one, and the jump leaves all of
them behind.
-/

namespace NullLint

namespace Node

variable {root top n c p s : Placed} {above outer : List Placed}

/-! ## Inside an expression -/

/-- `c` stands directly in the expression `n`. -/
def Part (n c : Placed) : Prop := n.isExpression = true ∧ c ∈ n.children

/-- `c` is `n` or stands in the expression `n`, with only expressions in between. -/
abbrev Inside : Placed → Placed → Prop := Relation.ReflTransGen Part

/-- `c` stands strictly deeper in the expression `n`, with only expressions in between. -/
abbrev Deeper : Placed → Placed → Prop := Relation.TransGen Part

theorem Part.isList_eq_false (h : Part n c) : n.kind.isList = false := by
  obtain ⟨hk, -⟩ := h
  unfold isExpression at hk
  revert hk
  cases n.kind <;> decide

theorem Inside.mem_preorder (h : Inside n c) : c ∈ n.preorder := by
  induction h with
  | refl => exact self_mem_preorder n
  | tail _ hpart ih => exact mem_preorder_trans (mem_preorder_of_mem_children hpart.2) ih

theorem Deeper.size_lt (h : Deeper n c) : c.size < n.size := by
  induction h with
  | single hpart => exact size_lt_of_mem_children hpart.2
  | tail _ hpart ih => exact (size_lt_of_mem_children hpart.2).trans ih

theorem Deeper.id_lt (hs : n.Serial) (h : Deeper n c) : n.id < c.id := by
  induction h with
  | single hpart => exact hs.id_lt_child hpart.2
  | tail hdeeper hpart ih =>
    have hserial := hs.of_mem (Inside.mem_preorder hdeeper.to_reflTransGen)
    exact ih.trans (hserial.id_lt_child hpart.2)

theorem inside_unparenthesized (n : Placed) : Inside n n.unparenthesized := by
  induction n using inner_induction with
  | stop n hi =>
    rw [unparenthesized_of_inner?_eq_none hi]
  | inner n e hi ih =>
    obtain ⟨hk, -, opening, rest, hc⟩ := inner?_eq_some hi
    have hpart : Part n e := ⟨by rw [isExpression, hk]; rfl, by simp [hc]⟩
    rw [unparenthesized_of_inner? hi]
    exact ih.head hpart

theorem deeper_right {v : Binary Place} (hv : n.unparenthesized.binary? = some v) :
    Deeper n v.right := by
  obtain ⟨hk, rest, hc⟩ := binary?_eq_some hv
  have hexpression : n.unparenthesized.isExpression = true := by
    rcases hk with hk | hk <;> rw [isExpression, hk] <;> rfl
  exact .tail' (inside_unparenthesized n) ⟨hexpression, by simp [hc]⟩

/-- Where a statement list is met above a node, the whole expression in which the node stands is
below a child of the list. -/
theorem Inside.below_list (hs : root.Serial) (htop : top ∈ root.preorder) (h : Inside top n)
    (hpath : Descends root [] (n :: above)) (hsuffix : (c :: p :: outer) <:+ n :: above)
    (hlist : p.kind.isList = true) : top ∈ c.preorder := by
  induction h generalizing above with
  | refl =>
    have hc : c ∈ top :: above := hsuffix.subset (by simp)
    exact ((hpath.mem_preorder_of_mem hc).resolve_left (by simp)).2 top rfl
  | @tail parent n hinside hpart ih =>
    obtain ⟨above', hpath'⟩ :=
      exists_descends (mem_preorder_trans (Inside.mem_preorder hinside) htop) []
    obtain ⟨-, rfl⟩ := List.cons.inj
      (hpath.eq_of_id_eq hs.numbered (hpath'.step hpart.2) rfl)
    rcases List.suffix_cons_iff.1 hsuffix with heq | hsuffix
    · -- the list is not the parent, which is an expression
      obtain ⟨-, heq⟩ := List.cons.inj heq
      obtain ⟨rfl, -⟩ := List.cons.inj heq
      rw [hpart.isList_eq_false] at hlist
      cases hlist
    · exact ih hpath' hsuffix

/-! ## Statements of one list -/

theorem LaidOut.pairwise_children (h : n.LaidOut) :
    n.children.Pairwise fun c d => c.fullSpan.stop ≤ d.fullSpan.start := by
  cases h with
  | token => exact .nil
  | branch tile => exact List.pairwise_map.1 tile.pairwise

/-- `s` and `c` are statements of one list, and `s` ends before `c` begins. -/
structure EndsBefore (list s c : Placed) : Prop where
  earlier : s ∈ list.statements
  later : c ∈ list.statements
  numbers : s.endId ≤ c.id
  texts : s.fullSpan.stop ≤ c.fullSpan.start

theorem endsBefore_of_mem_statementsBefore (hs : p.Serial) (hlaid : p.LaidOut) (hc : c ∈ p.children)
    (hbefore : s ∈ Model.statementsBefore p c) : p.kind.isList = true ∧ EndsBefore p s c := by
  obtain ⟨hlist, -, -⟩ := of_mem_statementsBefore hs.numbered hc hbefore
  have hstatements := statements_of_isList hlist
  have hmem : c ∈ p.statements := by
    unfold Model.statementsBefore at hbefore
    split at hbefore
    · rename_i hany
      obtain ⟨c', hc', hid⟩ := List.any_eq_true.1 hany
      have hc'' : c' ∈ p.children := by
        rw [hstatements] at hc'
        exact (List.mem_filter.1 hc').1
      obtain rfl := hs.numbered.eq_of_id_eq (mem_preorder_of_mem_children hc'')
        (mem_preorder_of_mem_children hc) (by simpa using hid)
      exact hc'
    · cases hbefore
  obtain ⟨before, after, hsplit⟩ := List.append_of_mem hmem
  rw [statementsBefore_of_split hs.numbered hlist hsplit, List.mem_reverse] at hbefore
  have hpairwise {R : Placed → Placed → Prop} (h : p.children.Pairwise R) : R s c := by
    have hstatements' := h.sublist (List.filter_sublist (p := fun c => c.kind.isStatement))
    rw [← hstatements, hsplit] at hstatements'
    exact (List.pairwise_append.1 hstatements').2.2 s hbefore c (by simp)
  exact ⟨hlist, by simp [hsplit, hbefore], hmem, hpairwise hs.pairwise_children,
    hpairwise hlaid.pairwise_children⟩

end Node

namespace Model

open Node (Descends Inside Deeper EndsBefore)

variable {m : Model} {root top n e r child parent : Placed} {x used cost : Nat} {v : Verdict}
  {ns : List Placed}

/-! ## Steps -/

/-- A computation that counts down steps spends `used` of them on its result. With fewer it stops
and leaves none. -/
def Spends {α : Type} (f : Nat → α × Nat) (stopped result : α) (used : Nat) : Prop :=
  ∀ steps, f steps = if used ≤ steps then (result, steps - used) else (stopped, 0)

section Spends

variable {α : Type} {f : Nat → α × Nat} {stopped result : α} {steps : Nat}

theorem Spends.eq_of_le (h : Spends f stopped result used) (hle : used ≤ steps) :
    f steps = (result, steps - used) :=
  (h steps).trans (if_pos hle)

theorem Spends.eq_of_lt (h : Spends f stopped result used) (hlt : steps < used) :
    f steps = (stopped, 0) :=
  (h steps).trans (if_neg (Nat.not_le.2 hlt))

/-- A step that is needed before anything else. -/
theorem Spends.succ (h : Spends (fun steps => f (steps + 1)) stopped result used)
    (hzero : f 0 = (stopped, 0)) : Spends f stopped result (used + 1) := by
  intro steps
  cases steps with
  | zero => simpa using hzero
  | succ steps => simpa using h steps

end Spends

theorem exists_lookBack_spends (m : Model) (x : Nat) (ss : List Placed) :
    ∃ source used, Spends (fun steps => m.lookBack x steps ss) (some (.verdict .unknown))
      source used := by
  induction ss with
  | nil => exact ⟨none, 0, fun steps => by simp [lookBack]⟩
  | cons s ss ih =>
    have hzero : m.lookBack x 0 (s :: ss) = (some (.verdict .unknown), 0) := by rw [lookBack]
    cases ha : m.assignment? s x with
    | some value =>
      cases value with
      | some value =>
        exact ⟨some (.value value), 1, .succ (fun steps => by simp [lookBack, ha]) hzero⟩
      | none =>
        exact ⟨some (.verdict (m.declaredVerdict x)), 1,
          .succ (fun steps => by simp [lookBack, ha]) hzero⟩
    | none =>
      cases hguard : m.isNullGuard s x with
      | true =>
        exact ⟨some (.verdict .notNull), 1,
          .succ (fun steps => by simp [lookBack, ha, hguard]) hzero⟩
      | false =>
        cases hassigns : m.assigns s x with
        | true =>
          exact ⟨some (.verdict .maybeNull), 1,
            .succ (fun steps => by simp [lookBack, ha, hguard, hassigns]) hzero⟩
        | false =>
          obtain ⟨source, used, hused⟩ := ih
          refine ⟨source, used + 1, .succ (fun steps => ?_) hzero⟩
          simpa [lookBack, ha, hguard, hassigns] using hused steps

/-- Only statement lists cost steps. -/
theorem stepOut_free (hlist : parent.kind.isList = false) (steps : Nat) :
    m.stepOut x steps child parent = ((m.stepOut x 0 child parent).1, steps) := by
  unfold stepOut
  split
  case h_1 => cases parent.binary? <;> rfl
  case h_2 =>
    cases parent.ifStatement? with
    | none => rfl
    | some v =>
      dsimp only
      split
      · split_ifs <;> rfl
      · rfl
  case h_3 =>
    split_ifs
    · rfl
    cases parent.whileStatement? with
    | none => rfl
    | some v =>
      dsimp only
      split_ifs <;> rfl
  case h_4 hk => simp [hk, Kind.isList] at hlist
  case h_5 hk => simp [hk, Kind.isList] at hlist
  all_goals rfl

theorem exists_stepOut_spends (m : Model) (x : Nat) (child parent : Placed) :
    ∃ source used, Spends (fun steps => m.stepOut x steps child parent) (some (.verdict .unknown))
      source used := by
  cases hlist : parent.kind.isList with
  | false => exact ⟨_, 0, fun steps => by simpa using stepOut_free hlist steps⟩
  | true =>
    have hkind : parent.kind = .block ∨ parent.kind = .compilationUnit := by
      simpa [Kind.isList] using hlist
    have hlook (steps : Nat) : m.stepOut x steps child parent =
        m.lookBack x steps (statementsBefore parent child) := by
      rcases hkind with hk | hk <;> simp [stepOut, hk]
    simp only [hlook]
    exact exists_lookBack_spends m x _

theorem exists_climb_spends (m : Model) (x : Nat) (child : Placed) (above : List Placed) :
    ∃ source used, Spends (fun steps => m.climb x steps child above) (.verdict .unknown)
      source used := by
  induction above generalizing child with
  | nil => exact ⟨.verdict (m.declaredVerdict x), 0, fun steps => by simp [climb]⟩
  | cons parent above ih =>
    have hzero : m.climb x 0 child (parent :: above) = (.verdict .unknown, 0) := by rw [climb]
    obtain ⟨source, used, hstep⟩ := exists_stepOut_spends m x child parent
    have hstopped {steps : Nat} (hlt : steps < used) :
        m.climb x (steps + 1) child (parent :: above) = (.verdict .unknown, 0) := by
      have hout : m.stepOut x steps child parent = _ := hstep.eq_of_lt hlt
      simp only [climb, hout]
    cases source with
    | some source =>
      refine ⟨source, used + 1, .succ (fun steps => ?_) hzero⟩
      rcases Nat.lt_or_ge steps used with hlt | hle
      · exact (hstopped hlt).trans (if_neg (by omega)).symm
      · have hout : m.stepOut x steps child parent = _ := hstep.eq_of_le hle
        simp only [climb, hout, if_pos hle]
    | none =>
      obtain ⟨source, used', hclimb⟩ := ih parent
      refine ⟨source, used + used' + 1, .succ (fun steps => ?_) hzero⟩
      rcases Nat.lt_or_ge steps used with hlt | hle
      · exact (hstopped hlt).trans (if_neg (by omega)).symm
      · have hout : m.stepOut x steps child parent = _ := hstep.eq_of_le hle
        have hiff : used' ≤ steps - used ↔ used + used' ≤ steps := by omega
        simp only [climb, hout]
        refine (hclimb (steps - used)).trans ?_
        rw [Nat.sub_sub, if_congr hiff rfl rfl]

/-! ## The walk -/

/-- What climbing from a reference comes to without a limit, and the steps that it takes. -/
def Finds (m : Model) (x : Nat) (r : Placed) (source : Source) (used : Nat) : Prop :=
  Spends (fun steps => m.climb x steps r (m.ancestors r)) (.verdict .unknown) source used

/-- The walk ends at an expression with a verdict. -/
inductive Ends (m : Model) (n : Placed) (v : Verdict) : Nat → Prop where
  | verdict (h : m.reading n = .verdict v) : Ends m n v 1
  | found {x used : Nat} {r : Placed} (h : m.reading n = .variable x r)
      (found : m.Finds x r (.verdict v) used) : Ends m n v (used + 1)

/-- The walk goes on from an expression to another one. -/
inductive Turn (m : Model) (n e : Placed) : Nat → Prop where
  | part (h : m.reading n = .part e) : Turn m n e 1
  | value {x used : Nat} {r : Placed} (h : m.reading n = .variable x r)
      (found : m.Finds x r (.value e) used) : Turn m n e (used + 1)

/-- The walk without a limit from an expression: the later expressions, the verdict and the steps
that it takes. -/
inductive Walks (m : Model) : Placed → List Placed → Verdict → Nat → Prop where
  | ends {n : Placed} {v : Verdict} {used : Nat} (h : m.Ends n v used) : Walks m n [] v used
  | turn {n e : Placed} {ns : List Placed} {v : Verdict} {used cost : Nat} (h : m.Turn n e used)
      (rest : Walks m e ns v cost) : Walks m n (e :: ns) v (used + cost)

theorem ends_or_turns (m : Model) (n : Placed) :
    (∃ v used, m.Ends n v used) ∨ ∃ e used, m.Turn n e used := by
  rcases h : m.reading n with v | e | ⟨x, r⟩
  · exact .inl ⟨v, 1, .verdict h⟩
  · exact .inr ⟨e, 1, .part h⟩
  · obtain ⟨source, used, found⟩ := exists_climb_spends m x r (m.ancestors r)
    cases source with
    | verdict v => exact .inl ⟨v, used + 1, .found h found⟩
    | value e => exact .inr ⟨e, used + 1, .value h found⟩

/-- The expressions that the walk takes as the current one, in at most so many steps, and its
verdict. -/
def walkWithin (m : Model) (steps : Nat) (n : Placed) : List Placed × Verdict :=
  match steps with
  | 0 => ([n], .unknown)
  | steps + 1 =>
    match m.reading n with
    | .verdict v => ([n], v)
    | .part e => Prod.map (n :: ·) id (m.walkWithin steps e)
    | .variable symbol reference =>
      match m.climb symbol steps reference (m.ancestors reference) with
      | (.verdict v, _) => ([n], v)
      | (.value e, left) => Prod.map (n :: ·) id (m.walkWithin (min left steps) e)
termination_by steps

theorem snd_walkWithin (m : Model) (steps : Nat) (n : Placed) :
    (m.walkWithin steps n).2 = m.nullStateWithin steps n := by
  induction steps using Nat.strong_induction_on generalizing n with
  | h steps ih =>
    cases steps with
    | zero => rw [walkWithin, nullStateWithin]
    | succ steps =>
      rw [walkWithin, nullStateWithin]
      rcases m.reading n with v | e | ⟨x, r⟩
      · rfl
      · exact ih steps (Nat.lt_succ_self _) e
      · dsimp only
        rcases m.climb x steps r (m.ancestors r) with ⟨v | e, left⟩
        · rfl
        · exact ih (min left steps) (by omega) e

theorem Ends.walkWithin (h : m.Ends n v used) (steps : Nat) :
    m.walkWithin steps n = ([n], if used ≤ steps then v else .unknown) := by
  cases steps with
  | zero => cases h <;> simp [Model.walkWithin]
  | succ steps =>
    rw [Model.walkWithin]
    cases h with
    | verdict h => simp [h]
    | @found x used r h found =>
      rcases Nat.lt_or_ge steps used with hlt | hle
      · have hclimb : m.climb x steps r (m.ancestors r) = _ := found.eq_of_lt hlt
        simp [h, hclimb, hlt]
      · have hclimb : m.climb x steps r (m.ancestors r) = _ := found.eq_of_le hle
        simp [h, hclimb, hle]

theorem Turn.walkWithin (h : m.Turn n e used) (steps : Nat) :
    m.walkWithin steps n =
      if used ≤ steps then Prod.map (n :: ·) id (m.walkWithin (steps - used) e)
      else ([n], .unknown) := by
  cases steps with
  | zero => cases h <;> simp [Model.walkWithin]
  | succ steps =>
    rw [Model.walkWithin]
    cases h with
    | part h => simp [h]
    | @value x used r h found =>
      rcases Nat.lt_or_ge steps used with hlt | hle
      · have hclimb : m.climb x steps r (m.ancestors r) = _ := found.eq_of_lt hlt
        simp [h, hclimb, hlt]
      · have hclimb : m.climb x steps r (m.ancestors r) = _ := found.eq_of_le hle
        simp [h, hclimb, hle]

/-- A limit cuts the walk off behind one of its expressions, and then the verdict is unknown. -/
theorem Walks.walkWithin (h : m.Walks n ns v cost) (steps : Nat) :
    (m.walkWithin steps n).1 <+: n :: ns ∧
      (m.walkWithin steps n).2 = if cost ≤ steps then v else .unknown := by
  induction h generalizing steps with
  | ends h => simp [h.walkWithin]
  | @turn n e ns v used cost h rest ih =>
    rw [h.walkWithin]
    by_cases hle : used ≤ steps
    · obtain ⟨hfirst, hverdict⟩ := ih (steps - used)
      have hiff : cost ≤ steps - used ↔ used + cost ≤ steps := by omega
      rw [if_pos hle]
      refine ⟨List.cons_prefix_cons.2 ⟨rfl, hfirst⟩, ?_⟩
      simpa only [Prod.map_snd, id_eq, hiff] using hverdict
    · have hlt : ¬ used + cost ≤ steps := by omega
      simp [hle, hlt]

/-! ## Order -/

/-- The value `e` is below a statement that ends before the statement of the reference `r` in the
same list begins. -/
def Backward (nodes : List Placed) (r e : Placed) : Prop :=
  ∃ list ∈ nodes, ∃ s c, EndsBefore list s c ∧ e ∈ s.preorder ∧ r ∈ c.preorder

theorem Backward.mem (h : Backward root.preorder r e) : e ∈ root.preorder := by
  obtain ⟨list, hlist, s, c, hends, he, -⟩ := h
  have hs := Node.mem_preorder_of_mem_statements hends.earlier
  exact Node.mem_preorder_trans he (Node.mem_preorder_trans hs hlist)

/-- How the walk goes on from `a` to `b`: down in the same expression, or back from a reference. -/
inductive Proceeds (m : Model) (nodes : List Placed) (a b : Placed) : Prop where
  | down (h : m.reading a = .part b) (deeper : Deeper a b) : Proceeds m nodes a b
  | back {x used : Nat} {r : Placed} (h : m.reading a = .variable x r)
      (found : m.Finds x r (.value b) used) (backward : Backward nodes r b) : Proceeds m nodes a b

section Order

variable (hroot : m.root = some root) (hs : root.Serial) (hlaid : root.LaidOut)
include hroot hs

theorem descends_ancestors (hr : r ∈ root.preorder) : Descends root [] (r :: m.ancestors r) := by
  obtain ⟨above, hpath⟩ := Node.exists_descends hr []
  have heq : m.ancestors r = above := by
    simp [ancestors, hroot, Node.path?_of_descends hs.numbered hpath]
  rwa [heq]

include hlaid

/-- Climbing goes back behind the whole expression in which the reference stands. -/
theorem Finds.backward (h : m.Finds x r (.value e) used) (htop : top ∈ root.preorder)
    (hinside : Inside top r) : Backward root.preorder r e ∧ e.endId ≤ top.id := by
  have hr : r ∈ root.preorder := Node.mem_preorder_trans (Inside.mem_preorder hinside) htop
  have hpath := descends_ancestors hroot hs hr
  have hclimb : m.climb x used r (m.ancestors r) = (.value e, 0) := by
    simpa using h used
  obtain ⟨c, p, outer, hsuffix, s, hbefore, he⟩ := climb_eq_value hclimb
  have hinfix : [c, p] <:+: r :: m.ancestors r :=
    List.IsInfix.trans ⟨[], outer, rfl⟩ hsuffix.isInfix
  obtain ⟨hc, hp, hrc⟩ := hpath.step_of_infix hinfix
  obtain ⟨hlist, hends⟩ :=
    Node.endsBefore_of_mem_statementsBefore (hs.of_mem hp) (hlaid.of_mem hp) hc hbefore
  refine ⟨⟨p, hp, s, c, hends, he, hrc r rfl⟩, ?_⟩
  have hcroot := Node.mem_preorder_trans (Node.mem_preorder_of_mem_children hc) hp
  have hsroot := Node.mem_preorder_trans
    (Node.mem_preorder_of_mem_statements hends.earlier) hp
  have htopc := Inside.below_list hs htop hinside hpath hsuffix hlist
  calc e.endId ≤ s.endId := (hs.of_mem hsroot).endId_le he
    _ ≤ c.id := hends.numbers
    _ ≤ top.id := (hs.of_mem hcroot).id_le htopc

/-- One turn leads down, or back behind the whole expression. -/
theorem Turn.proceeds (h : m.Turn n e used) (htop : top ∈ root.preorder)
    (hinside : Inside top n) : Proceeds m root.preorder n e ∧
      (Deeper n e ∨ e ∈ root.preorder ∧ e.endId ≤ top.id) := by
  cases h with
  | part h =>
    obtain ⟨v, hv, rfl, -⟩ := reading_eq_part h
    have hdeeper := Node.deeper_right hv
    exact ⟨.down h hdeeper, .inl hdeeper⟩
  | value h found =>
    obtain ⟨rfl, -, -⟩ := reading_eq_variable h
    obtain ⟨hback, hend⟩ := found.backward hroot hs hlaid htop
      (hinside.trans (Node.inside_unparenthesized n))
    exact ⟨.back h found hback, .inr ⟨hback.mem, hend⟩⟩

/-- What the walk decreases: first the number at which the expression begins, then, inside the
expression, the size. -/
theorem exists_walks (htop : top ∈ root.preorder) (hinside : Inside top n) :
    ∃ ns v cost, m.Walks n ns v cost := by
  induction hid : top.id using Nat.strong_induction_on generalizing top n with
  | h id ihtop =>
    induction hsize : n.size using Nat.strong_induction_on generalizing n with
    | h size ih =>
      subst hid hsize
      rcases m.ends_or_turns n with ⟨v, used, h⟩ | ⟨e, used, h⟩
      · exact ⟨[], v, used, .ends h⟩
      · obtain ⟨ns, v, cost, hwalks⟩ : ∃ ns v cost, m.Walks e ns v cost := by
          rcases (h.proceeds hroot hs hlaid htop hinside).2 with hdeeper | ⟨he, hend⟩
          · exact ih e.size hdeeper.size_lt (hinside.trans hdeeper.to_reflTransGen) rfl
          · exact ihtop e.id (e.id_lt_endId.trans_le hend) he .refl rfl
        exact ⟨e :: ns, v, used + cost, .turn h hwalks⟩

/-- What comes later is deeper, or it ends before the whole expression begins. -/
theorem Walks.later (h : m.Walks n ns v cost) (htop : top ∈ root.preorder)
    (hinside : Inside top n) :
    ∀ e ∈ ns, n.id < e.id ∧ e.endId ≤ n.endId ∨ e.endId ≤ top.id := by
  induction h generalizing top with
  | ends => simp
  | @turn n e ns v used cost h rest ih =>
    rcases (h.proceeds hroot hs hlaid htop hinside).2 with hdeeper | ⟨he, hend⟩
    · have hn := hs.of_mem (Node.mem_preorder_trans (Inside.mem_preorder hinside) htop)
      have hlt := hdeeper.id_lt hn
      have hle := hn.endId_le (Inside.mem_preorder hdeeper.to_reflTransGen)
      have hrest := ih htop (hinside.trans hdeeper.to_reflTransGen)
      refine List.forall_mem_cons.2 ⟨.inl ⟨hlt, hle⟩, fun e' he' => ?_⟩
      have := hrest e' he'
      omega
    · -- the next expression begins anew, and ends before this one begins
      have hlt := e.id_lt_endId
      have hrest := ih he .refl
      refine List.forall_mem_cons.2 ⟨.inr hend, fun e' he' => .inr ?_⟩
      have := hrest e' he'
      omega

theorem Turn.mem (h : m.Turn n e used) (hn : n ∈ root.preorder) : e ∈ root.preorder := by
  rcases (h.proceeds hroot hs hlaid hn .refl).2 with hdeeper | ⟨he, -⟩
  · exact Node.mem_preorder_trans (Inside.mem_preorder hdeeper.to_reflTransGen) hn
  · exact he

theorem Walks.nodup (h : m.Walks n ns v cost) (hn : n ∈ root.preorder) :
    ((n :: ns).map Node.id).Nodup := by
  induction h with
  | ends => simp
  | @turn n e ns v used cost h rest ih =>
    refine List.nodup_cons.2 ⟨fun hmem => ?_, ih (h.mem hroot hs hlaid hn)⟩
    obtain ⟨e', he', hid⟩ := List.mem_map.1 hmem
    have hlater := (Walks.turn h rest).later hroot hs hlaid hn .refl e' he'
    have hlt := e'.id_lt_endId
    omega

theorem Walks.isChain (h : m.Walks n ns v cost) (hn : n ∈ root.preorder) :
    (n :: ns).IsChain (Proceeds m root.preorder) := by
  induction h with
  | ends => exact .singleton _
  | turn h rest ih =>
    exact .cons_cons (h.proceeds hroot hs hlaid hn .refl).1 (ih (h.mem hroot hs hlaid hn))

end Order

/-- Whatever the text of a file, the walk from a node of its tree ends without a limit, and takes no
node twice as the current expression. It goes on to a part strictly deeper in the same expression,
or from a reference to a value in a statement that ends before the statement of the reference
begins. With a limit the walk takes the first of these expressions, and its verdict is the same or,
if it is cut off, unknown. -/
theorem walk_never_comes_back (file text : String) (nullable : Bool) {n : Placed}
    (hn : n ∈ (parse file text).tree.nodes) :
    let t := (parse file text).tree
    let m := Model.build t.placed nullable
    ∃ ns v cost, m.Walks n ns v cost ∧ ((n :: ns).map Node.id).Nodup ∧
      (n :: ns).IsChain (m.Proceeds t.nodes) ∧
      ∀ steps, (m.walkWithin steps n).1 <+: n :: ns ∧
        (m.walkWithin steps n).2 = m.nullStateWithin steps n ∧
        m.nullStateWithin steps n = if cost ≤ steps then v else .unknown := by
  intro t m
  obtain ⟨g, hg, hwf⟩ := (Tree.Derived.parse file text).root
  have hplaced : t.placed = some g.placed := by
    rw [Tree.placed, hg]
    rfl
  have hroot : m.root = some g.placed := (Model.root_build _ _).trans hplaced
  have hs := Node.serial_placed g
  have hlaid := (Node.laidOut_placed hwf).1
  rw [Tree.nodes_of_placed hplaced] at hn ⊢
  obtain ⟨ns, v, cost, h⟩ := exists_walks hroot hs hlaid hn .refl
  refine ⟨ns, v, cost, h, h.nodup hroot hs hlaid hn, h.isChain hroot hs hlaid hn,
    fun steps => ?_⟩
  obtain ⟨hfirst, hverdict⟩ := h.walkWithin steps
  exact ⟨hfirst, m.snd_walkWithin steps n, (m.snd_walkWithin steps n).symm.trans hverdict⟩

/-- In `string a = "x"; string b = a; a = b; b = a ?? (a = b); f(b);` two locals are assigned to
each other. The walk from the last `b` takes six expressions. -/
theorem walk_never_comes_back_exchanged :
    let t := (parse "" "string a = \"x\"; string b = a; a = b; b = a ?? (a = b); f(b);").tree
    let m := Model.build t.placed true
    ∃ n ns v cost, t.node? 54 = some n ∧ m.Walks n ns v cost ∧ ((n :: ns).map Node.id).Nodup ∧
      (n :: ns).IsChain (m.Proceeds t.nodes) ∧
      (m.walkWithin maxFlowSteps n).1.map Node.id = [54, 34, 38, 44, 18, 8] ∧
      (m.walkWithin maxFlowSteps n).1 <+: n :: ns ∧ m.nullState n = .notNull := by
  intro t m
  let n : Placed := (t.node? 54).getD default
  have hnode : t.node? 54 = some n := by decide +kernel
  have hn : n ∈ t.nodes := (Tree.node?_eq_some_iff.1 hnode).1
  have hids : (m.walkWithin maxFlowSteps n).1.map Node.id = [54, 34, 38, 44, 18, 8] := by
    decide +kernel
  have hstate : m.nullState n = .notNull := by decide +kernel
  obtain ⟨ns, v, cost, h, hnodup, hchain, hwithin⟩ := walk_never_comes_back _ _ true hn
  exact ⟨n, ns, v, cost, hnode, h, hnodup, hchain, hids, (hwithin maxFlowSteps).1, hstate⟩

end Model

end NullLint
