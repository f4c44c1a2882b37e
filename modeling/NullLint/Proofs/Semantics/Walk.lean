import NullLint.Proofs.Semantics.Scoping

/-!
# Where the walk goes

What the parts of the walk for the null state come upon: the expression or variable whose state
decides, and the value that climbing from a reference ends at, which a statement before one of the
nodes above the reference gives.
-/

namespace NullLint.Model

variable {m : Model} {n e : Placed} {x : Nat}

theorem reading_eq_part (h : m.reading n = .part e) :
    ∃ v, n.unparenthesized.binary? = some v ∧ e = v.right ∧
      (n.unparenthesized.kind = .assignmentExpression ∨
        n.unparenthesized.kind = .binaryExpression ∧ v.operator.kind = .questionQuestion) := by
  simp only [reading] at h
  generalize n.unparenthesized = n' at h ⊢
  split at h
  case h_6 hk =>
    split at h
    · rename_i v hv
      exact ⟨v, hv, by simpa using h.symm, .inl hk⟩
    · cases h
  case h_7 hk =>
    split at h
    · rename_i v hv
      split at h
      · rename_i hop
        exact ⟨v, hv, by simpa using h.symm, .inr ⟨hk, hop⟩⟩
      · cases h
    · cases h
  case h_5 =>
    split at h
    · split at h <;> cases h
    · cases h
  all_goals cases h

theorem reading_eq_variable {r : Placed} (h : m.reading n = .variable x r) :
    r = n.unparenthesized ∧ r.kind = .identifierName ∧ m.symbolAt r.id = some x := by
  simp only [reading] at h
  generalize n.unparenthesized = n' at h ⊢
  split at h
  case h_5 hk =>
    split at h
    · rename_i y hy
      split at h
      · obtain ⟨rfl, rfl⟩ : y = x ∧ n' = r := by simpa using h
        exact ⟨rfl, hk, hy⟩
      · cases h
    · cases h
  case h_6 => split at h <;> cases h
  case h_7 =>
    split at h
    · split at h <;> cases h
    · cases h
  all_goals cases h

/-- A part that decides the state of an expression is below it. -/
theorem mem_preorder_of_reading (h : m.reading n = .part e) : e ∈ n.preorder := by
  obtain ⟨v, hv, rfl, -⟩ := reading_eq_part h
  obtain ⟨-, _, hc⟩ := Node.binary?_eq_some hv
  exact Node.mem_preorder_trans (Node.mem_preorder_of_mem_children (by simp [hc]))
    n.unparenthesized_mem_preorder

theorem mem_preorder_of_chainedValue? (h : m.chainedValue? x n = some e) : e ∈ n.preorder := by
  induction hsize : n.size using Nat.strongRecOn generalizing n with
  | ind size ih =>
    subst hsize
    rw [chainedValue?.eq_def] at h
    split at h
    · split at h
      · rename_i v hv
        obtain ⟨-, _, hc⟩ := Node.binary?_eq_some hv
        have hright : v.right ∈ n.preorder := Node.mem_preorder_of_mem_children (by simp [hc])
        split at h
        · exact Option.some.inj h ▸ hright
        · exact Node.mem_preorder_trans (ih _ (Node.size_lt_of_binary? hv).2 h rfl) hright
      · cases h
    · split at h
      · rename_i e' hi
        obtain ⟨-, -, _, _, hc⟩ := Node.inner?_eq_some hi
        have he' : e' ∈ n.preorder := Node.mem_preorder_of_mem_children (by simp [hc])
        exact Node.mem_preorder_trans (ih _ (Node.size_lt_of_inner? hi) h rfl) he'
      · cases h
    · cases h

/-- The value that a statement gives a variable is below the statement. -/
theorem mem_preorder_of_assignment? (h : m.assignment? n x = some (some e)) :
    e ∈ n.preorder := by
  unfold assignment? at h
  split at h
  · obtain ⟨v, hv, h⟩ := Option.bind_eq_some_iff.1 h
    obtain ⟨d, hd, h⟩ := Option.bind_eq_some_iff.1 h
    obtain ⟨w, hw, h⟩ := Option.bind_eq_some_iff.1 h
    have hinit : d.initializer? = some e := by
      rw [← (Node.declarator?_eq_some hw).2]
      exact Option.some.inj h
    have hdn := (Node.mem_declarators hv (List.mem_of_find?_eq_some hd)).1
    exact Node.mem_preorder_trans (Node.mem_preorder_of_initializer? hinit)
      (Node.mem_preorder_of_mem_children hdn)
  · obtain ⟨a, ha, h⟩ := Option.bind_eq_some_iff.1 h
    obtain ⟨v, hv, h⟩ := Option.bind_eq_some_iff.1 h
    obtain rfl : v = e := by simpa using h
    obtain ⟨-, -, hc⟩ := Node.value?_eq_some ha
    exact Node.mem_preorder_trans (mem_preorder_of_chainedValue? hv)
      (Node.mem_preorder_of_mem_children hc)
  · cases h

theorem lookBack_eq_value {steps left : Nat} {ss : List Placed}
    (h : m.lookBack x steps ss = (some (.value e), left)) : ∃ s ∈ ss, e ∈ s.preorder := by
  induction ss generalizing steps with
  | nil => cases steps <;> simp [lookBack] at h
  | cons s ss ih =>
    cases steps with
    | zero => simp [lookBack] at h
    | succ steps =>
      simp only [lookBack] at h
      split at h
      · rename_i value ha
        obtain ⟨rfl, -⟩ : value = e ∧ steps = left := by simpa using h
        exact ⟨s, by simp, mem_preorder_of_assignment? ha⟩
      · cases h
      · split at h
        · cases h
        split at h
        · cases h
        · obtain ⟨s', hs', he⟩ := ih h
          exact ⟨s', by simp [hs'], he⟩

theorem stepOut_eq_value {steps left : Nat} {child parent : Placed}
    (h : m.stepOut x steps child parent = (some (.value e), left)) :
    ∃ s ∈ statementsBefore parent child, e ∈ s.preorder := by
  simp only [stepOut] at h
  split at h
  case h_4 => exact lookBack_eq_value h
  case h_5 => exact lookBack_eq_value h
  case h_1 =>
    split at h
    · obtain ⟨h, -⟩ := Prod.mk.inj h
      split at h <;> cases h
    · cases h
  case h_2 =>
    split at h
    · split at h
      · split at h
        · cases h
        split at h <;> cases h
      · cases h
    · cases h
  case h_3 =>
    split at h
    · cases h
    split at h
    · split at h <;> cases h
    · cases h
  all_goals cases h

/-- Climbing that ends at a value comes to it from a statement before a node of the path. -/
theorem climb_eq_value {steps left : Nat} {child : Placed} {above : List Placed}
    (h : m.climb x steps child above = (.value e, left)) :
    ∃ c p outer, (c :: p :: outer) <:+ (child :: above) ∧
      ∃ s ∈ statementsBefore p c, e ∈ s.preorder := by
  induction above generalizing steps child with
  | nil => cases steps <;> simp [climb] at h
  | cons parent above ih =>
    cases steps with
    | zero => simp [climb] at h
    | succ steps =>
      simp only [climb] at h
      split at h
      · rename_i source left' hstep
        obtain ⟨rfl, -⟩ : source = .value e ∧ left' = left := by simpa using h
        exact ⟨child, parent, above, List.suffix_refl _, stepOut_eq_value hstep⟩
      · obtain ⟨c, p, outer, hsuffix, hs⟩ := ih h
        exact ⟨c, p, outer, hsuffix.trans (List.suffix_cons _ _), hs⟩

end NullLint.Model
