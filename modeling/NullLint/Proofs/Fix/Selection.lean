import NullLint.Fix.Batch
import NullLint.Proofs.Syntax.Substitution

/-!
# Selecting edits

Of the edits of a batch, taken in order, those are made that share no bytes with one made before,
and the others are left out because of one made (`Batch.Selects`). No edit is lost, and if there is
one at all, one is made. Selection fails just at an edit without a target in the tree, and a batch just
if its selection does. Edits that are not empty lie in the text one after the other.
-/

namespace NullLint

namespace FixEdit

/-- Two edits that share no bytes. -/
def Apart (a b : FixEdit) : Prop := a.span.overlaps b.span = false

/-- One edit ends before the other begins. -/
def Precedes (a b : FixEdit) : Prop := a.span.stop ≤ b.span.start

theorem before_trans (a b c : FixEdit) (hab : a.before b = true) (hbc : b.before c = true) :
    a.before c = true := by
  simp only [before, Bool.or_eq_true, Bool.and_eq_true, decide_eq_true_eq, beq_iff_eq] at *
  omega

theorem before_total (a b : FixEdit) : (a.before b || b.before a) = true := by
  simp only [before, Bool.or_eq_true, Bool.and_eq_true, decide_eq_true_eq, beq_iff_eq]
  omega

/-- Edits that are each before the other begin at the same place and are equally long. -/
theorem start_eq_of_before {a b : FixEdit} (hab : a.before b = true) (hba : b.before a = true) :
    a.span.start = b.span.start ∧ a.span.length = b.span.length := by
  simp only [before, Bool.or_eq_true, Bool.and_eq_true, decide_eq_true_eq, beq_iff_eq] at *
  omega

/-- Of two edits apart from one another, the one that begins first ends before the other. -/
theorem precedes_of_apart {a b : FixEdit} (hb : b.span.start < b.span.stop)
    (hbefore : a.before b = true) (hapart : Apart a b) : Precedes a b := by
  unfold Precedes
  by_contra hlt
  have hstart : a.span.start ≤ b.span.start := by
    simp only [before, Bool.or_eq_true, Bool.and_eq_true, decide_eq_true_eq, beq_iff_eq] at hbefore
    omega
  have hoverlaps : a.span.overlaps b.span = true := by
    simp only [Span.overlaps, Span.isEmpty, Bool.and_eq_true, Bool.not_eq_true',
      decide_eq_true_eq, decide_eq_false_iff_not]
    omega
  rw [Apart, hoverlaps] at hapart
  cases hapart

end FixEdit

namespace Batch

open FixEdit (Apart Precedes)

variable {t : Tree} {size : Nat} {accepted edits applied : List FixEdit}
  {conflicts : List Conflict}

/-- The edit has a target among the first `size` nodes. -/
def Targets (size : Nat) (e : FixEdit) : Prop := ∃ id, e.target = some id ∧ id < size

/-- Some edit made shares bytes with the edit left out, and the conflict names its span. -/
def NamedBy (applied : List FixEdit) (c : Conflict) : Prop :=
  ∃ a ∈ applied, c.reason = .overlapping c.edit.span a.span ∧ a.span.overlaps c.edit.span = true

/-- The course of a selection that does not fail: each edit is accepted or left out. -/
inductive Selects (size : Nat) :
    List FixEdit → List FixEdit → List FixEdit → List Conflict → Prop where
  | done (accepted : List FixEdit) : Selects size accepted [] accepted []
  | accept {accepted es applied : List FixEdit} {e : FixEdit} {conflicts : List Conflict}
      (target : Targets size e) (apart : ∀ a ∈ accepted, Apart a e)
      (rest : Selects size (accepted ++ [e]) es applied conflicts) :
      Selects size accepted (e :: es) applied conflicts
  | leave {accepted es applied : List FixEdit} {e a : FixEdit} {conflicts : List Conflict}
      (target : Targets size e) (mem : a ∈ accepted) (overlaps : a.span.overlaps e.span = true)
      (rest : Selects size accepted es applied conflicts) :
      Selects size accepted (e :: es) applied (⟨e, .overlapping e.span a.span⟩ :: conflicts)

theorem any_target_iff {e : FixEdit} :
    (e.target.any fun id => decide (id < size)) = true ↔ Targets size e := by
  cases htarget : e.target <;> simp [Targets, htarget]

theorem apart_of_blocking?_eq_none {e : FixEdit} (h : blocking? accepted e.span = none) :
    ∀ a ∈ accepted, Apart a e := by
  intro a ha
  have hnone := List.find?_eq_none.1 h a.span (List.mem_map_of_mem ha)
  exact Bool.eq_false_iff.2 hnone

theorem blocking?_eq_some {span blocking : Span} (h : blocking? accepted span = some blocking) :
    ∃ a ∈ accepted, a.span = blocking ∧ a.span.overlaps span = true := by
  obtain ⟨a, ha, rfl⟩ := List.mem_map.1 (List.mem_of_find?_eq_some h)
  exact ⟨a, ha, rfl, by simpa using List.find?_some h⟩

/-- Selection runs through if every edit has a target, and stops at the first that has none. -/
theorem select_cases (size : Nat) (accepted edits : List FixEdit) :
    (∃ applied conflicts, select size accepted edits = .ok (applied, conflicts) ∧
        Selects size accepted edits applied conflicts) ∨
      ∃ e ∈ edits, ¬ Targets size e ∧
        select size accepted edits = .error (.nodeNotFound e.target) := by
  induction edits generalizing accepted with
  | nil => exact .inl ⟨accepted, [], rfl, .done accepted⟩
  | cons e es ih =>
    by_cases htarget : Targets size e
    · cases hblock : blocking? accepted e.span with
      | none =>
        have hstep : select size accepted (e :: es) = select size (accepted ++ [e]) es := by
          rw [select, if_pos (any_target_iff.2 htarget), hblock]
        rw [hstep]
        rcases ih (accepted ++ [e]) with ⟨applied, conflicts, hok, hrest⟩ | ⟨e', he', herror⟩
        · have hapart := apart_of_blocking?_eq_none hblock
          exact .inl ⟨applied, conflicts, hok, .accept htarget hapart hrest⟩
        · exact .inr ⟨e', List.mem_cons_of_mem e he', herror⟩
      | some span =>
        obtain ⟨a, ha, rfl, hoverlaps⟩ := blocking?_eq_some hblock
        have hstep : select size accepted (e :: es) = select size accepted es >>= fun r =>
            pure (r.1, ⟨e, .overlapping e.span a.span⟩ :: r.2) := by
          rw [select, if_pos (any_target_iff.2 htarget), hblock]
        rw [hstep]
        rcases ih accepted with ⟨applied, conflicts, hok, hrest⟩ | ⟨e', he', hmissing, herror⟩
        · rw [hok]
          exact .inl ⟨applied, _, rfl, .leave htarget ha hoverlaps hrest⟩
        · rw [herror]
          exact .inr ⟨e', List.mem_cons_of_mem e he', hmissing, rfl⟩
    · have hstep : select size accepted (e :: es) = .error (.nodeNotFound e.target) := by
        rw [select, if_neg fun h => htarget (any_target_iff.1 h)]
      exact .inr ⟨e, List.mem_cons_self, htarget, hstep⟩

namespace Selects

variable (h : Selects size accepted edits applied conflicts)
include h

theorem targets : ∀ e ∈ edits, Targets size e := by
  induction h with
  | done => simp
  | accept target _ _ ih => exact List.forall_mem_cons.2 ⟨target, ih⟩
  | leave target _ _ _ ih => exact List.forall_mem_cons.2 ⟨target, ih⟩

/-- Selection keeps to the order of the edits. -/
theorem exists_sublist : ∃ more, applied = accepted ++ more ∧ more.Sublist edits := by
  induction h with
  | done accepted => exact ⟨[], by simp, .slnil⟩
  | @accept accepted es applied e conflicts _ _ _ ih =>
    obtain ⟨more, hmore, hsub⟩ := ih
    exact ⟨e :: more, by simpa using hmore, hsub.cons_cons e⟩
  | @leave accepted es applied e a conflicts _ _ _ _ ih =>
    obtain ⟨more, hmore, hsub⟩ := ih
    exact ⟨more, hmore, hsub.cons e⟩

theorem accepted_subset : ∀ a ∈ accepted, a ∈ applied := by
  intro a ha
  obtain ⟨more, hmore, -⟩ := h.exists_sublist
  rw [hmore]
  exact List.mem_append_left more ha

/-- No edit is lost. -/
theorem perm : (applied ++ conflicts.map Conflict.edit).Perm (accepted ++ edits) := by
  induction h with
  | done => simp
  | accept _ _ _ ih => simpa using ih
  | leave _ _ _ _ ih =>
    exact List.perm_middle.trans ((ih.cons _).trans List.perm_middle.symm)

theorem named : ∀ c ∈ conflicts, NamedBy applied c := by
  induction h with
  | done => simp
  | accept _ _ _ ih => exact ih
  | leave _ mem overlaps rest ih =>
    exact List.forall_mem_cons.2 ⟨⟨_, rest.accepted_subset _ mem, rfl, overlaps⟩, ih⟩

theorem apart (haccepted : accepted.Pairwise Apart) : applied.Pairwise Apart := by
  induction h with
  | done => exact haccepted
  | accept _ apart _ ih =>
    apply ih
    apply List.pairwise_append.2
    exact ⟨haccepted, List.pairwise_singleton _ _, by simpa using apart⟩
  | leave _ _ _ _ ih => exact ih haccepted

/-- The first edit is accepted if there are none before it. -/
theorem ne_nil (hne : edits ≠ []) : applied ≠ [] := by
  cases h with
  | done => exact absurd rfl hne
  | @accept _ _ _ e _ _ _ rest => exact List.ne_nil_of_mem (rest.accepted_subset e (by simp))
  | leave _ mem _ rest => exact List.ne_nil_of_mem (rest.accepted_subset _ mem)

omit h in
theorem sublist (h : Selects size [] edits applied conflicts) : applied.Sublist edits := by
  obtain ⟨more, rfl, hsub⟩ := h.exists_sublist
  exact hsub

end Selects

/-! ## Batches -/

theorem exists_replaceMany (h : ∀ e ∈ accepted, Targets t.size e) :
    ∃ result, t.replaceMany (replacements accepted) = some result := by
  refine Option.ne_none_iff_exists'.1 fun hnone => ?_
  obtain ⟨p, hp, hlt⟩ := Tree.replaceMany_eq_none_iff.1 hnone
  obtain ⟨e, he, hpair⟩ := List.mem_filterMap.1 hp
  obtain ⟨id, hid, rfl⟩ := Option.map_eq_some_iff.1 hpair
  obtain ⟨id', hid', hlt'⟩ := h e he
  rw [hid] at hid'
  cases hid'
  exact hlt hlt'

/-- Taken in order, the edits of a batch are selected and those accepted made, or one of them has no
target. -/
theorem apply_cases (t : Tree) (edits : List FixEdit) :
    (∃ outcome, apply t edits = .ok outcome ∧
        Selects t.size [] (edits.mergeSort FixEdit.before) outcome.applied outcome.conflicts ∧
        (outcome.applied ≠ [] →
          t.replaceMany (replacements outcome.applied) = some outcome.tree)) ∨
      ∃ e ∈ edits, ¬ Targets t.size e ∧ apply t edits = .error (.nodeNotFound e.target) := by
  rcases select_cases t.size [] (edits.mergeSort FixEdit.before) with
    ⟨applied, conflicts, hok, hselects⟩ | ⟨e, he, hmissing, herror⟩
  · left
    cases applied with
    | nil =>
      refine ⟨⟨t, [], conflicts⟩, ?_, hselects, fun hne => absurd rfl hne⟩
      simp [apply, hok, bind, Except.bind, pure, Except.pure]
    | cons first rest =>
      obtain ⟨result, hresult⟩ := exists_replaceMany fun e he =>
        hselects.targets e (hselects.sublist.subset he)
      refine ⟨⟨result, first :: rest, conflicts⟩, ?_, hselects, fun _ => hresult⟩
      simp [apply, hok, hresult, bind, Except.bind, pure, Except.pure]
  · right
    refine ⟨e, List.mem_mergeSort.1 he, hmissing, ?_⟩
    simp [apply, herror, bind, Except.bind]

theorem mergeSort_ne_nil (hne : edits ≠ []) : edits.mergeSort FixEdit.before ≠ [] := by
  intro hnil
  have hlength := (List.mergeSort_perm edits FixEdit.before).length_eq
  rw [hnil] at hlength
  exact hne (List.length_eq_zero_iff.1 hlength.symm)

/-- A batch of edits of nodes of a tree makes some of them, one after the other in the text. -/
theorem apply_eq_ok (hne : edits ≠ []) (htargets : ∀ e ∈ edits, Targets t.size e)
    (hspans : ∀ e ∈ edits, e.span.start < e.span.stop) :
    ∃ outcome, apply t edits = .ok outcome ∧ outcome.applied ≠ [] ∧
      outcome.applied.Sublist (edits.mergeSort FixEdit.before) ∧
      outcome.applied.Pairwise Precedes ∧
      t.replaceMany (replacements outcome.applied) = some outcome.tree := by
  rcases apply_cases t edits with ⟨outcome, hok, hselects, hreplace⟩ | ⟨e, he, hmissing, -⟩
  · have hsorted : (edits.mergeSort FixEdit.before).Pairwise fun a b => a.before b = true :=
      List.pairwise_mergeSort FixEdit.before_trans FixEdit.before_total edits
    have hsub := hselects.sublist
    have happlied := hselects.ne_nil (mergeSort_ne_nil hne)
    refine ⟨outcome, hok, happlied, hsub, ?_, hreplace happlied⟩
    refine ((hsorted.sublist hsub).and (hselects.apart .nil)).imp_of_mem fun _ hb hab => ?_
    have hmem := List.mem_mergeSort.1 (hsub.subset hb)
    exact FixEdit.precedes_of_apart (hspans _ hmem) hab.1 hab.2
  · exact absurd (htargets e he) hmissing

end Batch

end NullLint
