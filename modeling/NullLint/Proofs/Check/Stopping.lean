import NullLint.Proofs.Check.Reports

/-!
# Runs that are stopped

A run that is asked to stop reports what an unhindered run finds at the first operators of the
tree, up to some operator, and nothing else (`checkTree_stopped`). The request may come at any
moment: before the run, while the host answers, or between two looks at the signal. An analysis in
the middle of which it comes finds what it would have found, or nothing (`Checking.GivesUp`).
-/

namespace NullLint

/-- A request to stop is not taken back. -/
def Signal.Latches (s : Signal) : Prop :=
  ∀ event history, s history = true → s (event :: history) = true

theorem Signal.Latches.append {s : Signal} (h : s.Latches) (new : History) {history : History}
    (hs : s history = true) : s (new ++ history) = true := by
  induction new with
  | nil => exact hs
  | cons event new ih => exact h event _ ih

namespace Checking

variable {α β : Type}

/-- The step only adds to the history, and its result does not depend on it. -/
structure Steady (x : Checking α) : Prop where
  grows : ∀ history, ∃ new, (x history).2 = new ++ history
  result : ∀ history history', (x history).1 = (x history').1

theorem steady_pure (a : α) : Steady (pure a) := ⟨fun _ => ⟨[], rfl⟩, fun _ _ => rfl⟩

theorem steady_note (event : Event) (reply : α) : Steady (note event reply) :=
  ⟨fun _ => ⟨[event], rfl⟩, fun _ _ => rfl⟩

theorem steady_poll : Steady (poll .never) := ⟨fun _ => ⟨[.polled], rfl⟩, fun _ _ => rfl⟩

namespace Steady

variable {x y : Checking α} {f : α → Checking β}

theorem bind (hx : Steady x) (hf : ∀ a, Steady (f a)) : Steady (x >>= f) := by
  constructor
  · intro history
    obtain ⟨new, hnew⟩ := hx.grows history
    obtain ⟨more, hmore⟩ := (hf (x history).1).grows (x history).2
    exact ⟨more ++ new, by rw [bind_apply, hmore, hnew, List.append_assoc]⟩
  · intro history history'
    rw [bind_apply, bind_apply, hx.result history history']
    exact (hf _).result _ _

theorem ite {p : Prop} [Decidable p] (hx : Steady x) (hy : Steady y) :
    Steady (if p then x else y) := by
  split
  · exact hx
  · exact hy

/-- A signal that is raised before the step is raised behind it. -/
theorem raised {s : Signal} (hs : s.Latches) (hx : Steady x) {history : History}
    (h : s history = true) : s (x history).2 = true := by
  obtain ⟨new, hnew⟩ := hx.grows history
  rw [hnew]
  exact hs.append new h

end Steady

/-- Where the signal is raised before the step ends, `x` may give up with the answer `last`;
otherwise it does what the unhindered step `y` does. -/
def GivesUp (s : Signal) (last : α) (x y : Checking α) : Prop :=
  ∀ history, x history = y history ∨
    (x history).1 = last ∧ s (x history).2 = true ∧ s (y history).2 = true

namespace GivesUp

variable {s : Signal} {last : α} {last' : β} {x y : Checking α} {f g : α → Checking β}

theorem refl (x : Checking α) : GivesUp s last x x := fun _ => .inl rfl

/-- A step that has given up leaves nothing to do for the next one. -/
theorem bind (hs : s.Latches) (hx : GivesUp s last x y) (hf : ∀ a, GivesUp s last' (f a) (g a))
    (hlast : f last = pure last') (hg : ∀ a, Steady (g a)) :
    GivesUp s last' (x >>= f) (y >>= g) := by
  intro history
  rw [bind_apply, bind_apply]
  rcases hx history with heq | ⟨hgave, hraised, hraised'⟩
  · rw [heq]
    exact hf _ _
  · rw [hgave, hlast]
    exact .inr ⟨rfl, hraised, (hg _).raised hs hraised'⟩

/-- The same is asked before both steps. -/
theorem after (x : Checking α) (hf : ∀ a, GivesUp s last' (f a) (g a)) :
    GivesUp s last' (x >>= f) (x >>= g) := fun _ => hf _ _

theorem ite {p : Prop} [Decidable p] {x' y' : Checking α} (hx : GivesUp s last x y)
    (hx' : GivesUp s last x' y') :
    GivesUp s last (if p then x else x') (if p then y else y') := by
  split
  · exact hx
  · exact hx'

/-- A look at the signal, at which the run may leave out what follows. -/
theorem poll (hs : s.Latches) (hx : GivesUp s last x y) (hy : Steady y) :
    GivesUp s last (Checking.poll s >>= fun stop => if stop = true then pure last else x)
      (Checking.poll .never >>= fun stop => if stop = true then pure last else y) := by
  intro history
  rw [bind_apply, bind_apply, poll_never, if_neg Bool.false_ne_true]
  cases hraised : s history with
  | true =>
    have hpolled : s (.polled :: history) = true := hs _ _ hraised
    have hrun : Checking.poll s history = (true, .polled :: history) := by
      rw [Checking.poll, hraised]
    rw [hrun, if_pos rfl]
    exact .inr ⟨rfl, hpolled, hy.raised hs hpolled⟩
  | false =>
    have hrun : Checking.poll s history = (false, .polled :: history) := by
      rw [Checking.poll, hraised]
    rw [hrun, if_neg Bool.false_ne_true]
    exact hx _

end GivesUp

end Checking

namespace Checker

open Checking

/-- The checker that nobody stops. -/
def unhindered (c : Checker) : Checker := { c with signal := .never }

variable {c : Checker}

/-! ## One operator -/

theorem steady_assignedLocally (node : Nat) (scope : Option Nat) :
    Steady (c.assignedLocally node scope) := by
  unfold assignedLocally
  refine (steady_note _ _).bind fun symbol => ?_
  cases symbol with
  | none => exact steady_pure _
  | some symbol => exact (steady_note _ _).bind fun _ => steady_pure _

theorem steady_classify (node : Nat) (scope : Option Nat) :
    Steady (c.unhindered.classify node scope) := by
  unfold classify
  split
  · exact steady_pure _
  · refine (steady_note _ _).bind fun type => (steady_pure _).ite ?_
    split
    · exact steady_poll.bind fun _ => (steady_pure _).ite
        ((steady_assignedLocally _ _).bind fun _ => (steady_pure _).ite (steady_pure _))
    · exact steady_pure _

theorem classify_givesUp (hs : c.signal.Latches) (node : Nat) (scope : Option Nat) :
    GivesUp c.signal .unknown (c.classify node scope) (c.unhindered.classify node scope) := by
  unfold classify
  rw [show c.unhindered.path node = c.path node from rfl]
  cases (c.path node).head?.bind fun n => n.expression? with
  | none => exact .refl _
  | some e =>
    refine .after _ fun type => (GivesUp.refl _).ite ?_
    cases e with
    | identifier name =>
      exact .poll hs (.refl _)
        ((steady_assignedLocally _ _).bind fun _ => (steady_pure _).ite (steady_pure _))
    | _ => exact .refl _

theorem steady_reason? (operand : Nat) (scope : Option Nat) (type : Option TypeFacts) :
    Steady (c.unhindered.reason? operand scope type) := by
  unfold reason?
  split
  · exact steady_pure _
  · exact (steady_note _ _).bind fun _ => (steady_pure _).ite
      (((steady_classify _ _).bind fun _ => (steady_pure _).ite (steady_pure _)).ite
        (steady_pure _))
  · exact steady_pure _
  · exact steady_pure _

theorem reason?_givesUp (hs : c.signal.Latches) (operand : Nat) (scope : Option Nat)
    (type : Option TypeFacts) :
    GivesUp c.signal none (c.reason? operand scope type)
      (c.unhindered.reason? operand scope type) := by
  unfold reason?
  split
  · exact .refl _
  · refine .after _ fun state => (GivesUp.refl _).ite (GivesUp.ite ?_ (.refl _))
    exact .bind hs (classify_givesUp hs _ _) (fun _ => .refl _) rfl
      fun _ => (steady_pure _).ite (steady_pure _)
  · exact .refl _
  · exact .refl _

theorem steady_judge (path : List Placed) : Steady (c.unhindered.judge path) := by
  unfold judge
  split
  · exact steady_pure _
  · exact (steady_note _ _).bind fun _ => (steady_reason? _ _ _).bind fun _ => steady_pure _

theorem judge_givesUp (hs : c.signal.Latches) (path : List Placed) :
    GivesUp c.signal none (c.judge path) (c.unhindered.judge path) := by
  unfold judge
  split
  · exact .refl _
  · exact .after _ fun _ => .bind hs (reason?_givesUp hs _ _ _) (fun _ => .refl _) rfl
      fun _ => steady_pure _

theorem steady_analyze (node : Nat) : Steady (c.unhindered.analyze node) :=
  (steady_poll.bind fun _ => (steady_pure _).ite (steady_judge _)).ite (steady_pure _)

/-- An analysis in the middle of which the run is asked to stop finds what it would have found, or
nothing. -/
theorem analyze_givesUp (hs : c.signal.Latches) (node : Nat) :
    GivesUp c.signal none (c.analyze node) (c.unhindered.analyze node) :=
  (GivesUp.poll hs (judge_givesUp hs _) (steady_judge _)).ite (.refl _)

/-! ## A whole run -/

theorem steady_visit (ns : List Nat) : Steady (c.unhindered.visit ns) := by
  induction ns with
  | nil => exact steady_pure _
  | cons n ns ih =>
    exact steady_poll.bind fun _ => (steady_pure _).ite
      ((steady_analyze n).bind fun _ => ih.bind fun _ => steady_pure _)

/-- The findings at some operators are those at each of them. -/
theorem visit_unhindered (ns : List Nat) (history : History) :
    (c.unhindered.visit ns history).1 =
      ns.filterMap fun n => (c.unhindered.analyze n).result := by
  induction ns generalizing history with
  | nil => rfl
  | cons n ns ih =>
    have hfound : (c.unhindered.analyze n (.polled :: history)).1 =
        (c.unhindered.analyze n).result := (steady_analyze n).result _ _
    have hpoll : poll c.unhindered.signal history = (false, .polled :: history) := rfl
    rw [visit, bind_apply, hpoll, if_neg Bool.false_ne_true, bind_apply, bind_apply, pure_apply,
      hfound, ih, List.filterMap_cons]
    cases (c.unhindered.analyze n).result <;> rfl

/-- A run that is asked to stop looks at no operator any more. -/
theorem visit_raised {history : History} (hraised : c.signal history = true) (ns : List Nat) :
    (c.visit ns history).1 = [] := by
  cases ns with
  | nil => rfl
  | cons n ns =>
    rw [visit, bind_apply, if_pos (show (poll c.signal history).1 = true from hraised), pure_apply]

/-- A run over some operators finds what the unhindered run finds at the first of them: at all those
that the unhindered run has judged before the signal is raised. -/
theorem visit_stopped (hs : c.signal.Latches) (ns : List Nat) (history : History) :
    ∃ k ≤ ns.length, (c.visit ns history).1 = (c.unhindered.visit (ns.take k) history).1 ∧
      ∀ j ≤ ns.length, c.signal (c.unhindered.visit (ns.take j) history).2 = false → j ≤ k := by
  induction ns generalizing history with
  | nil => exact ⟨0, Nat.le_refl 0, rfl, fun j hj _ => hj⟩
  | cons n ns ih =>
    cases hraised : c.signal history with
    | true =>
      refine ⟨0, Nat.zero_le _, visit_raised hraised _, fun j _ hj => ?_⟩
      rw [(steady_visit _).raised hs hraised] at hj
      cases hj
    | false =>
      have hvisit : (c.visit (n :: ns) history).1 =
          (c.analyze n (.polled :: history)).1.toList ++
            (c.visit ns (c.analyze n (.polled :: history)).2).1 := by
        rw [visit, bind_apply, if_neg (by simp [poll, hraised])]
        rfl
      have halone (ns : List Nat) : c.unhindered.visit (n :: ns) history =
          ((c.unhindered.analyze n (.polled :: history)).1.toList ++
            (c.unhindered.visit ns (c.unhindered.analyze n (.polled :: history)).2).1,
          (c.unhindered.visit ns (c.unhindered.analyze n (.polled :: history)).2).2) := rfl
      rcases analyze_givesUp hs n (.polled :: history) with heq | ⟨hgave, hlate, hlate'⟩
      · obtain ⟨k, hk, hfound, hmost⟩ := ih (c.unhindered.analyze n (.polled :: history)).2
        refine ⟨k + 1, Nat.succ_le_succ hk, ?_, fun j hj hsignal => ?_⟩
        · rw [hvisit, heq, hfound, List.take_succ_cons, halone]
        · cases j with
          | zero => exact Nat.zero_le _
          | succ j =>
            rw [List.take_succ_cons, halone] at hsignal
            exact Nat.succ_le_succ (hmost j (Nat.le_of_succ_le_succ hj) hsignal)
      · refine ⟨0, Nat.zero_le _, ?_, fun j _ hsignal => ?_⟩
        · rw [hvisit, hgave, visit_raised hlate]
          rfl
        · cases j with
          | zero => exact Nat.le_refl 0
          | succ j =>
            rw [List.take_succ_cons, halone, (steady_visit _).raised hs hlate'] at hsignal
            cases hsignal

end Checker

/-- A run over any tree with any host, asked to stop at any moment, reports just what an unhindered
run finds at the first operators of the preorder, up to some operator, in the order of their marks.
No operator is left out that the unhindered run has judged before that moment. -/
theorem checkTree_stopped (c : Checker) (hs : c.signal.Latches) :
    let found (ns : List Nat) : List Finding :=
      (ns.filterMap fun n => (c.unhindered.analyze n).result).mergeSort fun f g =>
        f.operatorSpan.start ≤ g.operatorSpan.start
    c.unhindered.checkTree.result = found c.operatorNodes ∧
      ∃ k ≤ c.operatorNodes.length, c.checkTree.result = found (c.operatorNodes.take k) ∧
        ∀ j ≤ c.operatorNodes.length,
          c.signal ((c.unhindered.visit (c.operatorNodes.take j)).run []).2 = false → j ≤ k := by
  intro found
  have hfound (ns : List Nat) : found ns = (c.unhindered.visit ns []).1.mergeSort fun f g =>
      f.operatorSpan.start ≤ g.operatorSpan.start := by
    rw [Checker.visit_unhindered]
  cases henabled : c.rule.enabled with
  | true =>
    have hrun {c : Checker} (h : c.rule.enabled = true) : c.checkTree.result =
        (c.visit c.operatorNodes []).1.mergeSort fun f g =>
          f.operatorSpan.start ≤ g.operatorSpan.start := by
      rw [Checker.checkTree, if_pos h]
      rfl
    obtain ⟨k, hk, hvisit, hmost⟩ := Checker.visit_stopped hs c.operatorNodes []
    refine ⟨?_, k, hk, ?_, hmost⟩
    · rw [hrun (c := c.unhindered) henabled, hfound]
      rfl
    · rw [hrun henabled, hvisit, hfound]
  | false =>
    have hnone (ns : List Nat) : found ns = [] := by
      have hanalyze (n : Nat) : (c.unhindered.analyze n).result = none := by
        rw [Checker.analyze, if_neg (by simp [Checker.unhindered, henabled])]
        rfl
      simp [found, hanalyze]
    have hrun {c : Checker} (h : c.rule.enabled = false) : c.checkTree.result = [] := by
      rw [Checker.checkTree, if_neg (by simp [h])]
      rfl
    exact ⟨by rw [hrun (c := c.unhindered) henabled, hnone], _, Nat.le_refl _,
      by rw [hrun henabled, hnone], fun j hj _ => hj⟩

/-- In `a!.b!.c`, with a host that takes every value for one of a value type, a run that is asked to
stop between its two looks at the second operator reports the first one. -/
theorem checkTree_stopped_midway :
    let host : Host := ⟨fun _ => some .value, fun _ => none, fun _ _ => .unknown, fun _ => none⟩
    let c : Checker :=
      { root := (parse "" "a!.b!.c").tree.placed
        host := host
        signal := fun history => decide (4 ≤ history.length) }
    c.signal.Latches ∧ c.operatorNodes.length = 2 ∧
      ∃ k, 1 ≤ k ∧ k < 2 ∧ c.checkTree.result =
        ((c.operatorNodes.take k).filterMap fun n => (c.unhindered.analyze n).result).mergeSort
          fun f g => f.operatorSpan.start ≤ g.operatorSpan.start := by
  intro host c
  have hs : c.signal.Latches := by
    intro event history h
    have hlength : 4 ≤ history.length := by simpa [c] using h
    simpa [c] using Nat.le_succ_of_le hlength
  have hcount : c.operatorNodes.length = 2 := by decide +kernel
  obtain ⟨hall, k, hk, hfound, hmost⟩ := checkTree_stopped c hs
  have hfirst : 1 ≤ k := hmost 1 (by rw [hcount]; decide) (by decide +kernel)
  refine ⟨hs, hcount, k, hfirst, Nat.lt_of_le_of_ne (hcount ▸ hk) ?_, hfound⟩
  rintro rfl
  have hone : c.checkTree.result.length = 1 :=
    (List.length_mergeSort _).trans
      (show (c.visit c.operatorNodes []).1.length = 1 by decide +kernel)
  have htwo : ((c.operatorNodes.take 2).filterMap fun n =>
      (c.unhindered.analyze n).result).length = 2 := by decide +kernel
  rw [hfound, List.length_mergeSort, htwo] at hone
  cases hone

end NullLint
