import NullLint.Project.Command
import Mathlib.Data.List.Forall2

/-!
# The limit on diagnostics

The limit goes over all reports. What is kept are the first diagnostics of the run, each in the
report that it was in; what is left out is counted, so the verdict on the run stays the same.
-/

namespace NullLint

namespace FileReport

/-- The report keeps the first of its diagnostics and all else that it says. -/
structure Shortened (whole kept : FileReport) : Prop where
  first : kept.diagnostics <+: whole.diagnostics
  same : kept = { whole with diagnostics := kept.diagnostics }

/-- The first report takes what it needs of the limit and leaves the rest to the others. -/
theorem truncate_cons (max : Nat) (r : FileReport) (rs : List FileReport) :
    truncate max (r :: rs) =
      ({ r with diagnostics := r.diagnostics.take max } ::
          (truncate (max - r.diagnostics.length) rs).1,
        r.diagnostics.length - max + (truncate (max - r.diagnostics.length) rs).2) := by
  have hrest : max - min r.diagnostics.length max = max - r.diagnostics.length := by omega
  have hleft :
      r.diagnostics.length - min r.diagnostics.length max = r.diagnostics.length - max := by omega
  have htake : r.diagnostics.take (min r.diagnostics.length max) = r.diagnostics.take max :=
    List.take_eq_take_iff.2 (by omega)
  rw [truncate, hrest, hleft, htake]

/-- The diagnostics that are kept are the first ones of all reports. -/
theorem diagnostics_truncate (max : Nat) (rs : List FileReport) :
    (truncate max rs).1.flatMap diagnostics = (rs.flatMap diagnostics).take max := by
  induction rs generalizing max with
  | nil => simp [truncate]
  | cons r rs ih => rw [truncate_cons, List.flatMap_cons, List.flatMap_cons, List.take_append, ih]

/-- Each report stays in its place. -/
theorem shortened_truncate (max : Nat) (rs : List FileReport) :
    List.Forall₂ Shortened rs (truncate max rs).1 := by
  induction rs generalizing max with
  | nil => exact .nil
  | cons r rs ih =>
    rw [truncate_cons]
    exact .cons ⟨List.take_prefix .., rfl⟩ (ih _)

/-- The passes that changed a file do not count towards the limit. -/
theorem fixes_truncate (max : Nat) (rs : List FileReport) :
    (truncate max rs).1.flatMap fixes = rs.flatMap fixes := by
  induction rs generalizing max with
  | nil => simp [truncate]
  | cons r rs ih => rw [truncate_cons, List.flatMap_cons, List.flatMap_cons, ih]

/-- What is not kept is counted. -/
theorem omitted_truncate (max : Nat) (rs : List FileReport) :
    (truncate max rs).2 = (rs.flatMap diagnostics).length - max := by
  induction rs generalizing max with
  | nil => simp [truncate]
  | cons r rs ih =>
    rw [truncate_cons, List.flatMap_cons, List.length_append, ih]
    omega

end FileReport

namespace RunResult

theorem diagnostics_limit (r : RunResult) (max : Nat) :
    (r.limit (some max)).diagnostics = r.diagnostics.take max :=
  FileReport.diagnostics_truncate max r.reports

theorem omitted_limit (r : RunResult) (max : Nat) :
    (r.limit (some max)).omitted = r.diagnosticCount - max :=
  FileReport.omitted_truncate max r.reports

/-- A run with a limit accounts for all that the run without it found. -/
theorem omitted_add_diagnosticCount_limit (r : RunResult) (max : Nat) :
    (r.limit (some max)).omitted + (r.limit (some max)).diagnosticCount = r.diagnosticCount := by
  rw [omitted_limit, diagnosticCount, diagnosticCount, diagnostics_limit, List.length_take]
  omega

/-- A limit keeps the first diagnostics of a run and every report in its place, counts the others,
and so changes neither whether anything was reported nor the exit code. -/
theorem limit_keeps_verdict (reports : List FileReport) (files : List String) (max : Nat) :
    let whole : RunResult := ⟨reports, files, 0⟩
    let kept := whole.limit (some max)
    kept.diagnostics = whole.diagnostics.take max ∧
      List.Forall₂ FileReport.Shortened whole.reports kept.reports ∧
      kept.omitted + kept.diagnosticCount = whole.diagnosticCount ∧
      kept.hasDiagnostics = whole.hasDiagnostics ∧
      ∀ args isTerminal, (Command.report args isTerminal kept).exitCode =
        (Command.report args isTerminal whole).exitCode := by
  intro whole kept
  have hcount : kept.omitted + kept.diagnosticCount = whole.diagnosticCount :=
    omitted_add_diagnosticCount_limit whole max
  have hverdict : kept.hasDiagnostics = whole.hasDiagnostics := by
    rw [hasDiagnostics, hasDiagnostics, Nat.add_comm, hcount]
    rfl
  refine ⟨diagnostics_limit whole max, FileReport.shortened_truncate max reports, hcount, hverdict,
    fun args isTerminal => ?_⟩
  rw [Command.report, Command.report, hverdict]

end RunResult

end NullLint
