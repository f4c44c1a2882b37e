import NullLint.Proofs.Report.Truncation
import NullLint.Proofs.Text.Numerals

/-!
# The summary under a limit

The summary adds the diagnostics that a limit leaves out to those that are shown, but it counts only
the files that still show one. So under a limit it gives the number of issues of the whole run, and
its number of files just if the limit reaches each file that has an issue.
-/

namespace NullLint

namespace FileReport

/-- In each report that has diagnostics the first one is within the limit. -/
def Reached (max : Nat) (reports : List FileReport) : Prop :=
  ∀ earlier r later, reports = earlier ++ r :: later → r.diagnostics ≠ [] →
    (earlier.flatMap diagnostics).length < max

theorem reached_cons {max : Nat} {r : FileReport} {rs : List FileReport} :
    Reached max (r :: rs) ↔
      (r.diagnostics ≠ [] → 0 < max) ∧ Reached (max - r.diagnostics.length) rs := by
  constructor
  · intro h
    refine ⟨h [] r rs rfl, fun earlier s later hparts hne => ?_⟩
    have hlt := h (r :: earlier) s later (by rw [hparts, List.cons_append]) hne
    rw [List.flatMap_cons, List.length_append] at hlt
    omega
  · rintro ⟨hhead, htail⟩ earlier s later hparts hne
    cases earlier with
    | nil =>
      obtain ⟨rfl, -⟩ := List.cons.inj hparts
      exact hhead hne
    | cons e earlier =>
      obtain ⟨rfl, hrest⟩ := List.cons.inj hparts
      have hlt := htail earlier s later hrest hne
      rw [List.flatMap_cons, List.length_append]
      omega

/-- Whether the report has diagnostics. -/
def hasIssues (r : FileReport) : Bool := !r.diagnostics.isEmpty

theorem hasIssues_take (r : FileReport) (max : Nat) :
    hasIssues { r with diagnostics := r.diagnostics.take max } =
      (r.hasIssues && decide (0 < max)) := by
  cases max <;> cases h : r.diagnostics <;> simp [hasIssues, h]

/-- A limit leaves diagnostics to no more reports than had some. -/
theorem countP_truncate_le (max : Nat) (rs : List FileReport) :
    (truncate max rs).1.countP hasIssues ≤ rs.countP hasIssues := by
  induction rs generalizing max with
  | nil => simp [truncate]
  | cons r rs ih =>
    have hrest := ih (max - r.diagnostics.length)
    rw [truncate_cons, List.countP_cons, List.countP_cons, hasIssues_take]
    cases r.hasIssues <;> cases decide (0 < max) <;> simp <;> omega

/-- As many reports have diagnostics as before just if the limit reaches each of them. -/
theorem countP_truncate_eq_iff {max : Nat} {rs : List FileReport} :
    (truncate max rs).1.countP hasIssues = rs.countP hasIssues ↔ Reached max rs := by
  induction rs generalizing max with
  | nil => simp [truncate, Reached]
  | cons r rs ih =>
    have hle := countP_truncate_le (max - r.diagnostics.length) rs
    have hissues : r.diagnostics ≠ [] ↔ r.hasIssues = true := by simp [hasIssues]
    rw [truncate_cons, List.countP_cons, List.countP_cons, hasIssues_take, reached_cons, hissues,
      ← ih]
    cases r.hasIssues with
    | false => simp
    | true =>
      by_cases hmax : 0 < max
      · simp [hmax]
      · -- the report loses its issues, and the later ones gain none
        simp only [hmax, Bool.true_and, decide_false, Bool.false_eq_true, if_false, if_true,
          forall_const, false_and, iff_false]
        omega

end FileReport

/-! ## Painted texts -/

/-- A text without the first sign of what is to be replaced stays as it is. -/
theorem Text.replaceAll_of_notMem {c : Char} {old new cs : List Char} (h : c ∉ cs) :
    replaceAll (c :: old) new cs = cs := by
  unfold replaceAll
  induction cs with
  | nil => rfl
  | cons d cs ih =>
    obtain ⟨hne, hcs⟩ := List.ne_and_not_mem_of_not_mem_cons h
    rw [replaceFrom, ih hcs]
    simp [List.isPrefixOf, hne]

/-- Texts without styles of their own are still told apart when they are painted. -/
theorem Style.paintIf_inj {color : Bool} {style : Style} {s t : String}
    (hs : '\x1b' ∉ s.toList) (ht : '\x1b' ∉ t.toList) :
    style.paintIf color s = style.paintIf color t ↔ s = t := by
  have plain {u : String} (hu : '\x1b' ∉ u.toList) :
      style.paint u = style.sequence ++ u ++ reset := by
    have hreset : reset.toList = '\x1b' :: ['[', '0', 'm'] := rfl
    simp only [paint, hreset]
    rw [Text.replaceAll_of_notMem hu, String.ofList_toList]
  cases color with
  | false => rfl
  | true =>
    simp only [paintIf, if_true, plain hs, plain ht]
    simp

namespace Reporter

variable {r : Reporter} {whole kept : RunResult}

theorem filesWithIssues_eq (result : RunResult) :
    filesWithIssues result = result.reports.countP FileReport.hasIssues :=
  List.countP_eq_length_filter.symm

theorem issueSummary_clean {result : RunResult} (h : issueCount result = 0) :
    issueSummary result = "No issues found in " ++ toString result.filesRead.length ++ " " ++
      plural result.filesRead.length "file" ++ "." := by
  rw [issueSummary, if_pos h]
  rfl

theorem issueSummary_found {result : RunResult} (h : issueCount result ≠ 0) :
    issueSummary result = "Found " ++ toString (issueCount result) ++ " " ++
      plural (issueCount result) "issue" ++ " in " ++ toString (filesWithIssues result) ++ " " ++
      plural (filesWithIssues result) "file" ++ "." := by
  rw [issueSummary, if_neg h]
  rfl

theorem fixSummary_removed {result : RunResult} (h : result.fixedCount ≠ 0) :
    fixSummary result = " Removed " ++ toString result.fixedCount ++ " " ++
      plural result.fixedCount "operator" ++ "." := by
  rw [fixSummary, if_neg h]
  rfl

theorem escape_notMem_plural {n : Nat} {noun : String} (h : '\x1b' ∉ noun.toList) :
    '\x1b' ∉ (plural n noun).toList := by
  unfold plural
  split <;> simp [h]

/-- A summary has no styles of its own. -/
theorem escape_notMem_summary (result : RunResult) :
    '\x1b' ∉ (issueSummary result ++ fixSummary result).toList := by
  have number (n : Nat) : '\x1b' ∉ (toString n).toList := Text.notMem_toString (by decide) n
  have noun (n : Nat) : '\x1b' ∉ (plural n "issue").toList ∧ '\x1b' ∉ (plural n "file").toList ∧
      '\x1b' ∉ (plural n "operator").toList :=
    ⟨escape_notMem_plural (by decide), escape_notMem_plural (by decide),
      escape_notMem_plural (by decide)⟩
  rw [String.toList_append, List.mem_append, not_or]
  constructor
  · by_cases h : issueCount result = 0
    · simp [-Nat.toString_eq_repr, issueSummary_clean h, number, noun]
    · simp [-Nat.toString_eq_repr, issueSummary_found h, number, noun]
  · by_cases h : result.fixedCount = 0
    · simp [fixSummary, h]
    · simp [-Nat.toString_eq_repr, fixSummary_removed h, number, noun]

/-- Summaries of as many issues give different texts if they give different numbers of files. -/
theorem issueSummary_inj (hcount : issueCount kept = issueCount whole)
    (hissues : issueCount whole ≠ 0) (h : issueSummary kept = issueSummary whole) :
    filesWithIssues kept = filesWithIssues whole := by
  rw [issueSummary_found hissues, issueSummary_found (hcount ▸ hissues), hcount] at h
  simp only [String.append_assoc, String.append_right_inj] at h
  have hchars := congrArg String.toList h
  have hblank : " ".toList = [' '] := rfl
  simp only [String.toList_append, hblank, List.singleton_append] at hchars
  exact Text.eq_of_toString_append (by decide) hchars

/-- Two results with as many issues, as many files that were read and as many operators removed have
one summary if as many files have issues, and only then. -/
theorem summary_eq_iff (hcount : issueCount kept = issueCount whole)
    (hread : kept.filesRead = whole.filesRead) (hfixed : kept.fixedCount = whole.fixedCount)
    (hclean : issueCount whole = 0 → filesWithIssues kept = filesWithIssues whole) :
    r.summary kept = r.summary whole ↔ filesWithIssues kept = filesWithIssues whole := by
  have hfix : fixSummary kept = fixSummary whole := by simp only [fixSummary, hfixed]
  rw [summary, summary, hcount, String.append_left_inj,
    Style.paintIf_inj (escape_notMem_summary kept) (escape_notMem_summary whole), hfix,
    String.append_left_inj]
  constructor
  · intro h
    by_cases hissues : issueCount whole = 0
    · exact hclean hissues
    · exact issueSummary_inj hcount hissues h
  · intro h
    simp only [issueSummary, hcount, hread, h]

/-- The report of a run ends with its summary. -/
theorem renderRun_summary (r : Reporter) (result : RunResult) :
    ∃ shown, r.renderRun result = shown ++ r.summary result := by
  have hcolor (reports : List FileReport) (r : Reporter) :
      (reports.foldl (fun r f => r.addSource f.file f.source) r).color = r.color := by
    induction reports generalizing r with
    | nil => rfl
    | cons f reports ih => exact ih _
  simp only [renderRun, summary, hcolor]
  exact ⟨_, rfl⟩

/-- Under a limit a report still ends with a summary of all issues of the run. The summary is that
of the run without the limit, and its number of files the same, just if the limit reaches each
report that has diagnostics. -/
theorem summary_limit_iff (r : Reporter) (reports : List FileReport) (files : List String)
    (max : Nat) :
    let whole : RunResult := ⟨reports, files, 0⟩
    let kept := whole.limit (some max)
    (∀ result ∈ [whole, kept], ∃ shown, r.renderRun result = shown ++ r.summary result) ∧
      issueCount kept = issueCount whole ∧
      (filesWithIssues kept = filesWithIssues whole ↔ FileReport.Reached max reports) ∧
      (r.summary kept = r.summary whole ↔ FileReport.Reached max reports) := by
  intro whole kept
  have hcount : issueCount kept = issueCount whole := by
    rw [issueCount, issueCount, Nat.add_comm, whole.omitted_add_diagnosticCount_limit max]
    rfl
  have hfiles : filesWithIssues kept = filesWithIssues whole ↔ FileReport.Reached max reports := by
    rw [filesWithIssues_eq, filesWithIssues_eq]
    exact FileReport.countP_truncate_eq_iff
  have hfixed : kept.fixedCount = whole.fixedCount :=
    congrArg (fun fixes => (fixes.flatMap FixInfo.changes).length)
      (FileReport.fixes_truncate max reports)
  have hclean : issueCount whole = 0 → filesWithIssues kept = filesWithIssues whole := by
    intro h
    refine hfiles.2 fun earlier s later hparts hne => absurd h ?_
    have hpos := List.length_pos_of_ne_nil hne
    simp only [issueCount, RunResult.diagnosticCount, RunResult.diagnostics, whole, hparts,
      List.flatMap_append, List.flatMap_cons, List.length_append]
    omega
  exact ⟨fun result _ => r.renderRun_summary result, hcount, hfiles,
    (summary_eq_iff hcount rfl hfixed hclean).trans hfiles⟩

/-- With a limit of one diagnostic, two issues in two files are said to lie in one file. -/
theorem summary_counts_shown_files :
    let d (file : String) : Diagnostic := ⟨file, 4, 1, "redundant", .error, "NULLABLE0001"⟩
    let report (file : String) : FileReport := ⟨file, [d file], [], none, "f(x!);"⟩
    let whole : RunResult := ⟨[report "A.cs", report "B.cs"], ["A.cs", "B.cs"], 0⟩
    let r : Reporter := { color := false }
    r.summary whole = "Found 2 issues in 2 files.\n" ∧
      r.summary (whole.limit (some 1)) = "Found 2 issues in 1 file.\n" ∧
      filesWithIssues (whole.limit (some 1)) ≠ filesWithIssues whole := by
  decide +kernel

end Reporter

end NullLint
