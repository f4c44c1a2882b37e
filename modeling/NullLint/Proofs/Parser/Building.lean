import NullLint.Proofs.Parser.Ensures
import NullLint.Proofs.Syntax.Productions

/-!
# What a parser can do

A parser moves tokens from its input into nodes, puts in tokens that the source lacks, groups what
it has built, and wraps what it cannot use in error nodes. `Builds` has one rule for each of these
steps. A token is put in only together with a report, an error node is made only around a report
or behind the report of too deep a nesting, and a group made while nothing has been reported is a
production of its kind.

Every fact about parsing that does not depend on the order in which parsers call each other follows
from `Builds` by induction: reports are never taken back, a parse without reports conforms to the
grammar, and a parse whose nodes are undamaged has made no report. What is said of the state alone
needs no induction of its own: a property that no single step breaks is `Kept`, and a parser keeps
it (`Builds.keeps`).
-/

open Computability

namespace NullLint

open Grammar

/-- Kinds of the tokens that are put in where the source lacks one. -/
def Kind.isSupplied : Kind → Bool
  | .endOfFile | .identifier | .semicolon | .openBrace | .closeBrace | .openParen | .closeParen
  | .openBracket | .closeBracket | .greaterThan => true
  | _ => false

namespace ParseState

/-- What may be reported in a state: that a token is missing behind the last one read, that the
current token does not fit, or that it nests too deep. -/
inductive Reportable (s : ParseState) : SyntaxError → Prop where
  | missing (k : Kind) :
      Reportable s ⟨s.lastStop, 0, Parser.expectedCode k, [k.text?.getD "identifier"]⟩
  | current {code : ErrorCode} (hcode : code ≠ .tooDeeplyNested) :
      Reportable s ⟨s.offset, s.text.utf8ByteSize, code, [s.text]⟩
  | deep : Reportable s ⟨s.offset, 1, .tooDeeplyNested, []⟩

/-- Nothing has been reported. -/
structure Quiet (s : ParseState) : Prop where
  errors : s.errors = []
  depth : s.depthReported = false

theorem errors_report_ne_nil (s : ParseState) (e : SyntaxError) : (s.report e).errors ≠ [] := by
  unfold report
  split
  · intro hnil
    simp_all
  · simp

theorem not_quiet_report (s : ParseState) (e : SyntaxError) : ¬(s.report e).Quiet :=
  fun h => errors_report_ne_nil s e h.errors

/-- Too deep a nesting is on record only if an error is. -/
def DepthOnRecord (s : ParseState) : Prop := s.depthReported = true → s.errors ≠ []

theorem DepthOnRecord.quiet {s : ParseState} (h : s.DepthOnRecord) (hs : s.errors = []) :
    s.Quiet := by
  refine ⟨hs, ?_⟩
  cases hd : s.depthReported with
  | false => rfl
  | true => exact absurd hs (h hd)

/-- No step of a parser breaks the property. -/
structure Kept (I : ParseState → Prop) : Prop where
  read {s : ParseState} {l : Lexeme} {rest : List Lexeme} (hs : s.rest = l :: rest)
    (hl : l.kind ≠ .endOfFile) (h : I s) : I { s with rest := rest, lastStop := l.stop }
  report {s : ParseState} {e : SyntaxError} (he : s.Reportable e) (h : I s) : I (s.report e)
  deep {s : ParseState} (h : I s) : I { s with depthReported := true }

theorem Kept.and {I J : ParseState → Prop} (hI : Kept I) (hJ : Kept J) :
    Kept fun s => I s ∧ J s where
  read hs hl h := ⟨hI.read hs hl h.1, hJ.read hs hl h.2⟩
  report he h := ⟨hI.report he h.1, hJ.report he h.2⟩
  deep h := ⟨hI.deep h.1, hJ.deep h.2⟩

theorem kept_suffix (ls : List Lexeme) : Kept fun s => s.rest <:+ ls where
  read {s l rest} hs _ h := (List.suffix_cons l rest).trans (hs ▸ h)
  report _ h := by simpa using h
  deep h := h

theorem kept_endOfFile : Kept fun s => ∃ l ∈ s.rest, l.kind = .endOfFile where
  read {s l rest} hs hl h := by
    obtain ⟨m, hm, hk⟩ := h
    rw [hs] at hm
    rcases List.mem_cons.1 hm with rfl | hm
    · exact absurd hk hl
    · exact ⟨m, hm, hk⟩
  report _ h := by simpa using h
  deep h := h

theorem Reportable.of_deep {s : ParseState} {e : SyntaxError} (h : s.Reportable e) :
    { s with depthReported := true }.Reportable e := by
  cases h with
  | missing k => exact .missing k
  | current hcode => exact .current hcode
  | deep => exact .deep

end ParseState

/-- From `s` to `s'` something is reported, or too deep a nesting has been reported before. -/
inductive Spoils (s : ParseState) : ParseState → Prop where
  | report {e : SyntaxError} (he : s.Reportable e) : Spoils s (s.report e)
  | deep {e : SyntaxError} (he : s.Reportable e) :
      Spoils s ({ s with depthReported := true }.report e)
  | again (h : s.depthReported = true) : Spoils s s

namespace Spoils

variable {s s' : ParseState}

theorem not_quiet (h : Spoils s s') : ¬s'.Quiet := by
  cases h with
  | report _ => exact ParseState.not_quiet_report _ _
  | deep _ => exact ParseState.not_quiet_report _ _
  | again hd =>
    intro hq
    cases hq.depth.symm.trans hd

theorem rest_eq (h : Spoils s s') : s'.rest = s.rest := by
  cases h <;> simp

theorem keeps {I : ParseState → Prop} (hI : ParseState.Kept I) (h : Spoils s s') (hs : I s) :
    I s' := by
  cases h with
  | report he => exact hI.report he hs
  | deep he => exact hI.report he.of_deep (hI.deep hs)
  | again _ => exact hs

theorem depthOnRecord (h : Spoils s s') (hs : s.DepthOnRecord) : s'.DepthOnRecord := by
  cases h with
  | report _ => exact fun _ => ParseState.errors_report_ne_nil _ _
  | deep _ => exact fun _ => ParseState.errors_report_ne_nil _ _
  | again _ => exact hs

end Spoils

/-- Between `s` and `s'` the nodes are built. -/
inductive Builds : ParseState → List Green → ParseState → Prop where
  | refl (s : ParseState) : Builds s [] s
  | append {s s' s'' : ParseState} {ns ms : List Green} (h : Builds s ns s')
      (h' : Builds s' ms s'') : Builds s (ns ++ ms) s''
  | read {s : ParseState} {l : Lexeme} {rest : List Lexeme} (hs : s.rest = l :: rest)
      (hl : l.kind ≠ .endOfFile) :
      Builds s [.leaf l.token] { s with rest := rest, lastStop := l.stop }
  | absent (s : ParseState) (k : Kind) (hk : k.isSupplied = true) {e : SyntaxError}
      (he : s.Reportable e) : Builds s [.leaf (.absent k)] (s.report e)
  | group {s s' : ParseState} {ns : List Green} (h : Builds s ns s') (k : Kind)
      (hk : k.isNode = true) (hproduction : s'.Quiet → ns.map Node.kind ∈ production k) :
      Builds s [.group k ns] s'
  | spoiled {s s₁ s₂ s' : ParseState} {ms ns : List Green} (h : Builds s ms s₁)
      (hspoils : Spoils s₁ s₂) (h' : Builds s₂ ns s') :
      Builds s [.group .errorNode (ms ++ ns)] s'

namespace Builds

variable {s s' : ParseState} {ns ms : List Green}

/-- Reports are never taken back. -/
theorem quiet (h : Builds s ns s') (hs : s'.Quiet) : s.Quiet := by
  induction h with
  | refl s => exact hs
  | append _ _ ih ih' => exact ih (ih' hs)
  | read _ _ => exact ⟨hs.errors, hs.depth⟩
  | absent s k _ _ => exact absurd hs (s.not_quiet_report _)
  | group _ _ _ _ ih => exact ih hs
  | spoiled _ hspoils _ _ ih' => exact absurd (ih' hs) hspoils.not_quiet

theorem depthOnRecord (h : Builds s ns s') (hs : s.DepthOnRecord) : s'.DepthOnRecord := by
  induction h with
  | refl s => exact hs
  | append _ _ ih ih' => exact ih' (ih hs)
  | read _ _ => exact hs
  | absent s k _ _ => exact fun _ => s.errors_report_ne_nil _
  | group _ _ _ _ ih => exact ih hs
  | spoiled _ hspoils _ ih ih' => exact ih' (hspoils.depthOnRecord (ih hs))

/-- What no step breaks no parser breaks. -/
theorem keeps {I : ParseState → Prop} (hI : ParseState.Kept I) (h : Builds s ns s') (hs : I s) :
    I s' := by
  induction h with
  | refl s => exact hs
  | append _ _ ih ih' => exact ih' (ih hs)
  | read hrest hl => exact hI.read hrest hl hs
  | absent s k _ he => exact hI.report he hs
  | group _ _ _ _ ih => exact ih hs
  | spoiled _ hspoils _ ih ih' => exact ih' (hspoils.keeps hI (ih hs))

/-- What is still to be read was still to be read before. -/
theorem rest_suffix (h : Builds s ns s') : s'.rest <:+ s.rest :=
  h.keeps (ParseState.kept_suffix s.rest) List.suffix_rfl

theorem length_le (h : Builds s ns s') : s'.rest.length ≤ s.rest.length :=
  h.rest_suffix.length_le

/-- The end of the file is not read. -/
theorem exists_endOfFile (h : Builds s ns s') (hs : ∃ l ∈ s.rest, l.kind = .endOfFile) :
    ∃ l ∈ s'.rest, l.kind = .endOfFile :=
  h.keeps ParseState.kept_endOfFile hs

/-- What is built without a report conforms to the grammar. -/
theorem conforms (h : Builds s ns s') (hs : s'.Quiet) : ∀ n ∈ ns, n.Conforms := by
  induction h with
  | refl s => simp
  | append _ h' ih ih' =>
    exact List.forall_mem_append.2 ⟨ih (h'.quiet hs), ih' hs⟩
  | @read s l rest _ _ => simpa using Node.conforms_token () l.token
  | absent s k _ _ => exact absurd hs (s.not_quiet_report _)
  | group _ k _ hproduction ih =>
    simpa using Node.conforms_branch.2 ⟨hproduction hs, ih hs⟩
  | spoiled _ hspoils h' _ _ => exact absurd (h'.quiet hs) hspoils.not_quiet

/-- What is built without a report has no other tokens than those read. -/
theorem tokens_read (h : Builds s ns s') (hs : s'.Quiet) :
    ∀ t ∈ ns.flatMap Node.tokens, ∃ l ∈ s.rest, l.token = t := by
  induction h with
  | refl s => simp
  | append h h' ih ih' =>
    rw [List.flatMap_append]
    refine List.forall_mem_append.2 ⟨ih (h'.quiet hs), fun t ht => ?_⟩
    obtain ⟨l, hl, rfl⟩ := ih' hs t ht
    exact ⟨l, h.rest_suffix.subset hl, rfl⟩
  | @read s l rest hrest _ => simp [hrest]
  | absent s k _ _ => exact absurd hs (s.not_quiet_report _)
  | group _ k _ _ ih => simpa using ih hs
  | spoiled _ hspoils h' _ _ => exact absurd (h'.quiet hs) hspoils.not_quiet

/-- Nothing is reported while undamaged nodes are built. -/
theorem errors_eq_nil (h : Builds s ns s') (hs : s.errors = [])
    (hns : ∀ n ∈ ns, n.Undamaged) : s'.errors = [] := by
  induction h with
  | refl s => exact hs
  | append _ _ ih ih' =>
    obtain ⟨hns, hms⟩ := List.forall_mem_append.1 hns
    exact ih' (ih hs hns) hms
  | read _ _ => exact hs
  | absent s k _ _ =>
    have hleaf : (Green.leaf (.absent k)).Undamaged := hns _ (by simp)
    cases (hleaf _ (Node.self_mem_preorder _)).1
  | group _ k _ _ ih =>
    have hgroup := Node.undamaged_branch.1 (hns _ (List.mem_singleton_self _))
    exact ih hs hgroup.2
  | spoiled _ _ _ _ _ =>
    have hgroup := Node.undamaged_branch.1 (hns _ (List.mem_singleton_self _))
    exact absurd rfl hgroup.1

/-- Nodes are built one after the other. -/
theorem of_cons {n : Green} (h : Builds s (n :: ns) s') :
    ∃ s₁, Builds s [n] s₁ ∧ Builds s₁ ns s' := by
  generalize hall : n :: ns = all at h
  induction h generalizing n ns with
  | refl s => cases hall
  | @append s s₁ s₂ as bs h h' ih ih' =>
    cases as with
    | nil =>
      obtain ⟨s₃, hn, hns⟩ := ih' hall
      exact ⟨s₃, h.append hn, hns⟩
    | cons a as =>
      obtain ⟨rfl, rfl⟩ := List.cons.inj hall
      obtain ⟨s₃, hn, hns⟩ := ih rfl
      exact ⟨s₃, hn, hns.append h'⟩
  | read hs hl =>
    obtain ⟨rfl, rfl⟩ := List.cons.inj hall
    exact ⟨_, .read hs hl, .refl _⟩
  | absent s k hk he =>
    obtain ⟨rfl, rfl⟩ := List.cons.inj hall
    exact ⟨_, .absent s k hk he, .refl _⟩
  | group h k hk hproduction _ =>
    obtain ⟨rfl, rfl⟩ := List.cons.inj hall
    exact ⟨_, .group h k hk hproduction, .refl _⟩
  | spoiled h hspoils h' _ _ =>
    obtain ⟨rfl, rfl⟩ := List.cons.inj hall
    exact ⟨_, .spoiled h hspoils h', .refl _⟩

end Builds

/-! ## Building words of a language -/

/-- Between `s` and `s'` the nodes are built, and if nothing is reported their kinds are a word of
`L`. -/
def Makes (L : Language Kind) (s : ParseState) (ns : List Green) (s' : ParseState) : Prop :=
  Builds s ns s' ∧ (s'.Quiet → ns.map Node.kind ∈ L)

namespace Makes

variable {L M : Language Kind} {s s' s'' : ParseState} {n : Green} {ns ms : List Green}

theorem mono (h : Makes L s ns s') (hLM : L ≤ M) : Makes M s ns s' :=
  ⟨h.1, fun hs => hLM (h.2 hs)⟩

/-- Where something was reported any language will do. -/
theorem of_not_quiet (h : Builds s ns s') (hs : ¬s'.Quiet) : Makes L s ns s' :=
  ⟨h, fun hq => absurd hq hs⟩

theorem refl (s : ParseState) : Makes 1 s [] s := ⟨.refl s, fun _ => rfl⟩

theorem append (h : Makes L s ns s') (h' : Makes M s' ms s'') :
    Makes (L * M) s (ns ++ ms) s'' := by
  refine ⟨h.1.append h'.1, fun hs => ?_⟩
  rw [List.map_append]
  exact Language.append_mem_mul (h.2 (h'.1.quiet hs)) (h'.2 hs)

theorem cons (h : Makes L s [n] s') (h' : Makes M s' ms s'') : Makes (L * M) s (n :: ms) s'' :=
  h.append h'

theorem left (h : Makes L s ns s') : Makes (L + M) s ns s' := h.mono le_self_add

theorem right (h : Makes M s ns s') : Makes (L + M) s ns s' := h.mono le_add_self

theorem none (s : ParseState) : Makes (maybe L) s [] s := (refl s).left

theorem some (h : Makes L s ns s') : Makes (maybe L) s ns s' := h.right

/-- What may follow need not. -/
theorem append_none (h : Makes L s ns s') : Makes (L * maybe M) s ns s' := by
  rw [← List.append_nil ns]
  exact h.append (.none s')

theorem oneOf_mono {p q : Kind → Bool} (h : Makes (oneOf p) s ns s')
    (hpq : ∀ k, p k = true → q k = true) : Makes (oneOf q) s ns s' :=
  h.mono (oneOf_le hpq)

theorem just_le {k : Kind} {p : Kind → Bool} (h : Makes (just k) s ns s') (hk : p k = true) :
    Makes (oneOf p) s ns s' :=
  h.mono (Grammar.just_le hk)

/-- A production makes a group of its kind. -/
theorem group (k : Kind) (h : Makes (production k) s ns s') {p : Kind → Bool}
    (hp : p k = true) (hk : k.isNode = true) : Makes (oneOf p) s [.group k ns] s' :=
  ⟨h.1.group k hk h.2, fun _ => singleton_mem_oneOf.2 hp⟩

end Makes

namespace Parser

variable {L M : Language Kind} {s : ParseState}

/-! ## Single tokens -/

theorem makes_advance {p : Kind → Bool} (hp : p s.kind = true) (hend : p .endOfFile = false) :
    advance.Ensures s fun n s' => Makes (oneOf p) s [n] s' := by
  unfold Ensures advance
  cases hs : s.rest with
  | nil => simp [ParseState.kind, kindAhead, hs, hend] at hp
  | cons l rest =>
    have hl : s.kind = l.kind := by simp [ParseState.kind, kindAhead, hs]
    rw [hl] at hp
    have hne : l.kind ≠ .endOfFile := by
      intro heq
      simp [heq, hend] at hp
    exact ⟨.read hs hne, fun _ => singleton_mem_oneOf.2 hp⟩

/-- The current token is read as one of the kind `k`. -/
theorem makes_token {k : Kind} (hs : s.kind = k) (hk : k ≠ .endOfFile) :
    advance.Ensures s fun n s' => Makes (just k) s [n] s' :=
  makes_advance (by simpa using hs) (by simpa using hk.symm)

theorem kind_advance (s : ParseState) : (advance s).2.kind = s.nextKind := by
  unfold advance ParseState.kind ParseState.nextKind
  cases hs : s.rest with
  | nil => simp [hs]
  | cons l rest => simp

/-- The current token is read as one of the kind `k`, and then the next one is the current one. -/
theorem makes_token_next {k : Kind} (hs : s.kind = k) (hk : k ≠ .endOfFile) :
    advance.Ensures s fun n s' => Makes (just k) s [n] s' ∧ s'.kind = s.nextKind ∧
      s'.rest.length < s.rest.length :=
  ⟨makes_token hs hk, kind_advance s, length_advance (hs ▸ hk)⟩

theorem makes_expect (k : Kind) (s : ParseState) (hk : k.isSupplied = true)
    (hend : k ≠ .endOfFile) :
    (expect k).Ensures s fun n s' => Makes (just k) s [n] s' := by
  unfold Ensures expect
  split
  · rename_i hs
    exact makes_token hs hend
  · exact ⟨.absent s k hk (.missing k), fun _ => singleton_mem_just k⟩

/-- A token that the source lacks may stand for anything: its lack is reported. -/
theorem makes_expect_of_ne {k : Kind} (hs : s.kind ≠ k) (hk : k.isSupplied = true) :
    (expect k).Ensures s fun n s' => Makes L s [n] s' := by
  unfold Ensures expect
  rw [if_neg hs]
  exact .of_not_quiet (.absent s k hk (.missing k)) (s.not_quiet_report _)

theorem accept_cases (k : Kind) (s : ParseState) (hend : k ≠ .endOfFile) :
    (accept k).Ensures s fun ns s' => (ns = [] ∧ s' = s) ∨
      ∃ n, ns = [n] ∧ Makes (just k) s [n] s' ∧ s'.rest.length < s.rest.length := by
  unfold Ensures accept
  split
  · rename_i hs
    exact .inr ⟨_, rfl, makes_token hs hend, length_advance (hs ▸ hend)⟩
  · exact .inl ⟨rfl, rfl⟩

theorem makes_accept (k : Kind) (s : ParseState) (hend : k ≠ .endOfFile) :
    (accept k).Ensures s fun ns s' => Makes (maybe (just k)) s ns s' := by
  refine (accept_cases k s hend).mono fun ns s' h => ?_
  rcases h with ⟨rfl, rfl⟩ | ⟨n, rfl, h, -⟩
  · exact .none s'
  · exact h.some

theorem builds_advance (hs : s.kind ≠ .endOfFile) :
    advance.Ensures s fun n s' => Builds s [n] s' :=
  (makes_advance (p := (· != .endOfFile)) (by simpa using hs) rfl).1

/-- A token that is skipped may stand for anything. -/
theorem makes_skip {code : ErrorCode} (hcode : code ≠ .tooDeeplyNested) (hs : s.kind ≠ .endOfFile) :
    (skip code).Ensures s fun n s' => Makes L s [n] s' := by
  have hspoils : Spoils s (complain code s).2 := .report (.current hcode)
  have hkind : (complain code s).2.kind ≠ .endOfFile := by simpa [complain] using hs
  have hread := builds_advance hkind
  exact .of_not_quiet (.spoiled (.refl s) hspoils hread) fun hq =>
    hspoils.not_quiet (hread.quiet hq)

/-! ## Loops -/

theorem makes_collectWhile {more : ParseState → Bool} {item : Parser (List Green)}
    (h : ∀ s, more s = true → item.Ensures s fun ns s' => Makes L s ns s') (s : ParseState) :
    (collectWhile more item).Ensures s fun ns s' => Makes L∗ s ns s' := by
  refine ensures_collectWhile (Makes L∗ s) (fun ns s₁ hm h₁ => ?_)
    ((Makes.refl s).mono one_le_kstar)
  exact (h s₁ hm).mono fun r s₂ h₂ => (h₁.append h₂).mono kstar_mul_le_kstar

theorem makes_commaSeparated {item : Parser (List Green)}
    (h : ∀ s, item.Ensures s fun ns s' => Makes L s ns s') (s : ParseState) :
    (commaSeparated item).Ensures s fun ns s' => Makes (separated L) s ns s' := by
  simp only [commaSeparated, ensures_bind, ensures_pure]
  refine (h s).mono fun first s₁ h₁ => ?_
  refine (makes_collectWhile (fun s hs => ?_) s₁).mono fun others s₂ h₂ => h₁.append h₂
  simp only [ensures_bind, ensures_pure]
  refine (makes_token (k := .comma) (by simpa using hs) (by simp)).mono fun comma s₁ h₁ => ?_
  exact (h s₁).mono fun ns s₂ h₂ => h₁.cons h₂

/-- An item that gives one node, as part of a list. -/
theorem makes_single {item : Parser Green} (h : ∀ s, item.Ensures s fun n s' => Makes L s [n] s')
    (s : ParseState) : Ensures (do return [← item]) s fun ns s' => Makes L s ns s' :=
  h s

theorem makes_element {code : ErrorCode} (hcode : code ≠ .tooDeeplyNested) {item : Parser Green}
    (h : item.Ensures s fun n s' => Makes L s [n] s') :
    (element code item).Ensures s fun ns s' => Makes L s ns s' := by
  simp only [element, ensures_bind, ensures_get]
  refine h.mono fun node s₁ h₁ => ?_
  rw [ensures_ite]
  constructor
  · rintro ⟨-, hkind⟩
    simp only [ensures_bind, ensures_pure]
    refine (makes_skip (L := 0) hcode hkind).mono fun n s₂ h₂ => ?_
    exact .of_not_quiet (h₁.1.append h₂.1) fun hq => (h₂.2 hq).elim
  · intro _
    exact h₁

theorem makes_modifiers (s : ParseState) :
    modifiers.Ensures s fun ns s' => Makes Grammar.modifiers s ns s' :=
  makes_collectWhile (fun _ hs => makes_advance hs rfl) s

/-- What is skipped because it nests too deep may stand for anything. -/
theorem makes_giveUp (withSemicolon : Bool) (s : ParseState) :
    (giveUp withSemicolon).Ensures s fun n s' => Makes L s [n] s' := by
  simp only [giveUp, ensures_bind, ensures_modify, ensures_ite, ensures_pure]
  have hspoils : Spoils s (if s.depthReported then s
      else { s with depthReported := true }.report ⟨s.offset, 1, .tooDeeplyNested, []⟩) := by
    split
    · rename_i hd
      exact .again hd
    · exact .deep .deep
  have wrapped {ns : List Green} {s' : ParseState} (h : Builds _ ns s') :
      Makes L s [.group .errorNode ns] s' :=
    .of_not_quiet (.spoiled (.refl s) hspoils h) fun hq => hspoils.not_quiet (h.quiet hq)
  have skipped (s : ParseState) (hs : (!endsStatement s.kind) = true) :
      Ensures (do return [← advance]) s fun ns s' => Makes (oneOf (!endsStatement ·)) s ns s' :=
    makes_advance hs rfl
  refine (makes_collectWhile skipped _).mono fun skipped s₂ h₂ => ?_
  constructor
  · intro _
    refine (makes_accept .semicolon s₂ (by simp)).mono fun semicolon s₃ h₃ => ?_
    exact wrapped (h₂.1.append h₃.1)
  · intro _
    exact wrapped (h₂.1.append (.refl s₂))

end Parser

end NullLint
