import NullLint.Proofs.Parser.Producing
import NullLint.Proofs.Reparsing.Losing

/-!
# Reading again what was read

Where nothing was reported, nodes that have lost null operators are made of their tokens once more
(`Reread`). These tokens begin as those that were read did, and what is behind them has to begin as
it did (`ParseState.Meets`), so that facts about nodes in a row add up (`Rereads.append`), and those
about the parts of a branch give one about the branch (`Rereads.given`).

The rules are for the parsers of which all others are made: tokens, loops, lists, and nodes that are
refined step by step.
-/

namespace NullLint

namespace ParseState

/-- The tokens begin as those still to be read do. -/
structure Meets (s : ParseState) (ts : List Token) : Prop where
  kind : kindOf ts = s.kind
  leading : leadingOf ts = leadingOf s.tokens

theorem nextKind_eq (s : ParseState) {t : Token} {ts : List Token} (h : s.tokens = t :: ts) :
    s.nextKind = kindOf ts := by
  obtain ⟨l, ls, hrest, rfl, rfl⟩ := List.map_eq_cons_iff.1 h
  rw [nextKind, hrest]
  cases ls <;> rfl

theorem meets_tokens (s : ParseState) : s.Meets s.tokens := ⟨s.kind_eq.symm, rfl⟩

end ParseState

/-- Between `s` and `s'` the nodes are read without a report. Trees that have lost null operators
are read again wherever the tokens behind them `fit`: they begin as the tokens read did, and `post`
holds of them. -/
structure Reread (fit : List Token → Prop) (s : ParseState) (ns : List Green) (s' : ParseState)
    (post : List Green → List Token → Prop) : Prop where
  quiet : s.Quiet
  tokens : s.tokens = ns.flatMap Node.tokens ++ s'.tokens
  plain : ∀ n ∈ ns, n.Plain
  again : ∀ ms rest, List.Forall₂ Node.Loses ns ms → (∀ m ∈ ms, m.Plain) → fit rest →
    s.Meets (ms.flatMap Node.tokens ++ rest) ∧ post ms rest

/-- If nothing is reported between `s` and `s'`, the nodes are read again. -/
def Rereads (fit : List Token → Prop) (s : ParseState) (ns : List Green) (s' : ParseState)
    (post : List Green → List Token → Prop) : Prop :=
  s'.Quiet → Reread fit s ns s' post

/-- The nodes of two postconditions one after the other; `s` is the state between them. -/
def Behind (s : ParseState) (post post' : List Green → List Token → Prop) (ns : List Green)
    (rest : List Token) : Prop :=
  ∃ ms ms', ns = ms ++ ms' ∧ post ms (ms'.flatMap Node.tokens ++ rest) ∧
    s.Meets (ms'.flatMap Node.tokens ++ rest) ∧ post' ms' rest

/-- The node is a token of the kind `k`. -/
def IsToken (k : Kind) (ns : List Green) (_ : List Token) : Prop :=
  ∃ t : Token, ns = [.leaf t] ∧ t.kind = k

/-- The node is what `p` gives for its tokens, if `follow` holds of the kind behind it. -/
def IsGiven (follow : Kind → Prop) (p : Parser Green) (ns : List Green) (rest : List Token) :
    Prop :=
  ∃ n : Green, ns = [n] ∧ n.tokens ≠ [] ∧ (follow (kindOf rest) → p.Gives n.tokens n rest)

/-- What is read again is, to begin with, what was read. -/
theorem Reread.self {s s' : ParseState} {ns : List Green} {post : List Green → List Token → Prop}
    (h : Reread s'.Meets s ns s' post) : post ns s'.tokens :=
  (h.again ns s'.tokens (List.forall₂_same.2 fun n _ => .refl n) h.plain s'.meets_tokens).2

namespace Rereads

variable {fit : List Token → Prop} {s s₁ s' : ParseState} {ns ms : List Green}
  {post post' : List Green → List Token → Prop}

/-- Where something was reported nothing has to be read again. -/
theorem of_not_quiet (h : ¬s'.Quiet) : Rereads fit s ns s' post := fun hq => absurd hq h

theorem mono (h : Rereads fit s ns s' post)
    (hpost : ∀ ms rest, fit rest → s.Meets (ms.flatMap Node.tokens ++ rest) → post ms rest →
      post' ms rest) : Rereads fit s ns s' post' := by
  intro hq
  have hread := h hq
  refine ⟨hread.quiet, hread.tokens, hread.plain, fun ms rest hms hplain hrest => ?_⟩
  obtain ⟨hmeets, hms⟩ := hread.again ms rest hms hplain hrest
  exact ⟨hmeets, hpost ms rest hrest hmeets hms⟩

theorem and (h : Rereads fit s ns s' post) (h' : Rereads fit s ns s' post') :
    Rereads fit s ns s' fun ms rest => post ms rest ∧ post' ms rest := by
  intro hq
  have hread := h hq
  refine ⟨hread.quiet, hread.tokens, hread.plain, fun ms rest hms hplain hrest => ?_⟩
  obtain ⟨hmeets, hpost⟩ := hread.again ms rest hms hplain hrest
  exact ⟨hmeets, hpost, ((h' hq).again ms rest hms hplain hrest).2⟩

theorem of_quiet (h : s'.Quiet → Rereads fit s ns s' post) : Rereads fit s ns s' post :=
  fun hq => h hq hq

/-- What is read again has only lost null operators. -/
theorem loses (h : Rereads fit s ns s' post) :
    Rereads fit s ns s' fun ms rest => List.Forall₂ Node.Loses ns ms ∧ post ms rest := by
  intro hq
  have hread := h hq
  refine ⟨hread.quiet, hread.tokens, hread.plain, fun ms rest hms hplain hrest => ?_⟩
  obtain ⟨hmeets, hpost⟩ := hread.again ms rest hms hplain hrest
  exact ⟨hmeets, hms, hpost⟩

/-- Where nodes are read again they made up the tokens before. -/
theorem tokens_eq (h : Rereads fit s ns s' post) : Rereads fit s ns s' fun ms rest =>
    s.tokens = ns.flatMap Node.tokens ++ s'.tokens ∧ post ms rest :=
  .of_quiet fun hq => h.mono fun _ _ _ _ hms => ⟨(h hq).tokens, hms⟩

theorem nil (s : ParseState) : Rereads s.Meets s [] s fun ms _ => ms = [] := by
  intro hq
  refine ⟨hq, rfl, by simp, fun ms rest hms _ hrest => ?_⟩
  obtain rfl := List.forall₂_nil_left_iff.1 hms
  exact ⟨hrest, rfl⟩

theorem append (h : Rereads s₁.Meets s ns s₁ post) (h' : Rereads fit s₁ ms s' post') :
    Rereads fit s (ns ++ ms) s' (Behind s₁ post post') := by
  intro hq
  have hms := h' hq
  have hns := h hms.quiet
  refine ⟨hns.quiet, ?_, List.forall_mem_append.2 ⟨hns.plain, hms.plain⟩,
    fun ks rest hks hplain hrest => ?_⟩
  · rw [hns.tokens, hms.tokens, List.flatMap_append, List.append_assoc]
  · obtain ⟨ns', ms', rfl, hns', hms'⟩ := Node.Loses.exists_append hks
    rw [List.forall_mem_append] at hplain
    obtain ⟨hmeets, hpost'⟩ := hms.again ms' rest hms' hplain.2 hrest
    obtain ⟨hmeets', hpost⟩ := hns.again ns' _ hns' hplain.1 hmeets
    rw [List.flatMap_append, List.append_assoc]
    exact ⟨hmeets', ns', ms', rfl, hpost, hmeets, hpost'⟩

theorem restrict {fit' : List Token → Prop} (h : Rereads fit s ns s' post)
    (hfit : ∀ rest, fit' rest → fit rest) : Rereads fit' s ns s' post := by
  intro hq
  have hread := h hq
  exact ⟨hread.quiet, hread.tokens, hread.plain, fun ms rest hms hplain hrest =>
    hread.again ms rest hms hplain (hfit rest hrest)⟩

/-- A null operator stays, or gives way to its operand. -/
theorem operator {k : Kind} {e mark : Green} (hk : Checker.isOperatorKind k = true)
    (h : ∀ fit, Rereads fit s [e] s₁ post) (hmark : Rereads fit s₁ [mark] s' post') :
    Rereads fit s [.group k [e, mark]] s' fun ms rest =>
      (∃ ds, ms = [.group k ds] ∧ Behind s₁ post post' ds rest) ∨ post ms rest := by
  intro hq
  have hboth := (h s₁.Meets).append hmark hq
  have hnot : k ≠ .expressionStatement := by
    rintro rfl
    cases hk
  refine ⟨hboth.quiet, by simpa using hboth.tokens, ?_, fun ms rest hms hplain hrest => ?_⟩
  · simpa using Node.plain_branch.2 ⟨fun hk' => absurd hk' hnot, hboth.plain⟩
  · obtain ⟨n, _, hn, hnil, rfl⟩ := List.forall₂_cons_left_iff.1 hms
    obtain rfl := List.forall₂_nil_left_iff.1 hnil
    cases hn with
    | branch _ hds =>
      have hbranch := Node.plain_branch.1 (hplain _ (List.mem_singleton_self _))
      obtain ⟨hmeets, hpost⟩ := hboth.again _ rest hds hbranch.2 hrest
      exact ⟨by simpa using hmeets, .inl ⟨_, rfl, hpost⟩⟩
    | operator _ _ he =>
      obtain ⟨hmeets, hpost⟩ := (h (fun _ => True) (hmark hq).quiet).again [n] rest
        (.cons he .nil) hplain trivial
      exact ⟨hmeets, .inr hpost⟩

/-- A branch that is no null operator keeps its kind, and does not come to spell a declaration. -/
theorem group (h : Rereads fit s ns s' post) {k : Kind} (hk : Checker.isOperatorKind k = false)
    (hplain : k = .expressionStatement → declares (ns.flatMap Node.tokens) = false) :
    Rereads fit s [.group k ns] s' fun ks rest => ∃ ms, ks = [.group k ms] ∧
      (k = .expressionStatement → declares (ms.flatMap Node.tokens) = false) ∧ post ms rest := by
  intro hq
  have hread := h hq
  refine ⟨hread.quiet, by simpa using hread.tokens, ?_, fun ks rest hks hplain hrest => ?_⟩
  · simpa using Node.plain_branch.2 ⟨hplain, hread.plain⟩
  · obtain ⟨n, _, hn, hnil, rfl⟩ := List.forall₂_cons_left_iff.1 hks
    obtain rfl := List.forall₂_nil_left_iff.1 hnil
    obtain ⟨ms, rfl, hms⟩ := hn.exists_branch hk
    have hbranch : (Green.group k ms).Plain := hplain _ (by simp)
    obtain ⟨hdeclares, hparts⟩ := Node.plain_branch.1 hbranch
    obtain ⟨hmeets, hpost⟩ := hread.again ms rest hms hparts hrest
    exact ⟨by simpa using hmeets, ms, rfl, hdeclares, hpost⟩

/-- Most branches keep their kind. -/
theorem branch (h : Rereads fit s ns s' post) (k : Kind) (hk : k.isSteady = true) :
    Rereads fit s [.group k ns] s' fun ks rest => ∃ ms, ks = [.group k ms] ∧ post ms rest := by
  simp only [Kind.isSteady, Bool.and_eq_true, Bool.not_eq_true', bne_iff_ne] at hk
  refine (h.group hk.1 fun hk' => absurd hk' hk.2).mono fun ks rest _ _ hks => ?_
  obtain ⟨ms, rfl, -, hms⟩ := hks
  exact ⟨ms, rfl, hms⟩

/-- Nested branches are read again as their parts are. -/
theorem nests {n : Green} {k : Kind} {w : Nat} (h : Rereads fit s ns s' post)
    (hk : k.isSteady = true) (hn : Node.Nests k w ns n) :
    Rereads fit s [n] s' fun ks rest => ∃ m ms, ks = [m] ∧ ms.length = ns.length ∧
      Node.Nests k w ms m ∧ post ms rest := by
  intro hq
  have hread := h hq
  refine ⟨hread.quiet, by simpa [hn.tokens_eq] using hread.tokens, ?_,
    fun ks rest hks hplain hrest => ?_⟩
  · simpa using (hn.plain_iff hk).2 hread.plain
  · obtain ⟨m, _, hm, hnil, rfl⟩ := List.forall₂_cons_left_iff.1 hks
    obtain rfl := List.forall₂_nil_left_iff.1 hnil
    obtain ⟨ms, hms, hnests⟩ := hn.loses hk hm
    have hplain : ∀ n ∈ ms, n.Plain := (hnests.plain_iff hk).1 (hplain m (by simp))
    obtain ⟨hmeets, hpost⟩ := hread.again ms rest hms hplain hrest
    refine ⟨by simpa [hnests.tokens_eq] using hmeets, m, ms, rfl, hms.length_eq.symm, hnests, hpost⟩

/-- What a parser makes of the nodes it makes of them again. -/
theorem given {k : Kind} {follow : Kind → Prop} {p : Parser Green} (h : Rereads fit s ns s' post)
    (hk : k.isSteady = true)
    (hp : ∀ ms rest, fit rest → s.Meets (ms.flatMap Node.tokens ++ rest) → post ms rest →
      ms.flatMap Node.tokens ≠ [] ∧
        (follow (kindOf rest) → p.Gives (ms.flatMap Node.tokens) (.group k ms) rest)) :
    Rereads fit s [.group k ns] s' (IsGiven follow p) := by
  refine (h.branch k hk).mono fun ks rest hrest hmeets hks => ?_
  obtain ⟨ms, rfl, hms⟩ := hks
  obtain ⟨hne, hgives⟩ := hp ms rest hrest (by simpa using hmeets) hms
  exact ⟨_, rfl, by simpa using hne, by simpa using hgives⟩

/-- What `q` is given for `p` gives where it begins like this. -/
theorem given_of {n : Green} {follow : Kind → Prop} {p q : Parser Green}
    (h : Rereads fit s [n] s' (IsGiven follow q))
    (hpq : ∀ m rest, kindOf (m.tokens ++ rest) = s.kind → q.Gives m.tokens m rest →
      p.Gives m.tokens m rest) : Rereads fit s [n] s' (IsGiven follow p) := by
  refine h.mono fun ns rest _ hmeets hns => ?_
  obtain ⟨m, rfl, hne, hm⟩ := hns
  exact ⟨m, rfl, hne, fun hk => hpq m rest (by simpa using hmeets.kind) (hm hk)⟩

/-- Where tokens were read the input is shorter. -/
theorem length_lt (h : Rereads s'.Meets s ns s' post)
    (hpost : ∀ ms rest, s.Meets (ms.flatMap Node.tokens ++ rest) → post ms rest →
      ms.flatMap Node.tokens ≠ []) (hq : s'.Quiet) : s'.rest.length < s.rest.length := by
  have hread := h hq
  have hne := hpost ns s'.tokens (hread.tokens ▸ s.meets_tokens) hread.self
  exact Parser.length_lt_of_tokens hne hread.tokens rfl

end Rereads

namespace Parser

theorem Ensures.of_eq {α : Type} {p q : Parser α} {s : ParseState} {post : α → ParseState → Prop}
    (heq : p = q) (h : q.Ensures s post) : p.Ensures s post :=
  heq ▸ h

/-- What `p` reads from `s` is read again by `p` before a kind with `follow`. -/
def RereadsBefore (follow : Kind → Prop) (p : Parser Green) (s : ParseState) : Prop :=
  p.Ensures s fun n s' => Rereads s'.Meets s [n] s' (IsGiven follow p)

/-- What `p` reads from `s` is read again by `p`, whatever is behind it. -/
def RereadsAlone (p : Parser Green) (s : ParseState) : Prop :=
  p.Ensures s fun n s' => ∀ fit, Rereads fit s [n] s' (IsGiven (fun _ => True) p)

variable {s : ParseState}

/-! ## Tokens -/

theorem rereads_first (hs : s.rest ≠ []) :
    advance.Ensures s fun n s' => ∀ fit, Rereads fit s [n] s' (IsToken s.kind) := by
  unfold Ensures advance
  cases hrest : s.rest with
  | nil => exact absurd hrest hs
  | cons l rest =>
    intro fit hq
    have htokens : s.tokens = l.token :: rest.map Lexeme.token := by simp [ParseState.tokens, hrest]
    have hkind : s.kind = l.token.kind := by rw [s.kind_eq, htokens, kindOf_cons]
    refine ⟨⟨hq.errors, hq.depth⟩, htokens, by simpa using Node.plain_token () l.token,
      fun ms _ hms _ _ => ?_⟩
    obtain ⟨n, _, hn, hnil, rfl⟩ := List.forall₂_cons_left_iff.1 hms
    obtain rfl := List.forall₂_nil_left_iff.1 hnil
    obtain ⟨u, rfl, hu⟩ := hn.exists_token
    refine ⟨⟨?_, ?_⟩, u, rfl, hu.kind.trans hkind.symm⟩
    · simpa [hkind] using hu.kind
    · simpa [htokens] using hu.leading

theorem rereads_advance (hs : s.kind ≠ .endOfFile) :
    advance.Ensures s fun n s' => ∀ fit, Rereads fit s [n] s' (IsToken s.kind) :=
  rereads_first (ne_nil_of_kind_ne hs)

theorem ensures_kind_advance (s : ParseState) :
    advance.Ensures s fun _ s' => s'.kind = s.nextKind :=
  kind_advance s

theorem rereads_token {k : Kind} (hs : s.kind = k) (hk : k ≠ .endOfFile) :
    advance.Ensures s fun n s' => ∀ fit, Rereads fit s [n] s' (IsToken k) := by
  subst hs
  exact rereads_advance hk

theorem rereads_expect (k : Kind) (s : ParseState) (hk : k ≠ .endOfFile) :
    (expect k).Ensures s fun n s' => ∀ fit, Rereads fit s [n] s' (IsToken k) := by
  unfold Ensures expect
  split
  · rename_i hs
    exact rereads_token hs hk
  · exact fun _ => .of_not_quiet (s.not_quiet_report _)

/-- Where a token is skipped something was reported. -/
theorem not_quiet_skip {code : ErrorCode} (hcode : code ≠ .tooDeeplyNested)
    (hs : s.kind ≠ .endOfFile) : (skip code).Ensures s fun _ s' => ¬s'.Quiet :=
  (makes_skip (L := 0) hcode hs).mono fun _ _ h hq => h.2 hq

/-! ## Loops -/

section Loops

variable {s : ParseState} {follow : Kind → Prop} {q : Kind → Bool}

/-- If `follow` holds of the kind behind the nodes, the loop `p` gives them for their tokens, and
`follow` holds of the kind with which it begins. -/
def AreCollected (follow : Kind → Prop) (p : Parser (List Green)) (ns : List Green)
    (rest : List Token) : Prop :=
  follow (kindOf rest) → follow (kindOf (ns.flatMap Node.tokens ++ rest)) ∧
    p.Gives (ns.flatMap Node.tokens) ns rest

/-- A loop over items, each of which is read again by `p d` for all depths `d` from the number of
its tokens on. -/
theorem rereads_collectWhile (follow : Kind → Prop) {first : Parser (List Green)}
    {p : Nat → Parser (List Green)} (hq : ∀ k, q k = true → follow k)
    (round : ∀ s, q s.kind = true → first.Ensures s fun ns s' =>
      Rereads s'.Meets s ns s' fun ms rest => ms.flatMap Node.tokens ≠ [] ∧
        ∀ d, (ms.flatMap Node.tokens).length ≤ d → follow (kindOf rest) →
          (p d).Gives (ms.flatMap Node.tokens) ms rest) (s : ParseState) :
    (collectWhile (fun s => q s.kind) first).Ensures s fun ns s' =>
      Rereads s'.Meets s ns s' fun ms rest => ∀ d, (ms.flatMap Node.tokens).length ≤ d →
        AreCollected follow (collectWhile (fun s => q s.kind) (p d)) ms rest := by
  let loop (d : Nat) : Parser (List Green) := collectWhile (fun s => q s.kind) (p d)
  -- What is read before a round is put before what the loop gives from there on.
  let before (ms : List Green) (rest : List Token) : Prop :=
    (follow (kindOf rest) → follow (kindOf (ms.flatMap Node.tokens ++ rest))) ∧
      ∀ d us ks rest', (ms.flatMap Node.tokens).length ≤ d → rest = us ++ rest' →
        follow (kindOf rest) → (loop d).Gives us ks rest' →
        (loop d).Gives (ms.flatMap Node.tokens ++ us) (ms ++ ks) rest'
  apply ensures_collectWhile_until fun ns s' => Rereads s'.Meets s ns s' before
  case start =>
    refine (Rereads.nil s).mono fun ms rest _ _ hms => ?_
    subst hms
    exact ⟨id, fun _ _ _ _ _ _ _ hgives => hgives⟩
  case stop =>
    intro ns s' hstop hns
    refine hns.mono fun ms rest hrest _ hms d hd hfollow => ⟨hms.1 hfollow, ?_⟩
    have hnil := hms.2 d [] [] rest hd rfl hfollow
      (gives_collectWhile_stop (by rw [hrest.kind]; exact hstop))
    simpa using hnil
  case round =>
    intro ns s₁ hgo hns
    refine (round s₁ hgo).mono fun r s₂ hr => ?_
    split
    · refine (hns.append hr).mono fun _ rest _ _ hks => ?_
      obtain ⟨ms, ms', rfl, hms, hmeets, hne, hitem⟩ := hks
      have hgo : q (kindOf (ms'.flatMap Node.tokens ++ rest)) = true := by rwa [hmeets.kind]
      refine ⟨fun _ => by simpa using hms.1 (hq _ hgo), ?_⟩
      rintro d us ks rest' hd rfl hfollow hgives
      rw [List.flatMap_append, List.length_append] at hd
      have hround : (p d).Gives (ms'.flatMap Node.tokens) ms' (us ++ rest') :=
        hitem d (by omega) hfollow
      rw [kindOf_append_of_ne_nil hne] at hgo
      have hall := hms.2 d _ _ rest' (by omega) (List.append_assoc _ _ _).symm
        (by rw [kindOf_append_of_ne_nil hne]; exact hq _ hgo)
        (gives_collectWhile_step hround hne hgo hgives)
      simpa using hall
    · rename_i hno
      exact fun hquiet => absurd (hr.length_lt (fun _ _ _ h => h.1) hquiet) hno

variable {item : Parser (List Green)}

/-- The nodes are what `p` gives for their tokens, of which there are some, if `follow` holds of the
kind behind them. -/
def AreGiven (follow : Kind → Prop) (p : Parser (List Green)) (ns : List Green)
    (rest : List Token) : Prop :=
  ns.flatMap Node.tokens ≠ [] ∧ (follow (kindOf rest) → p.Gives (ns.flatMap Node.tokens) ns rest)

/-- What `p` reads is read again by `p`. -/
def RereadsList (follow : Kind → Prop) (p : Parser (List Green)) (s : ParseState) : Prop :=
  p.Ensures s fun ns s' => Rereads s'.Meets s ns s' (AreGiven follow p)

/-- A loop over items that are read again by the same parser. -/
theorem rereads_items (follow : Kind → Prop) (hq : ∀ k, q k = true → follow k)
    (round : ∀ s, q s.kind = true → RereadsList follow item s) (s : ParseState) :
    (collectWhile (fun s => q s.kind) item).Ensures s fun ns s' =>
      Rereads s'.Meets s ns s' (AreCollected follow (collectWhile (fun s => q s.kind) item)) := by
  have hround (s : ParseState) (hs : q s.kind = true) : item.Ensures s fun ns s' =>
      Rereads s'.Meets s ns s' fun ms rest => ms.flatMap Node.tokens ≠ [] ∧
        ∀ d, (ms.flatMap Node.tokens).length ≤ d → follow (kindOf rest) →
          item.Gives (ms.flatMap Node.tokens) ms rest :=
    (round s hs).mono fun _ _ h => h.mono fun _ _ _ _ hms => ⟨hms.1, fun _ _ => hms.2⟩
  refine (rereads_collectWhile follow (p := fun _ => item) hq hround s).mono fun ns s' h => ?_
  exact h.mono fun ms _ _ _ hms => hms _ (Nat.le_refl _)

/-- An item that gives one node, as part of a list. -/
theorem rereads_single {item : Parser Green} (h : RereadsBefore follow item s) :
    RereadsList follow (do return [← item]) s := by
  simp only [RereadsList, ensures_bind, ensures_pure]
  refine Ensures.mono h fun n s' h => h.mono fun ns rest _ _ hns => ?_
  obtain ⟨n, rfl, hne, hn⟩ := hns
  refine ⟨by simpa using hne, fun hk => ?_⟩
  simpa [-bind_pure_comp] using (hn hk).map (f := fun n => [n])

theorem rereads_commaSeparated (h : ∀ s, RereadsList follow item s) (hcomma : follow .comma)
    (s : ParseState) : RereadsList follow (commaSeparated item) s := by
  simp only [RereadsList, commaSeparated, ensures_bind, ensures_pure]
  refine (h s).mono fun first s₁ h₁ => ?_
  refine (rereads_items follow (q := fun k => k == .comma) (fun k hk => ?_)
    (fun s hs => ?_) s₁).mono fun others s₂ h₂ => (h₁.append h₂).mono fun _ rest _ _ hms => ?_
  · obtain rfl : k = .comma := by simpa using hk
    exact hcomma
  · simp only [RereadsList, ensures_bind, ensures_pure]
    refine (rereads_token (k := .comma) (by simpa using hs) (by simp)).mono fun comma s₁ h₁ => ?_
    refine (h s₁).mono fun ns s₂ h₂ => ((h₁ _).append h₂).mono fun _ rest _ _ hms => ?_
    obtain ⟨_, ms, rfl, ⟨t, rfl, ht⟩, _, hne, hms⟩ := hms
    refine ⟨by simp, fun hfollow => ?_⟩
    exact gives_advance_bind (hms hfollow).map
  · obtain ⟨ms, ms', rfl, ⟨hne, hms⟩, hmeets, hms'⟩ := hms
    refine ⟨by simp [hne], fun hfollow => ?_⟩
    obtain ⟨hcomma, hms'⟩ := hms' hfollow
    rw [List.flatMap_append]
    exact (hms hcomma).bind hms'.map

end Loops

/-! ## Refining -/

section Refine

variable {follow follow' : Kind → Prop} {first : Parser Green}
  {step : Green → Parser (Option Green)}

/-- What a step behind `n` does: nothing, or it makes `n` and some nodes read behind it a branch. -/
def RereadsStep (follow follow' : Kind → Prop) (step : Green → Parser (Option Green)) (n : Green)
    (s : ParseState) (r : Option Green) (s' : ParseState) : Prop :=
  match r with
  | none => s' = s ∧ ∀ m rest, s.Meets rest → follow' (kindOf rest) → (step m).Gives [] none rest
  | some b => follow s.kind ∧ ∃ k parts, b = .group k (n :: parts) ∧ k.isSteady = true ∧
    Rereads s'.Meets s parts s' fun ms rest => ms.flatMap Node.tokens ≠ [] ∧
      ∀ m, follow (kindOf rest) →
        (step m).Gives (ms.flatMap Node.tokens) (some (.group k (m :: ms))) rest

/-- A node that is refined step by step: `follow` holds of the kinds before which a step stops,
`follow'` of the kinds before which the last one does. -/
theorem rereads_refine {s : ParseState} (hfirst : RereadsBefore follow first s)
    (hfollow : ∀ k, follow' k → follow k)
    (hstep : ∀ n s₁, (step n).Ensures s₁ (RereadsStep follow follow' step n s₁)) :
    RereadsBefore follow' (first >>= refine step) s := by
  -- What is read before a step is put before what the steps give from there on.
  let before (ns : List Green) (rest : List Token) : Prop := ∃ n : Green, ns = [n] ∧ n.tokens ≠ [] ∧
    ∀ ts m rest', rest = ts ++ rest' → follow (kindOf rest) → Gives (refine step n) ts m rest' →
      (first >>= refine step).Gives (n.tokens ++ ts) m rest'
  rw [RereadsBefore, ensures_bind]
  refine Ensures.mono hfirst fun n s₁ h₁ => ?_
  refine ensures_refine (fun n s' => Rereads s'.Meets s [n] s' before) _ (fun n s₁ h₁ => ?_)
    (h₁.mono fun ns rest _ _ hns => ?_)
  · refine (hstep n s₁).mono fun r s₂ hr => ?_
    cases r with
    | none =>
      obtain ⟨rfl, hstop⟩ := hr
      refine h₁.mono fun ns rest hrest _ hns => ?_
      obtain ⟨n, rfl, hne, hn⟩ := hns
      refine ⟨n, rfl, hne, fun hk => ?_⟩
      simpa using hn [] n rest rfl (hfollow _ hk) (gives_refine_stop (hstop n rest hrest hk))
    | some b =>
      obtain ⟨hkind, k, parts, rfl, hk, hparts⟩ := hr
      dsimp only
      split
      · refine ((h₁.append hparts).branch k hk).mono fun ns rest _ _ hns => ?_
        obtain ⟨_, rfl, _, ms, rfl, ⟨n, rfl, hne, hn⟩, hmeets, hms, hstep⟩ := hns
        refine ⟨_, rfl, by simp [hms], fun ts m rest' hrest hk hgives => ?_⟩
        subst hrest
        have hall := hn _ m rest' (List.append_assoc _ _ _).symm (hmeets.kind ▸ hkind)
          (gives_refine_step (hstep n hk) hms hgives)
        simpa using hall
      · rename_i hno
        exact fun hquiet => absurd (hparts.length_lt (fun _ _ _ h => h.1) hquiet) hno
  · obtain ⟨n, rfl, hne, hn⟩ := hns
    refine ⟨n, rfl, hne, fun ts m rest' hrest hk hgives => ?_⟩
    subst hrest
    exact (hn hk).bind hgives

end Refine

/-! ## Items -/

/-- An element of a list is what its parser reads; a token at which nothing was read was
reported. -/
theorem rereads_element {code : ErrorCode} (hcode : code ≠ .tooDeeplyNested) {item : Parser Green}
    {s : ParseState} {post : List Green → List Token → Prop}
    (h : item.Ensures s fun n s' => Rereads s'.Meets s [n] s' post) :
    (element code item).Ensures s fun ns s' => Rereads s'.Meets s ns s' post := by
  simp only [element, ensures_bind, ensures_get]
  refine h.mono fun node s₁ h₁ => ?_
  rw [ensures_ite]
  constructor
  · rintro ⟨-, hkind⟩
    simp only [ensures_bind, ensures_pure]
    exact (not_quiet_skip hcode hkind).mono fun _ _ hnot => .of_not_quiet hnot
  · intro _
    exact h₁

/-- An item that is read again is so as an element of a list. -/
theorem rereads_item {code : ErrorCode} (hcode : code ≠ .tooDeeplyNested) {item : Parser Green}
    {s : ParseState} {follow : Kind → Prop} (h : RereadsBefore follow item s) :
    RereadsList follow (element code item) s := by
  refine rereads_element hcode (Ensures.mono h fun n s' h => h.mono fun ns rest _ _ hns => ?_)
  obtain ⟨n, rfl, hne, hn⟩ := hns
  exact ⟨by simpa using hne, fun hk => by simpa using gives_element code (hn hk) hne⟩

/-- The nodes are modifiers, and read as such before any other token. -/
def AreModifiers (ns : List Green) (rest : List Token) : Prop :=
  (∀ t ∈ ns.flatMap Node.tokens, t.kind.isModifier = true) ∧
    modifiers.Gives (ns.flatMap Node.tokens) ns rest

theorem rereads_modifiers (s : ParseState) :
    modifiers.Ensures s fun ns s' => Rereads s'.Meets s ns s' AreModifiers := by
  have hend {s : ParseState} (hs : s.kind.isModifier = true) : s.kind ≠ .endOfFile := by
    intro hend
    simp [hend, Kind.isModifier] at hs
  have hgives : modifiers.Ensures s fun ns s' =>
      Rereads s'.Meets s ns s' (AreCollected (fun _ => True) modifiers) := by
    refine rereads_items _ (q := Kind.isModifier) (fun _ _ => trivial) (fun s hs => ?_) s
    simp only [RereadsList, ensures_bind, ensures_pure]
    refine (rereads_advance (hend hs)).mono fun word s₁ h₁ => (h₁ _).mono fun _ rest _ _ hms => ?_
    obtain ⟨t, rfl, -⟩ := hms
    exact ⟨by simp, fun _ => (gives_advance t rest).map⟩
  have hkinds : modifiers.Ensures s fun ns s' => Rereads s'.Meets s ns s'
      fun ms _ => ∀ t ∈ ms.flatMap Node.tokens, t.kind.isModifier = true := by
    refine ensures_collectWhile (fun ns s' => Rereads s'.Meets s ns s' fun ms _ =>
      ∀ t ∈ ms.flatMap Node.tokens, t.kind.isModifier = true) (fun ns s₁ hs h₁ => ?_) ?_
    · simp only [ensures_bind, ensures_pure]
      refine (rereads_advance (hend hs)).mono fun word s₂ h₂ => ?_
      refine (h₁.append (h₂ _)).mono fun _ rest _ _ hms => ?_
      obtain ⟨ms, _, rfl, hms, -, t, rfl, ht⟩ := hms
      simp only [List.flatMap_append, List.forall_mem_append]
      exact ⟨hms, by simpa [ht] using hs⟩
    · refine (Rereads.nil s).mono fun ms rest _ _ hms => ?_
      simp [hms]
  refine (hgives.and hkinds).mono fun ns s' h => (h.1.and h.2).mono fun ms rest _ _ hms => ?_
  exact ⟨hms.2, (hms.1 trivial).2⟩

/-! ## Tokens that may be left out -/

theorem gives_pure_bind {α β : Type} {f : α → Parser β} {a : α} {b : β} {ts rest : List Token}
    (h : Gives (f a) ts b rest) : Gives (pure a >>= f) ts b rest := h

theorem gives_accept {k : Kind} {t : Token} (ht : t.kind = k) (rest : List Token) :
    (accept k).Gives [t] [.leaf t] rest := by
  intro s hs
  have hk : s.kind = k := by rw [s.kind_eq, hs, List.singleton_append, kindOf_cons, ht]
  obtain ⟨hleaf, hrest, herrors⟩ := gives_advance t rest s hs
  simp only [Ensures, accept, if_pos hk]
  exact ⟨congrArg (fun n => [n]) hleaf, hrest, herrors⟩

theorem gives_accept_nothing {k : Kind} {rest : List Token} (hk : kindOf rest ≠ k) :
    (accept k).Gives [] [] rest := by
  intro s hs
  have hk : s.kind ≠ k := by rwa [s.kind_eq, hs]
  simp only [Ensures, accept, if_neg hk]
  exact ⟨trivial, hs, trivial⟩

/-- The token is read, or it is left out where another one stands. -/
theorem rereads_accept (k : Kind) (s : ParseState) (hk : k ≠ .endOfFile) :
    (accept k).Ensures s fun ns s' => ns = [] ∧ s' = s ∧ s.kind ≠ k ∨
      ∃ n, ns = [n] ∧ ∀ fit, Rereads fit s [n] s' (IsToken k) := by
  unfold Ensures accept
  split
  · rename_i hs
    exact .inr ⟨_, rfl, rereads_token hs hk⟩
  · rename_i hs
    exact .inl ⟨rfl, rfl, hs⟩

/-- Whether the token is there or not, it is accepted again. -/
theorem rereads_accepted (k : Kind) (s : ParseState) (hk : k ≠ .endOfFile) :
    (accept k).Ensures s fun ns s' => Rereads s'.Meets s ns s' fun ms rest =>
      (accept k).Gives (ms.flatMap Node.tokens) ms rest := by
  refine (rereads_accept k s hk).mono fun ns s₁ hns => ?_
  rcases hns with ⟨rfl, rfl, hne⟩ | ⟨n, rfl, hn⟩
  · refine (Rereads.nil s₁).mono fun ms rest hrest _ hms => ?_
    subst hms
    exact gives_accept_nothing (hrest.kind ▸ hne)
  · refine (hn _).mono fun ms rest _ _ hms => ?_
    obtain ⟨t, rfl, ht⟩ := hms
    exact gives_accept ht rest

/-! ## Depth -/

/-- The node is what `p` gives for its tokens at each depth from their number on. -/
def IsGivenFrom (p : Nat → Parser Green) (ns : List Green) (rest : List Token) : Prop :=
  ∃ n : Green, ns = [n] ∧ n.tokens ≠ [] ∧ ∀ d, n.tokens.length ≤ d → (p d).Gives n.tokens n rest

/-- Elements of a list that are read again at each depth from the number of their tokens on. -/
theorem rereads_elements (code : ErrorCode) (hcode : code ≠ .tooDeeplyNested) {item : Parser Green}
    {p : Nat → Parser Green} {s : ParseState}
    (h : item.Ensures s fun n s' => Rereads s'.Meets s [n] s' (IsGivenFrom p)) :
    (element code item).Ensures s fun ns s' => Rereads s'.Meets s ns s' fun ms rest =>
      ms.flatMap Node.tokens ≠ [] ∧ ∀ d, (ms.flatMap Node.tokens).length ≤ d → True →
        (element code (p d)).Gives (ms.flatMap Node.tokens) ms rest := by
  refine rereads_element hcode (h.mono fun n s' h => h.mono fun ns rest _ _ hns => ?_)
  obtain ⟨n, rfl, hne, hn⟩ := hns
  refine ⟨by simpa using hne, fun d hd _ => ?_⟩
  simpa using gives_element code (hn d (by simpa using hd)) hne

end Parser

end NullLint
