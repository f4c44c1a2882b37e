import NullLint.Proofs.Parser.Producing

/-!
# Parsers read every lexeme once

A parser moves lexemes from the front of its input into the nodes that it builds. Nothing is
dropped, copied or reordered, whatever the input: an empty token, flagged as missing, is put in
where the source lacks one, and all other tokens of the nodes built are the lexemes read, in order.
Only tokens of a few kinds are ever put in, and only branches of node kinds are built.
-/

namespace NullLint

/-- The tokens are the lexemes, in order, with empty tokens put in where the source lacks one. -/
inductive Fills : List Token → List Lexeme → Prop where
  | nil : Fills [] []
  | read (l : Lexeme) {ts : List Token} {ls : List Lexeme} (h : Fills ts ls) :
      Fills (l.token :: ts) (l :: ls)
  | absent (k : Kind) (hk : k.isSupplied = true) {ts : List Token} {ls : List Lexeme}
      (h : Fills ts ls) : Fills (.absent k :: ts) ls

theorem Fills.append {ts us : List Token} {ls ms : List Lexeme} (h : Fills ts ls)
    (h' : Fills us ms) : Fills (ts ++ us) (ls ++ ms) := by
  induction h with
  | nil => exact h'
  | read l _ ih => exact .read l ih
  | absent k hk _ ih => exact .absent k hk ih

/-- Every branch has the kind of a node. -/
def Node.BranchKinds {α : Type} (n : Node α) : Prop :=
  ∀ m ∈ n.preorder, m.token? = none → m.kind.isNode = true

theorem Node.branchKinds_token {α : Type} (a : α) (t : Token) : (token a t).BranchKinds := by
  intro m hm htoken
  obtain rfl : m = .token a t := by simpa using hm
  cases htoken

theorem Node.branchKinds_branch {α : Type} {a : α} {k : Kind} {cs : List (Node α)} :
    (branch a k cs).BranchKinds ↔ k.isNode = true ∧ ∀ c ∈ cs, c.BranchKinds := by
  constructor
  · intro h
    refine ⟨h (branch a k cs) (by simp) rfl, fun c hc m hm => h m ?_⟩
    exact preorder_branch a k cs ▸ List.mem_cons_of_mem _ (List.mem_flatMap.2 ⟨c, hc, hm⟩)
  · rintro ⟨hk, hcs⟩ m hm htoken
    rw [preorder_branch, List.mem_cons, List.mem_flatMap] at hm
    rcases hm with rfl | ⟨c, hc, hm⟩
    · exact hk
    · exact hcs c hc m hm htoken

/-- Between `s` and `s'` the lexemes of `nodes` are read, and no others. -/
def Reads (s : ParseState) (nodes : List Green) (s' : ParseState) : Prop :=
  (∀ n ∈ nodes, n.BranchKinds) ∧
    ∃ read, s.rest = read ++ s'.rest ∧ Fills (nodes.flatMap Node.tokens) read

namespace Reads

variable {s s' s'' : ParseState} {ns ms : List Green}

theorem of_rest_eq (h : s.rest = s'.rest) : Reads s [] s' :=
  ⟨by simp, [], h, .nil⟩

theorem refl (s : ParseState) : Reads s [] s := of_rest_eq rfl

theorem append (h : Reads s ns s') (h' : Reads s' ms s'') : Reads s (ns ++ ms) s'' := by
  obtain ⟨hns, read, hs, ht⟩ := h
  obtain ⟨hms, read', hs', ht'⟩ := h'
  refine ⟨fun n hn => ?_, read ++ read', by rw [hs, hs', List.append_assoc], ?_⟩
  · exact (List.mem_append.1 hn).elim (hns n) (hms n)
  · rw [List.flatMap_append]
    exact ht.append ht'

/-- A branch holds the lexemes of its children. -/
theorem group (h : Reads s ns s') (k : Kind) (hk : k.isNode = true) :
    Reads s [.group k ns] s' := by
  obtain ⟨hns, hread⟩ := h
  refine ⟨?_, by simpa using hread⟩
  simpa using Node.branchKinds_branch.2 ⟨hk, hns⟩

/-- A token that the source lacks is put in without reading. -/
theorem absent (h : Reads s [] s') (k : Kind) (hk : k.isSupplied = true) :
    Reads s [.leaf (.absent k)] s' := by
  obtain ⟨-, read, hs, ht⟩ := h
  exact ⟨by simpa using Node.branchKinds_token () (.absent k), read, hs, .absent k hk ht⟩

end Reads

/-- Whatever is built, the lexemes read make up its tokens. -/
theorem Builds.reads {s s' : ParseState} {ns : List Green} (h : Builds s ns s') :
    Reads s ns s' := by
  induction h with
  | refl s => exact .refl s
  | append _ _ ih ih' => exact ih.append ih'
  | @read s l rest hs hl =>
    exact ⟨by simpa using Node.branchKinds_token () l.token, [l], hs, .read l .nil⟩
  | absent s k hk _ => exact (Reads.of_rest_eq (Parser.rest_report s _).symm).absent k hk
  | group _ k hk _ ih => exact ih.group k hk
  | spoiled _ hspoils _ ih ih' =>
    have hbetween := Reads.of_rest_eq hspoils.rest_eq.symm
    exact (ih.append (hbetween.append ih')).group .errorNode rfl

namespace Parser

theorem reads_advance (s : ParseState) :
    advance.Ensures s fun n s' => Reads s [n] s' := by
  unfold Ensures advance
  cases h : s.rest with
  | nil => exact Reads.absent (.refl s) _ rfl
  | cons l rest =>
    exact ⟨by simpa using Node.branchKinds_token () l.token, [l], h, .read l .nil⟩

/-! ## Whole files -/

/-- The first lexeme that is the end of the file is the last lexeme. -/
def EndsOnce (ls : List Lexeme) : Prop :=
  ∀ l rest, l :: rest <:+ ls → l.kind = .endOfFile → rest = []

theorem rest_advance_of_endsOnce {s : ParseState} (hend : EndsOnce s.rest)
    (hk : s.kind = .endOfFile) : (advance s).2.rest = [] := by
  cases hs : s.rest with
  | nil => simp [advance, hs]
  | cons l rest =>
    have hl : l.kind = .endOfFile := by simpa [ParseState.kind, hs, kindAhead] using hk
    simpa [advance, hs] using hend l rest (by simp [hs]) hl

/-- A file is read to its end. -/
theorem reads_compilationUnit {s : ParseState} (hend : EndsOnce s.rest) :
    compilationUnit.Ensures s fun n s' => Reads s [n] s' ∧ s'.rest = [] := by
  simp only [compilationUnit, ensures_bind, ensures_pure]
  apply (makes_fileItems s).mono
  rintro ns s₁ ⟨h₁, hk⟩
  have hend₁ : EndsOnce s₁.rest := fun l rest hl => hend l rest (hl.trans h₁.1.rest_suffix)
  refine ⟨(h₁.1.reads.append (reads_advance s₁)).group _ rfl, ?_⟩
  exact rest_advance_of_endsOnce hend₁ hk

end Parser

end NullLint
