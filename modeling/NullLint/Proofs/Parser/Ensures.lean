import NullLint.Syntax.Parser.Declaration

/-!
# What a parser ensures

A parser is described by what holds of its result and of the state it leaves (`Ensures`). The
description of a sequence of parsers is put together from those of its parts, and that of a loop
from an invariant that each of its rounds keeps.
-/

namespace NullLint.Parser

variable {α β : Type}

/-- Run from `s`, the parser gives a result and leaves a state that satisfy `post`. -/
def Ensures (p : Parser α) (s : ParseState) (post : α → ParseState → Prop) : Prop :=
  post (p s).1 (p s).2

theorem Ensures.mono {p : Parser α} {s : ParseState} {post post' : α → ParseState → Prop}
    (h : p.Ensures s post) (h' : ∀ a s', post a s' → post' a s') : p.Ensures s post' :=
  h' _ _ h

theorem Ensures.and {p : Parser α} {s : ParseState} {post post' : α → ParseState → Prop}
    (h : p.Ensures s post) (h' : p.Ensures s post') :
    p.Ensures s fun a s' => post a s' ∧ post' a s' :=
  ⟨h, h'⟩

@[simp] theorem ensures_pure {a : α} {s : ParseState} {post : α → ParseState → Prop} :
    Ensures (pure a) s post ↔ post a s := Iff.rfl

@[simp] theorem ensures_bind {p : Parser α} {f : α → Parser β} {s : ParseState}
    {post : β → ParseState → Prop} :
    Ensures (p >>= f) s post ↔ p.Ensures s fun a s' => (f a).Ensures s' post := Iff.rfl

@[simp] theorem ensures_get {s : ParseState} {post : ParseState → ParseState → Prop} :
    Ensures get s post ↔ post s s := Iff.rfl

@[simp] theorem ensures_modify {f : ParseState → ParseState} {s : ParseState}
    {post : PUnit → ParseState → Prop} :
    Ensures (modify f) s post ↔ post ⟨⟩ (f s) := Iff.rfl

@[simp] theorem ensures_sees {k : Kind} {s : ParseState} {post : Bool → ParseState → Prop} :
    (sees k).Ensures s post ↔ post (s.kind == k) s := Iff.rfl

theorem ensures_ite {c : Prop} [Decidable c] {p q : Parser α} {s : ParseState}
    {post : α → ParseState → Prop} :
    Ensures (if c then p else q) s post ↔
      (c → p.Ensures s post) ∧ (¬c → q.Ensures s post) := by
  by_cases h : c <;> simp [h]

/-! ## Loops -/

theorem ensures_collect_from {item : Parser (List Green × Bool)}
    {inv post : List Green → ParseState → Prop}
    (round : ∀ ns s, inv ns s → item.Ensures s fun r s' =>
      if r.2 = true ∧ s'.rest.length < s.rest.length then inv (ns ++ r.1) s'
      else post (ns ++ r.1) s')
    {ns : List Green} {s : ParseState} (start : inv ns s) :
    Ensures (collect item) s fun ms s' => post (ns ++ ms) s' := by
  simp only [Ensures] at round ⊢
  fun_induction collect item s generalizing ns with
  | case1 s chunk more s' hi hgo tail s'' ht ih =>
    have hr := round ns s start
    rw [hi, if_pos hgo] at hr
    have hpost := ih hr
    rw [ht] at hpost
    simpa only [List.append_assoc] using hpost
  | case2 s chunk more s' hi hstop =>
    have hr := round ns s start
    rwa [hi, if_neg hstop] at hr

/-- The loop rule: `inv` holds of what is collected before a round. A round keeps it if the loop
goes on behind it, and gives `post` if not. -/
theorem ensures_collect {item : Parser (List Green × Bool)}
    (inv post : List Green → ParseState → Prop)
    (round : ∀ ns s, inv ns s → item.Ensures s fun r s' =>
      if r.2 = true ∧ s'.rest.length < s.rest.length then inv (ns ++ r.1) s'
      else post (ns ++ r.1) s')
    {s : ParseState} (start : inv [] s) : Ensures (collect item) s post :=
  ensures_collect_from round start

/-- The loop rule for a loop with a condition. It stops where the condition fails, and behind a
round that reads nothing. -/
theorem ensures_collectWhile_until {more : ParseState → Bool} {item : Parser (List Green)}
    (inv post : List Green → ParseState → Prop)
    (round : ∀ ns s, more s = true → inv ns s → item.Ensures s fun r s' =>
      if s'.rest.length < s.rest.length then inv (ns ++ r) s' else post (ns ++ r) s')
    (stop : ∀ ns s, more s = false → inv ns s → post ns s)
    {s : ParseState} (start : inv [] s) : (collectWhile more item).Ensures s post := by
  refine ensures_collect inv post (fun ns s hs => ?_) start
  cases hm : more s with
  | true =>
    have hr := round ns s hm hs
    cases hi : item s with
    | mk chunk s' => simpa [Ensures, hm, hi] using hr
  | false => simpa [Ensures, hm] using stop ns s hm hs

theorem ensures_collectWhile {more : ParseState → Bool} {item : Parser (List Green)}
    (inv : List Green → ParseState → Prop)
    (round : ∀ ns s, more s = true → inv ns s → item.Ensures s fun r s' => inv (ns ++ r) s')
    {s : ParseState} (start : inv [] s) : (collectWhile more item).Ensures s inv := by
  refine ensures_collectWhile_until inv inv (fun ns s hm hs => ?_) (fun _ _ _ hs => hs) start
  refine (round ns s hm hs).mono fun r s' hr => ?_
  split <;> exact hr

/-- The rule for refining a value: a step keeps `inv` if another one follows. -/
theorem ensures_refine {step : α → Parser (Option α)} (inv post : α → ParseState → Prop)
    (round : ∀ a s, inv a s → (step a).Ensures s fun r s' =>
      match r with
      | none => post a s'
      | some b => if s'.rest.length < s.rest.length then inv b s' else post b s')
    {a : α} {s : ParseState} (start : inv a s) :
    Ensures (refine step a) s post := by
  simp only [Ensures] at round ⊢
  fun_induction refine step a s with
  | case1 a s s' hs =>
    have hr := round a s start
    rwa [hs] at hr
  | case2 a s b s' hs hgo ih =>
    have hr := round a s start
    simp only [hs, if_pos hgo] at hr
    exact ih hr
  | case3 a s b s' hs hstop =>
    have hr := round a s start
    simpa only [hs, if_neg hstop] using hr

/-! ## Progress -/

@[simp] theorem rest_report (s : ParseState) (e : SyntaxError) : (s.report e).rest = s.rest := by
  unfold ParseState.report
  split <;> rfl

@[simp] theorem kind_report (s : ParseState) (e : SyntaxError) : (s.report e).kind = s.kind := by
  simp [ParseState.kind]

theorem ne_nil_of_kind_ne {s : ParseState} (h : s.kind ≠ .endOfFile) : s.rest ≠ [] := by
  intro hnil
  simp [ParseState.kind, hnil, kindAhead] at h

theorem rest_advance (s : ParseState) : (advance s).2.rest = s.rest.tail := by
  unfold advance
  cases hs : s.rest with
  | nil => exact hs
  | cons l rest => rfl

theorem length_advance {s : ParseState} (h : s.kind ≠ .endOfFile) :
    (advance s).2.rest.length < s.rest.length := by
  have hpos : 0 < s.rest.length := List.length_pos_iff.2 (ne_nil_of_kind_ne h)
  rw [rest_advance, List.length_tail]
  omega

theorem length_skip (code : ErrorCode) {s : ParseState} (h : s.kind ≠ .endOfFile) :
    (skip code s).2.rest.length < s.rest.length := by
  have hrest : (complain code s).2.rest = s.rest := rest_report _ _
  have hkind : (complain code s).2.kind ≠ .endOfFile := by simpa [complain] using h
  have hadvance := length_advance hkind
  rwa [hrest] at hadvance

end NullLint.Parser
