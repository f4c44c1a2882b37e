import NullLint.Proofs.Lexer.Tokens

/-!
# Trivia in their places

A run of trivia is found by looking at the trivia and at the start of what stands behind them. So it
stays the same when the text behind the next token changes. Tokens are spaced if their trivia are
the ones found in the text that they spell (`Lexer.Spaced`): lexemes are spaced, tokens stay spaced
when one is dropped and the one before it takes over its trailing trivia, and a text that spaced
tokens spell is lexed into just these tokens if kinds and texts agree.
-/

namespace NullLint.Lexer

/-! ## What a run of trivia looks at -/

theorem takeWhile_append_of_lt {α : Type} {p : α → Bool} {w x : List α}
    (h : ((w ++ x).takeWhile p).length < w.length) (y : List α) :
    (w ++ y).takeWhile p = (w ++ x).takeWhile p := by
  rw [List.takeWhile_append] at h ⊢
  split at h
  · rw [List.length_append] at h
    omega
  · rename_i hne
    rw [if_neg hne, List.takeWhile_append, if_neg hne]

theorem take_length_takeWhile {α : Type} (p : α → Bool) (l : List α) :
    l.take (l.takeWhile p).length = l.takeWhile p :=
  (List.prefix_iff_eq_take.1 (List.takeWhile_prefix p)).symm

theorem drop_length_takeWhile {α : Type} (p : α → Bool) (l : List α) :
    l.drop (l.takeWhile p).length = l.dropWhile p := by
  have hparts := List.take_append_drop (l.takeWhile p).length l
  rw [take_length_takeWhile] at hparts
  exact List.append_cancel_left (hparts.trans List.takeWhile_append_dropWhile.symm)

theorem head?_append_eq {α : Type} {w : List α} (hw : w ≠ []) (x y : List α) :
    (w ++ x).head? = (w ++ y).head? := by
  cases w with
  | nil => exact absurd rfl hw
  | cons a w => rfl

theorem two_le_of_commentEnd? {cs : List Char} {n : Nat} (h : commentEnd? cs = some n) :
    2 ≤ n := by
  induction cs generalizing n with
  | nil => cases h
  | cons c cs ih =>
    rw [commentEnd?] at h
    split at h
    · cases h
      exact Nat.le_refl 2
    · obtain ⟨m, hm, rfl⟩ := Option.map_eq_some_iff.1 h
      exact Nat.le_succ_of_le (ih hm)

/-- The end of a comment is found without looking behind it. -/
theorem commentEnd?_append {w x : List Char} {n : Nat} (h : commentEnd? (w ++ x) = some n)
    (hn : n ≤ w.length) (y : List Char) : commentEnd? (w ++ y) = some n := by
  induction w generalizing n with
  | nil =>
    have hge := two_le_of_commentEnd? h
    rw [List.length_nil] at hn
    omega
  | cons c w ih =>
    have hw : w ≠ [] := by
      rintro rfl
      have hge := two_le_of_commentEnd? h
      rw [List.length_singleton] at hn
      omega
    rw [List.cons_append, commentEnd?] at h ⊢
    rw [head?_append_eq hw y x]
    by_cases hend : (c == '*' && (w ++ x).head? == some '/') = true
    · rwa [if_pos hend] at h ⊢
    · rw [if_neg hend] at h ⊢
      obtain ⟨m, hm, rfl⟩ := Option.map_eq_some_iff.1 h
      rw [ih hm (by simpa using hn)]
      rfl

/-- A piece of trivia is recognised without looking further than one character behind it. -/
theorem triviaShape?_append {lineStart : Bool} {c : Char} {w x : List Char} {shape : TriviaShape}
    (h : triviaShape? lineStart c (w ++ x) = some shape) (hmore : shape.more < w.length)
    (y : List Char) : triviaShape? lineStart c (w ++ y) = some shape := by
  have hw : w ≠ [] := by
    rintro rfl
    simp at hmore
  unfold triviaShape? at h ⊢
  rw [head?_append_eq hw y x]
  by_cases hspace : isSpace c = true
  · rw [if_pos hspace] at h ⊢
    cases h
    rw [takeWhile_append_of_lt hmore y]
  by_cases hbreak : isLineBreak c = true
  · rwa [if_neg hspace, if_pos hbreak] at h ⊢
  by_cases hline : (c == '/' && (w ++ x).head? == some '/') = true
  · rw [if_neg hspace, if_neg hbreak, if_pos hline] at h ⊢
    cases h
    rw [restOfLine, takeWhile_append_of_lt hmore y]
    rfl
  by_cases hblock : (c == '/' && (w ++ x).head? == some '*') = true
  · rw [if_neg hspace, if_neg hbreak, if_neg hline, if_pos hblock] at h ⊢
    have hdrop (z : List Char) : (w ++ z).drop 1 = w.drop 1 ++ z :=
      List.drop_append_of_le_length (List.length_pos_of_ne_nil hw)
    rw [hdrop] at h ⊢
    cases hclosed : commentEnd? (w.drop 1 ++ x) with
    | none =>
      rw [hclosed] at h
      cases h
      have hle : w.length ≤ (w ++ x).length := by simp
      exact absurd hmore (Nat.not_lt_of_le hle)
    | some n =>
      rw [hclosed] at h
      cases h
      have hle : n ≤ (w.drop 1).length := by
        simp only [List.length_drop] at hmore ⊢
        omega
      rw [commentEnd?_append hclosed hle y]
  rw [if_neg hspace, if_neg hbreak, if_neg hline, if_neg hblock] at h ⊢
  by_cases hdirective : (c == '#' && lineStart) = true
  · rw [if_pos hdirective] at h ⊢
    cases h
    rw [restOfLine, takeWhile_append_of_lt hmore y]
    rfl
  · rwa [if_neg hdirective] at h ⊢

theorem triviaShape?_eq_none_iff {lineStart : Bool} {c : Char} {cs : List Char} :
    triviaShape? lineStart c cs = none ↔ isSpace c = false ∧ isLineBreak c = false ∧
      ¬(c = '/' ∧ (cs.head? = some '/' ∨ cs.head? = some '*')) ∧ ¬(c = '#' ∧ lineStart = true) := by
  unfold triviaShape?
  split
  · simp_all
  split
  · simp_all
  split
  · simp_all
  split
  · split <;> simp_all
  split
  · simp_all
  · simp_all

/-- That a character starts no trivia is seen without looking behind it, unless it is a slash. -/
theorem triviaShape?_eq_none_append {lineStart : Bool} {c : Char} {w x : List Char}
    (h : triviaShape? lineStart c (w ++ x) = none) (hw : w = [] → c ≠ '/') (y : List Char) :
    triviaShape? lineStart c (w ++ y) = none := by
  obtain ⟨hspace, hbreak, hcomment, hdirective⟩ := triviaShape?_eq_none_iff.1 h
  refine triviaShape?_eq_none_iff.2 ⟨hspace, hbreak, ?_, hdirective⟩
  rintro ⟨hc, hhead⟩
  rw [head?_append_eq (fun hnil => hw hnil hc) y x] at hhead
  exact hcomment ⟨hc, hhead⟩

/-! ## Runs of trivia -/

/-- The piece of trivia that a shape cuts off. -/
def TriviaShape.cut (shape : TriviaShape) (c : Char) (tail : List Char) : Trivia :=
  ⟨shape.kind, String.ofList (c :: tail.take shape.more)⟩

/-- Reading `cs` gives the trivia and leaves the rest. -/
inductive Gathers (trailing : Bool) : Bool → List Char → List Trivia → List Char → Prop where
  | nil (lineStart : Bool) : Gathers trailing lineStart [] [] []
  | token {lineStart : Bool} {c : Char} {tail : List Char}
      (shape : triviaShape? (lineStart && !trailing) c tail = none) :
      Gathers trailing lineStart (c :: tail) [] (c :: tail)
  | lineEnd {lineStart : Bool} {c : Char} {tail : List Char} {shape : TriviaShape}
      (found : triviaShape? (lineStart && !trailing) c tail = some shape)
      (stop : (trailing && shape.kind == .endOfLine) = true) :
      Gathers trailing lineStart (c :: tail) [shape.cut c tail] (tail.drop shape.more)
  | more {lineStart : Bool} {c : Char} {tail rest : List Char} {shape : TriviaShape}
      {trivia : List Trivia}
      (found : triviaShape? (lineStart && !trailing) c tail = some shape)
      (goOn : (trailing && shape.kind == .endOfLine) = false)
      (behind : Gathers trailing
        (keepsLineStart lineStart shape.kind (c :: tail.take shape.more))
        (tail.drop shape.more) trivia rest) :
      Gathers trailing lineStart (c :: tail) (shape.cut c tail :: trivia) rest

variable {trailing lineStart : Bool} {cs w x v rest : List Char} {trivia : List Trivia}

theorem gathers_triviaRun (trailing lineStart : Bool) (offset : Nat) (cs : List Char) :
    Gathers trailing lineStart cs (triviaRun trailing lineStart offset cs).trivia
      (triviaRun trailing lineStart offset cs).rest := by
  fun_induction triviaRun trailing lineStart offset cs with
  | case1 => exact .nil _
  | case2 lineStart offset c tail hshape => exact .token hshape
  | case3 lineStart offset c tail shape hshape text trivia errors after hend =>
    exact .lineEnd hshape hend
  | case4 lineStart offset c tail shape hshape text trivia errors after hend run ih =>
    exact .more hshape (by simpa using hend) ih

namespace Gathers

theorem triviaRun_eq (h : Gathers trailing lineStart cs trivia rest) (offset : Nat) :
    (triviaRun trailing lineStart offset cs).trivia = trivia ∧
      (triviaRun trailing lineStart offset cs).rest = rest := by
  induction h generalizing offset with
  | nil => simp [triviaRun]
  | token shape =>
    rw [triviaRun, shape]
    exact ⟨rfl, rfl⟩
  | lineEnd found stop =>
    rw [triviaRun, found]
    simp only [stop, if_true]
    exact ⟨rfl, trivial⟩
  | more found goOn behind ih =>
    rw [triviaRun, found]
    simp only [goOn, Bool.false_eq_true, if_false]
    obtain ⟨htrivia, hrest⟩ := ih _
    exact ⟨congrArg (_ :: ·) htrivia, hrest⟩

theorem length_le (h : Gathers trailing lineStart cs trivia rest) : rest.length ≤ cs.length := by
  rw [← (h.triviaRun_eq 0).2]
  exact length_rest_triviaRun trailing lineStart 0 cs

theorem toList_append (h : Gathers trailing lineStart cs trivia rest) :
    (Trivia.join trivia).toList ++ rest = cs := by
  obtain ⟨htrivia, hrest⟩ := h.triviaRun_eq 0
  rw [← htrivia, ← hrest]
  exact toList_triviaRun trailing lineStart 0 cs

theorem unique {trivia' : List Trivia} {rest' : List Char}
    (h : Gathers trailing lineStart cs trivia rest)
    (h' : Gathers trailing lineStart cs trivia' rest') :
    trivia = trivia' ∧ rest = rest' := by
  obtain ⟨htrivia, hrest⟩ := h.triviaRun_eq 0
  obtain ⟨htrivia', hrest'⟩ := h'.triviaRun_eq 0
  exact ⟨htrivia.symm.trans htrivia', hrest.symm.trans hrest'⟩

/-- What a shape cuts off lies before what is left in the end. -/
theorem exists_tail {c : Char} {tail : List Char} {k : Nat} (hcs : c :: tail = w ++ x)
    (hle : (v ++ x).length ≤ (tail.drop k).length) (hv : v ≠ []) :
    ∃ w', w = c :: w' ∧ tail = w' ++ x ∧ k < w'.length := by
  have hpos := List.length_pos_of_ne_nil hv
  simp only [List.length_append, List.length_drop] at hle
  cases w with
  | nil =>
    have hlength := congrArg List.length hcs
    simp only [List.length_cons, List.nil_append] at hlength
    omega
  | cons d w =>
    obtain ⟨rfl, rfl⟩ : c = d ∧ tail = w ++ x := by simpa using hcs
    rw [List.length_append] at hle
    exact ⟨w, rfl, rfl, by omega⟩

/-- A run of trivia does not depend on what stands behind the next token. -/
theorem append (h : Gathers trailing lineStart cs trivia rest) (hcs : cs = w ++ x)
    (hrest : rest = v ++ x) (hv : v ≠ []) (hslash : v ≠ ['/']) (y : List Char) :
    Gathers trailing lineStart (w ++ y) trivia (v ++ y) := by
  induction h generalizing w with
  | nil => simp_all
  | @token lineStart c tail shape =>
    obtain rfl : v = w := List.append_cancel_right (hrest.symm.trans hcs)
    cases v with
    | nil => exact absurd rfl hv
    | cons d v =>
      obtain ⟨rfl, rfl⟩ : c = d ∧ tail = v ++ x := by simpa using hcs
      exact .token (triviaShape?_eq_none_append shape (by rintro rfl rfl; exact hslash rfl) y)
  | @lineEnd lineStart c tail shape found stop =>
    obtain ⟨w, rfl, rfl, hlt⟩ := exists_tail hcs (Nat.le_of_eq (congrArg _ hrest.symm)) hv
    have hle := Nat.le_of_lt hlt
    rw [List.drop_append_of_le_length hle] at hrest
    have hcut : shape.cut c (w ++ x) = shape.cut c (w ++ y) := by
      rw [TriviaShape.cut, TriviaShape.cut, List.take_append_of_le_length hle,
        List.take_append_of_le_length hle]
    have hleft : v ++ y = (w ++ y).drop shape.more := by
      rw [List.drop_append_of_le_length hle, List.append_cancel_right hrest]
    rw [hcut, hleft]
    exact .lineEnd (triviaShape?_append found hlt y) stop
  | @more lineStart c tail rest shape trivia found goOn behind ih =>
    obtain ⟨w, rfl, rfl, hlt⟩ := exists_tail hcs (hrest ▸ behind.length_le) hv
    have hle := Nat.le_of_lt hlt
    have htake : (w ++ x).take shape.more = (w ++ y).take shape.more := by
      rw [List.take_append_of_le_length hle, List.take_append_of_le_length hle]
    have hcut : shape.cut c (w ++ x) = shape.cut c (w ++ y) := by
      rw [TriviaShape.cut, TriviaShape.cut, htake]
    have hbehind := ih (List.drop_append_of_le_length hle) hrest
    rw [← List.drop_append_of_le_length hle, htake] at hbehind
    rw [hcut]
    exact .more (triviaShape?_append found hlt y) goOn hbehind

end Gathers

/-! ## Spaced tokens -/

/-- Before the rest, the trivia are found as they are. -/
def Finds (trailing lineStart : Bool) (trivia : List Trivia) (rest : List Char) : Prop :=
  Gathers trailing lineStart ((Trivia.join trivia).toList ++ rest) trivia rest

theorem Gathers.finds (h : Gathers trailing lineStart cs trivia rest) :
    Finds trailing lineStart trivia rest := by
  rwa [Finds, h.toList_append]

theorem Finds.append (h : Finds trailing lineStart trivia (v ++ x)) (hv : v ≠ [])
    (hslash : v ≠ ['/']) (y : List Char) : Finds trailing lineStart trivia (v ++ y) := by
  have hread := Gathers.append h (List.append_assoc _ v x).symm rfl hv hslash y
  rwa [List.append_assoc] at hread

/-- The text of the token with the trivia behind it and the tokens that follow. -/
def onwards (t : Token) (ts : List Token) : List Char :=
  t.text.toList ++ ((Trivia.join t.trailing).toList ++ (spelling ts).toList)

theorem toList_spelling_cons (t : Token) (ts : List Token) :
    (spelling (t :: ts)).toList = (Trivia.join t.leading).toList ++ onwards t ts := by
  simp [onwards, Token.fullText]

/-- The tokens have the trivia that are found in the text they spell. -/
def Spaced : Bool → List Token → Prop
  | _, [] => True
  | lineStart, t :: ts =>
    Finds false lineStart t.leading (onwards t ts) ∧
      Finds true false t.trailing (spelling ts).toList ∧ Spaced (endsLine t.trailing) ts

theorem spaced_cons {t : Token} {ts : List Token} :
    Spaced lineStart (t :: ts) ↔ Finds false lineStart t.leading (onwards t ts) ∧
      Finds true false t.trailing (spelling ts).toList ∧ Spaced (endsLine t.trailing) ts :=
  Iff.rfl

/-- Lexing finds the end of the file, or a token with its trivia and goes on behind it. -/
theorem lexFrom_cases (lineStart : Bool) (offset : Nat) (cs : List Char) :
    (∃ leading, Gathers false lineStart cs leading [] ∧
      (lexFrom lineStart offset cs).1.map Lexeme.token =
        [⟨.endOfFile, "", leading, [], false⟩]) ∨
    ∃ kind text leading trailing rest offset', text ≠ [] ∧
      Gathers false lineStart cs leading (text ++ ((Trivia.join trailing).toList ++ rest)) ∧
      Finds true false trailing rest ∧
      (lexFrom lineStart offset cs).1.map Lexeme.token =
        ⟨kind, String.ofList text, leading, trailing, false⟩ ::
          (lexFrom (endsLine trailing) offset' rest).1.map Lexeme.token := by
  have hlead := gathers_triviaRun false lineStart offset cs
  rw [lexFrom]
  simp only
  split
  · rename_i hnil
    rw [hnil] at hlead
    exact .inl ⟨_, hlead, rfl⟩
  · rename_i c tail hcons
    rw [hcons] at hlead
    have htrail := gathers_triviaRun true false
      ((triviaRun false lineStart offset cs).offset +
        Text.byteLength (c :: tail.take (tokenShape c tail).more))
      (tail.drop (tokenShape c tail).more)
    refine .inr ⟨_, c :: tail.take (tokenShape c tail).more, _, _, _, _, by simp, ?_, htrail.finds,
      rfl⟩
    rw [htrail.toList_append]
    simpa using hlead

/-- Lexemes have the trivia that are found around them. -/
theorem spaced_lexFrom (lineStart : Bool) (offset : Nat) (cs : List Char) :
    Spaced lineStart ((lexFrom lineStart offset cs).1.map Lexeme.token) := by
  rcases lexFrom_cases lineStart offset cs with ⟨leading, hlead, htokens⟩ |
    ⟨kind, text, leading, trailing, rest, offset', htext, hlead, htrail, htokens⟩
  · rw [htokens]
    refine ⟨?_, .nil false, trivial⟩
    simpa [onwards, Trivia.join] using hlead.finds
  · have hshort : rest.length < cs.length := by
      have hlength := congrArg List.length hlead.toList_append
      have := List.length_pos_of_ne_nil htext
      simp only [List.length_append] at hlength
      omega
    have hspell := spelling_lexFrom (endsLine trailing) offset' rest
    rw [htokens]
    refine ⟨?_, hspell.symm ▸ htrail, spaced_lexFrom _ _ rest⟩
    simpa [onwards, hspell] using hlead.finds
termination_by cs.length

/-- A text that spaced tokens spell is lexed into these tokens, if kinds and texts agree. -/
theorem Spaced.lexFrom_eq {ts : List Token} {lineStart : Bool} {offset : Nat}
    (h : Spaced lineStart ts) (hmissing : ∀ t ∈ ts, t.missing = false)
    (hlabels : ((lexFrom lineStart offset (spelling ts).toList).1.map Lexeme.token).map
      (fun t => (t.kind, t.text)) = ts.map fun t => (t.kind, t.text)) :
    (lexFrom lineStart offset (spelling ts).toList).1.map Lexeme.token = ts := by
  induction ts generalizing lineStart offset with
  | nil => exact List.map_eq_nil_iff.1 hlabels
  | cons t ts ih =>
    obtain ⟨hlead, htrail, hbehind⟩ := h
    obtain ⟨hpresent, hmissing⟩ := List.forall_mem_cons.1 hmissing
    rcases lexFrom_cases lineStart offset (spelling (t :: ts)).toList with
      ⟨leading, hlead', htokens⟩ |
      ⟨kind, text, leading, trailing, rest, offset', -, hlead', htrail', htokens⟩
    · rw [htokens] at hlabels ⊢
      rw [toList_spelling_cons] at hlead'
      obtain ⟨rfl, hnil⟩ := hlead.unique hlead'
      obtain ⟨⟨hkind, htext⟩, rfl⟩ : (.endOfFile = t.kind ∧ "" = t.text) ∧ ts = [] := by
        simpa using hlabels
      have htrailing : t.trailing = [] := by
        have hempty : (Trivia.join t.trailing).toList ++ (spelling []).toList = [] :=
          (List.append_eq_nil_iff.1 hnil).2
        rw [Finds, hempty] at htrail
        exact (htrail.unique (.nil false)).1
      rw [hkind, htext, ← htrailing, ← hpresent]
    · rw [htokens] at hlabels ⊢
      rw [toList_spelling_cons] at hlead'
      obtain ⟨rfl, hrest⟩ := hlead.unique hlead'
      obtain ⟨⟨rfl, htext⟩, hbelow⟩ : (kind = t.kind ∧ String.ofList text = t.text) ∧
          ((lexFrom (endsLine trailing) offset' rest).1.map Lexeme.token).map
            (fun t => (t.kind, t.text)) = ts.map fun t => (t.kind, t.text) := by
        simpa using hlabels
      have hbehindText : (Trivia.join t.trailing).toList ++ (spelling ts).toList =
          (Trivia.join trailing).toList ++ rest := by
        rw [onwards, ← htext, String.toList_ofList] at hrest
        exact List.append_cancel_left hrest
      rw [Finds, hbehindText] at htrail
      obtain ⟨rfl, rfl⟩ := htrail.unique htrail'
      rw [ih hbehind hmissing hbelow, htext, ← hpresent]

/-- Tokens stay spaced if one is dropped and the one before it takes over the trivia behind it. -/
theorem Spaced.drop {lineStart : Bool} {before after : List Token} {t op : Token}
    (h : Spaced lineStart (before ++ t :: op :: after)) (htext : t.text ≠ "")
    (hslash : t.text ≠ "/") :
    Spaced lineStart (before ++ { t with trailing := op.trailing } :: after) := by
  -- What is read up to the text of `t` looks at nothing behind it.
  have hread {trailing lineStart : Bool} {trivia : List Trivia} {u x : List Char}
      (h : Finds trailing lineStart trivia (u ++ t.text.toList ++ x)) (y : List Char) :
      Finds trailing lineStart trivia (u ++ t.text.toList ++ y) := by
    have hne : t.text.toList ≠ [] := by simpa using htext
    refine h.append (by simp [htext]) (fun hsingle => ?_) y
    rcases List.append_eq_singleton_iff.1 hsingle with ⟨-, hchars⟩ | ⟨-, hchars⟩
    · exact hslash (String.toList_inj.1 hchars)
    · exact hne hchars
  have hspell (us vs : List Token) (u : Token) :
      (spelling (us ++ u :: vs)).toList =
        (spelling us).toList ++ (Trivia.join u.leading).toList ++ u.text.toList ++
          ((Trivia.join u.trailing).toList ++ (spelling vs).toList) := by
    simp [spelling, Token.fullText]
  induction before generalizing lineStart with
  | nil =>
    obtain ⟨hlead, -, -, htrail, hbehind⟩ := h
    exact ⟨hread (u := []) hlead _, htrail, hbehind⟩
  | cons s before ih =>
    rw [List.cons_append, spaced_cons] at h ⊢
    obtain ⟨hlead, htrail, hbehind⟩ := h
    refine ⟨?_, ?_, ih hbehind⟩
    · rw [onwards, hspell, ← List.append_assoc, ← List.append_assoc,
        ← List.append_assoc _ _ t.text.toList] at hlead ⊢
      exact hread hlead _
    · rw [hspell] at htrail ⊢
      exact hread htrail _

end NullLint.Lexer
