import NullLint.Proofs.Text.Cuts
import NullLint.Text.Lines
import Mathlib.Data.List.TakeWhile

/-!
# Offsets and positions

A text is made of lines. Each line but the last is a body without line breaks and a line end, and the
line map of the text is that of the text behind its first line, one line down and moved by the bytes
of that line. So whatever is to be shown of offsets and positions is shown line by line: a position
leads back to the offset it was computed from, unless that parts a `\r` from its `\n`; later offsets
have later positions; and the offset of a position leads back to the position.
-/

namespace NullLint

/-- The position `p` comes before `q`: on an earlier line, or further left on the same one. -/
def Position.Before (p q : Position) : Prop :=
  p.line < q.line ∨ p.line = q.line ∧ p.character < q.character

namespace Text

/-- The offset lies between the `\r` and the `\n` of one line end. -/
def PartsLineEnd (cs : List Char) (offset : Nat) : Prop :=
  ∃ before after, cs = before ++ '\r' :: '\n' :: after ∧ offset = byteLength before + 1

/-- The column lies between the two units of one character. -/
def PartsPair (cs : List Char) (column : Nat) : Prop :=
  ∃ before c after, cs = before ++ c :: after ∧ 0x10000 ≤ c.toNat ∧
    column = unitLength before + 1

theorem partsLineEnd_iff {cs : List Char} {offset : Nat} :
    ((splitAt? cs offset).any fun p => p.1.getLast? == some '\r' && p.2.head? == some '\n') = true ↔
      PartsLineEnd cs offset := by
  simp only [Option.any_eq_true, Bool.and_eq_true, beq_iff_eq]
  constructor
  · rintro ⟨⟨before, after⟩, hcut, hreturn, hfeed⟩
    obtain ⟨before, rfl⟩ := List.getLast?_eq_some_iff.1 hreturn
    obtain ⟨after, rfl⟩ := List.head?_eq_some_iff.1 hfeed
    obtain ⟨rfl, rfl⟩ := eq_of_splitAt? hcut
    exact ⟨before, after, by simp, byteLength_append ..⟩
  · rintro ⟨before, after, rfl, rfl⟩
    have hcut := splitAt?_append (before ++ ['\r']) ('\n' :: after)
    rw [byteLength_append, List.append_assoc] at hcut
    exact ⟨_, hcut, List.getLast?_concat, rfl⟩

instance (cs : List Char) (offset : Nat) : Decidable (PartsLineEnd cs offset) :=
  decidable_of_iff _ partsLineEnd_iff

@[simp] theorem unitLength_nil : unitLength [] = 0 := rfl

@[simp] theorem unitLength_cons (c : Char) (cs : List Char) :
    unitLength (c :: cs) = (if c.toNat < 0x10000 then 1 else 2) + unitLength cs := rfl

theorem unitLength_pos {cs : List Char} (h : cs ≠ []) : 0 < unitLength cs := by
  cases cs with
  | nil => exact absurd rfl h
  | cons c cs =>
    rw [unitLength_cons]
    split <;> omega

theorem unitLength_append (as bs : List Char) :
    unitLength (as ++ bs) = unitLength as + unitLength bs := by
  induction as with
  | nil => simp
  | cons c as ih => simp only [List.cons_append, unitLength_cons, ih, Nat.add_assoc]

/-- Of two cuts of a text the one with fewer bytes before it is the earlier one. -/
theorem exists_between {as bs as' bs' : List Char} (h : as ++ bs = as' ++ bs')
    (hlt : byteLength as < byteLength as') : ∃ mid, mid ≠ [] ∧ as' = as ++ mid := by
  rcases List.append_eq_append_iff.1 h with ⟨mid, rfl, -⟩ | ⟨mid, rfl, -⟩
  · refine ⟨mid, ?_, rfl⟩
    rintro rfl
    simp at hlt
  · simp only [byteLength_append] at hlt
    omega

/-- The column behind the first part of a line is found behind this part. -/
theorem columnOffset_append (as bs : List Char) :
    columnOffset (unitLength as) (as ++ bs) = byteLength as := by
  induction as with
  | nil => cases bs <;> rfl
  | cons c as ih =>
    obtain ⟨n, hn⟩ : ∃ n, unitLength (c :: as) = n + 1 :=
      Nat.exists_eq_succ_of_ne_zero (unitLength_pos (List.cons_ne_nil c as)).ne'
    have hrest : n + 1 - (if c.toNat < 0x10000 then 1 else 2) = unitLength as := by
      rw [← hn, unitLength_cons]
      omega
    rw [hn, List.cons_append, columnOffset, hrest, ih, byteLength_cons]

/-- A column that parts no character lies behind a first part of the line. -/
theorem exists_column {cs : List Char} {column : Nat} (hle : column ≤ unitLength cs)
    (hwhole : ¬PartsPair cs column) :
    ∃ before after, cs = before ++ after ∧ unitLength before = column := by
  induction cs generalizing column with
  | nil => exact ⟨[], [], rfl, (Nat.le_zero.1 hle).symm⟩
  | cons c cs ih =>
    rcases Nat.eq_zero_or_pos column with rfl | hpos
    · exact ⟨[], c :: cs, rfl, rfl⟩
    · have hfits : (if c.toNat < 0x10000 then 1 else 2) ≤ column := by
        split
        · exact hpos
        · rename_i hbig
          refine Nat.lt_of_le_of_ne hpos fun hone => hwhole ?_
          exact ⟨[], c, cs, rfl, Nat.not_lt.1 hbig, hone.symm⟩
      rw [unitLength_cons] at hle
      obtain ⟨before, after, rfl, hbefore⟩ :=
        @ih (column - (if c.toNat < 0x10000 then 1 else 2)) (by omega) (by
          rintro ⟨before, d, after, rfl, hd, hcolumn⟩
          refine hwhole ⟨c :: before, d, after, rfl, hd, ?_⟩
          rw [unitLength_cons]
          omega)
      refine ⟨c :: before, after, rfl, ?_⟩
      rw [unitLength_cons, hbefore]
      omega

/-! ## Lines -/

/-- The characters end a line before `rest`. -/
inductive LineEnd : List Char → List Char → Prop where
  | lineFeed (rest : List Char) : LineEnd ['\n'] rest
  | carriageReturn {rest : List Char} (alone : rest.head? ≠ some '\n') : LineEnd ['\r'] rest
  | both (rest : List Char) : LineEnd ['\r', '\n'] rest

/-- The characters stand on one line. -/
def Unbroken (cs : List Char) : Prop := ∀ c ∈ cs, isLineBreak c = false

/-- A text is its last line, or a line with its end before a text. -/
inductive Lined : List Char → Prop where
  | last {body : List Char} (unbroken : Unbroken body) : Lined body
  | line {body stop rest : List Char} (unbroken : Unbroken body) (stops : LineEnd stop rest)
      (more : Lined rest) : Lined (body ++ stop ++ rest)

theorem Unbroken.cons {c : Char} {cs : List Char} (h : Unbroken cs) (hc : isLineBreak c = false) :
    Unbroken (c :: cs) :=
  List.forall_mem_cons.2 ⟨hc, h⟩

theorem LineEnd.of_isLineBreak {c : Char} (hc : isLineBreak c = true) (cs : List Char) :
    ∃ stop rest, c :: cs = stop ++ rest ∧ LineEnd stop rest ∧ rest.length ≤ cs.length := by
  have hcases : c = '\n' ∨ c = '\r' := by simpa [isLineBreak] using hc
  rcases hcases with rfl | rfl
  · exact ⟨['\n'], cs, rfl, .lineFeed cs, Nat.le_refl _⟩
  · by_cases hhead : cs.head? = some '\n'
    · obtain ⟨rest, rfl⟩ := List.head?_eq_some_iff.1 hhead
      exact ⟨['\r', '\n'], rest, rfl, .both rest, Nat.le_succ _⟩
    · exact ⟨['\r'], cs, rfl, .carriageReturn hhead, Nat.le_refl _⟩

/-- Every text is made of lines. -/
theorem lined (cs : List Char) : Lined cs := by
  induction h : cs.length using Nat.strong_induction_on generalizing cs with
  | _ n ih =>
    subst h
    have hparts := List.takeWhile_append_dropWhile (p := fun c => !isLineBreak c) (l := cs)
    have hbody : Unbroken (cs.takeWhile fun c => !isLineBreak c) := fun c hc => by
      simpa using List.mem_takeWhile_imp hc
    cases hrest : cs.dropWhile fun c => !isLineBreak c with
    | nil =>
      rw [hrest, List.append_nil] at hparts
      rw [← hparts]
      exact .last hbody
    | cons c tail =>
      have hc : isLineBreak c = true := by
        have hhead := List.head?_dropWhile_not (fun c => !isLineBreak c) cs
        rw [hrest] at hhead
        simpa using hhead
      obtain ⟨stop, rest, htail, hstops, hlength⟩ := LineEnd.of_isLineBreak hc tail
      rw [hrest, htail, ← List.append_assoc] at hparts
      have hmore : Lined rest := by
        refine ih rest.length ?_ rest rfl
        have hall := congrArg List.length hparts
        have hstop := congrArg List.length htail
        simp only [List.length_append, List.length_cons] at hall hstop
        omega
      rw [← hparts]
      exact .line hbody hstops hmore

/-! ## Starts of lines -/

theorem lineStartsFrom_add (k n : Nat) (cs : List Char) :
    lineStartsFrom (k + n) cs = (lineStartsFrom n cs).map (k + ·) := by
  induction cs generalizing n with
  | nil => rfl
  | cons c cs ih =>
    simp only [lineStartsFrom, Nat.add_assoc, ih]
    split <;> rfl

theorem Unbroken.lineStartsFrom_append {body : List Char} (h : Unbroken body) (n : Nat)
    (rest : List Char) :
    lineStartsFrom n (body ++ rest) = lineStartsFrom (n + byteLength body) rest := by
  induction body generalizing n with
  | nil => rfl
  | cons c body ih =>
    obtain ⟨hc, hbody⟩ := List.forall_mem_cons.1 h
    simp only [isLineBreak, Bool.or_eq_false_iff] at hc
    rw [List.cons_append, lineStartsFrom, byteLength_cons]
    simp only [hc.1, hc.2, Bool.false_and, Bool.or_self, Bool.false_eq_true, if_false]
    rw [ih hbody, Nat.add_assoc]

theorem LineEnd.lineStartsFrom_append {stop rest : List Char} (h : LineEnd stop rest) (n : Nat) :
    lineStartsFrom n (stop ++ rest) =
      (n + byteLength stop) :: lineStartsFrom (n + byteLength stop) rest := by
  cases h with
  | lineFeed => rfl
  | carriageReturn alone => simp [lineStartsFrom, alone]
  | both =>
    have hfeed : '\n'.utf8Size = 1 := rfl
    have hreturn : '\r'.utf8Size = 1 := rfl
    simp [lineStartsFrom, hfeed, hreturn, Nat.add_assoc]

theorem LineEnd.ne_nil {stop rest : List Char} (h : LineEnd stop rest) : stop ≠ [] := by
  cases h <;> exact List.cons_ne_nil _ _

/-- The only cut inside of a line end parts a `\r` from its `\n`. -/
theorem LineEnd.eq_of_append {stop rest left right : List Char} (h : LineEnd stop rest)
    (hparts : stop = left ++ right) (hleft : left ≠ []) (hright : right ≠ []) :
    left = ['\r'] ∧ right = ['\n'] := by
  obtain ⟨c, left, rfl⟩ := List.exists_cons_of_ne_nil hleft
  obtain ⟨d, right, rfl⟩ := List.exists_cons_of_ne_nil hright
  cases h with
  | lineFeed => simp at hparts
  | carriageReturn => simp at hparts
  | both =>
    cases left with
    | nil =>
      obtain ⟨rfl, rfl, rfl⟩ : '\r' = c ∧ '\n' = d ∧ right = [] := by simpa using hparts
      exact ⟨rfl, rfl⟩
    | cons => simp at hparts

theorem dropLineBreaks_of_unbroken {body : List Char} (h : Unbroken body) :
    dropLineBreaks body = body := by
  have hkeep : body.reverse.dropWhile isLineBreak = body.reverse := by
    cases hbody : body.reverse with
    | nil => rfl
    | cons c cs =>
      have hc : c ∈ body := List.mem_reverse.1 (by simp [hbody])
      exact List.dropWhile_cons_of_neg (by simp [h c hc])
  rw [dropLineBreaks, hkeep, List.reverse_reverse]

theorem dropLineBreaks_append {body stop rest : List Char} (h : Unbroken body)
    (hstop : LineEnd stop rest) : dropLineBreaks (body ++ stop) = body := by
  have hbreaks : dropLineBreaks (body ++ stop) = dropLineBreaks body := by
    unfold dropLineBreaks
    cases hstop <;> simp [isLineBreak]
  rw [hbreaks, dropLineBreaks_of_unbroken h]

end Text

namespace LineMap

open Text

/-- The lines of some characters. -/
def ofChars (cs : List Char) : LineMap := ⟨cs, 0 :: lineStartsFrom 0 cs⟩

variable {body stop rest : List Char} (hbody : Unbroken body) (hstop : LineEnd stop rest)

/-! ## The last line -/

section Last

include hbody

theorem starts_last : (ofChars body).starts = [0] := by
  have hstarts := hbody.lineStartsFrom_append 0 []
  rw [List.append_nil] at hstarts
  rw [ofChars, hstarts]
  rfl

theorem position_last {before after : List Char} (h : body = before ++ after) :
    (ofChars body).position (byteLength before) = ⟨0, unitLength before⟩ := by
  have hle : byteLength before ≤ byteLength body := by simp [h]
  have hline : (ofChars body).lineAt (byteLength before) = 0 := by
    simp [lineAt, starts_last hbody]
  have hslice := sliceList?_left before after
  rw [← h] at hslice
  simp only [position, hline, starts_last hbody]
  simp [ofChars, Nat.min_eq_left hle, hslice]

theorem lineChars?_last : (ofChars body).lineChars? 0 = some body := by
  have hslice := sliceList?_left body []
  rw [List.append_nil] at hslice
  simp only [lineChars?, starts_last hbody]
  simp [ofChars, hslice, dropLineBreaks_of_unbroken hbody]

theorem lineChars?_last_succ (n : Nat) : (ofChars body).lineChars? (n + 1) = none := by
  simp [lineChars?, starts_last hbody]

theorem offset?_last (column : Nat) :
    (ofChars body).offset? ⟨0, column⟩ = some (columnOffset column body) := by
  simp [offset?, lineChars?_last hbody, starts_last hbody]

end Last

/-! ## The first of several lines -/

section First

theorem lineAt_lt (cs : List Char) (offset : Nat) :
    (ofChars cs).lineAt offset < (ofChars cs).starts.length := by
  have hle := (List.takeWhile_prefix (l := (ofChars cs).starts) (· ≤ offset)).length_le
  have hpos : 0 < (ofChars cs).starts.length := Nat.succ_pos _
  unfold lineAt
  omega

include hbody hstop

theorem starts_line : (ofChars (body ++ stop ++ rest)).starts =
    0 :: (ofChars rest).starts.map (byteLength (body ++ stop) + ·) := by
  simp only [ofChars]
  rw [List.append_assoc, hbody.lineStartsFrom_append, hstop.lineStartsFrom_append, Nat.zero_add,
    ← byteLength_append, List.map_cons, ← lineStartsFrom_add, Nat.add_zero]

theorem lineAt_first {offset : Nat} (h : offset < byteLength (body ++ stop)) :
    (ofChars (body ++ stop ++ rest)).lineAt offset = 0 := by
  have hnot : ¬byteLength (body ++ stop) ≤ offset := Nat.not_le.2 h
  simp only [lineAt, starts_line hbody hstop]
  simp [ofChars, -byteLength_append, hnot]

theorem lineAt_below (offset : Nat) :
    (ofChars (body ++ stop ++ rest)).lineAt (byteLength (body ++ stop) + offset) =
      (ofChars rest).lineAt offset + 1 := by
  have hpos : 0 < ((ofChars rest).starts.takeWhile (· ≤ offset)).length := by simp [ofChars]
  simp only [lineAt, starts_line hbody hstop]
  rw [List.takeWhile_cons_of_pos (by simp), List.takeWhile_map, List.length_cons, List.length_map]
  simp only [Function.comp_def, Nat.add_le_add_iff_left]
  omega

theorem position_first {before after : List Char} (h : body ++ stop = before ++ after)
    (hne : after ≠ []) :
    (ofChars (body ++ stop ++ rest)).position (byteLength before) = ⟨0, unitLength before⟩ := by
  have hlt : byteLength before < byteLength (body ++ stop) := by
    rw [h, byteLength_append]
    exact Nat.lt_add_of_pos_right (byteLength_pos_iff.2 hne)
  have hle : byteLength before ≤ byteLength (body ++ stop ++ rest) := by
    rw [byteLength_append]
    exact Nat.le_add_right_of_le (Nat.le_of_lt hlt)
  have hslice := sliceList?_left before (after ++ rest)
  rw [← List.append_assoc, ← h] at hslice
  simp only [position, lineAt_first hbody hstop hlt, starts_line hbody hstop]
  simp [ofChars, -byteLength_append, -List.append_assoc, Nat.min_eq_left hle, hslice]

theorem position_below (offset : Nat) :
    (ofChars (body ++ stop ++ rest)).position (byteLength (body ++ stop) + offset) =
      ⟨((ofChars rest).position offset).line + 1, ((ofChars rest).position offset).character⟩ := by
  have hstart := List.getElem?_eq_getElem (lineAt_lt rest offset)
  have hchars : byteLength (ofChars (body ++ stop ++ rest)).chars =
      byteLength (body ++ stop) + byteLength (ofChars rest).chars := byteLength_append ..
  simp only [position, lineAt_below hbody hstop, starts_line hbody hstop, List.getElem?_cons_succ,
    List.getElem?_map, hstart, Option.map_some, Option.getD_some, hchars, Nat.add_min_add_left]
  congr 3
  exact sliceList?_append_add ..

theorem lineChars?_first : (ofChars (body ++ stop ++ rest)).lineChars? 0 = some body := by
  have hslice := sliceList?_left (body ++ stop) rest
  simp only [lineChars?, starts_line hbody hstop]
  simp [ofChars, -byteLength_append, -List.append_assoc, hslice, dropLineBreaks_append hbody hstop]

theorem lineChars?_below (n : Nat) :
    (ofChars (body ++ stop ++ rest)).lineChars? (n + 1) = (ofChars rest).lineChars? n := by
  have hchars : byteLength (ofChars (body ++ stop ++ rest)).chars =
      byteLength (body ++ stop) + byteLength (ofChars rest).chars := byteLength_append ..
  simp only [lineChars?, starts_line hbody hstop, List.getElem?_cons_succ, List.getElem?_map]
  cases (ofChars rest).starts[n]? with
  | none => rfl
  | some start =>
    have hend : ((ofChars rest).starts[n + 1]?.map (byteLength (body ++ stop) + ·)).getD
        (byteLength (ofChars (body ++ stop ++ rest)).chars) = byteLength (body ++ stop) +
          ((ofChars rest).starts[n + 1]?).getD (byteLength (ofChars rest).chars) := by
      cases (ofChars rest).starts[n + 1]? with
      | none => exact hchars
      | some next => rfl
    simp only [Option.map_some, Option.bind_eq_bind, Option.bind_some, hend]
    rw [show (ofChars (body ++ stop ++ rest)).chars = body ++ stop ++ (ofChars rest).chars from rfl,
      sliceList?_append_add]

theorem offset?_first (column : Nat) :
    (ofChars (body ++ stop ++ rest)).offset? ⟨0, column⟩ = some (columnOffset column body) := by
  simp only [offset?, lineChars?_first hbody hstop, starts_line hbody hstop]
  simp

theorem offset?_below (n column : Nat) :
    (ofChars (body ++ stop ++ rest)).offset? ⟨n + 1, column⟩ =
      ((ofChars rest).offset? ⟨n, column⟩).map (byteLength (body ++ stop) + ·) := by
  simp only [offset?, lineChars?_below hbody hstop, starts_line hbody hstop,
    List.getElem?_cons_succ, List.getElem?_map]
  cases (ofChars rest).starts[n]? with
  | none => rfl
  | some start =>
    cases (ofChars rest).lineChars? n with
    | none => rfl
    | some cs => simp [Nat.add_assoc]

end First

/-! ## Line by line -/

/-- An offset between two characters that parts no line end stands in the body of the first line, or
behind this line. -/
theorem first_or_below (hstop : LineEnd stop rest) {offset : Nat}
    (hbound : isBoundary (body ++ stop ++ rest) offset = true)
    (hwhole : ¬PartsLineEnd (body ++ stop ++ rest) offset) :
    (∃ before after, body = before ++ after ∧ offset = byteLength before) ∨
      ∃ below, offset = byteLength (body ++ stop) + below ∧ isBoundary rest below = true ∧
        ¬PartsLineEnd rest below := by
  have behind {mid after : List Char} (hrest : rest = mid ++ after)
      (hoffset : offset = byteLength (body ++ stop) + byteLength mid) :
      ∃ below, offset = byteLength (body ++ stop) + below ∧ isBoundary rest below = true ∧
        ¬PartsLineEnd rest below := by
    refine ⟨byteLength mid, hoffset, isBoundary_iff.2 ⟨mid, after, hrest, rfl⟩, ?_⟩
    rintro ⟨before, last, hparts, hmid⟩
    refine hwhole ⟨body ++ stop ++ before, last, by simp [hparts], ?_⟩
    rw [hoffset, hmid, byteLength_append _ before, Nat.add_assoc]
  obtain ⟨before, after, hcut, rfl⟩ := isBoundary_iff.1 hbound
  rcases List.append_eq_append_iff.1 hcut with ⟨mid, rfl, hrest⟩ | ⟨mid, hline, rfl⟩
  · exact .inr (behind hrest (byteLength_append _ mid))
  by_cases hmid : mid = []
  · rw [hmid, List.append_nil] at hline
    exact .inr (@behind [] rest rfl (by simp [hline]))
  rcases List.append_eq_append_iff.1 hline with ⟨m, rfl, hm⟩ | ⟨m, hm, -⟩
  · by_cases hempty : m = []
    · exact .inl ⟨body, [], by simp, by simp [hempty]⟩
    · obtain ⟨rfl, rfl⟩ := hstop.eq_of_append hm hempty hmid
      refine absurd ⟨body, rest, ?_, ?_⟩ hwhole
      · rw [hm, List.append_assoc]
        rfl
      · rw [byteLength_append]
        rfl
  · exact .inl ⟨before, m, hm, rfl⟩

/-- The position of an offset leads back to the offset. -/
theorem offset?_position {cs : List Char} {offset : Nat} (hbound : isBoundary cs offset = true)
    (hwhole : ¬PartsLineEnd cs offset) :
    (ofChars cs).offset? ((ofChars cs).position offset) = some offset := by
  induction lined cs generalizing offset with
  | @last body hbody =>
    obtain ⟨before, after, hparts, rfl⟩ := isBoundary_iff.1 hbound
    rw [position_last hbody hparts, offset?_last hbody, hparts, columnOffset_append]
  | @line body stop rest hbody hstop _ ih =>
    rcases first_or_below hstop hbound hwhole with ⟨before, after, hparts, rfl⟩ |
      ⟨below, rfl, hbound, hwhole⟩
    · have hline : body ++ stop = before ++ (after ++ stop) := by rw [hparts, List.append_assoc]
      rw [position_first hbody hstop hline (by simp [hstop.ne_nil]), offset?_first hbody hstop,
        hparts, columnOffset_append]
    · rw [position_below hbody hstop, offset?_below hbody hstop, ih hbound hwhole, Option.map_some]

theorem before_of_parts {cs before after before' after' : List Char} (h : cs = before ++ after)
    (h' : cs = before' ++ after') (hlt : byteLength before < byteLength before') (n : Nat) :
    Position.Before ⟨n, unitLength before⟩ ⟨n, unitLength before'⟩ := by
  obtain ⟨mid, hne, rfl⟩ := exists_between (h.symm.trans h') hlt
  refine .inr ⟨rfl, ?_⟩
  rw [unitLength_append]
  exact Nat.lt_add_of_pos_right (unitLength_pos hne)

/-- A later offset has a later position. -/
theorem before_position {cs : List Char} {offset later : Nat}
    (hbound : isBoundary cs offset = true) (hwhole : ¬PartsLineEnd cs offset)
    (hbound' : isBoundary cs later = true) (hwhole' : ¬PartsLineEnd cs later)
    (hlt : offset < later) :
    ((ofChars cs).position offset).Before ((ofChars cs).position later) := by
  induction lined cs generalizing offset later with
  | @last body hbody =>
    obtain ⟨before, after, hparts, rfl⟩ := isBoundary_iff.1 hbound
    obtain ⟨before', after', hparts', rfl⟩ := isBoundary_iff.1 hbound'
    rw [position_last hbody hparts, position_last hbody hparts']
    exact before_of_parts hparts hparts' hlt 0
  | @line body stop rest hbody hstop _ ih =>
    have first {before after : List Char} (hparts : body = before ++ after) :
        (ofChars (body ++ stop ++ rest)).position (byteLength before) = ⟨0, unitLength before⟩ := by
      have hline : body ++ stop = before ++ (after ++ stop) := by rw [hparts, List.append_assoc]
      exact position_first hbody hstop hline (by simp [hstop.ne_nil])
    rcases first_or_below hstop hbound hwhole with ⟨before, after, hparts, rfl⟩ |
      ⟨below, rfl, hbound, hwhole⟩ <;>
    rcases first_or_below hstop hbound' hwhole' with ⟨before', after', hparts', rfl⟩ |
      ⟨below', rfl, hbound', hwhole'⟩
    · rw [first hparts, first hparts']
      exact before_of_parts hparts hparts' hlt 0
    · rw [first hparts, position_below hbody hstop]
      exact .inl (Nat.succ_pos _)
    · simp only [hparts', byteLength_append] at hlt
      omega
    · rw [position_below hbody hstop, position_below hbody hstop]
      rcases ih hbound hwhole hbound' hwhole' (by omega) with hline | ⟨hline, hcharacter⟩
      · exact .inl (Nat.succ_lt_succ hline)
      · exact .inr ⟨congrArg (· + 1) hline, hcharacter⟩

/-- Every line that starts has a text. -/
theorem exists_lineChars? {cs : List Char} {n : Nat} (h : n < (ofChars cs).lineCount) :
    ∃ line, (ofChars cs).lineChars? n = some line := by
  induction lined cs generalizing n with
  | @last body hbody =>
    rw [lineCount, starts_last hbody, List.length_singleton, Nat.lt_one_iff] at h
    exact ⟨body, h ▸ lineChars?_last hbody⟩
  | @line body stop rest hbody hstop _ ih =>
    cases n with
    | zero => exact ⟨body, lineChars?_first hbody hstop⟩
    | succ n =>
      rw [lineCount, starts_line hbody hstop, List.length_cons, List.length_map] at h
      rw [lineChars?_below hbody hstop]
      exact ih (Nat.lt_of_succ_lt_succ h)

/-- The offset of a position leads back to the position. -/
theorem position_offset? {cs before after : List Char} {n : Nat}
    (h : (ofChars cs).lineChars? n = some (before ++ after)) :
    ((ofChars cs).offset? ⟨n, unitLength before⟩).map (ofChars cs).position =
      some ⟨n, unitLength before⟩ := by
  induction lined cs generalizing n with
  | @last body hbody =>
    cases n with
    | zero =>
      rw [lineChars?_last hbody, Option.some.injEq] at h
      rw [offset?_last hbody, h, columnOffset_append, Option.map_some, ← h, position_last hbody h]
    | succ n =>
      rw [lineChars?_last_succ hbody] at h
      cases h
  | @line body stop rest hbody hstop _ ih =>
    cases n with
    | zero =>
      rw [lineChars?_first hbody hstop, Option.some.injEq] at h
      have hline : body ++ stop = before ++ (after ++ stop) := by rw [h, List.append_assoc]
      rw [offset?_first hbody hstop, h, columnOffset_append, Option.map_some, ← h,
        position_first hbody hstop hline (by simp [hstop.ne_nil])]
    | succ n =>
      rw [lineChars?_below hbody hstop] at h
      obtain ⟨offset, hoffset, hposition⟩ := Option.map_eq_some_iff.1 (ih h)
      rw [offset?_below hbody hstop, hoffset, Option.map_some, Option.map_some,
        position_below hbody hstop, hposition]

/-- Offsets and positions determine each other. An offset between two characters is that of its
position, unless it parts a `\r` from its `\n`, and of two such offsets the later one has the later
position. Every line has a text, and a place on it that parts no character is the position of its
offset. -/
theorem positions_mirror_offsets (text : String) :
    let m := ofText text
    (∀ offset, isBoundary text.toList offset = true → ¬PartsLineEnd text.toList offset →
      m.offset? (m.position offset) = some offset ∧
        ∀ later, isBoundary text.toList later = true → ¬PartsLineEnd text.toList later →
          offset < later → (m.position offset).Before (m.position later)) ∧
    ∀ p : Position, p.line < m.lineCount → ∃ line, m.lineText? p.line = some line ∧
      (p.character ≤ unitLength line.toList → ¬PartsPair line.toList p.character →
        (m.offset? p).map m.position = some p) := by
  intro m
  refine ⟨fun offset hbound hwhole => ⟨offset?_position hbound hwhole, ?_⟩, fun p hp => ?_⟩
  · exact fun later hbound' hwhole' hlt => before_position hbound hwhole hbound' hwhole' hlt
  · obtain ⟨line, hline⟩ := exists_lineChars? hp
    refine ⟨String.ofList line, congrArg (Option.map String.ofList) hline, ?_⟩
    rw [String.toList_ofList]
    intro hle hwhole
    obtain ⟨before, after, rfl, hbefore⟩ := exists_column hle hwhole
    have hposition := position_offset? hline
    rw [hbefore] at hposition
    exact hposition

/-- In a text of three lines, with line ends of both kinds and a character of two units, the end of
the first line and the places behind the character and behind the last line come back. -/
theorem positions_mirror_offsets_lines :
    let m := ofText "a\r\n😀\rb"
    m.offset? (m.position 1) = some 1 ∧ (m.position 7).Before (m.position 9) ∧
      (m.offset? ⟨1, 2⟩).map m.position = some ⟨1, 2⟩ := by
  intro m
  obtain ⟨hoffsets, hpositions⟩ := positions_mirror_offsets "a\r\n😀\rb"
  refine ⟨(hoffsets 1 (by decide) (by decide)).1, ?_, ?_⟩
  · exact (hoffsets 7 (by decide) (by decide)).2 9 (by decide) (by decide) (by decide)
  · obtain ⟨line, hline, hplace⟩ := hpositions ⟨1, 2⟩ (by decide)
    obtain rfl : "😀" = line := Option.some.inj hline
    refine hplace (by decide) ?_
    rintro ⟨before, c, after, hparts, -, hcolumn⟩
    obtain ⟨rfl, -⟩ | ⟨-, hnil⟩ := List.append_eq_singleton_iff.1 hparts.symm
    · cases hcolumn
    · cases hnil

end LineMap

end NullLint
