import NullLint.Proofs.Fix.Splice

/-!
# Changes that keep apart

Changes whose ranges keep apart give one text in whatever order they are listed: the text in which
the ranges are replaced one at a time from the last to the first, so that no replacement moves a
range that is still to be replaced (`applyAll_replaces_apart`). A single cursor gives it too, since
it stands at the end of each change when it looks for the next one (`Applies`). A change that reaches
past the text, or that begins inside one of the others, is left out wherever it is listed.
-/

namespace NullLint

namespace Text

theorem splitAt?_eq_none_of_lt {cs : List Char} {n : Nat} (h : byteLength cs < n) :
    splitAt? cs n = none := by
  cases hcut : splitAt? cs n with
  | none => rfl
  | some p =>
    obtain ⟨rfl, hlength⟩ := eq_of_splitAt? hcut
    rw [byteLength_append] at h
    omega

end Text

namespace TextChange

variable {c d extra : TextChange} {changes ordered later : List TextChange} {text : String}

/-! ## Order -/

theorem before_trans (a b c : TextChange) (hab : a.before b = true) (hbc : b.before c = true) :
    a.before c = true := by
  simp only [before, Bool.or_eq_true, Bool.and_eq_true, decide_eq_true_eq, beq_iff_eq] at *
  omega

theorem before_total (a b : TextChange) : (a.before b || b.before a) = true := by
  simp only [before, Bool.or_eq_true, Bool.and_eq_true, decide_eq_true_eq, beq_iff_eq]
  omega

theorem start_le_of_before (h : c.before d = true) : c.start ≤ d.start := by
  simp only [before, Bool.or_eq_true, Bool.and_eq_true, decide_eq_true_eq, beq_iff_eq] at h
  omega

/-- In order of start. -/
theorem pairwise_mergeSort_before (changes : List TextChange) :
    (changes.mergeSort before).Pairwise fun a b => a.before b = true :=
  List.pairwise_mergeSort before_trans before_total changes

/-! ## One change at a time -/

/-- The text with the range of a change replaced, if it cuts the text between characters. -/
def replaceIn (c : TextChange) (text : String) : String :=
  match Text.slice? text 0 c.start, Text.slice? text c.stop text.utf8ByteSize with
  | some kept, some rest => kept ++ c.newText ++ rest
  | _, _ => text

theorem toList_replaceIn {before cut after : List Char}
    (htext : text.toList = before ++ (cut ++ after)) (hstart : c.start = Text.byteLength before)
    (hlength : c.length = Text.byteLength cut) :
    (c.replaceIn text).toList = before ++ (c.newText.toList ++ after) := by
  have hkept : Text.slice? text 0 c.start = some (String.ofList before) :=
    Text.slice?_of_toList_eq [] (cut ++ after) (by simpa using htext) rfl (by simpa using hstart)
  have hrest : Text.slice? text c.stop text.utf8ByteSize = some (String.ofList after) := by
    refine Text.slice?_of_toList_eq (before ++ cut) [] (by simpa using htext) ?_ ?_
    · rw [Text.byteLength_append, ← hstart, ← hlength]
      rfl
    · rw [Text.utf8ByteSize_eq, htext, stop, hstart, hlength]
      simp [Nat.add_assoc]
  simp [replaceIn, hkept, hrest]

/-! ## One cursor -/

/-- From `offset` on, where `rest` stands, the changes give `out` and end at `offset'`, where `rest'`
stands. Each of them begins where the last one ends or behind it. -/
inductive Applies : Nat → List Char → List TextChange → List Char → Nat → List Char → Prop where
  | nil (offset : Nat) (rest : List Char) : Applies offset rest [] [] offset rest
  | cons {c : TextChange} {cs : List TextChange} {offset offset' : Nat}
      {kept cut rest out rest' : List Char} (start : c.start = offset + Text.byteLength kept)
      (length : c.length = Text.byteLength cut) (others : Applies c.stop rest cs out offset' rest') :
      Applies offset (kept ++ (cut ++ rest)) (c :: cs) (kept ++ (c.newText.toList ++ out)) offset'
        rest'

namespace Applies

variable {offset offset' : Nat} {rest out rest' : List Char}

/-- The cursor goes over the changes. -/
theorem splice_append (h : Applies offset rest ordered out offset' rest')
    (later : List TextChange) :
    splice offset rest (ordered ++ later) = out ++ splice offset' rest' later := by
  induction h with
  | nil => rfl
  | cons start length _ ih =>
    rw [List.cons_append, splice, if_neg (by omega), start, Nat.add_sub_cancel_left,
      Text.splitAt?_append]
    simp only [length, Text.splitAt?_append, ih, List.append_assoc]

/-- Replacing the ranges from the last to the first gives the same. -/
theorem toList_foldr (h : Applies offset rest ordered out offset' rest') {front : List Char}
    (hfront : Text.byteLength front = offset) (htext : text.toList = front ++ rest) :
    (ordered.foldr replaceIn text).toList = front ++ (out ++ rest') := by
  induction h generalizing front with
  | nil => simpa using htext
  | @cons c cs _ _ kept cut rest out rest' start length _ ih =>
    have hstart : c.start = Text.byteLength (front ++ kept) := by
      rw [Text.byteLength_append, hfront, start]
    have hothers : (cs.foldr replaceIn text).toList = front ++ kept ++ (cut ++ (out ++ rest')) := by
      have hstop : Text.byteLength (front ++ kept ++ cut) = c.stop := by
        rw [Text.byteLength_append, ← hstart, ← length]
        rfl
      simpa using ih hstop (by simpa using htext)
    rw [List.foldr_cons, toList_replaceIn hothers hstart length]
    simp

theorem offset_le (h : Applies offset rest ordered out offset' rest') : offset ≤ offset' := by
  induction h with
  | nil => exact Nat.le_refl _
  | @cons c _ _ _ _ _ _ _ _ start _ _ ih =>
    have hstop : c.start ≤ c.stop := Nat.le_add_right _ _
    omega

theorem stop_le (h : Applies offset rest ordered out offset' rest') (hc : c ∈ ordered) :
    c.stop ≤ offset' := by
  induction h with
  | nil => cases hc
  | cons _ _ others ih =>
    rcases List.mem_cons.1 hc with rfl | hc
    · exact others.offset_le
    · exact ih hc

/-- The changes may be gone over in two runs. -/
theorem of_append {earlier : List TextChange}
    (h : Applies offset rest (earlier ++ later) out offset' rest') :
    ∃ out offset' rest', Applies offset rest earlier out offset' rest' := by
  induction earlier generalizing offset rest out with
  | nil => exact ⟨[], offset, rest, .nil offset rest⟩
  | cons c earlier ih =>
    cases h with
    | cons start length others =>
      obtain ⟨out, offset', rest', hearlier⟩ := ih others
      exact ⟨_, offset', rest', .cons start length hearlier⟩

end Applies

/-! ## Changes left out -/

/-- A change that reaches past the text is left out. -/
theorem splice_past {offset : Nat} {rest : List Char}
    (h : offset + Text.byteLength rest < extra.stop) (earlier later : List TextChange) :
    splice offset rest (earlier ++ extra :: later) = splice offset rest (earlier ++ later) := by
  induction earlier generalizing offset rest with
  | nil =>
    rw [List.nil_append, List.nil_append, splice]
    split
    · rfl
    split
    · rfl
    · rename_i hbefore kept tail hkept
      obtain ⟨rfl, hlength⟩ := Text.eq_of_splitAt? hkept
      rw [Text.byteLength_append, stop] at h
      rw [Text.splitAt?_eq_none_of_lt (by omega)]
  | cons c earlier ih =>
    rw [List.cons_append, List.cons_append, splice, splice]
    split
    · exact ih h
    split
    · exact ih h
    · rename_i hbefore kept tail hkept
      split
      · exact ih h
      · rename_i cut tail' hcut
        obtain ⟨rfl, hkeptLength⟩ := Text.eq_of_splitAt? hkept
        obtain ⟨rfl, hcutLength⟩ := Text.eq_of_splitAt? hcut
        rw [ih]
        rw [Text.byteLength_append, Text.byteLength_append] at h
        rw [stop]
        omega

/-- A change that begins behind the cursor's back is left out. -/
theorem splice_overtaken {offset : Nat} (h : extra.start < offset) (rest : List Char)
    (later : List TextChange) : splice offset rest (extra :: later) = splice offset rest later := by
  rw [splice, if_pos h]

/-! ## Changes that keep apart -/

/-- The changes in order of start. -/
def inOrder (changes : List TextChange) : List TextChange :=
  changes.mergeSort fun c d => c.start ≤ d.start

/-- The text with the ranges of the changes replaced one at a time, from the last to the first. -/
def replaceFromLast (text : String) (changes : List TextChange) : String :=
  (inOrder changes).foldr replaceIn text

/-- One change ends before the other begins. -/
def Precedes (c d : TextChange) : Prop := c.stop ≤ d.start

instance : DecidableRel Precedes := fun c d => inferInstanceAs (Decidable (c.stop ≤ d.start))

/-- The ranges lie in the text and cut it between characters, no two of them begin at one place, and
in order of start each ends before the next one begins. -/
structure Apart (text : String) (changes : List TextChange) : Prop where
  inside : ∀ c ∈ changes, c.stop ≤ text.utf8ByteSize
  cuts : ∀ c ∈ changes, Text.isBoundary text.toList c.start = true ∧
    Text.isBoundary text.toList c.stop = true
  starts : (changes.map start).Nodup
  ends : (inOrder changes).IsChain Precedes

theorem perm_inOrder (changes : List TextChange) : (inOrder changes).Perm changes :=
  List.mergeSort_perm changes _

theorem pairwise_inOrder (changes : List TextChange) :
    (inOrder changes).Pairwise fun c d => c.start ≤ d.start := by
  have hsorted : (inOrder changes).Pairwise fun c d => decide (c.start ≤ d.start) = true :=
    List.pairwise_mergeSort (fun _ _ _ => by simp only [decide_eq_true_eq]; omega)
      (fun _ _ => by simp only [Bool.or_eq_true, decide_eq_true_eq]; omega) changes
  simpa using hsorted

/-- Changes that begin at different places have one order of start. -/
theorem eq_inOrder_of_perm (hstarts : (changes.map start).Nodup)
    (hsorted : ordered.Pairwise fun c d => c.start ≤ d.start) (hperm : ordered.Perm changes) :
    ordered = inOrder changes := by
  refine (hperm.trans (perm_inOrder changes).symm).eq_of_pairwise ?_ hsorted
    (pairwise_inOrder changes)
  intro a b ha hb hab hba
  have hstart : a.start = b.start := Nat.le_antisymm hab hba
  exact List.inj_on_of_nodup_map hstarts (hperm.subset ha)
    ((perm_inOrder changes).subset hb) hstart

theorem exists_applies {front rest : List Char} (htext : text.toList = front ++ rest)
    (hcuts : ∀ c ∈ ordered, Text.isBoundary text.toList c.start = true ∧
      Text.isBoundary text.toList c.stop = true)
    (hfront : ∀ c ∈ ordered, Text.byteLength front ≤ c.start)
    (hends : ordered.Pairwise fun c d => c.stop ≤ d.start) :
    ∃ out offset' rest', Applies (Text.byteLength front) rest ordered out offset' rest' := by
  induction ordered generalizing front rest with
  | nil => exact ⟨[], _, rest, .nil _ rest⟩
  | cons c cs ih =>
    obtain ⟨⟨hstart, hstop⟩, hcuts⟩ := List.forall_mem_cons.1 hcuts
    obtain ⟨hbehind, hends⟩ := List.pairwise_cons.1 hends
    rw [htext] at hstart hstop
    obtain ⟨kept, tail, rfl, hkept⟩ := Text.exists_of_isBoundary hstart (hfront c (by simp))
    rw [← List.append_assoc] at hstop htext
    have hle : Text.byteLength (front ++ kept) ≤ c.stop := by
      rw [Text.byteLength_append, ← hkept]
      exact Nat.le_add_right _ _
    obtain ⟨cut, tail, rfl, hcut⟩ := Text.exists_of_isBoundary hstop hle
    rw [← List.append_assoc] at htext
    rw [Text.byteLength_append, ← hkept] at hcut
    have hends' : Text.byteLength (front ++ kept ++ cut) = c.stop := by
      rw [Text.byteLength_append, Text.byteLength_append, ← hkept, ← hcut]
    obtain ⟨out, offset', rest', hothers⟩ :=
      ih htext hcuts (fun d hd => hends'.trans_le (hbehind d hd)) hends
    rw [hends'] at hothers
    exact ⟨_, offset', rest', .cons hkept (Nat.add_left_cancel hcut) hothers⟩

namespace Apart

variable (h : Apart text changes)
include h

/-- Each change ends before all those behind it begin. -/
theorem pairwise_precedes : (inOrder changes).Pairwise Precedes := by
  have htrans : Trans Precedes Precedes Precedes :=
    ⟨fun {c d e} hcd hde => Nat.le_trans hcd (Nat.le_trans (Nat.le_add_right d.start d.length) hde)⟩
  exact h.ends.pairwise

/-- Whatever their order was, the changes are applied in order of start. -/
theorem mergeSort_eq {permuted : List TextChange} (hperm : permuted.Perm changes) :
    permuted.mergeSort before = inOrder changes :=
  eq_inOrder_of_perm h.starts ((pairwise_mergeSort_before permuted).imp start_le_of_before)
    ((List.mergeSort_perm permuted _).trans hperm)

theorem exists_applies : ∃ out offset' rest',
    Applies 0 text.toList (inOrder changes) out offset' rest' :=
  TextChange.exists_applies (List.nil_append _).symm
    (fun c hc => h.cuts c ((perm_inOrder changes).subset hc)) (fun _ _ => Nat.zero_le _)
    h.pairwise_precedes

theorem splice_eq :
    splice 0 text.toList (inOrder changes) = (replaceFromLast text changes).toList := by
  obtain ⟨out, offset', rest', happlies⟩ := h.exists_applies
  have hsplice := happlies.splice_append []
  rw [List.append_nil, splice] at hsplice
  have hfoldr := happlies.toList_foldr Text.byteLength_nil (List.nil_append _).symm
  rw [hsplice, replaceFromLast, hfoldr, List.nil_append]

/-- A change that reaches past the text, or that begins inside one of the others, has no effect. -/
theorem splice_extra {earlier : List TextChange}
    (hothers : earlier ++ later = inOrder changes)
    (hsorted : (earlier ++ extra :: later).Pairwise fun c d => c.before d = true)
    (hextra : text.utf8ByteSize < extra.stop ∨
      ∃ c ∈ changes, c.start < extra.start ∧ extra.start < c.stop) :
    splice 0 text.toList (earlier ++ extra :: later) =
      splice 0 text.toList (earlier ++ later) := by
  rcases hextra with hpast | ⟨c, hc, hlt, hinside⟩
  · exact splice_past (by rwa [Nat.zero_add, ← Text.utf8ByteSize_eq]) earlier later
  · obtain ⟨out, offset', rest', happlies⟩ := h.exists_applies
    rw [← hothers] at happlies
    obtain ⟨out, offset', rest', happlies⟩ := happlies.of_append
    have hearlier : c ∈ earlier := by
      have hmem : c ∈ earlier ++ later := hothers ▸ (perm_inOrder changes).symm.subset hc
      refine (List.mem_append.1 hmem).resolve_right fun hlater => ?_
      have hbehind := List.rel_of_pairwise_cons (List.pairwise_append.1 hsorted).2.1 hlater
      exact Nat.not_le_of_lt hlt (start_le_of_before hbehind)
    have hovertaken : extra.start < offset' :=
      Nat.lt_of_lt_of_le hinside (happlies.stop_le hearlier)
    rw [happlies.splice_append, happlies.splice_append, splice_overtaken hovertaken]

end Apart

/-- Applying changes that keep apart replaces their ranges one at a time from the last to the first,
in whatever order they are listed. Another change that reaches past the text, or that begins
strictly inside one of the ranges, makes no difference wherever it is listed. -/
theorem applyAll_replaces_apart (h : Apart text changes) :
    (∀ permuted, permuted.Perm changes →
        applyAll text permuted = replaceFromLast text changes) ∧
      ∀ extra, (text.utf8ByteSize < extra.stop ∨
          ∃ c ∈ changes, c.start < extra.start ∧ extra.start < c.stop) →
        ∀ more, more.Perm (extra :: changes) → applyAll text more = applyAll text changes := by
  have hall {permuted : List TextChange} (hperm : permuted.Perm changes) :
      applyAll text permuted = String.ofList (splice 0 text.toList (inOrder changes)) := by
    rw [applyAll, h.mergeSort_eq hperm]
  constructor
  · intro permuted hperm
    rw [hall hperm, h.splice_eq, String.ofList_toList]
  · intro extra hextra more hmore
    have hsorted := pairwise_mergeSort_before more
    have hperm : (more.mergeSort before).Perm (extra :: changes) :=
      (List.mergeSort_perm more _).trans hmore
    obtain ⟨earlier, later, hsplit⟩ := List.append_of_mem (hperm.symm.subset List.mem_cons_self)
    rw [hsplit] at hsorted hperm
    have hothers : earlier ++ later = inOrder changes := by
      refine eq_inOrder_of_perm h.starts ?_ ?_
      · have hsub := (List.sublist_cons_self extra later).append_left earlier
        exact (hsorted.sublist hsub).imp start_le_of_before
      · exact (List.perm_middle.symm.trans hperm).cons_inv
    calc applyAll text more
        = String.ofList (splice 0 text.toList (earlier ++ extra :: later)) := by
          rw [applyAll, hsplit]
      _ = String.ofList (splice 0 text.toList (inOrder changes)) := by
          rw [h.splice_extra hothers hsorted hextra, hothers]
      _ = applyAll text changes := (hall (.refl changes)).symm

/-- In `aé€b` the insertion between two replaced characters stays where it is; a change that begins
inside the first range and one that ends behind the text are left out. -/
theorem applyAll_replaces_apart_insertion :
    let changes := [⟨3, 3, "y"⟩, ⟨0, 3, "x"⟩, ⟨6, 0, "+"⟩]
    let extra := [⟨1, 0, "-"⟩, ⟨6, 2, "-"⟩]
    Apart "aé€b" changes ∧ replaceFromLast "aé€b" changes = "xy+b" ∧
      ∀ e ∈ extra, applyAll "aé€b" (e :: changes.reverse) = "xy+b" := by
  intro changes extra
  have horder : inOrder changes = [⟨0, 3, "x"⟩, ⟨3, 3, "y"⟩, ⟨6, 0, "+"⟩] :=
    (eq_inOrder_of_perm (by decide) (by decide) (.swap _ _ _)).symm
  have hapart : Apart "aé€b" changes :=
    ⟨by decide +kernel, by decide +kernel, by decide +kernel, by rw [horder]; decide⟩
  have hreplaced : replaceFromLast "aé€b" changes = "xy+b" := by
    rw [replaceFromLast, horder]
    decide +kernel
  obtain ⟨hall, hextra⟩ := applyAll_replaces_apart hapart
  refine ⟨hapart, hreplaced, fun e he => ?_⟩
  have hleft : "aé€b".utf8ByteSize < e.stop ∨
      ∃ c ∈ changes, c.start < e.start ∧ e.start < c.stop := by
    revert e
    decide +kernel
  have hsame := hextra e hleft (e :: changes.reverse) (.cons e (List.reverse_perm changes))
  exact hsame.trans ((hall changes (.refl changes)).trans hreplaced)

end TextChange

end NullLint
