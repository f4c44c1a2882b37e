import NullLint.Text.Bytes

/-!
# Cuts of a text

A text can be cut between two characters and nowhere else. What a cut gives does not depend on how
the text before it is put together, so it can be moved past any first part of the text.
-/

namespace NullLint.Text

theorem splitAt?_append_add (as bs : List Char) (n : Nat) :
    splitAt? (as ++ bs) (byteLength as + n) = (splitAt? bs n).map fun p => (as ++ p.1, p.2) := by
  induction as with
  | nil => simp
  | cons c as ih =>
    have hpos := c.utf8Size_pos
    obtain ⟨k, hk⟩ : ∃ k, byteLength (c :: as) + n = k + 1 :=
      ⟨_, (Nat.succ_pred (by simp; omega)).symm⟩
    rw [hk, List.cons_append, splitAt?]
    rw [byteLength_cons] at hk
    rw [if_pos (by omega), show k + 1 - c.utf8Size = byteLength as + n by omega, ih]
    cases splitAt? bs n <;> rfl

theorem isBoundary_iff {cs : List Char} {offset : Nat} :
    isBoundary cs offset = true ↔
      ∃ before after, cs = before ++ after ∧ byteLength before = offset := by
  constructor
  · intro h
    obtain ⟨⟨before, after⟩, hcut⟩ := Option.isSome_iff_exists.1 h
    exact ⟨before, after, eq_of_splitAt? hcut⟩
  · rintro ⟨before, after, rfl, rfl⟩
    simp [isBoundary]

theorem byteLength_pos_iff {cs : List Char} : 0 < byteLength cs ↔ cs ≠ [] := by
  cases cs with
  | nil => simp
  | cons c cs =>
    have hpos := c.utf8Size_pos
    simp only [byteLength_cons, ne_eq, reduceCtorEq, not_false_eq_true, iff_true]
    omega

/-- A first character ends behind one byte just if that is all it has. -/
theorem isBoundary_one_iff {cs : List Char} :
    isBoundary cs 1 = true ↔ ∃ c rest, cs = c :: rest ∧ c.utf8Size = 1 := by
  constructor
  · intro h
    obtain ⟨before, after, rfl, hbefore⟩ := isBoundary_iff.1 h
    cases before with
    | nil => cases hbefore
    | cons c before =>
      have hpos := c.utf8Size_pos
      rw [byteLength_cons] at hbefore
      exact ⟨c, before ++ after, rfl, by omega⟩
  · rintro ⟨c, rest, rfl, hsize⟩
    exact isBoundary_iff.2 ⟨[c], rest, rfl, by simp [hsize]⟩

@[simp]
theorem isBoundary_append_add (as bs : List Char) (n : Nat) :
    isBoundary (as ++ bs) (byteLength as + n) = isBoundary bs n := by
  simp [isBoundary, splitAt?_append_add]

/-- A boundary behind the first part of a text cuts the rest of it. -/
theorem exists_of_isBoundary {as bs : List Char} {n : Nat} (h : isBoundary (as ++ bs) n = true)
    (hle : byteLength as ≤ n) :
    ∃ between after, bs = between ++ after ∧ n = byteLength as + byteLength between := by
  obtain ⟨k, rfl⟩ := Nat.exists_eq_add_of_le hle
  rw [isBoundary_append_add] at h
  obtain ⟨between, after, rfl, rfl⟩ := isBoundary_iff.1 h
  exact ⟨between, after, rfl, rfl⟩

theorem sliceList?_append_add (as bs : List Char) (start stop : Nat) :
    sliceList? (as ++ bs) (byteLength as + start) (byteLength as + stop) =
      sliceList? bs start stop := by
  simp only [sliceList?, Nat.add_le_add_iff_left, splitAt?_append_add]
  split
  · cases splitAt? bs start with
    | none => rfl
    | some p => simp [Nat.add_sub_add_left]
  · rfl

theorem sliceList?_left (as bs : List Char) : sliceList? (as ++ bs) 0 (byteLength as) = some as := by
  have hzero : splitAt? (as ++ bs) 0 = some ([], as ++ bs) := by rw [splitAt?]
  simp [sliceList?, hzero]

/-- A slice stands between two cuts. -/
theorem exists_of_sliceList? {cs part : List Char} {start stop : Nat}
    (h : sliceList? cs start stop = some part) :
    ∃ before after, cs = before ++ (part ++ after) ∧ byteLength before = start ∧
      start + byteLength part = stop := by
  unfold sliceList? at h
  split at h
  · rename_i hle
    obtain ⟨⟨before, rest⟩, hcut, h⟩ := Option.bind_eq_some_iff.1 h
    obtain ⟨⟨_, after⟩, hcut', h⟩ := Option.bind_eq_some_iff.1 h
    obtain rfl := Option.some.inj h
    obtain ⟨rfl, rfl⟩ := eq_of_splitAt? hcut
    obtain ⟨rfl, hlength⟩ := eq_of_splitAt? hcut'
    exact ⟨before, after, rfl, rfl, by omega⟩
  · cases h

theorem isBoundary_of_slice? {text part : String} {start stop : Nat}
    (h : slice? text start stop = some part) :
    isBoundary text.toList start = true ∧ isBoundary text.toList stop = true := by
  obtain ⟨cs, hslice, -⟩ := Option.map_eq_some_iff.1 h
  obtain ⟨before, after, hparts, rfl, rfl⟩ := exists_of_sliceList? hslice
  constructor
  · exact isBoundary_iff.2 ⟨before, cs ++ after, hparts, rfl⟩
  · exact isBoundary_iff.2 ⟨before ++ cs, after, by simp [hparts], byteLength_append ..⟩

end NullLint.Text
