/-!
# Byte offsets

A text is a list of characters, and an offset counts the bytes of their UTF-8 encoding. An
offset that falls inside a character, or past the end, cuts nothing.
-/

namespace NullLint.Text

/-- Number of bytes in the UTF-8 encoding. -/
def byteLength (cs : List Char) : Nat :=
  cs.foldr (fun c n => c.utf8Size + n) 0

/-- Number of 16-bit units in the UTF-16 encoding. -/
def unitLength (cs : List Char) : Nat :=
  cs.foldr (fun c n => (if c.toNat < 0x10000 then 1 else 2) + n) 0

/-- Cuts `cs` after `n` bytes. -/
def splitAt? : List Char → Nat → Option (List Char × List Char)
  | cs, 0 => some ([], cs)
  | [], _ + 1 => none
  | c :: cs, n + 1 =>
    if c.utf8Size ≤ n + 1 then
      (splitAt? cs (n + 1 - c.utf8Size)).map fun p => (c :: p.1, p.2)
    else
      none

/-- Whether a text can be cut after `n` bytes. -/
def isBoundary (cs : List Char) (n : Nat) : Bool := (splitAt? cs n).isSome

/-- The characters between two byte offsets. -/
def sliceList? (cs : List Char) (start stop : Nat) : Option (List Char) :=
  if start ≤ stop then do
    let (_, rest) ← splitAt? cs start
    let (part, _) ← splitAt? rest (stop - start)
    return part
  else
    none

/-- The part of a text between two byte offsets. -/
def slice? (s : String) (start stop : Nat) : Option String :=
  (sliceList? s.toList start stop).map String.ofList

@[simp]
theorem byteLength_nil : byteLength [] = 0 := rfl

@[simp]
theorem byteLength_cons (c : Char) (cs : List Char) :
    byteLength (c :: cs) = c.utf8Size + byteLength cs := rfl

@[simp]
theorem byteLength_append (as bs : List Char) :
    byteLength (as ++ bs) = byteLength as + byteLength bs := by
  induction as with
  | nil => simp
  | cons c as ih => simp [ih, Nat.add_assoc]

/-- Cutting after the bytes of a first part gives back both parts. -/
@[simp]
theorem splitAt?_append (as bs : List Char) :
    splitAt? (as ++ bs) (byteLength as) = some (as, bs) := by
  induction as with
  | nil => cases bs <;> rfl
  | cons c as ih =>
    have hc := c.utf8Size_pos
    obtain ⟨n, hn⟩ : ∃ n, byteLength (c :: as) = n + 1 := ⟨_, (Nat.succ_pred (by simp; omega)).symm⟩
    simp only [List.cons_append, hn, splitAt?]
    simp only [byteLength_cons] at hn
    have hle : c.utf8Size ≤ n + 1 := by omega
    have hsub : n + 1 - c.utf8Size = byteLength as := by omega
    simp [hle, hsub, ih]

/-- A cut loses nothing and falls where it was asked for. -/
theorem eq_of_splitAt? {cs as bs : List Char} {n : Nat} (h : splitAt? cs n = some (as, bs)) :
    cs = as ++ bs ∧ byteLength as = n := by
  fun_induction splitAt? cs n generalizing as bs with
  | case1 cs => simp_all
  | case2 => simp at h
  | case3 c cs n hle ih =>
    obtain ⟨p, hp, hq⟩ := Option.map_eq_some_iff.1 h
    obtain ⟨rfl, rfl⟩ := Prod.mk.inj hq
    obtain ⟨h1, h2⟩ := ih hp
    refine ⟨by simp [h1], ?_⟩
    simp only [byteLength_cons, h2]
    omega
  | case4 => simp at h

end NullLint.Text
