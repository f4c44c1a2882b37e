import NullLint.Proofs.Lexer.Spacing
import Mathlib.Data.List.TakeWhile

/-!
# Characters and their bytes

A text is stored as the bytes of its UTF-8 encoding. A byte looked at alone (`Lexer.glance`) is the
ASCII character it encodes, or tells that some other character stands there. This is enough for a
test that treats all other characters alike: a run of characters that pass ends at the same place
among the bytes, and so between two characters.
-/

namespace NullLint.Lexer

/-- The bytes of characters in UTF-8. -/
def encode (cs : List Char) : List UInt8 := cs.flatMap String.utf8EncodeChar

/-- Bytes looked at one by one. A byte from `0x80` on stands for no ASCII character. -/
def glance (bs : List UInt8) : List Char := bs.map Char.ofUInt8

/-- The bytes of characters looked at one by one. -/
abbrev seen (cs : List Char) : List Char := glance (encode cs)

/-- The character whose bytes stand ahead, `none` within a character. -/
def charAhead? (bs : List UInt8) : Option Char := bs.toByteArray.utf8DecodeChar? 0

/-- Whether a byte may begin a character. -/
def startsChar (b : UInt8) : Bool := b < 0x80 || 0xc0 ≤ b

/-- The text of the first `n` bytes, `none` if an end of it lies within a character. -/
def cut? (bs : List UInt8) (n : Nat) : Option String :=
  if bs.head?.all startsChar && (bs.drop n).head?.all startsChar then
    String.fromUTF8? (bs.take n).toByteArray
  else
    none

/-! ## Encoded characters -/

section Characters

variable {c : Char} {cs : List Char}

@[simp] theorem encode_nil : encode [] = [] := rfl

@[simp] theorem encode_cons (c : Char) (cs : List Char) :
    encode (c :: cs) = String.utf8EncodeChar c ++ encode cs :=
  List.flatMap_cons

@[simp] theorem encode_append (cs ds : List Char) : encode (cs ++ ds) = encode cs ++ encode ds :=
  List.flatMap_append

@[simp] theorem length_encode (cs : List Char) : (encode cs).length = Text.byteLength cs := by
  induction cs with
  | nil => rfl
  | cons c cs ih => simp [ih]

theorem utf8EncodeChar_of_ascii (h : c.toNat < 0x80) :
    String.utf8EncodeChar c = [UInt8.ofNat c.toNat] :=
  if_pos (Nat.le_of_lt_succ h)

theorem utf8Size_of_ascii (h : c.toNat < 0x80) : c.utf8Size = 1 := by
  rw [← String.length_utf8EncodeChar, utf8EncodeChar_of_ascii h, List.length_singleton]

theorem ofUInt8_ofNat_of_ascii (h : c.toNat < 0x80) : Char.ofUInt8 (UInt8.ofNat c.toNat) = c := by
  apply Char.ext
  apply UInt32.toNat_inj.1
  change (UInt8.ofNat c.toNat).toUInt32.toNat = c.toNat
  simp
  omega

theorem utf8EncodeChar_of_not_ascii (h : 0x80 ≤ c.toNat) :
    ∃ b bs, String.utf8EncodeChar c = b :: bs ∧ 0xc0 ≤ b.toNat ∧ ∀ b' ∈ bs, 0x80 ≤ b'.toNat := by
  have hlt : ¬c.val.toNat ≤ 127 := Nat.not_le.2 h
  simp only [String.utf8EncodeChar, hlt, if_false]
  split
  · refine ⟨_, _, rfl, ?_, ?_⟩ <;> simp <;> omega
  split
  · refine ⟨_, _, rfl, ?_, ?_⟩ <;> simp <;> omega
  · refine ⟨_, _, rfl, ?_, ?_⟩ <;> simp <;> omega

/-- A character of ASCII is seen as itself. -/
theorem seen_cons_of_ascii (h : c.toNat < 0x80) (cs : List Char) :
    seen (c :: cs) = c :: seen cs := by
  simp [seen, glance, utf8EncodeChar_of_ascii h, ofUInt8_ofNat_of_ascii h]

/-- Any other character is seen as some characters not of ASCII. -/
theorem seen_cons_of_not_ascii (h : 0x80 ≤ c.toNat) (cs : List Char) :
    ∃ d ds, seen (c :: cs) = d :: ds ++ seen cs ∧ (∀ d' ∈ d :: ds, 0x80 ≤ d'.toNat) ∧
      (d :: ds).length = c.utf8Size := by
  obtain ⟨b, bs, hbytes, hb, hbs⟩ := utf8EncodeChar_of_not_ascii h
  have hnat (b : UInt8) : (Char.ofUInt8 b).toNat = b.toNat := UInt8.toNat_toUInt32 b
  refine ⟨Char.ofUInt8 b, bs.map Char.ofUInt8, by simp [seen, glance, hbytes], ?_, ?_⟩
  · simp only [List.forall_mem_cons, List.forall_mem_map, hnat]
    exact ⟨by omega, hbs⟩
  · simpa [hbytes] using String.length_utf8EncodeChar c

/-- At a character its bytes are read. -/
theorem charAhead?_encode (c : Char) (cs : List Char) : charAhead? (encode (c :: cs)) = some c :=
  List.utf8DecodeChar?_utf8Encode_cons

theorem head?_encode_all (cs : List Char) : (encode cs).head?.all startsChar = true := by
  cases cs with
  | nil => rfl
  | cons c cs =>
    by_cases h : c.toNat < 0x80
    · have hlt : UInt8.ofNat c.toNat < 0x80 := by
        rw [UInt8.lt_iff_toNat_lt]
        simp
        omega
      simp [utf8EncodeChar_of_ascii h, startsChar, hlt]
    · obtain ⟨b, bs, hbytes, hb, -⟩ := utf8EncodeChar_of_not_ascii (Nat.not_lt.1 h)
      have hle : 0xc0 ≤ b := UInt8.le_iff_toNat_le.2 hb
      simp [hbytes, startsChar, hle]

theorem drop_encode (cs : List Char) (n : Nat) :
    (encode cs).drop (Text.byteLength (cs.take n)) = encode (cs.drop n) := by
  have hsplit : encode cs = encode (cs.take n) ++ encode (cs.drop n) := by
    rw [← encode_append, List.take_append_drop]
  rw [hsplit, ← length_encode, List.drop_left]

/-- Between two characters the text of the bytes is cut off. -/
theorem cut?_encode (cs ds : List Char) :
    cut? (encode (cs ++ ds)) (Text.byteLength cs) = some (String.ofList cs) := by
  have htake : (encode (cs ++ ds)).take (Text.byteLength cs) = encode cs := by
    rw [encode_append, ← length_encode, List.take_left]
  have hdrop : (encode (cs ++ ds)).drop (Text.byteLength cs) = encode ds := by
    rw [encode_append, ← length_encode, List.drop_left]
  rw [cut?, htake, hdrop, head?_encode_all, head?_encode_all, Bool.and_self, if_pos rfl]
  have hvalid : (encode cs).toByteArray.IsValidUTF8 := .intro cs rfl
  rw [String.fromUTF8?, dif_pos hvalid]
  rfl

end Characters

/-! ## Tests -/

section Tests

variable {p : Char → Bool} {v : Bool}

/-- The test treats all characters not of ASCII alike. -/
def Uniform (p : Char → Bool) (v : Bool) : Prop := ∀ c, 0x80 ≤ c.toNat → p c = v

theorem uniform_beq {a : Char} (ha : a.toNat < 0x80) : Uniform (· == a) false := by
  rintro c hc
  rw [beq_eq_false_iff_ne]
  rintro rfl
  omega

theorem Uniform.any_head?_seen (hp : Uniform p false) (cs : List Char) :
    (seen cs).head?.any p = cs.head?.any p := by
  cases cs with
  | nil => rfl
  | cons c cs =>
    by_cases h : c.toNat < 0x80
    · simp [seen_cons_of_ascii h]
    · obtain ⟨d, ds, hseen, hall, -⟩ := seen_cons_of_not_ascii (Nat.not_lt.1 h) cs
      simp [hseen, hp c (Nat.not_lt.1 h), hp d (hall d (by simp))]

theorem head?_seen_beq {a : Char} (ha : a.toNat < 0x80) (cs : List Char) :
    ((seen cs).head? == some a) = (cs.head? == some a) := by
  have hany (o : Option Char) : (o == some a) = o.any (· == a) := by cases o <;> rfl
  rw [hany, hany, (uniform_beq ha).any_head?_seen]

/-- A run of characters that pass has the same end among the bytes. -/
theorem Uniform.length_takeWhile_seen (hp : Uniform p v) (cs : List Char) :
    ((seen cs).takeWhile p).length = Text.byteLength (cs.takeWhile p) := by
  induction cs with
  | nil => rfl
  | cons c cs ih =>
    by_cases h : c.toNat < 0x80
    · have hsize := utf8Size_of_ascii h
      rw [seen_cons_of_ascii h]
      cases hc : p c with
      | false => simp [hc]
      | true => simp [hc, ih, hsize]; omega
    · obtain ⟨d, ds, hseen, hall, hlength⟩ := seen_cons_of_not_ascii (Nat.not_lt.1 h) cs
      have hc := hp c (Nat.not_lt.1 h)
      rw [hseen]
      cases v with
      | false => simp [hc, hp d (hall d (by simp))]
      | true =>
        rw [List.takeWhile_append_of_pos fun d' hd' => hp d' (hall d' hd'), List.length_append,
          hlength, ih, List.takeWhile_cons_of_pos hc, Text.byteLength_cons]

@[simp] theorem length_seen (cs : List Char) : (seen cs).length = Text.byteLength cs := by
  simp [seen, glance]

theorem drop_seen (cs : List Char) (n : Nat) :
    (seen cs).drop (Text.byteLength (cs.take n)) = seen (cs.drop n) := by
  rw [seen, glance, ← List.map_drop, drop_encode]
  rfl

end Tests

/-! ## Lengths in ASCII -/

/-- An ASCII character that is neither a blank nor a line break. -/
abbrev Graphic (c : Char) : Prop := 0x20 < c.toNat ∧ c.toNat < 0x80

/-- Only graphic characters pass the test. -/
def OnlyGraphic (p : Char → Bool) : Prop := ∀ c, p c = true → Graphic c

theorem OnlyGraphic.uniform {p : Char → Bool} (hp : OnlyGraphic p) : Uniform p false := by
  intro c hc
  rw [← Bool.not_eq_true]
  exact fun h => Nat.not_lt.2 hc (hp c h).2

/-- The first `n` characters are there and are graphic. -/
structure Plain (n : Nat) (cs : List Char) : Prop where
  le_length : n ≤ cs.length
  graphic : ∀ c ∈ cs.take n, Graphic c

theorem plain_zero (cs : List Char) : Plain 0 cs := ⟨Nat.zero_le _, by simp⟩

theorem Plain.cons {n : Nat} {c : Char} {cs : List Char} (h : Plain n cs) (hc : Graphic c) :
    Plain (n + 1) (c :: cs) :=
  ⟨Nat.succ_le_succ h.le_length, List.forall_mem_cons.2 ⟨hc, h.graphic⟩⟩

theorem Plain.byteLength_take {n : Nat} {cs : List Char} (h : Plain n cs) :
    Text.byteLength (cs.take n) = n := by
  have hsizes : ∀ ds : List Char, (∀ c ∈ ds, Graphic c) → Text.byteLength ds = ds.length := by
    intro ds hds
    induction ds with
    | nil => rfl
    | cons c ds ih =>
      obtain ⟨hc, hds⟩ := List.forall_mem_cons.1 hds
      rw [Text.byteLength_cons, ih hds, utf8Size_of_ascii hc.2, List.length_cons, Nat.add_comm]
  rw [hsizes _ h.graphic, List.length_take, Nat.min_eq_left h.le_length]

theorem Plain.drop_seen {n : Nat} {cs : List Char} (h : Plain n cs) :
    (seen cs).drop n = seen (cs.drop n) := by
  rw [← Lexer.drop_seen, h.byteLength_take]

theorem Plain.add {m n : Nat} {cs : List Char} (h : Plain m cs) (h' : Plain n (cs.drop m)) :
    Plain (m + n) cs := by
  refine ⟨?_, ?_⟩
  · have hle := h'.le_length
    have hle' := h.le_length
    rw [List.length_drop] at hle
    omega
  · rw [List.take_add]
    exact List.forall_mem_append.2 ⟨h.graphic, h'.graphic⟩

/-- A length that counts graphic characters only is the same among the bytes. -/
structure Reads (r : List Char → Nat) : Prop where
  seen_eq : ∀ cs, r (seen cs) = r cs
  plain : ∀ cs, Plain (r cs) cs

namespace Reads

variable {r s : List Char → Nat}

theorem takeWhile {p : Char → Bool} (hp : OnlyGraphic p) :
    Reads fun cs => (cs.takeWhile p).length := by
  have hplain (cs : List Char) : Plain (cs.takeWhile p).length cs := by
    refine ⟨(List.takeWhile_prefix p).length_le, ?_⟩
    rw [take_length_takeWhile]
    exact fun c hc => hp c (List.mem_takeWhile_imp hc)
  refine ⟨fun cs => ?_, hplain⟩
  rw [hp.uniform.length_takeWhile_seen]
  have htake := (hplain cs).byteLength_take
  rwa [take_length_takeWhile] at htake

/-- One length behind another. -/
theorem add (hr : Reads r) (hs : Reads s) : Reads fun cs => r cs + s (cs.drop (r cs)) where
  seen_eq cs := by simp only [hr.seen_eq, (hr.plain cs).drop_seen, hs.seen_eq]
  plain cs := (hr.plain cs).add (hs.plain _)

end Reads

end NullLint.Lexer
