/-!
# Numerals

A number is written in decimal digits. What follows a numeral, if that is no digit, does not blur
which number was written.
-/

namespace NullLint.Text

theorem toList_toString (n : Nat) : (toString n).toList = Nat.toDigits 10 n := by
  rw [Nat.toString_eq_ofList_toDigits, String.toList_ofList]

theorem isDigit_of_mem_toString {n : Nat} {c : Char} (h : c ∈ (toString n).toList) :
    c.isDigit = true := by
  rw [toList_toString] at h
  exact Nat.isDigit_of_mem_toDigits (by decide) (by decide) h

/-- A character that is no digit stands in no numeral. -/
theorem notMem_toString {c : Char} (hc : c.isDigit = false) (n : Nat) :
    c ∉ (toString n).toList := fun h => by
  rw [isDigit_of_mem_toString h] at hc
  cases hc

/-- Numerals with the same sign behind them, and no digit, are those of one number. -/
theorem eq_of_toString_append {a b : Nat} {c : Char} {s t : List Char} (hc : c.isDigit = false)
    (h : (toString a).toList ++ c :: s = (toString b).toList ++ c :: t) : a = b := by
  have hstop (n : Nat) (s : List Char) :
      ((toString n).toList ++ c :: s).takeWhile Char.isDigit = (toString n).toList := by
    rw [List.takeWhile_append_of_pos fun d hd => isDigit_of_mem_toString hd]
    simp [hc]
  have hdigits : Nat.toDigits 10 a = Nat.toDigits 10 b := by
    have hread := congrArg (List.takeWhile Char.isDigit) h
    rwa [hstop, hstop, toList_toString, toList_toString] at hread
  rw [← Nat.ofDigitChars_ten_toDigits (n := a), hdigits, Nat.ofDigitChars_ten_toDigits]

end NullLint.Text
