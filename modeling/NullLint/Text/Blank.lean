/-!
# Blank characters

The Unicode property `White_Space`, and trimming by it. Case folding here is over ASCII only:
every word it is compared with is plain ASCII, and no other letter folds into those words.
-/

namespace NullLint.Text

/-- A character with the Unicode property `White_Space`. -/
def isBlank (c : Char) : Bool :=
  let n := c.toNat
  (9 ≤ n && n ≤ 13) || n == 32 || n == 133 || n == 160 || n == 5760 ||
    (8192 ≤ n && n ≤ 8202) || n == 8232 || n == 8233 || n == 8239 || n == 8287 || n == 12288

/-- Drops the leading characters that satisfy `p`, and the trailing ones. -/
def trimBy (p : Char → Bool) (cs : List Char) : List Char :=
  ((cs.dropWhile p).reverse.dropWhile p).reverse

/-- The text without blanks at either end. -/
def trim (s : String) : String :=
  String.ofList (trimBy isBlank s.toList)

/-- The trimmed text with ASCII letters in lower case. -/
def fold (s : String) : String :=
  String.ofList ((trimBy isBlank s.toList).map Char.toLower)

end NullLint.Text
