/-!
# Message templates

A template holds places `{0}`, `{1}`, and so on. The places of the first argument are filled
first, then those of the second in the result, so an argument that itself contains `{1}` is
filled again.
-/

namespace NullLint.Text

/-- Replaces each occurrence of `old`, from the left and without overlap; the first `skip`
characters are dropped. -/
def replaceFrom (old new : List Char) : Nat → List Char → List Char
  | _, [] => []
  | skip + 1, _ :: cs => replaceFrom old new skip cs
  | 0, c :: cs =>
    if old.isPrefixOf (c :: cs) then
      new ++ replaceFrom old new (old.length - 1) cs
    else
      c :: replaceFrom old new 0 cs

/-- Replaces each occurrence of a non-empty `old`. -/
def replaceAll (old new cs : List Char) : List Char :=
  replaceFrom old new 0 cs

/-- The place of the argument with number `index`. -/
def place (index : Nat) : List Char :=
  '\x7b' :: (toString index).toList ++ ['\x7d']

/-- Fills the places from number `index` on. -/
def fillFrom : Nat → List String → List Char → List Char
  | _, [], cs => cs
  | index, arg :: args, cs =>
    fillFrom (index + 1) args (replaceAll (place index) arg.toList cs)

/-- Fills the places of a template with the arguments in order. -/
def fill (template : String) (args : List String) : String :=
  String.ofList (fillFrom 0 args template.toList)

end NullLint.Text
