import NullLint.Diagnostic

/-!
# Terminal styles

A styled text starts with the sequence of its style and ends with a reset. A reset inside the
text is followed by the sequence once more, so the style holds to the end.
-/

namespace NullLint

/-- The sequence that switches a style on. -/
structure Style where
  sequence : String
  deriving DecidableEq, Repr

namespace Style

/-- The sequence that ends every style. -/
def reset : String := "\x1b[0m"

def location : Style := ⟨"\x1b[36m"⟩

def code : Style := ⟨"\x1b[94m"⟩

def underline : Style := ⟨"\x1b[31m"⟩

def summary : Style := ⟨"\x1b[1m"⟩

/-- The style of a severity's label. -/
def ofSeverity : Severity → Style
  | .error => ⟨"\x1b[1;31m"⟩
  | .warning => ⟨"\x1b[1;33m"⟩
  | .suggestion => ⟨"\x1b[1;34m"⟩
  | .message => ⟨"\x1b[1;36m"⟩

/-- The text in a style. -/
def paint (style : Style) (text : String) : String :=
  let renewed := Text.replaceAll reset.toList (reset ++ style.sequence).toList text.toList
  style.sequence ++ String.ofList renewed ++ reset

/-- The text in a style if colors are wanted, else as it is. -/
def paintIf (color : Bool) (style : Style) (text : String) : String :=
  if color then style.paint text else text

end Style

end NullLint
