import NullLint.Check.Host

/-!
# Cancellation

A token names a flag that is raised once and never lowered. Copies of a token name the same
flag, so whoever holds one sees it raised by another.
-/

namespace NullLint

/-- A handle on a flag. -/
structure CancelToken where
  flag : Nat
  deriving DecidableEq, Repr

/-- The flags handed out so far, and those that are raised. -/
structure CancelFlags where
  count : Nat := 0
  raised : List Nat := []
  deriving Repr

namespace CancelFlags

/-- Hands out a token with a flag of its own. -/
def fresh (f : CancelFlags) : CancelToken × CancelFlags :=
  (⟨f.count⟩, { f with count := f.count + 1 })

/-- Raises the flag of a token. -/
def cancel (f : CancelFlags) (t : CancelToken) : CancelFlags :=
  { f with raised := f.raised.insert t.flag }

def isCancelled (f : CancelFlags) (t : CancelToken) : Bool := f.raised.contains t.flag

/-- The signal of a run during which no flag is raised. -/
def signal (f : CancelFlags) (t : CancelToken) : Signal := fun _ => f.isCancelled t

@[simp]
theorem isCancelled_cancel (f : CancelFlags) (t u : CancelToken) :
    (f.cancel t).isCancelled u = (decide (u.flag = t.flag) || f.isCancelled u) := by
  simp [cancel, isCancelled]

end CancelFlags

end NullLint
