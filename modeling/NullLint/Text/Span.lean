import NullLint.Text.Bytes

/-!
# Spans

Half-open ranges of byte offsets. A span may be written backwards (`stop < start`); it is then
empty and has length zero.
-/

namespace NullLint

/-- The bytes from `start` up to, not including, `stop`. -/
structure Span where
  start : Nat
  stop : Nat
  deriving DecidableEq, Repr, Inhabited

namespace Span

/-- The empty span at an offset. -/
def emptyAt (offset : Nat) : Span := ⟨offset, offset⟩

/-- The span at the start of a text, given to nodes that hold no position. -/
def origin : Span := emptyAt 0

def length (s : Span) : Nat := s.stop - s.start

def isEmpty (s : Span) : Bool := s.stop ≤ s.start

/-- Whether the byte at `offset` belongs to the span. -/
def contains (s : Span) (offset : Nat) : Bool := s.start ≤ offset && offset < s.stop

/-- Whether both ends of `t` lie inside `s`. -/
def covers (s t : Span) : Bool := s.start ≤ t.start && t.stop ≤ s.stop

/-- Whether two spans share a byte; an empty span shares none. -/
def overlaps (s t : Span) : Bool :=
  !s.isEmpty && !t.isEmpty && s.start < t.stop && t.start < s.stop

/-- The covered part of `text`, empty when the span does not cut it between characters. -/
def text (s : Span) (text : String) : String :=
  (Text.slice? text s.start s.stop).getD ""

/-- Spans in order of their start, then of their stop. -/
def order (s t : Span) : Ordering :=
  (compare s.start t.start).then (compare s.stop t.stop)

@[simp]
theorem length_emptyAt (n : Nat) : (emptyAt n).length = 0 := by
  simp [emptyAt, length]

@[simp]
theorem isEmpty_emptyAt (n : Nat) : (emptyAt n).isEmpty = true := by
  simp [emptyAt, isEmpty]

end Span

end NullLint
