/-!
# JSON values

A value over a type of strings. Values to be written have `String`; values that were read have
`Option String`, because an escape may name half a surrogate pair, which no text holds.
-/

namespace NullLint

/-- A JSON value with strings of type `σ`. Members keep their order, and a key may come twice. -/
inductive JsonValue (σ : Type) where
  | null
  | bool (b : Bool)
  /-- A number, as it is written. -/
  | number (digits : String)
  | string (s : σ)
  | array (items : List (JsonValue σ))
  | object (members : List (σ × JsonValue σ))
  deriving Repr, Inhabited

namespace JsonValue

/-- A natural number. -/
def nat {σ : Type} (n : Nat) : JsonValue σ := .number (toString n)

/-- A list of values made by `f`. -/
def list {α σ : Type} (f : α → JsonValue σ) (xs : List α) : JsonValue σ := .array (xs.map f)

/-- A member that is left out if there is no value. -/
def optional {α σ : Type} (key : σ) (f : α → JsonValue σ) (x : Option α) :
    List (σ × JsonValue σ) :=
  (x.map fun a => (key, f a)).toList

end JsonValue

end NullLint
