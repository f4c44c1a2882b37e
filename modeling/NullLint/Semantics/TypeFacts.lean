import NullLint.Syntax.View

/-!
# Types

All that null analysis wants to know of a type: whether it is a value type, whether it admits
null, and what its annotation says. Value types are the built-in ones, their library names, and
the structs of the file. `T?` and `Nullable<T>` over a value type are nullable; any other type is
a reference type, whose annotation counts only in a nullable context.
-/

namespace NullLint

/-- What the source says about null in a reference type. -/
inductive NullMark where
  /-- Outside a nullable context. -/
  | unannotated
  /-- `T?` -/
  | annotated
  /-- `T` -/
  | notAnnotated
  deriving DecidableEq, Repr

/-- The facts of a type that null analysis uses. -/
inductive TypeFacts where
  /-- A value type that never holds null. -/
  | value
  /-- A value type that may hold null. -/
  | nullableValue
  | reference (mark : NullMark)
  deriving DecidableEq, Repr

namespace TypeFacts

def label : TypeFacts → String
  | .value => "value"
  | .nullableValue => "nullable"
  | .reference .annotated => "ref:Annotated"
  | .reference .notAnnotated => "ref:NotAnnotated"
  | .reference .unannotated => "ref:Unannotated"

/-- Every combination of facts. -/
def all : List TypeFacts :=
  [.value, .nullableValue, .reference .annotated, .reference .notAnnotated,
    .reference .unannotated]

/-- The facts with a given label. -/
def ofLabel? (s : String) : Option TypeFacts := all.find? fun t => t.label == s

def isValue : TypeFacts → Bool
  | .value | .nullableValue => true
  | .reference _ => false

def isReference : TypeFacts → Bool
  | .reference _ => true
  | _ => false

end TypeFacts

/-- What a type in the source says about the symbol declared with it. -/
inductive DeclaredType where
  | known (facts : TypeFacts)
  /-- `var` -/
  | implicit
  /-- `void`, or no type that can be read. -/
  | absent
  deriving DecidableEq, Repr

/-- Built-in value types. -/
def builtInValueTypes : List String :=
  ["int", "long", "short", "byte", "sbyte", "uint", "ulong", "ushort", "bool", "char", "double",
    "float", "decimal", "nint", "nuint"]

/-- Value types of the standard library. -/
def libraryValueTypes : List String :=
  ["Int16", "Int32", "Int64", "UInt16", "UInt32", "UInt64", "Byte", "SByte", "Boolean", "Char",
    "Double", "Single", "Decimal", "IntPtr", "UIntPtr", "DateTime", "DateTimeOffset", "TimeSpan",
    "Guid"]

/-- What types are read against: the structs of the file and the nullable context. -/
structure TypeTable where
  structs : List String
  nullableContext : Bool

namespace TypeTable

variable {α : Type}

/-- The reference type that the source writes as `T?` (`nullable`) or `T`. -/
def reference (table : TypeTable) (nullable : Bool) : TypeFacts :=
  if table.nullableContext then
    .reference (if nullable then .annotated else .notAnnotated)
  else
    .reference .unannotated

/-- The type with a given name. -/
def named (table : TypeTable) (name : String) : DeclaredType :=
  if name = "" ∨ name = "void" then .absent
  else if builtInValueTypes.contains name || libraryValueTypes.contains name ||
      table.structs.contains name then
    .known .value
  else
    .known (table.reference false)

/-- `T?` for a given `T`. -/
def nullable (table : TypeTable) : DeclaredType → DeclaredType
  | .known facts => .known (if facts.isValue then .nullableValue else table.reference true)
  | .implicit | .absent => .absent

/-- The types among the children of a node. -/
def typesIn (n : Node α) : List (Node α) := n.children.filter fun c => c.kind.isType

/-- Reads a type. A qualified name counts as its last part. -/
def declared (table : TypeTable) (n : Node α) : DeclaredType :=
  match n.kind with
  | .nullableType =>
    match _h : n.children with
    | inner :: _ => table.nullable (table.declared inner)
    | [] => .absent
  | .predefinedOrNamedType =>
    match n.children with
    | word :: _ => if word.kind = .varKeyword then .implicit else table.named word.leafText
    | [] => .absent
  | .qualifiedName =>
    match _h : n.children.getLast? with
    | some right => table.declared right
    | none => .absent
  | .genericName =>
    match _h : n.children with
    | [name, arguments] =>
      match _h' : typesIn arguments with
      | [argument] =>
        if name.leafText = "Nullable" ∧ table.declared argument = .known .value then
          .known .nullableValue
        else
          .known (table.reference false)
      | _ => .known (table.reference false)
    | _ => .known (table.reference false)
  | .arrayType => .known (table.reference false)
  | _ => .absent
termination_by n.size
decreasing_by
  · exact Node.size_lt_of_mem_children (by simp [_h])
  · exact Node.size_lt_of_mem_children (List.mem_of_getLast? _h)
  · have h₁ : argument ∈ typesIn arguments := by simp [_h']
    exact Nat.lt_trans (Node.size_lt_of_mem_children (List.mem_filter.1 h₁).1)
      (Node.size_lt_of_mem_children (by simp [_h]))

end TypeTable

end NullLint
