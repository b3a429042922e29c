/-
  The fifteen scalar types. They have no declaration of their own, and their names are reserved
  words of the language.
-/

namespace ProtoSchema

/-- A built-in type whose values are single numbers, truth values, texts or byte sequences. -/
inductive Scalar where
  | double | float
  | int32 | int64 | uint32 | uint64 | sint32 | sint64
  | fixed32 | fixed64 | sfixed32 | sfixed64
  | bool | string | bytes
  deriving DecidableEq

namespace Scalar

/-- Every scalar type, in the order of their declaration. -/
def all : List Scalar :=
  [double, float, int32, int64, uint32, uint64, sint32, sint64,
   fixed32, fixed64, sfixed32, sfixed64, bool, string, bytes]

/-- The name of the type in a schema. -/
def name : Scalar → String
  | double => "double"
  | float => "float"
  | int32 => "int32"
  | int64 => "int64"
  | uint32 => "uint32"
  | uint64 => "uint64"
  | sint32 => "sint32"
  | sint64 => "sint64"
  | fixed32 => "fixed32"
  | fixed64 => "fixed64"
  | sfixed32 => "sfixed32"
  | sfixed64 => "sfixed64"
  | bool => "bool"
  | string => "string"
  | bytes => "bytes"

/-- The scalar type with the given name. -/
def ofName? (text : String) : Option Scalar := all.find? (·.name == text)

@[simp] theorem ofName?_name (s : Scalar) : ofName? s.name = some s := by
  cases s <;> decide

theorem name_of_ofName? {text : String} {s : Scalar} (h : ofName? text = some s) :
    s.name = text := by
  simpa using List.find?_some h

end Scalar

end ProtoSchema
