import ProtoSchema.Scalar

/-
  The type of a field, as its declaration names it.
-/

namespace ProtoSchema

/-- The type of a field: a scalar, a value of any type, or a message or enum by its name, with the
leading dot of a fully qualified one. -/
inductive FieldType where
  | scalar (type : Scalar)
  | any
  | named (name : String)
  deriving DecidableEq

namespace FieldType

/-- The type that a name in a declaration stands for. Only an unqualified name is built in. -/
def ofName (name : String) : FieldType :=
  match Scalar.ofName? name with
  | some type => scalar type
  | none => if name = "any" then any else named name

/-- The name of the type. -/
def name : FieldType → String
  | scalar type => type.name
  | any => "any"
  | named name => name

/-- Whether the type is a scalar. -/
def isScalar : FieldType → Bool
  | scalar _ => true
  | _ => false

/-- A type is named as it was written. -/
@[simp] theorem name_ofName (text : String) : (ofName text).name = text := by
  unfold ofName
  split
  · next h => exact Scalar.name_of_ofName? h
  · split
    · next h => exact h.symm
    · rfl

end FieldType

end ProtoSchema
