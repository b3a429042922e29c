import ProtoSchema.Grammar.Production

/-
  Names, numbers and strings. A name may be any word, and is kept as it is spelled.
-/

namespace ProtoSchema.Production

/-- A single name. -/
def ident : Production String := expect .word

/-- Names joined by dots, as one name. -/
def fullIdent : Production String := return String.intercalate "." (← separated (.punct .dot) ident)

/-- The name of a type, which may start with a dot. -/
def typeName : Production String := do
  let absolute ← skip (.punct .dot)
  let name ← fullIdent
  return if absolute then "." ++ name else name

/-- The type of a field. -/
def fieldType : Production FieldType := return FieldType.ofName (← typeName)

/-- An integer. -/
def integer : Production Int := expect .integer

/-- A string; adjacent string literals are one string. -/
def string : Production String := do
  let first : String ← expect .string
  let others : List String ← loop (take .string)
  return first ++ String.join others

end ProtoSchema.Production
