import ProtoSchema.Grammar.Options

/-
  Messages and what stands in them, enums and extensions.
-/

namespace ProtoSchema.Production

/-! ## Fields -/

/-- The word before the type of a field, which may be left out. -/
def modifier : Production (Option Modifier) := do
  if ← skip (.keyword .optionalKw) then return some .optional
  else if ← skip (.keyword .requiredKw) then return some .required
  else if ← skip (.keyword .repeatedKw) then return some .repeated
  else return none

/-- A field. -/
def field : Production Field := do
  let leading ← comments
  let modifier ← modifier
  let type ← fieldType
  let name ← ident
  let _ ← punct .equals
  let number ← integer
  let options ← fieldOptions
  return ⟨modifier, type, name, number, options, ← endStatement leading⟩

/-- A map field. -/
def mapField : Production MapField := do
  let leading ← comments
  let _ ← keyword .mapKw
  let _ ← punct .leftAngle
  let keyType ← fieldType
  let _ ← punct .comma
  let valueType ← fieldType
  let _ ← punct .rightAngle
  let name ← ident
  let _ ← punct .equals
  let number ← integer
  let options ← fieldOptions
  return ⟨keyType, valueType, name, number, options, ← endStatement leading⟩

/-- A field of a oneof. -/
def oneofField : Production OneofField := do
  let leading ← comments
  let type ← fieldType
  let name ← ident
  let _ ← punct .equals
  let number ← integer
  let options ← fieldOptions
  return ⟨type, name, number, options, ← endStatement leading⟩

/-- A oneof. -/
def oneof : Production Oneof := do
  let leading ← comments
  let _ ← keyword .oneofKw
  let name ← ident
  let inner ← body leading
    ((do return .option (← optionDecl)) <|> (do return .field (← oneofField)))
  return Oneof.ofItems name inner.decls inner.comments

/-! ## Ranges of numbers -/

/-- The end of a range. -/
def rangeEnd : Production RangeEnd := do
  if ← skip (.keyword .maxKw) then return .max
  else return .number (← takeOr .integer .integerOrMax)

/-- A number or a range. -/
def numberRange : Production NumberRange := do
  let first ← integer
  if ← skip (.keyword .toKw) then return .between first (← rangeEnd)
  else return .single first

/-- Numbers and ranges with commas between them. -/
def numberRanges : Production (List NumberRange) := separated (.punct .comma) numberRange

/-- What a `reserved` statement reserves. -/
def reservedItems : Production ReservedItems :=
  (do return .numbers (← numberRanges)) <|>
    (do return .names (← separated (.punct .comma) string))

/-- A `reserved` statement. -/
def reserved : Production Reserved := do
  let leading ← comments
  let _ ← keyword .reservedKw
  let items ← reservedItems
  return ⟨items, ← endStatement leading⟩

/-- An `extensions` statement. -/
def extensionRanges : Production ExtensionRanges := do
  let leading ← comments
  let _ ← keyword .extensionsKw
  let ranges ← numberRanges
  return ⟨ranges, ← endStatement leading⟩

/-! ## Enums -/

/-- A value of an enum. -/
def enumValue : Production EnumValue := do
  let leading ← comments
  let name ← ident
  let _ ← punct .equals
  let number ← integer
  let options ← fieldOptions
  return ⟨name, number, options, ← endStatement leading⟩

/-- A declaration in the body of an enum. -/
def enumItem : Production EnumItem :=
  (do return .option (← optionDecl)) <|> (do return .reserved (← reserved)) <|>
    (do return .value (← enumValue))

/-- An enum. -/
def enum : Production Enum := do
  let leading ← comments
  let _ ← keyword .enumKw
  let name ← ident
  let inner ← body leading enumItem
  return ⟨name, inner.decls, inner.comments⟩

/-! ## Extensions and messages -/

/-- Further fields for a message. -/
def extend : Production Extend := do
  let leading ← comments
  let _ ← keyword .extendKw
  let extendee ← typeName
  let inner ← body leading field
  return ⟨extendee, inner.decls, inner.comments⟩

/-- A declaration in the body of a message. Since every keyword is also a name, a field comes
last. -/
def messageItem : Production MessageItem :=
  (do return .option (← optionDecl)) <|> (do return .enum (← enum)) <|>
    (do return .message (← call .message)) <|> (do return .member (.oneof (← oneof))) <|>
    (do return .member (.map (← mapField))) <|> (do return .member (.reserved (← reserved))) <|>
    (do return .member (.extensions (← extensionRanges))) <|> (do return .extend (← extend)) <|>
    (do return .member (.field (← field)))

/-- A message. -/
def message : Production Message := do
  let leading ← comments
  let _ ← keyword .messageKw
  let name ← ident
  let inner ← body leading messageItem
  return Message.ofItems name inner.decls inner.comments

end ProtoSchema.Production
