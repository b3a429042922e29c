import ProtoSchema.Grammar.Body
import ProtoSchema.Grammar.Name

/-
  Options: their names, their values and the two places where they are written, a statement of
  their own and brackets after a field.
-/

namespace ProtoSchema.Production

/-! ## Names of options -/

/-- A name without the dots that it starts with. -/
def withoutLeadingDots (name : String) : String :=
  String.ofList (name.toList.dropWhile (· == '.'))

theorem withoutLeadingDots_of_head? {name : String} (h : name.toList.head? ≠ some '.') :
    withoutLeadingDots name = name := by
  have hdrop : name.toList.dropWhile (· == '.') = name.toList := by
    cases hn : name.toList with
    | nil => rfl
    | cons c cs =>
      rw [hn] at h
      exact List.dropWhile_cons_of_neg (by simpa using h)
  rw [withoutLeadingDots, hdrop, String.ofList_toList]

/-- A part of the name of an option: a word, or the name of an extension in parentheses, which are
not kept. -/
def optionNamePart : Production String := do
  if ← skip (.punct .leftParen) then
    let name ← typeName
    let _ ← punct .rightParen
    return name
  else
    takeOr .word .identifierOrParen

/-- The name of an option. Only its first part may start with a dot. -/
def optionName : Production String := do
  let first ← optionNamePart
  let others ← loop do
    if ← skip (.punct .dot) then return some (withoutLeadingDots (← optionNamePart))
    else return none
  return String.intercalate "." (first :: others)

/-! ## Values of options -/

/-- A string, a name with dots, a number, a truth value or null. -/
def constant : Production Value := do
  if ← sees .string then return .string (← string)
  else if ← sees .name then return .ident (← fullIdent)
  else expect .literal

/-- The value of an option: an aggregate or a constant. -/
def optionValue : Production Value := do
  if ← sees (.punct .leftBrace) then return .aggregate (← call .aggregate)
  else constant

/-- Values in square brackets, with commas between them; there may be none. -/
def valueList : Production (List Value) := do
  let _ ← punct .leftBracket
  if ← skip (.punct .rightBracket) then return []
  else
    let values ← separated (.punct .comma) optionValue
    let _ ← punct .rightBracket
    return values

/-! ## Aggregates -/

/-- The key of an entry: a word, or the name of an extension in square brackets, which are not
kept. -/
def entryKey : Production String := do
  if ← skip (.punct .leftBracket) then
    let name ← typeName
    let _ ← punct .rightBracket
    return name
  else
    takeOr .word .identifierOrBracket

/-- The values after a key. The colon may be left out before an aggregate. -/
def entryValues : Production (List Value) := do
  if ← sees (.punct .leftBrace) then return [.aggregate (← call .aggregate)]
  else
    let _ ← punct .colon
    if ← sees (.punct .leftBracket) then valueList else return [← optionValue]

/-- The settings that an entry makes, one for each value; the first one has the comments. -/
def entrySettings (name : String) (comments : List Comment) : List Value → List Setting
  | [] => []
  | value :: values => ⟨name, value, comments⟩ :: values.map (⟨name, ·, []⟩)

/-- A comma or a semicolon after an entry, and whether there is one. -/
def entryEnd : Production Bool := do
  if ← skip (.punct .comma) then return true else skip (.punct .semicolon)

/-- An entry of an aggregate. -/
def entry : Production (List Setting) := do
  let leading ← comments
  let key ← entryKey
  let values ← entryValues
  let _ ← entryEnd
  return entrySettings key (leading ++ (← trailing).toList) values

/-- The next entry of an aggregate or comment between entries, as long as there is one. -/
def aggregateItem : Production (Option (BodyItem (List Setting))) :=
  (do return some (.decl (← entry))) <|> (do return (← comment).map .comment)

/-- A value in braces. -/
def aggregate : Production Aggregate := do
  let inner ← braces aggregateItem
  return ⟨inner.decls.flatten, inner.comments⟩

/-! ## Where options are written -/

/-- An option statement. -/
def optionDecl : Production OptionDecl := do
  let leading ← comments
  let _ ← keyword .optionKw
  let name ← optionName
  let _ ← punct .equals
  let value ← optionValue
  let _ ← punct .semicolon
  let decl := OptionDecl.ofValue name value leading
  return { decl with comments := decl.comments ++ (← trailing).toList }

/-- One of the options in brackets. -/
def fieldOption : Production Setting := do
  let name ← optionName
  let _ ← punct .equals
  return ⟨name, ← optionValue, []⟩

/-- The options of a field in brackets, which may be left out. -/
def fieldOptions : Production FieldOptions := do
  if ← skip (.punct .leftBracket) then
    let settings ← separated (.punct .comma) fieldOption
    let _ ← punct .rightBracket
    return FieldOptions.ofList settings
  else return FieldOptions.empty

end ProtoSchema.Production
