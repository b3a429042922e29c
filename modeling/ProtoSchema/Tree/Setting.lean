import ProtoSchema.Binary64.Basic

/-
  Comments, option values and named settings. The value of an option is a constant or an aggregate
  of further settings, to any depth; the bracketed options of a field are settings kept by name.
-/

namespace ProtoSchema

/-- A comment, without its delimiters and its decoration. -/
structure Comment where
  text : String
  deriving DecidableEq

mutual

/-- The value of an option. -/
inductive Value where
  | int (value : Int)
  | float (value : Binary64)
  | bool (value : Bool)
  | string (value : String)
  | null
  | ident (name : String)
  | aggregate (body : Aggregate)

/-- A value in braces: settings in the order of the source, in which a name may come more than
once, and the comments that belong to none of them. -/
structure Aggregate where
  settings : List Setting
  comments : List Comment

/-- A name with a value, and the comments around it. -/
structure Setting where
  name : String
  value : Value
  comments : List Comment

end

/-! ## Equality -/

mutual

/-- Equality of values, decided from the outside in. -/
def Value.decEq : (a b : Value) → Decidable (a = b)
  | .int a, b =>
    match b with
    | .int b => decidable_of_iff (a = b) (by simp)
    | .float _ | .bool _ | .string _ | .null | .ident _ | .aggregate _ => isFalse (by simp)
  | .float a, b =>
    match b with
    | .float b => decidable_of_iff (a = b) (by simp)
    | .int _ | .bool _ | .string _ | .null | .ident _ | .aggregate _ => isFalse (by simp)
  | .bool a, b =>
    match b with
    | .bool b => decidable_of_iff (a = b) (by simp)
    | .int _ | .float _ | .string _ | .null | .ident _ | .aggregate _ => isFalse (by simp)
  | .string a, b =>
    match b with
    | .string b => decidable_of_iff (a = b) (by simp)
    | .int _ | .float _ | .bool _ | .null | .ident _ | .aggregate _ => isFalse (by simp)
  | .null, b =>
    match b with
    | .null => isTrue rfl
    | .int _ | .float _ | .bool _ | .string _ | .ident _ | .aggregate _ => isFalse (by simp)
  | .ident a, b =>
    match b with
    | .ident b => decidable_of_iff (a = b) (by simp)
    | .int _ | .float _ | .bool _ | .string _ | .null | .aggregate _ => isFalse (by simp)
  | .aggregate ⟨settings, comments⟩, b =>
    match b with
    | .aggregate ⟨settings', comments'⟩ =>
      have := Setting.decEqList settings settings'
      decidable_of_iff (settings = settings' ∧ comments = comments') (by simp)
    | .int _ | .float _ | .bool _ | .string _ | .null | .ident _ => isFalse (by simp)

/-- Equality of lists of settings. -/
def Setting.decEqList : (a b : List Setting) → Decidable (a = b)
  | [], [] => isTrue rfl
  | ⟨name, value, comments⟩ :: settings, ⟨name', value', comments'⟩ :: settings' =>
    have := Value.decEq value value'
    have := Setting.decEqList settings settings'
    decidable_of_iff
      ((name = name' ∧ value = value' ∧ comments = comments') ∧ settings = settings') (by simp)
  | [], _ :: _ => isFalse (by simp)
  | _ :: _, [] => isFalse (by simp)

end

instance : DecidableEq Value := Value.decEq

instance : DecidableEq Setting := fun a b =>
  decidable_of_iff (a.name = b.name ∧ a.value = b.value ∧ a.comments = b.comments)
    (by cases a; cases b; simp)

instance : DecidableEq Aggregate := fun a b =>
  decidable_of_iff (a.settings = b.settings ∧ a.comments = b.comments)
    (by cases a; cases b; simp)

/-! ## Reading values -/

/-- The text of a string or an identifier. -/
def Value.text? : Value → Option String
  | .string value => some value
  | .ident name => some name
  | _ => none

namespace Aggregate

/-- The first setting with the given name. -/
def get? (a : Aggregate) (name : String) : Option Setting := a.settings.find? (·.name == name)

/-- Every setting with the given name, in order. -/
def getAll (a : Aggregate) (name : String) : List Setting := a.settings.filter (·.name == name)

end Aggregate

/-! ## Options -/

/-- The options of a field or an enum value: at most one setting for each name, in the order in
which the names were first given. -/
structure FieldOptions where
  settings : List Setting
  deriving DecidableEq

namespace FieldOptions

/-- No options. -/
def empty : FieldOptions := ⟨[]⟩

/-- The settings with `s` in the place of the first one of its name, or at the end. -/
def insertIn (s : Setting) : List Setting → List Setting
  | [] => [s]
  | t :: settings => if t.name = s.name then s :: settings else t :: insertIn s settings

/-- The options with one more setting, which replaces an earlier one of its name. -/
def insert (o : FieldOptions) (s : Setting) : FieldOptions := ⟨insertIn s o.settings⟩

/-- The options given by a list of settings, one after the other. -/
def ofList (settings : List Setting) : FieldOptions := settings.foldl insert empty

/-- The setting with the given name. -/
def get? (o : FieldOptions) (name : String) : Option Setting :=
  o.settings.find? (·.name == name)

/-- The number of settings. -/
def size (o : FieldOptions) : Nat := o.settings.length

/-- Whether there are no settings. -/
def isEmpty (o : FieldOptions) : Bool := o.settings.isEmpty

end FieldOptions

/-- An option of a declaration. A constant gives one setting, named like the option; a value in
braces gives its settings. -/
structure OptionDecl where
  name : String
  settings : List Setting
  comments : List Comment
  deriving DecidableEq

/-- The option with the given name, value and comments; the comments of a value in braces come
after the others. -/
def OptionDecl.ofValue (name : String) (value : Value) (comments : List Comment) : OptionDecl :=
  match value with
  | .aggregate body => ⟨name, body.settings, comments ++ body.comments⟩
  | value => ⟨name, [⟨name, value, []⟩], comments⟩

end ProtoSchema
