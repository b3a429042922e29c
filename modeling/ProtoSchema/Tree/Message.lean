import ProtoSchema.Tree.FieldType
import ProtoSchema.Tree.Setting

/-
  Messages, enums and extensions. The declarations of a body are kept by kind, in the order of the
  source within each kind.
-/

namespace ProtoSchema

/-- What a field declaration may start with. -/
inductive Modifier where
  | optional | required | repeated
  deriving DecidableEq

/-- A field of a message or of an extension. -/
structure Field where
  modifier : Option Modifier
  type : FieldType
  name : String
  number : Int
  options : FieldOptions
  comments : List Comment
  deriving DecidableEq

/-- A field that holds a map. -/
structure MapField where
  keyType : FieldType
  valueType : FieldType
  name : String
  number : Int
  options : FieldOptions
  comments : List Comment
  deriving DecidableEq

/-- One of the alternatives of a oneof. -/
structure OneofField where
  type : FieldType
  name : String
  number : Int
  options : FieldOptions
  comments : List Comment
  deriving DecidableEq

/-- A group of fields of which at most one is set. -/
structure Oneof where
  name : String
  fields : List OneofField
  options : List OptionDecl
  comments : List Comment
  deriving DecidableEq

/-- The end of a range of numbers, itself in the range. -/
inductive RangeEnd where
  | number (value : Int)
  | max
  deriving DecidableEq

/-- A single number, or all numbers from one to another. -/
inductive NumberRange where
  | single (value : Int)
  | between (first : Int) (last : RangeEnd)
  deriving DecidableEq

/-- What one `reserved` statement reserves: numbers or names, never both. -/
inductive ReservedItems where
  | numbers (ranges : List NumberRange)
  | names (names : List String)
  deriving DecidableEq

/-- A `reserved` statement. -/
structure Reserved where
  items : ReservedItems
  comments : List Comment
  deriving DecidableEq

/-- An `extensions` statement: numbers left to other files. -/
structure ExtensionRanges where
  ranges : List NumberRange
  comments : List Comment
  deriving DecidableEq

/-- A named number of an enum. -/
structure EnumValue where
  name : String
  number : Int
  options : FieldOptions
  comments : List Comment
  deriving DecidableEq

/-- A declaration in the body of an enum. -/
inductive EnumItem where
  | option (decl : OptionDecl)
  | value (decl : EnumValue)
  | reserved (decl : Reserved)
  deriving DecidableEq

/-- An enum. -/
structure Enum where
  name : String
  items : List EnumItem
  comments : List Comment
  deriving DecidableEq

/-- Further fields for a message that is declared elsewhere. -/
structure Extend where
  extendee : String
  fields : List Field
  comments : List Comment
  deriving DecidableEq

/-- A declaration of a message that has to do with field numbers. -/
inductive Member where
  | field (decl : Field)
  | map (decl : MapField)
  | oneof (decl : Oneof)
  | reserved (decl : Reserved)
  | extensions (decl : ExtensionRanges)
  deriving DecidableEq

namespace Member

/-- The name of the member; `reserved` and `extensions` statements have none. -/
def name? : Member → Option String
  | field decl => some decl.name
  | map decl => some decl.name
  | oneof decl => some decl.name
  | reserved _ | extensions _ => none

/-- The comments of the member. -/
def comments : Member → List Comment
  | field decl => decl.comments
  | map decl => decl.comments
  | oneof decl => decl.comments
  | reserved decl => decl.comments
  | extensions decl => decl.comments

end Member

/-- A message. -/
structure Message where
  name : String
  members : List Member
  enums : List Enum
  messages : List Message
  options : List OptionDecl
  extensions : List Extend
  comments : List Comment

mutual

/-- Equality of messages, decided from the outside in. -/
def Message.decEq : (a b : Message) → Decidable (a = b)
  | ⟨name, members, enums, messages, options, extensions, comments⟩,
    ⟨name', members', enums', messages', options', extensions', comments'⟩ =>
    have := Message.decEqList messages messages'
    decidable_of_iff (name = name' ∧ members = members' ∧ enums = enums' ∧ messages = messages' ∧
      options = options' ∧ extensions = extensions' ∧ comments = comments') (by simp)

/-- Equality of lists of messages. -/
def Message.decEqList : (a b : List Message) → Decidable (a = b)
  | [], [] => isTrue rfl
  | m :: messages, m' :: messages' =>
    have := Message.decEq m m'
    have := Message.decEqList messages messages'
    decidable_of_iff (m = m' ∧ messages = messages') (by simp)
  | [], _ :: _ => isFalse (by simp)
  | _ :: _, [] => isFalse (by simp)

end

instance : DecidableEq Message := Message.decEq

/-- A declaration in the body of a message. -/
inductive MessageItem where
  | option (decl : OptionDecl)
  | enum (decl : Enum)
  | message (decl : Message)
  | member (decl : Member)
  | extend (decl : Extend)
  deriving DecidableEq

namespace MessageItem

/-- The option, if the declaration is one. -/
def option? : MessageItem → Option OptionDecl
  | option decl => some decl
  | _ => none

/-- The enum, if the declaration is one. -/
def enum? : MessageItem → Option Enum
  | enum decl => some decl
  | _ => none

/-- The message, if the declaration is one. -/
def message? : MessageItem → Option Message
  | message decl => some decl
  | _ => none

/-- The member, if the declaration is one. -/
def member? : MessageItem → Option Member
  | member decl => some decl
  | _ => none

/-- The extension, if the declaration is one. -/
def extend? : MessageItem → Option Extend
  | extend decl => some decl
  | _ => none

end MessageItem

/-- The message with the declarations of its body sorted by kind. -/
def Message.ofItems (name : String) (items : List MessageItem) (comments : List Comment) :
    Message where
  name := name
  members := items.filterMap MessageItem.member?
  enums := items.filterMap MessageItem.enum?
  messages := items.filterMap MessageItem.message?
  options := items.filterMap MessageItem.option?
  extensions := items.filterMap MessageItem.extend?
  comments := comments

/-- A declaration in the body of a oneof. -/
inductive OneofItem where
  | option (decl : OptionDecl)
  | field (decl : OneofField)
  deriving DecidableEq

namespace OneofItem

/-- The option, if the declaration is one. -/
def option? : OneofItem → Option OptionDecl
  | option decl => some decl
  | _ => none

/-- The field, if the declaration is one. -/
def field? : OneofItem → Option OneofField
  | field decl => some decl
  | _ => none

end OneofItem

/-- The oneof with the declarations of its body sorted by kind. -/
def Oneof.ofItems (name : String) (items : List OneofItem) (comments : List Comment) :
    Oneof where
  name := name
  fields := items.filterMap OneofItem.field?
  options := items.filterMap OneofItem.option?
  comments := comments

end ProtoSchema
