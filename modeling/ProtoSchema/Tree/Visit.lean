import ProtoSchema.Tree.File

/-
  Visiting the members of the messages of a file. A message is visited before the messages nested
  in it, and a member is visited with the path of the message that it stands in.
-/

namespace ProtoSchema

/-- A member together with the path of its message, as in `/Outer/Inner`. -/
structure Visit where
  path : String
  member : Member
  deriving DecidableEq

mutual

/-- The members of a message and of the messages in it; `path` is that of the enclosing message. -/
def Message.visits (path : String) (m : Message) : List Visit :=
  match m with
  | ⟨name, members, _, messages, _, _, _⟩ =>
    members.map (⟨path ++ "/" ++ name, ·⟩) ++ Message.visitsOfAll (path ++ "/" ++ name) messages

/-- The visits of several messages, one message after the other. -/
def Message.visitsOfAll (path : String) : List Message → List Visit
  | [] => []
  | m :: messages => Message.visits path m ++ Message.visitsOfAll path messages

end

/-- The members of all messages of a file. -/
def File.visits (f : File) : List Visit := Message.visitsOfAll "" f.messages

/-- The types that the fields of a member have. -/
def Member.types : Member → List FieldType
  | .field decl => [decl.type]
  | .map decl => [decl.keyType, decl.valueType]
  | .oneof decl => decl.fields.map (·.type)
  | .reserved _ | .extensions _ => []

/-- The options of a member, if it can have any in brackets. -/
def Member.fieldOptions? : Member → Option FieldOptions
  | .field decl => some decl.options
  | .map decl => some decl.options
  | .oneof _ | .reserved _ | .extensions _ => none

end ProtoSchema
