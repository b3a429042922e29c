import ProtoSchema.Tree.Setting

/-
  Services and their methods.
-/

namespace ProtoSchema

/-- What a method takes or gives back: one message, or a stream of them. -/
structure RpcType where
  name : String
  isStream : Bool
  deriving DecidableEq

/-- A method of a service. -/
structure Rpc where
  name : String
  input : RpcType
  output : RpcType
  options : List OptionDecl
  comments : List Comment
  deriving DecidableEq

/-- A service. -/
structure Service where
  name : String
  methods : List Rpc
  options : List OptionDecl
  comments : List Comment
  deriving DecidableEq

/-- A declaration in the body of a service. -/
inductive ServiceItem where
  | option (decl : OptionDecl)
  | rpc (decl : Rpc)
  deriving DecidableEq

namespace ServiceItem

/-- The option, if the declaration is one. -/
def option? : ServiceItem → Option OptionDecl
  | option decl => some decl
  | _ => none

/-- The method, if the declaration is one. -/
def rpc? : ServiceItem → Option Rpc
  | rpc decl => some decl
  | _ => none

end ServiceItem

/-- The service with the declarations of its body sorted by kind. -/
def Service.ofItems (name : String) (items : List ServiceItem) (comments : List Comment) :
    Service where
  name := name
  methods := items.filterMap ServiceItem.rpc?
  options := items.filterMap ServiceItem.option?
  comments := comments

end ProtoSchema
