import ProtoSchema.Fault
import ProtoSchema.Tree.Message
import ProtoSchema.Tree.Service

/-
  Schema files. A file names its language version first; imports, options, definitions and
  extensions follow in any order, and at most one package.
-/

namespace ProtoSchema

/-- The statement with the language version, which every file starts with. -/
structure SyntaxDecl where
  value : String
  comments : List Comment
  deriving DecidableEq

/-- The package of a file. -/
structure Package where
  name : String
  comments : List Comment
  deriving DecidableEq

/-- What may stand before the path of an import. -/
inductive ImportModifier where
  | weakImport | publicImport
  deriving DecidableEq

/-- An import of another file. -/
structure Import where
  path : String
  modifier : Option ImportModifier
  comments : List Comment
  deriving DecidableEq

/-- A definition of a message, an enum or a service. -/
inductive Definition where
  | message (decl : Message)
  | enum (decl : Enum)
  | service (decl : Service)
  deriving DecidableEq

namespace Definition

/-- The name of what is defined. -/
def name : Definition → String
  | message decl => decl.name
  | enum decl => decl.name
  | service decl => decl.name

/-- The message, if the definition is one. -/
def message? : Definition → Option Message
  | message decl => some decl
  | _ => none

/-- The enum, if the definition is one. -/
def enum? : Definition → Option Enum
  | enum decl => some decl
  | _ => none

/-- The service, if the definition is one. -/
def service? : Definition → Option Service
  | service decl => some decl
  | _ => none

end Definition

/-- A schema file. -/
structure File where
  version : SyntaxDecl
  package : Option Package
  imports : List Import
  options : List OptionDecl
  definitions : List Definition
  extensions : List Extend
  comments : List Comment
  deriving DecidableEq

namespace File

/-- The messages defined at the top level, in order. -/
def messages (f : File) : List Message := f.definitions.filterMap Definition.message?

/-- The enums defined at the top level, in order. -/
def enums (f : File) : List Enum := f.definitions.filterMap Definition.enum?

/-- The services, in order. -/
def services (f : File) : List Service := f.definitions.filterMap Definition.service?

end File

/-- A statement at the top level of a file; a package statement comes with its place. -/
inductive FileItem where
  | imported (decl : Import)
  | package (decl : Package) (span : Span)
  | option (decl : OptionDecl)
  | definition (decl : Definition)
  | extend (decl : Extend)
  deriving DecidableEq

namespace FileItem

/-- The import, if the statement is one. -/
def import? : FileItem → Option Import
  | imported decl => some decl
  | _ => none

/-- The package and its place, if the statement is one. -/
def package? : FileItem → Option (Package × Span)
  | package decl span => some (decl, span)
  | _ => none

/-- The option, if the statement is one. -/
def option? : FileItem → Option OptionDecl
  | option decl => some decl
  | _ => none

/-- The definition, if the statement is one. -/
def definition? : FileItem → Option Definition
  | definition decl => some decl
  | _ => none

/-- The extension, if the statement is one. -/
def extend? : FileItem → Option Extend
  | extend decl => some decl
  | _ => none

end FileItem

/-- The file with the given package and the other statements sorted by kind. -/
def File.withPackage (version : SyntaxDecl) (package : Option Package) (items : List FileItem)
    (comments : List Comment) : File where
  version := version
  package := package
  imports := items.filterMap FileItem.import?
  options := items.filterMap FileItem.option?
  definitions := items.filterMap FileItem.definition?
  extensions := items.filterMap FileItem.extend?
  comments := comments

/-- The file with the given statements. A second package statement is a fault, and a third one
adds nothing to it. -/
def File.ofItems (version : SyntaxDecl) (items : List FileItem) (comments : List Comment) :
    Except Fault File :=
  match items.filterMap FileItem.package? with
  | [] => .ok (File.withPackage version none items comments)
  | [(package, _)] => .ok (File.withPackage version (some package) items comments)
  | (_, first) :: (_, second) :: _ => .error (.duplicatePackage first second)

end ProtoSchema
