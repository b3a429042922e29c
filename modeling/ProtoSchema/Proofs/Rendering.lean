import Mathlib.Data.List.Forall2
import ProtoSchema.Proofs.Symbol
import ProtoSchema.Tree.File

/-
  The canonical way to write a file, as symbols: one for every tree without comments. A file is
  canonical if its names consist of words and it says nothing that a source cannot say; the few
  trees that are well formed and still cannot be written, since the grammar would take their
  symbols for something else, are named where they are excluded.
-/

namespace ProtoSchema

/-! ## Names -/

/-- The parts of a name between its dots. -/
def nameParts (n : String) : List String := (n.toList.splitOn '.').map String.ofList

/-- Words with dots between them. -/
def IsName (n : String) : Prop := ∀ w ∈ nameParts n, IsWord w

instance (n : String) : Decidable (IsName n) :=
  inferInstanceAs (Decidable (∀ w ∈ nameParts n, IsWord w))

/-- Words with dots between them, after one more dot if the name is absolute. -/
def IsTypeName (n : String) : Prop :=
  match n.toList with
  | '.' :: relative => IsName (String.ofList relative)
  | _ => IsName n

theorem IsName.isTypeName {n : String} (h : IsName n) : IsTypeName n := by
  unfold IsTypeName
  split
  · next relative hn =>
    have hempty : "" ∈ nameParts n := by
      rw [nameParts, hn, List.splitOn_cons_eq_if_modifyHead]
      simp
    exact absurd (h "" hempty) (by decide)
  · exact h

namespace Symbol

/-- Items with a separator between any two. -/
def separated {α : Type} (separator : Punct) (render : α → List Symbol) : List α → List Symbol
  | [] => []
  | first :: others => render first ++ others.flatMap fun item => .punct separator :: render item

/-- Words with dots between them. -/
def dotted (words : List String) : List Symbol := separated .dot (fun w => [.word w]) words

/-- A name without a leading dot. -/
def name (n : String) : List Symbol := dotted (nameParts n)

/-- The name of a type, which may be absolute. -/
def typeName (n : String) : List Symbol :=
  match n.toList with
  | '.' :: relative => .punct .dot :: name (String.ofList relative)
  | _ => name n

/-- The name of an option; only that of an extension may be absolute, which is put in
parentheses. -/
def optionName (n : String) : List Symbol :=
  if n.toList.head? = some '.' then .punct .leftParen :: (typeName n ++ [.punct .rightParen])
  else name n

/-- The key of an entry; a name with dots is put in square brackets. -/
def entryKey (n : String) : List Symbol :=
  if '.' ∈ n.toList then .punct .leftBracket :: (typeName n ++ [.punct .rightBracket])
  else [.word n]

/-- Symbols in braces. -/
def braces (inner : List Symbol) : List Symbol :=
  .punct .leftBrace :: (inner ++ [.punct .rightBrace])

end Symbol

/-! ## Values and options -/

mutual

/-- How a value is written. -/
def Value.symbols : Value → List Symbol
  | .int n => [.int n]
  | .float x => [.float x]
  | .bool b => [.word (if b then "true" else "false")]
  | .string s => [.string s]
  | .null => [.word "null"]
  | .ident n => Symbol.name n
  | .aggregate ⟨settings, _⟩ => Symbol.braces (Setting.entries settings)

/-- How the entries of an aggregate are written, with commas between them. -/
def Setting.entries : List Setting → List Symbol
  | [] => []
  | ⟨name, value, _⟩ :: settings =>
    Symbol.entryKey name ++ .punct .colon :: (value.symbols ++
      ((if settings.isEmpty then [] else [.punct .comma]) ++ Setting.entries settings))

end

theorem Setting.entries_cons (s : Setting) (settings : List Setting) :
    entries (s :: settings) = Symbol.entryKey s.name ++ .punct .colon :: (s.value.symbols ++
      ((if settings.isEmpty then [] else [.punct .comma]) ++ entries settings)) := by
  obtain ⟨name, value, comments⟩ := s
  rw [entries]

/-- A value that can be written: a name does not start with a word that would be a truth value or
null. -/
inductive Value.Canonical : Value → Prop
  | int (n : Int) : Value.Canonical (.int n)
  | float (x : Binary64) : Value.Canonical (.float x)
  | bool (b : Bool) : Value.Canonical (.bool b)
  | string (s : String) : Value.Canonical (.string s)
  | null : Value.Canonical .null
  | ident {n : String} (name : IsName n) (first : ∀ w ∈ (nameParts n).head?, spellsName w) :
      Value.Canonical (.ident n)
  | aggregate {settings : List Setting} (names : ∀ s ∈ settings, IsTypeName s.name)
      (bare : ∀ s ∈ settings, s.comments = [])
      (values : ∀ s ∈ settings, Value.Canonical s.value) :
      Value.Canonical (.aggregate ⟨settings, []⟩)

/-- A setting that can be written. -/
structure Setting.Canonical (s : Setting) : Prop where
  name : IsTypeName s.name
  value : s.value.Canonical
  comments : s.comments = []

/-- How one of the options in brackets is written. -/
def Setting.symbols (s : Setting) : List Symbol :=
  Symbol.optionName s.name ++ .punct .equals :: s.value.symbols

/-- How the options in brackets are written, if there are any. -/
def FieldOptions.symbols (o : FieldOptions) : List Symbol :=
  if o.isEmpty then []
  else .punct .leftBracket ::
    (Symbol.separated .comma Setting.symbols o.settings ++ [.punct .rightBracket])

/-- Options of a field that can be written: no name is set twice. -/
structure FieldOptions.Canonical (o : FieldOptions) : Prop where
  settings : ∀ s ∈ o.settings, s.Canonical
  distinct : (o.settings.map Setting.name).Nodup

/-- Whether a value has no braces. -/
def Value.isConstant : Value → Bool
  | .aggregate _ => false
  | _ => true

/-- The value that an option is written with: a constant for a single setting with the name of the
option, and an aggregate for any other settings. -/
def OptionDecl.value (o : OptionDecl) : Value :=
  match o.settings with
  | [s] => if s.name = o.name ∧ s.value.isConstant then s.value else .aggregate ⟨[s], []⟩
  | settings => .aggregate ⟨settings, []⟩

/-- How an option statement is written. -/
def OptionDecl.symbols (o : OptionDecl) : List Symbol :=
  .word "option" :: (Symbol.optionName o.name ++ .punct .equals ::
    (o.value.symbols ++ [.punct .semicolon]))

/-- An option statement that can be written. -/
structure OptionDecl.Canonical (o : OptionDecl) : Prop where
  name : IsTypeName o.name
  settings : ∀ s ∈ o.settings, s.Canonical
  comments : o.comments = []

/-! ## Fields -/

/-- How the modifier of a field is written. -/
def Modifier.symbols : Option Modifier → List Symbol
  | none => []
  | some .optional => [.word "optional"]
  | some .required => [.word "required"]
  | some .repeated => [.word "repeated"]

/-- How the type of a field is written. -/
def FieldType.symbols (t : FieldType) : List Symbol := Symbol.typeName t.name

/-- A type that can be written: no message or enum is named like a built-in type. -/
structure FieldType.Canonical (t : FieldType) : Prop where
  name : IsTypeName t.name
  builtIn : ∀ n, t = .named n → n ≠ "any" ∧ ∀ s : Scalar, n ≠ s.name

/-- The part that all fields have after their types. -/
def Symbol.declarator (name : String) (number : Int) (options : FieldOptions) : List Symbol :=
  .word name :: .punct .equals :: .int number :: (options.symbols ++ [.punct .semicolon])

/-- A type and options with which a declaration would be taken for an option statement. -/
def FieldType.LooksLikeOption (t : FieldType) (options : FieldOptions) : Prop :=
  t.name = "option" ∧ options.isEmpty

/-- How a field is written. -/
def Field.symbols (f : Field) : List Symbol :=
  Modifier.symbols f.modifier ++ (f.type.symbols ++ Symbol.declarator f.name f.number f.options)

/-- A field that can be written. Without a modifier, its type cannot start with the word for one. -/
structure Field.Canonical (f : Field) : Prop where
  name : IsWord f.name
  type : f.type.Canonical
  options : f.options.Canonical
  comments : f.comments = []
  modifier : f.modifier = none →
    ∀ w ∈ ["optional", "required", "repeated"], (nameParts f.type.name).head? ≠ some w

/-- How a map field is written. -/
def MapField.symbols (f : MapField) : List Symbol :=
  .word "map" :: .punct .leftAngle :: (f.keyType.symbols ++ .punct .comma ::
    (f.valueType.symbols ++ .punct .rightAngle :: Symbol.declarator f.name f.number f.options))

/-- A map field that can be written. -/
structure MapField.Canonical (f : MapField) : Prop where
  name : IsWord f.name
  keyType : f.keyType.Canonical
  valueType : f.valueType.Canonical
  options : f.options.Canonical
  comments : f.comments = []

/-- How a field of a oneof is written. -/
def OneofField.symbols (f : OneofField) : List Symbol :=
  f.type.symbols ++ Symbol.declarator f.name f.number f.options

/-- A field of a oneof that can be written. -/
structure OneofField.Canonical (f : OneofField) : Prop where
  name : IsWord f.name
  type : f.type.Canonical
  options : f.options.Canonical
  comments : f.comments = []
  notOption : ¬ f.type.LooksLikeOption f.options

/-- How a declaration in a oneof is written. -/
def OneofItem.symbols : OneofItem → List Symbol
  | .option decl => decl.symbols
  | .field decl => decl.symbols

/-- The declarations of a oneof in the order in which they are written. -/
def Oneof.items (o : Oneof) : List OneofItem := o.options.map .option ++ o.fields.map .field

/-- How a oneof is written. -/
def Oneof.symbols (o : Oneof) : List Symbol :=
  .word "oneof" :: .word o.name :: Symbol.braces (o.items.flatMap OneofItem.symbols)

/-- A oneof that can be written. -/
structure Oneof.Canonical (o : Oneof) : Prop where
  name : IsWord o.name
  fields : ∀ f ∈ o.fields, f.Canonical
  options : ∀ d ∈ o.options, d.Canonical
  comments : o.comments = []

/-! ## Ranges of numbers -/

/-- How the end of a range is written. -/
def RangeEnd.symbols : RangeEnd → List Symbol
  | .number n => [.int n]
  | .max => [.word "max"]

/-- How a number or a range is written. -/
def NumberRange.symbols : NumberRange → List Symbol
  | .single n => [.int n]
  | .between first last => .int first :: .word "to" :: last.symbols

/-- How the items of a `reserved` statement are written. -/
def ReservedItems.symbols : ReservedItems → List Symbol
  | .numbers ranges => Symbol.separated .comma NumberRange.symbols ranges
  | .names texts => Symbol.separated .comma (fun s => [.string s]) texts

/-- How a `reserved` statement is written. -/
def Reserved.symbols (r : Reserved) : List Symbol :=
  .word "reserved" :: (r.items.symbols ++ [.punct .semicolon])

/-- A `reserved` statement that can be written: it reserves something. -/
structure Reserved.Canonical (r : Reserved) : Prop where
  items : r.items ≠ .numbers [] ∧ r.items ≠ .names []
  comments : r.comments = []

/-- How an `extensions` statement is written. -/
def ExtensionRanges.symbols (e : ExtensionRanges) : List Symbol :=
  .word "extensions" :: (Symbol.separated .comma NumberRange.symbols e.ranges ++
    [.punct .semicolon])

/-- An `extensions` statement that can be written: it names some numbers. -/
structure ExtensionRanges.Canonical (e : ExtensionRanges) : Prop where
  ranges : e.ranges ≠ []
  comments : e.comments = []

/-! ## Enums, extensions and messages -/

/-- How a value of an enum is written. -/
def EnumValue.symbols (v : EnumValue) : List Symbol := Symbol.declarator v.name v.number v.options

/-- A value of an enum that can be written. -/
structure EnumValue.Canonical (v : EnumValue) : Prop where
  name : IsWord v.name
  options : v.options.Canonical
  comments : v.comments = []

/-- How a declaration in an enum is written. -/
def EnumItem.symbols : EnumItem → List Symbol
  | .option decl => decl.symbols
  | .value decl => decl.symbols
  | .reserved decl => decl.symbols

/-- A declaration in an enum that can be written. -/
def EnumItem.Canonical : EnumItem → Prop
  | .option decl => decl.Canonical
  | .value decl => decl.Canonical
  | .reserved decl => decl.Canonical

/-- How an enum is written. -/
def Enum.symbols (e : Enum) : List Symbol :=
  .word "enum" :: .word e.name :: Symbol.braces (e.items.flatMap EnumItem.symbols)

/-- An enum that can be written. -/
structure Enum.Canonical (e : Enum) : Prop where
  name : IsWord e.name
  items : ∀ i ∈ e.items, i.Canonical
  comments : e.comments = []

/-- How an extension is written. -/
def Extend.symbols (e : Extend) : List Symbol :=
  .word "extend" :: (Symbol.typeName e.extendee ++ Symbol.braces (e.fields.flatMap Field.symbols))

/-- An extension that can be written. -/
structure Extend.Canonical (e : Extend) : Prop where
  extendee : IsTypeName e.extendee
  fields : ∀ f ∈ e.fields, f.Canonical
  comments : e.comments = []

/-- How a member of a message is written. -/
def Member.symbols : Member → List Symbol
  | .field decl => decl.symbols
  | .map decl => decl.symbols
  | .oneof decl => decl.symbols
  | .reserved decl => decl.symbols
  | .extensions decl => decl.symbols

/-- A member of a message that can be written. A field without a modifier must not look like an
option. -/
def Member.Canonical : Member → Prop
  | .field decl =>
    decl.Canonical ∧ (decl.modifier = none → ¬ decl.type.LooksLikeOption decl.options)
  | .map decl => decl.Canonical
  | .oneof decl => decl.Canonical
  | .reserved decl => decl.Canonical
  | .extensions decl => decl.Canonical

mutual

/-- How a message is written: options, enums, messages, members, extensions. -/
def Message.symbols : Message → List Symbol
  | ⟨name, members, enums, messages, options, extensions, _⟩ =>
    .word "message" :: .word name :: Symbol.braces (options.flatMap OptionDecl.symbols ++
      (enums.flatMap Enum.symbols ++ (Message.listSymbols messages ++
        (members.flatMap Member.symbols ++ extensions.flatMap Extend.symbols))))

/-- How messages are written, one after the other. -/
def Message.listSymbols : List Message → List Symbol
  | [] => []
  | m :: messages => m.symbols ++ Message.listSymbols messages

end

/-- A message that can be written. -/
inductive Message.Canonical : Message → Prop
  | intro {m : Message} (name : IsWord m.name) (members : ∀ x ∈ m.members, x.Canonical)
      (enums : ∀ e ∈ m.enums, e.Canonical) (messages : ∀ n ∈ m.messages, Message.Canonical n)
      (options : ∀ o ∈ m.options, o.Canonical) (extensions : ∀ e ∈ m.extensions, e.Canonical)
      (comments : m.comments = []) : Message.Canonical m

/-! ## Services -/

/-- How what a method takes or gives back is written. -/
def RpcType.symbols (t : RpcType) : List Symbol :=
  .punct .leftParen :: ((if t.isStream then [.word "stream"] else []) ++
    (Symbol.typeName t.name ++ [.punct .rightParen]))

/-- What a method takes or gives back, if it can be written: the name of a single message cannot
start with the word for a stream and a dot. -/
structure RpcType.Canonical (t : RpcType) : Prop where
  name : IsTypeName t.name
  single : t.isStream = false → ∀ others, nameParts t.name = "stream" :: others → others = []

/-- How a method is written. -/
def Rpc.symbols (r : Rpc) : List Symbol :=
  .word "rpc" :: .word r.name :: (r.input.symbols ++ .word "returns" :: (r.output.symbols ++
    if r.options.isEmpty then [.punct .semicolon]
    else Symbol.braces (r.options.flatMap OptionDecl.symbols)))

/-- A method that can be written. -/
structure Rpc.Canonical (r : Rpc) : Prop where
  name : IsWord r.name
  input : r.input.Canonical
  output : r.output.Canonical
  options : ∀ o ∈ r.options, o.Canonical
  comments : r.comments = []

/-- How a declaration in a service is written. -/
def ServiceItem.symbols : ServiceItem → List Symbol
  | .option decl => decl.symbols
  | .rpc decl => decl.symbols

/-- The declarations of a service in the order in which they are written. -/
def Service.items (s : Service) : List ServiceItem := s.options.map .option ++ s.methods.map .rpc

/-- How a service is written. -/
def Service.symbols (s : Service) : List Symbol :=
  .word "service" :: .word s.name :: Symbol.braces (s.items.flatMap ServiceItem.symbols)

/-- A service that can be written. -/
structure Service.Canonical (s : Service) : Prop where
  name : IsWord s.name
  methods : ∀ r ∈ s.methods, r.Canonical
  options : ∀ o ∈ s.options, o.Canonical
  comments : s.comments = []

/-! ## Files -/

/-- How the statement with the language version is written. -/
def SyntaxDecl.symbols (s : SyntaxDecl) : List Symbol :=
  [.word "syntax", .punct .equals, .string s.value, .punct .semicolon]

/-- How a package statement is written. -/
def Package.symbols (p : Package) : List Symbol :=
  .word "package" :: (Symbol.name p.name ++ [.punct .semicolon])

/-- How the modifier of an import is written. -/
def ImportModifier.symbols : Option ImportModifier → List Symbol
  | none => []
  | some .weakImport => [.word "weak"]
  | some .publicImport => [.word "public"]

/-- How an import is written. -/
def Import.symbols (i : Import) : List Symbol :=
  .word "import" :: (ImportModifier.symbols i.modifier ++ [.string i.path, .punct .semicolon])

/-- An import that can be written: no backslash of its path follows another. -/
structure Import.Canonical (i : Import) : Prop where
  path : ¬ ['\\', '\\'] <:+: i.path.toList
  comments : i.comments = []

/-- How a definition is written. -/
def Definition.symbols : Definition → List Symbol
  | .message decl => decl.symbols
  | .enum decl => decl.symbols
  | .service decl => decl.symbols

/-- A definition that can be written. -/
def Definition.Canonical : Definition → Prop
  | .message decl => decl.Canonical
  | .enum decl => decl.Canonical
  | .service decl => decl.Canonical

/-- How a file is written: the language version, the package, imports, options, definitions,
extensions. -/
def File.symbols (f : File) : List Symbol :=
  f.version.symbols ++ (f.package.toList.flatMap Package.symbols ++
    (f.imports.flatMap Import.symbols ++ (f.options.flatMap OptionDecl.symbols ++
      (f.definitions.flatMap Definition.symbols ++ f.extensions.flatMap Extend.symbols))))

/-- A file that can be written. -/
structure File.Canonical (f : File) : Prop where
  version : f.version.comments = []
  package : ∀ p ∈ f.package, IsName p.name ∧ p.comments = []
  imports : ∀ i ∈ f.imports, i.Canonical
  options : ∀ o ∈ f.options, o.Canonical
  definitions : ∀ d ∈ f.definitions, d.Canonical
  extensions : ∀ e ∈ f.extensions, e.Canonical
  comments : f.comments = []

/-! ## Lexemes that show symbols -/

/-- The lexeme is a way to write the symbol: a word is spelled like it, and is read as something
that its spelling can stand for. -/
def Lexeme.Shows (l : Lexeme) (s : Symbol) : Prop :=
  match s with
  | .word w => l.spelling = w ∧ ∃ before, l.token = .word (Word.ofSpelling before w.toList)
  | .int n => l.token = .int n
  | .float x => l.token = .float x
  | .string text => l.token = .string text
  | .punct p => l.token = .punct p

end ProtoSchema
