import ProtoSchema.Grammar.Options
import ProtoSchema.Proofs.Comments.Passage

/-
  The layout of a node: the passages that make up the node with its comments. Every declaration
  has, in this order, the run of comments right before its first token, the comment that ends the
  line of its opening brace, the comments of its body that belong to nothing in there, and the
  comment that ends its last line. Values and messages contain others of their kind, so their
  layouts are given up to a depth of nesting; there are no other definitions by depth.
-/

namespace ProtoSchema

open Passage

/-! ## Values and options -/

/-- The layout of a value, given those of aggregates. -/
def Value.layoutIn (nested : Aggregate → Passage) : Value → Passage
  | .aggregate a => nested a
  | v => words .inner v.constant

/-- The layout of the values of an entry, with the colon before them. -/
inductive Aggregate.Values (value : Value → Passage) :
    List Value → List Marked → List Lexeme → Prop
  | bare {a ms rest} (h : value (.aggregate a) ms rest) : Values value [.aggregate a] ms rest
  | one {v ms rest} (h : (words .inner (Phrase.mark .colon) * value v) ms rest) :
      Values value [v] ms rest
  | empty {ms rest} (h : (words .inner (Phrase.mark .colon * Phrase.mark .leftBracket) *
      words .inner (Phrase.mark .rightBracket)) ms rest) : Values value [] ms rest
  | many {first others ms rest}
      (h : (words .inner (Phrase.mark .colon * Phrase.mark .leftBracket) *
        separated .comma value first others * words .inner (Phrase.mark .rightBracket)) ms rest) :
      Values value (first :: others) ms rest

/-- The layout of the values of an entry. -/
def Aggregate.valuesLayout (value : Value → Passage) (values : List Value) : Passage :=
  Aggregate.Values value values

/-- The layout of an entry that makes the given settings. -/
def Aggregate.entryLayout (value : Value → Passage) (settings : List Setting) : Passage :=
  fun ms rest => ∃ key values comments,
    settings = Production.entrySettings key comments values ∧
    declaration comments [] (words (.entry settings) (Phrase.entryKey key) *
      valuesLayout value values * words .inner Phrase.entryEnd) ms rest

/-- The layout of an aggregate, given those of the aggregates in it. -/
def Aggregate.layoutIn (nested : Aggregate → Passage) (a : Aggregate) : Passage :=
  fun ms rest => ∃ entries, a.settings = entries.flatten ∧
    braces .aggregateEnd (items 0 (entryLayout (Value.layoutIn nested)) entries) a.comments ms rest

/-- The layout of an aggregate that is nested less than `depth` deep. -/
def Aggregate.layoutWithin : (depth : Nat) → Aggregate → Passage
  | 0, _ => fun _ _ => False
  | depth + 1, a => Aggregate.layoutIn (layoutWithin depth) a

/-- The layout of an aggregate. -/
def Aggregate.layout (a : Aggregate) : Passage := fun ms rest =>
  ∃ depth, a.layoutWithin depth ms rest

/-- The layout of a value. -/
def Value.layout : Value → Passage := Value.layoutIn Aggregate.layout

/-- The comments of a value itself, which only an aggregate has. -/
def Value.comments : Value → List Comment
  | .aggregate a => a.comments
  | _ => []

/-- The layout of one of the options in brackets, which have no comments. -/
def Setting.layout (s : Setting) : Passage := fun ms rest => s.comments = [] ∧
  (words .inner (Phrase.optionName s.name * Phrase.mark .equals) * s.value.layout) ms rest

/-- The layout of the options in brackets, which may be left out. -/
def FieldOptions.layout (o : FieldOptions) : Passage := fun ms rest =>
  (o = FieldOptions.empty ∧ ms = []) ∨
  ∃ first others, o = FieldOptions.ofList (first :: others) ∧
    (words (.options (first :: others)) (Phrase.mark .leftBracket) *
      separated .comma Setting.layout first others *
      words .inner (Phrase.mark .rightBracket)) ms rest

/-- The layout of an option statement. -/
def OptionDecl.layout (o : OptionDecl) : Passage := fun ms rest => ∃ v, o.Holds v ∧
  statement o.comments v.comments
    (words .start (Phrase.keyword .optionKw * Phrase.optionName o.name * Phrase.mark .equals) *
      v.layout) ms rest

/-! ## Fields -/

/-- The layout of a declaration of a name with a number and options, after what stands before the
name. -/
def Passage.field (comments : List Comment) (head : Phrase) (name : String) (number : Int)
    (options : FieldOptions) : Passage :=
  statement comments []
    (words .start (head * Phrase.word name * Phrase.mark .equals * Phrase.integer number) *
      options.layout)

/-- The layout of a field. -/
def Field.layout (f : Field) : Passage :=
  Passage.field f.comments (Modifier.phrase f.modifier * f.type.phrase) f.name f.number f.options

/-- The layout of a map field. -/
def MapField.layout (f : MapField) : Passage :=
  Passage.field f.comments
    (Phrase.keyword .mapKw * Phrase.mark .leftAngle * f.keyType.phrase * Phrase.mark .comma *
      f.valueType.phrase * Phrase.mark .rightAngle) f.name f.number f.options

/-- The layout of a field of a oneof. -/
def OneofField.layout (f : OneofField) : Passage :=
  Passage.field f.comments f.type.phrase f.name f.number f.options

/-- The layout of a declaration in a oneof. -/
def OneofItem.layout : OneofItem → Passage
  | .option decl => decl.layout
  | .field decl => decl.layout

/-- The layout of a oneof. -/
def Oneof.layout (o : Oneof) : Passage := fun ms rest =>
  ∃ items, o.fields = items.filterMap OneofItem.field? ∧
    o.options = items.filterMap OneofItem.option? ∧
    block o.comments (Phrase.keyword .oneofKw * Phrase.word o.name) OneofItem.layout items ms rest

/-- The layout of a `reserved` statement. -/
def Reserved.layout (r : Reserved) : Passage :=
  statement r.comments [] (words .start (Phrase.keyword .reservedKw * r.items.phrase))

/-- The layout of an `extensions` statement. -/
def ExtensionRanges.layout (e : ExtensionRanges) : Passage :=
  statement e.comments []
    (words .start (Phrase.keyword .extensionsKw * NumberRange.listPhrase e.ranges))

/-! ## Enums, extensions and messages -/

/-- The layout of a value of an enum. -/
def EnumValue.layout (v : EnumValue) : Passage :=
  Passage.field v.comments 1 v.name v.number v.options

/-- The layout of a declaration in an enum. -/
def EnumItem.layout : EnumItem → Passage
  | .option decl => decl.layout
  | .value decl => decl.layout
  | .reserved decl => decl.layout

/-- The layout of an enum. -/
def Enum.layout (e : Enum) : Passage :=
  block e.comments (Phrase.keyword .enumKw * Phrase.word e.name) EnumItem.layout e.items

/-- The layout of an extension. -/
def Extend.layout (e : Extend) : Passage :=
  block e.comments (Phrase.keyword .extendKw * Phrase.typeName e.extendee) Field.layout e.fields

/-- The layout of a member of a message. -/
def Member.layout : Member → Passage
  | .field decl => decl.layout
  | .map decl => decl.layout
  | .oneof decl => decl.layout
  | .reserved decl => decl.layout
  | .extensions decl => decl.layout

/-- The layout of a declaration in a message, given those of messages. -/
def MessageItem.layoutIn (nested : Message → Passage) : MessageItem → Passage
  | .option decl => decl.layout
  | .enum decl => decl.layout
  | .message decl => nested decl
  | .member decl => decl.layout
  | .extend decl => decl.layout

/-- The layout of a message, given those of the messages in it. -/
def Message.layoutIn (nested : Message → Passage) (m : Message) : Passage := fun ms rest =>
  ∃ items, m.Sorts items ∧ block m.comments (Phrase.keyword .messageKw * Phrase.word m.name)
    (MessageItem.layoutIn nested) items ms rest

/-- The layout of a message that is nested less than `depth` deep. -/
def Message.layoutWithin : (depth : Nat) → Message → Passage
  | 0, _ => fun _ _ => False
  | depth + 1, m => Message.layoutIn (layoutWithin depth) m

/-- The layout of a message. -/
def Message.layout (m : Message) : Passage := fun ms rest => ∃ depth, m.layoutWithin depth ms rest

/-! ## Services -/

/-- The layout of a method: it ends with options in braces, or with a semicolon. -/
def Rpc.layout (r : Rpc) : Passage := fun ms rest =>
  let head := Phrase.keyword .rpcKw * Phrase.word r.name * r.input.phrase *
    Phrase.keyword .returnsKw * r.output.phrase
  (r.options = [] ∧ statement r.comments [] (words .start head) ms rest) ∨
    block r.comments head OptionDecl.layout r.options ms rest

/-- The layout of a declaration in a service. -/
def ServiceItem.layout : ServiceItem → Passage
  | .option decl => decl.layout
  | .rpc decl => decl.layout

/-- The layout of a service. -/
def Service.layout (s : Service) : Passage := fun ms rest =>
  ∃ items, s.methods = items.filterMap ServiceItem.rpc? ∧
    s.options = items.filterMap ServiceItem.option? ∧
    block s.comments (Phrase.keyword .serviceKw * Phrase.word s.name) ServiceItem.layout items
      ms rest

/-! ## Files -/

/-- The layout of the statement with the language version. -/
def SyntaxDecl.layout (s : SyntaxDecl) : Passage :=
  statement s.comments []
    (words .start (Phrase.keyword .syntaxKw * Phrase.mark .equals * Phrase.text s.value))

/-- The layout of an import. -/
def Import.layout (i : Import) : Passage :=
  statement i.comments [] (words .start (Phrase.keyword .importKw *
    ImportModifier.phrase i.modifier *
    .of fun xs => ∃ path, i.path = Text.collapseBackslashes path ∧ xs ∈ Phrase.text path))

/-- The layout of a package statement. -/
def Package.layout (p : Package) : Passage :=
  statement p.comments [] (words .start (Phrase.keyword .packageKw * Phrase.name p.name))

/-- The layout of a definition. -/
def Definition.layout : Definition → Passage
  | .message decl => decl.layout
  | .enum decl => decl.layout
  | .service decl => decl.layout

/-- The layout of a statement of a file. -/
def FileItem.layout : FileItem → Passage
  | .imported decl => decl.layout
  | .package decl _ => decl.layout
  | .option decl => decl.layout
  | .definition decl => decl.layout
  | .extend decl => decl.layout

/-- The layout of a file. Its own comments are those among its statements that belong to none. -/
def File.layout (f : File) : Passage := fun ms rest =>
  ∃ statements, f.Sorts statements ∧ (f.version.layout *
    items (Phrase.mark .semicolon) FileItem.layout statements f.comments) ms rest

end ProtoSchema
