import Mathlib
import ProtoSchema.Proofs.Symbol
import ProtoSchema.Text.Backslash
import ProtoSchema.Tree.File

/-
  The grammar of schema files, as sets of sequences of symbols. The phrase of a node is the set of
  all ways to write it; comments do not count, and nothing here refers to how a file is read. A
  value and a message may contain others of their kind, so their phrases are given by rules; all
  other phrases are products of the phrases of their parts.
-/

namespace ProtoSchema

/-- A set of sequences of symbols. -/
abbrev Phrase := Language Symbol

/-- The sequences of symbols with a property. -/
def Phrase.of (P : List Symbol → Prop) : Phrase := P

@[simp] theorem Phrase.mem_of {P : List Symbol → Prop} {xs : List Symbol} :
    xs ∈ Phrase.of P ↔ P xs := Iff.rfl

/-! ## Sequences of items -/

/-- Items one right after the other, each written as `R` says. -/
inductive Series {α : Type} (R : α → List Symbol → Prop) : List α → List Symbol → Prop
  | nil : Series R [] []
  | cons {item items xs ys} (first : R item xs) (others : Series R items ys) :
      Series R (item :: items) (xs ++ ys)

/-- One or more items with a separator between any two. -/
inductive Separated {α : Type} (separator : Punct) (R : α → List Symbol → Prop) :
    List α → List Symbol → Prop
  | last {item xs} (only : R item xs) : Separated separator R [item] xs
  | cons {item items xs ys} (first : R item xs) (others : Separated separator R items ys) :
      Separated separator R (item :: items) (xs ++ .punct separator :: ys)

/-- Statements in the order of the source, with any number of stray semicolons among them. -/
inductive Statements {α : Type} (R : α → List Symbol → Prop) : List α → List Symbol → Prop
  | nil : Statements R [] []
  | stray {items xs} (others : Statements R items xs) :
      Statements R items (.punct .semicolon :: xs)
  | cons {item items xs ys} (first : R item xs) (others : Statements R items ys) :
      Statements R (item :: items) (xs ++ ys)

namespace Phrase

/-! ## Words, numbers and strings -/

/-- A punctuation token. -/
def mark (p : Punct) : Phrase := {[.punct p]}

/-- The spelling of a keyword. -/
def keyword (k : Keyword) : Phrase := {[.word k.text]}

/-- A word as it is spelled. -/
def word (w : String) : Phrase := .of fun xs => IsWord w ∧ xs = [.word w]

/-- An integer. -/
def integer (n : Int) : Phrase := {[.int n]}

/-- One or more string literals that together are the text. -/
def text (s : String) : Phrase :=
  .of fun xs => ∃ parts ≠ [], s = String.join parts ∧ xs = parts.map .string

/-- Words with dots between them. -/
def name (n : String) : Phrase :=
  .of fun xs => ∃ parts, n = String.intercalate "." parts ∧
    Separated .dot (fun w ys => ys ∈ word w) parts xs

/-- Words with dots between them, after a dot of their own if the name is absolute. -/
def typeName (n : String) : Phrase :=
  name n + .of fun xs => ∃ relative, n = "." ++ relative ∧ xs ∈ mark .dot * name relative

/-- Statements in braces. -/
def body {α : Type} (item : α → Phrase) (items : List α) : Phrase :=
  mark .leftBrace * .of (Statements (fun i ys => ys ∈ item i) items) * mark .rightBrace

/-! ## Options -/

/-- The first part of the name of an option: a word, or the name of an extension in parentheses. -/
def optionNameStart (part : String) : Phrase :=
  word part + mark .leftParen * typeName part * mark .rightParen

/-- A later part of the name of an option, of which a dot at its start is not kept. -/
def optionNamePart (part : String) : Phrase :=
  word part + mark .leftParen * (1 + mark .dot) * name part * mark .rightParen

/-- The name of an option: its parts with dots between them. -/
def optionName (n : String) : Phrase :=
  .of fun xs => ∃ first parts ys zs, n = String.intercalate "." (first :: parts) ∧
    ys ∈ optionNameStart first ∧
    Series (fun part us => us ∈ mark .dot * optionNamePart part) parts zs ∧ xs = ys ++ zs

/-- The key of an entry: a word, or the name of an extension in square brackets. -/
def entryKey (key : String) : Phrase :=
  word key + mark .leftBracket * typeName key * mark .rightBracket

/-- What may stand after an entry. -/
def entryEnd : Phrase := 1 + mark .comma + mark .semicolon

end Phrase

/-- The ways to write a value that has no braces. -/
def Value.constant : Value → Phrase
  | .int n => Phrase.integer n
  | .float x => {[.float x]}
  | .bool b => .of fun xs => ∃ w, spelledBool? w = some b ∧ xs ∈ Phrase.word w
  | .string s => Phrase.text s
  | .null => .of fun xs => ∃ w, spellsNull w ∧ xs ∈ Phrase.word w
  | .ident n => .of fun xs => xs ∈ Phrase.name n ∧ ∃ w ys, spellsName w ∧ xs = .word w :: ys
  | .aggregate _ => 0

mutual

/-- The ways to write a value. -/
inductive Value.Yields : Value → List Symbol → Prop
  | constant {v xs} (h : xs ∈ v.constant) : Value.Yields v xs
  | aggregate {a xs} (h : Aggregate.Yields a xs) : Value.Yields (.aggregate a) xs

/-- The ways to write an aggregate: the entries in braces, with all settings that each makes. -/
inductive Aggregate.Yields : Aggregate → List Symbol → Prop
  | intro {a : Aggregate} {entries xs} (settings : a.settings = entries.flatten)
      (h : Series Aggregate.EntryYields entries xs) :
      Aggregate.Yields a (.punct .leftBrace :: (xs ++ [.punct .rightBrace]))

/-- The ways to write the settings of one entry: its key, then its values, one for each
setting. -/
inductive Aggregate.EntryYields : List Setting → List Symbol → Prop
  | intro {settings : List Setting} {key values xs ys zs}
      (names : ∀ s ∈ settings, s.name = key) (settings_values : settings.map Setting.value = values)
      (hkey : xs ∈ Phrase.entryKey key) (hvalues : Aggregate.ValuesYield values ys)
      (hend : zs ∈ Phrase.entryEnd) : Aggregate.EntryYields settings (xs ++ ys ++ zs)

/-- The ways to write the values of an entry, with the colon before them. -/
inductive Aggregate.ValuesYield : List Value → List Symbol → Prop
  | bare {a xs} (h : Aggregate.Yields a xs) : Aggregate.ValuesYield [.aggregate a] xs
  | one {v xs} (h : Value.Yields v xs) : Aggregate.ValuesYield [v] (.punct .colon :: xs)
  | empty : Aggregate.ValuesYield []
      [.punct .colon, .punct .leftBracket, .punct .rightBracket]
  | many {values xs} (h : Separated .comma Value.Yields values xs) :
      Aggregate.ValuesYield values
        (.punct .colon :: .punct .leftBracket :: (xs ++ [.punct .rightBracket]))

end

/-- The ways to write a value. -/
def Value.phrase (v : Value) : Phrase := .of v.Yields

/-- The ways to write an aggregate. -/
def Aggregate.phrase (a : Aggregate) : Phrase := .of a.Yields

/-- The ways to write one of the options in brackets. -/
def Setting.phrase (s : Setting) : Phrase :=
  Phrase.optionName s.name * Phrase.mark .equals * s.value.phrase

/-- The ways to write the options in brackets, in which an option that is given again replaces the
one before. -/
def FieldOptions.phrase (o : FieldOptions) : Phrase :=
  .of (fun xs => o = FieldOptions.empty ∧ xs = []) +
    Phrase.mark .leftBracket *
      .of (fun xs => ∃ settings, o = FieldOptions.ofList settings ∧
        Separated .comma (fun s ys => ys ∈ Setting.phrase s) settings xs) *
      Phrase.mark .rightBracket

/-- An option that has the settings which the value gives it: those of an aggregate, or a single one
with the name of the option. -/
def OptionDecl.Holds (o : OptionDecl) (v : Value) : Prop :=
  match v with
  | .aggregate a => o.settings = a.settings
  | v => o.settings = [⟨o.name, v, []⟩]

/-- The ways to write an option statement. -/
def OptionDecl.phrase (o : OptionDecl) : Phrase :=
  Phrase.keyword .optionKw * Phrase.optionName o.name * Phrase.mark .equals *
    .of (fun xs => ∃ v, o.Holds v ∧ xs ∈ v.phrase) * Phrase.mark .semicolon

/-! ## Fields -/

/-- The ways to write the modifier of a field. -/
def Modifier.phrase : Option Modifier → Phrase
  | none => 1
  | some .optional => Phrase.keyword .optionalKw
  | some .required => Phrase.keyword .requiredKw
  | some .repeated => Phrase.keyword .repeatedKw

/-- The ways to write the type of a field. -/
def FieldType.phrase (t : FieldType) : Phrase := Phrase.typeName t.name

/-- The ways to write the part that all fields have after their types. -/
def Phrase.declarator (n : String) (number : Int) (options : FieldOptions) : Phrase :=
  word n * mark .equals * integer number * options.phrase * mark .semicolon

/-- The ways to write a field. -/
def Field.phrase (f : Field) : Phrase :=
  Modifier.phrase f.modifier * f.type.phrase * Phrase.declarator f.name f.number f.options

/-- The ways to write a map field. -/
def MapField.phrase (f : MapField) : Phrase :=
  Phrase.keyword .mapKw * Phrase.mark .leftAngle * f.keyType.phrase * Phrase.mark .comma *
    f.valueType.phrase * Phrase.mark .rightAngle * Phrase.declarator f.name f.number f.options

/-- The ways to write a field of a oneof. -/
def OneofField.phrase (f : OneofField) : Phrase :=
  f.type.phrase * Phrase.declarator f.name f.number f.options

/-- The ways to write a declaration in a oneof. -/
def OneofItem.phrase : OneofItem → Phrase
  | .option decl => decl.phrase
  | .field decl => decl.phrase

/-- The ways to write a oneof: the fields and the options are the declarations of either kind in its
body. -/
def Oneof.phrase (o : Oneof) : Phrase :=
  Phrase.keyword .oneofKw * Phrase.word o.name *
    .of fun xs => ∃ items, o.fields = items.filterMap OneofItem.field? ∧
      o.options = items.filterMap OneofItem.option? ∧ xs ∈ Phrase.body OneofItem.phrase items

/-! ## Ranges of numbers -/

/-- The ways to write the end of a range. -/
def RangeEnd.phrase : RangeEnd → Phrase
  | .number n => Phrase.integer n
  | .max => Phrase.keyword .maxKw

/-- The ways to write a number or a range. -/
def NumberRange.phrase : NumberRange → Phrase
  | .single n => Phrase.integer n
  | .between first last => Phrase.integer first * Phrase.keyword .toKw * last.phrase

/-- The ways to write numbers and ranges. -/
def NumberRange.listPhrase (ranges : List NumberRange) : Phrase :=
  .of (Separated .comma (fun r ys => ys ∈ NumberRange.phrase r) ranges)

/-- The ways to write what a `reserved` statement reserves. -/
def ReservedItems.phrase : ReservedItems → Phrase
  | .numbers ranges => NumberRange.listPhrase ranges
  | .names texts => .of (Separated .comma (fun s ys => ys ∈ Phrase.text s) texts)

/-- The ways to write a `reserved` statement. -/
def Reserved.phrase (r : Reserved) : Phrase :=
  Phrase.keyword .reservedKw * r.items.phrase * Phrase.mark .semicolon

/-- The ways to write an `extensions` statement. -/
def ExtensionRanges.phrase (e : ExtensionRanges) : Phrase :=
  Phrase.keyword .extensionsKw * NumberRange.listPhrase e.ranges * Phrase.mark .semicolon

/-! ## Enums, extensions and messages -/

/-- The ways to write a value of an enum. -/
def EnumValue.phrase (v : EnumValue) : Phrase := Phrase.declarator v.name v.number v.options

/-- The ways to write a declaration in an enum. -/
def EnumItem.phrase : EnumItem → Phrase
  | .option decl => decl.phrase
  | .value decl => decl.phrase
  | .reserved decl => decl.phrase

/-- The ways to write an enum. -/
def Enum.phrase (e : Enum) : Phrase :=
  Phrase.keyword .enumKw * Phrase.word e.name * Phrase.body EnumItem.phrase e.items

/-- The ways to write an extension. -/
def Extend.phrase (e : Extend) : Phrase :=
  Phrase.keyword .extendKw * Phrase.typeName e.extendee * Phrase.body Field.phrase e.fields

/-- The ways to write a member of a message. -/
def Member.phrase : Member → Phrase
  | .field decl => decl.phrase
  | .map decl => decl.phrase
  | .oneof decl => decl.phrase
  | .reserved decl => decl.phrase
  | .extensions decl => decl.phrase

/-- A message that has exactly the declarations `items`, those of each kind in their order. -/
structure Message.Sorts (m : Message) (items : List MessageItem) : Prop where
  members : m.members = items.filterMap MessageItem.member?
  enums : m.enums = items.filterMap MessageItem.enum?
  messages : m.messages = items.filterMap MessageItem.message?
  options : m.options = items.filterMap MessageItem.option?
  extensions : m.extensions = items.filterMap MessageItem.extend?

mutual

/-- The ways to write a message. -/
inductive Message.Yields : Message → List Symbol → Prop
  | intro {m : Message} {items xs} (name : IsWord m.name) (sorts : m.Sorts items)
      (h : Statements MessageItem.Yields items xs) :
      Message.Yields m (.word Keyword.messageKw.text :: .word m.name :: .punct .leftBrace ::
        (xs ++ [.punct .rightBrace]))

/-- The ways to write a declaration in a message. -/
inductive MessageItem.Yields : MessageItem → List Symbol → Prop
  | option {decl : OptionDecl} {xs} (h : xs ∈ decl.phrase) : MessageItem.Yields (.option decl) xs
  | enum {decl : Enum} {xs} (h : xs ∈ decl.phrase) : MessageItem.Yields (.enum decl) xs
  | message {decl xs} (h : Message.Yields decl xs) : MessageItem.Yields (.message decl) xs
  | member {decl : Member} {xs} (h : xs ∈ decl.phrase) : MessageItem.Yields (.member decl) xs
  | extend {decl : Extend} {xs} (h : xs ∈ decl.phrase) : MessageItem.Yields (.extend decl) xs

end

/-- The ways to write a message. -/
def Message.phrase (m : Message) : Phrase := .of m.Yields

/-- The ways to write a declaration in a message. -/
def MessageItem.phrase (i : MessageItem) : Phrase := .of i.Yields

/-! ## Services -/

/-- The ways to write what a method takes or gives back. -/
def RpcType.phrase (t : RpcType) : Phrase :=
  Phrase.mark .leftParen * (if t.isStream then Phrase.keyword .streamKw else 1) *
    Phrase.typeName t.name * Phrase.mark .rightParen

/-- The ways to write a method: it ends with options in braces, or with a semicolon. -/
def Rpc.phrase (r : Rpc) : Phrase :=
  Phrase.keyword .rpcKw * Phrase.word r.name * r.input.phrase * Phrase.keyword .returnsKw *
    r.output.phrase *
    (Phrase.body OptionDecl.phrase r.options +
      .of fun xs => r.options = [] ∧ xs = [.punct .semicolon])

/-- The ways to write a declaration in a service. -/
def ServiceItem.phrase : ServiceItem → Phrase
  | .option decl => decl.phrase
  | .rpc decl => decl.phrase

/-- The ways to write a service: the methods and the options are the declarations of either kind in
its body. -/
def Service.phrase (s : Service) : Phrase :=
  Phrase.keyword .serviceKw * Phrase.word s.name *
    .of fun xs => ∃ items, s.methods = items.filterMap ServiceItem.rpc? ∧
      s.options = items.filterMap ServiceItem.option? ∧ xs ∈ Phrase.body ServiceItem.phrase items

/-! ## Files -/

/-- The ways to write the statement with the language version. -/
def SyntaxDecl.phrase (s : SyntaxDecl) : Phrase :=
  Phrase.keyword .syntaxKw * Phrase.mark .equals * Phrase.text s.value * Phrase.mark .semicolon

/-- The ways to write the modifier of an import. -/
def ImportModifier.phrase : Option ImportModifier → Phrase
  | none => 1
  | some .weakImport => Phrase.keyword .weakKw
  | some .publicImport => Phrase.keyword .publicKw

/-- The ways to write an import. In a path, a run of backslashes stands for one. -/
def Import.phrase (i : Import) : Phrase :=
  Phrase.keyword .importKw * ImportModifier.phrase i.modifier *
    .of (fun xs => ∃ path, i.path = Text.collapseBackslashes path ∧ xs ∈ Phrase.text path) *
    Phrase.mark .semicolon

/-- The ways to write a package statement. -/
def Package.phrase (p : Package) : Phrase :=
  Phrase.keyword .packageKw * Phrase.name p.name * Phrase.mark .semicolon

/-- The ways to write a definition. -/
def Definition.phrase : Definition → Phrase
  | .message decl => decl.phrase
  | .enum decl => decl.phrase
  | .service decl => decl.phrase

/-- The ways to write a statement of a file. -/
def FileItem.phrase : FileItem → Phrase
  | .imported decl => decl.phrase
  | .package decl _ => decl.phrase
  | .option decl => decl.phrase
  | .definition decl => decl.phrase
  | .extend decl => decl.phrase

/-- A file that has exactly the statements `items`, those of each kind in their order. -/
structure File.Sorts (f : File) (items : List FileItem) : Prop where
  package : f.package.toList = (items.filterMap FileItem.package?).map Prod.fst
  imports : f.imports = items.filterMap FileItem.import?
  options : f.options = items.filterMap FileItem.option?
  definitions : f.definitions = items.filterMap FileItem.definition?
  extensions : f.extensions = items.filterMap FileItem.extend?

/-- The ways to write a file: first the language version, then its statements. -/
def File.phrase (f : File) : Phrase :=
  f.version.phrase *
    .of fun xs => ∃ items, f.Sorts items ∧ Statements (fun i ys => ys ∈ FileItem.phrase i) items xs

end ProtoSchema
