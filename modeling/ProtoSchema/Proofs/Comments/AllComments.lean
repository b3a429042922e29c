import ProtoSchema.Proofs.Phrase

/-
  All comments of a tree: those of its declarations and entries, and those in the values of options.
  The order is that of the tree, in which declarations are sorted by kind; how often a comment
  occurs is the same as in the order of the source (`Message.Sorts.count`, `File.Sorts.count`).
-/

namespace ProtoSchema

/-! ## Values and options -/

mutual

/-- The comments in a value. -/
def Value.allComments : Value → List Comment
  | .aggregate a => Aggregate.allComments a
  | _ => []

/-- The comments in an aggregate. -/
def Aggregate.allComments : Aggregate → List Comment
  | ⟨settings, comments⟩ => comments ++ Setting.allCommentsOf settings

/-- The comments of several settings and of their values. -/
def Setting.allCommentsOf : List Setting → List Comment
  | [] => []
  | ⟨_, value, comments⟩ :: settings =>
    comments ++ Value.allComments value ++ Setting.allCommentsOf settings

end

/-- The comments of a setting and of its value. -/
def Setting.allComments (s : Setting) : List Comment := s.comments ++ s.value.allComments

theorem Setting.allCommentsOf_eq (settings : List Setting) :
    allCommentsOf settings = settings.flatMap allComments := by
  induction settings with
  | nil => rfl
  | cons s settings ih =>
    obtain ⟨name, value, comments⟩ := s
    rw [allCommentsOf, ih]
    rfl

/-- The comments in the options of a field. -/
def FieldOptions.allComments (o : FieldOptions) : List Comment :=
  o.settings.flatMap Setting.allComments

/-- The comments of an option statement. -/
def OptionDecl.allComments (o : OptionDecl) : List Comment :=
  o.comments ++ o.settings.flatMap Setting.allComments

/-- The comments of a field. -/
def Field.allComments (f : Field) : List Comment := f.comments ++ f.options.allComments

/-- The comments of a map field. -/
def MapField.allComments (f : MapField) : List Comment := f.comments ++ f.options.allComments

/-- The comments of a field of a oneof. -/
def OneofField.allComments (f : OneofField) : List Comment := f.comments ++ f.options.allComments

/-- The comments of a declaration in a oneof. -/
def OneofItem.allComments : OneofItem → List Comment
  | .option decl => decl.allComments
  | .field decl => decl.allComments

/-- The comments of a oneof. -/
def Oneof.allComments (o : Oneof) : List Comment :=
  o.comments ++ o.fields.flatMap OneofField.allComments ++ o.options.flatMap OptionDecl.allComments

/-- The comments of a value of an enum. -/
def EnumValue.allComments (v : EnumValue) : List Comment := v.comments ++ v.options.allComments

/-- The comments of a declaration in an enum. -/
def EnumItem.allComments : EnumItem → List Comment
  | .option decl => decl.allComments
  | .value decl => decl.allComments
  | .reserved decl => decl.comments

/-- The comments of an enum. -/
def Enum.allComments (e : Enum) : List Comment := e.comments ++ e.items.flatMap EnumItem.allComments

/-- The comments of an extension. -/
def Extend.allComments (e : Extend) : List Comment :=
  e.comments ++ e.fields.flatMap Field.allComments

/-- The comments of a member of a message. -/
def Member.allComments : Member → List Comment
  | .field decl => decl.allComments
  | .map decl => decl.allComments
  | .oneof decl => decl.allComments
  | .reserved decl => decl.comments
  | .extensions decl => decl.comments

mutual

/-- The comments of a message. -/
def Message.allComments : Message → List Comment
  | ⟨_, members, enums, messages, options, extensions, comments⟩ =>
    comments ++ members.flatMap Member.allComments ++ enums.flatMap Enum.allComments ++
      Message.allCommentsOf messages ++ options.flatMap OptionDecl.allComments ++
      extensions.flatMap Extend.allComments

/-- The comments of several messages. -/
def Message.allCommentsOf : List Message → List Comment
  | [] => []
  | m :: messages => Message.allComments m ++ Message.allCommentsOf messages

end

theorem Message.allCommentsOf_eq (messages : List Message) :
    allCommentsOf messages = messages.flatMap allComments := by
  induction messages with
  | nil => rfl
  | cons m messages ih => rw [allCommentsOf, ih, List.flatMap_cons]

/-- The comments of a declaration in a message. -/
def MessageItem.allComments : MessageItem → List Comment
  | .option decl => decl.allComments
  | .enum decl => decl.allComments
  | .message decl => decl.allComments
  | .member decl => decl.allComments
  | .extend decl => decl.allComments

/-- The comments of a method. -/
def Rpc.allComments (r : Rpc) : List Comment :=
  r.comments ++ r.options.flatMap OptionDecl.allComments

/-- The comments of a declaration in a service. -/
def ServiceItem.allComments : ServiceItem → List Comment
  | .option decl => decl.allComments
  | .rpc decl => decl.allComments

/-- The comments of a service. -/
def Service.allComments (s : Service) : List Comment :=
  s.comments ++ s.methods.flatMap Rpc.allComments ++ s.options.flatMap OptionDecl.allComments

/-- The comments of a definition. -/
def Definition.allComments : Definition → List Comment
  | .message decl => decl.allComments
  | .enum decl => decl.allComments
  | .service decl => decl.allComments

/-- The comments of a statement of a file. -/
def FileItem.allComments : FileItem → List Comment
  | .imported decl => decl.comments
  | .package decl _ => decl.comments
  | .option decl => decl.allComments
  | .definition decl => decl.allComments
  | .extend decl => decl.allComments

/-- The comments of a file, with all comments of its declarations, entries and aggregates. -/
def File.allComments (f : File) : List Comment :=
  f.version.comments ++ f.package.toList.flatMap Package.comments ++
    f.imports.flatMap Import.comments ++ f.options.flatMap OptionDecl.allComments ++
    f.definitions.flatMap Definition.allComments ++ f.extensions.flatMap Extend.allComments ++
    f.comments

/-! ## Declarations sorted by kind -/

/-- Sorting declarations by kind changes only the order of their comments. -/
theorem Message.Sorts.count {m : Message} {items : List MessageItem} (h : m.Sorts items)
    (c : Comment) : m.allComments.count c =
      m.comments.count c + (items.flatMap MessageItem.allComments).count c := by
  obtain ⟨name, members, enums, messages, options, extensions, comments⟩ := m
  obtain ⟨rfl, rfl, rfl, rfl, rfl⟩ := h
  rw [allComments, allCommentsOf_eq]
  induction items with
  | nil => simp
  | cons i items ih =>
    cases i <;>
    · simp only [List.filterMap_cons, MessageItem.member?, MessageItem.enum?, MessageItem.message?,
        MessageItem.option?, MessageItem.extend?, MessageItem.allComments, List.flatMap_cons,
        List.count_append] at ih ⊢
      omega

theorem Oneof.count_allComments {o : Oneof} {items : List OneofItem}
    (hfields : o.fields = items.filterMap OneofItem.field?)
    (hoptions : o.options = items.filterMap OneofItem.option?) (c : Comment) :
    o.allComments.count c =
      o.comments.count c + (items.flatMap OneofItem.allComments).count c := by
  rw [allComments, hfields, hoptions]
  clear hfields hoptions
  induction items with
  | nil => simp
  | cons i items ih =>
    cases i <;>
    · simp only [List.filterMap_cons, OneofItem.field?, OneofItem.option?, OneofItem.allComments,
        List.flatMap_cons, List.count_append] at ih ⊢
      omega

theorem Service.count_allComments {s : Service} {items : List ServiceItem}
    (hmethods : s.methods = items.filterMap ServiceItem.rpc?)
    (hoptions : s.options = items.filterMap ServiceItem.option?) (c : Comment) :
    s.allComments.count c =
      s.comments.count c + (items.flatMap ServiceItem.allComments).count c := by
  rw [allComments, hmethods, hoptions]
  clear hmethods hoptions
  induction items with
  | nil => simp
  | cons i items ih =>
    cases i <;>
    · simp only [List.filterMap_cons, ServiceItem.rpc?, ServiceItem.option?,
        ServiceItem.allComments, List.flatMap_cons, List.count_append] at ih ⊢
      omega

/-- Sorting statements by kind changes only the order of their comments. -/
theorem File.Sorts.count {f : File} {items : List FileItem} (h : f.Sorts items) (c : Comment) :
    f.allComments.count c = f.version.comments.count c +
      (items.flatMap FileItem.allComments).count c + f.comments.count c := by
  obtain ⟨version, package, imports, options, definitions, extensions, comments⟩ := f
  obtain ⟨hpackage, rfl, rfl, rfl, rfl⟩ := h
  dsimp only at hpackage
  simp only [allComments, hpackage]
  clear hpackage
  induction items with
  | nil => simp
  | cons i items ih =>
    cases i <;>
    · simp only [List.filterMap_cons, FileItem.package?, FileItem.import?, FileItem.option?,
        FileItem.definition?, FileItem.extend?, FileItem.allComments, List.map_cons,
        List.flatMap_cons, List.count_append] at ih ⊢
      omega

end ProtoSchema
