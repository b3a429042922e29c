import ProtoSchema.Proofs.Completeness.Fields

/-
  What is written canonically is read back. The lemmas follow the productions: each says that on the
  canonical symbols of a node its production gives this node, and where an earlier alternative could
  be mistaken for it, that this one refuses. `File.ofLexemes_symbols`: lexemes that show the
  canonical symbols of a file make up this file. Trees that are excluded from this for the sake of
  the grammar are written like others, which the section before it shows.
-/

namespace ProtoSchema

namespace Production

variable {xs : List Symbol}

/-! ## Ranges of numbers -/

theorem reads_rangeEnd (e : RangeEnd) : Reads rangeEnd (e.symbols ++ xs) (· = e) xs := by
  cases e with
  | number n => exact (reads_skip_none rfl).then ((reads_number n _).map RangeEnd.number)
  | max => exact (reads_skip rfl).then (.pure rfl)

/-- A number is complete where a mark follows. -/
theorem reads_numberRange (r : NumberRange) (h : Closes xs) :
    Reads numberRange (r.symbols ++ xs) (· = r) xs := by
  cases r with
  | single n =>
    refine (reads_integer n).then ((reads_skip_none ?_).then (.pure rfl))
    obtain ⟨p, ys, rfl, -⟩ := h
    rfl
  | between first last =>
    refine (reads_integer first).then ((reads_skip rfl).then ?_)
    exact (reads_rangeEnd last).then (.pure rfl)

theorem reads_numberRanges {ranges : List NumberRange} (hne : ranges ≠ []) :
    Reads numberRanges
      (Symbol.separated .comma NumberRange.symbols ranges ++ .punct .semicolon :: xs)
      (· = ranges) (.punct .semicolon :: xs) :=
  reads_separated (N := Closes) hne (fun r _ _ hrest => reads_numberRange r hrest)
    (fun rest => closes_punct .comma rest nofun) (closes_punct .semicolon xs nofun) rfl

theorem reads_reservedItems {items : ReservedItems}
    (h : items ≠ .numbers [] ∧ items ≠ .names []) :
    Reads reservedItems (items.symbols ++ .punct .semicolon :: xs) (· = items)
      (.punct .semicolon :: xs) := by
  cases items with
  | numbers ranges =>
    have hne : ranges ≠ [] := fun hnil => h.1 (hnil ▸ rfl)
    exact .orElse ((reads_numberRanges hne).map ReservedItems.numbers) _
  | names texts =>
    have hne : texts ≠ [] := fun hnil => h.2 (hnil ▸ rfl)
    have hnames : Reads (separated (.punct .comma) string)
        (Symbol.separated .comma (fun s => [.string s]) texts ++ .punct .semicolon :: xs)
        (· = texts) (.punct .semicolon :: xs) :=
      reads_separated (N := Closes) hne (fun s _ _ hrest => reads_string s hrest.not_string)
        (fun rest => closes_punct .comma rest nofun) (closes_punct .semicolon xs nofun) rfl
    refine .orElse_right (Refuses.map ?_ _) (hnames.map ReservedItems.names)
    refine refuses_separated (Refuses.bind (refuses_takeOr ?_) _)
    cases texts with
    | nil => exact absurd rfl hne
    | cons s texts => rfl

theorem reads_reserved {r : Reserved} (h : r.Canonical) :
    Reads reserved (r.symbols ++ xs) (· = r) xs := by
  obtain ⟨items, comments⟩ := r
  obtain ⟨hitems, rfl⟩ := h
  rw [Reserved.symbols]
  simp only [List.cons_append, List.append_assoc, List.nil_append]
  refine reads_comments.then (Reads.afterKeyword (k := .reservedKw) ?_)
  exact (reads_reservedItems hitems).then ((reads_endStatement []).then (.pure rfl))

theorem reads_extensionRanges {e : ExtensionRanges} (h : e.Canonical) :
    Reads extensionRanges (e.symbols ++ xs) (· = e) xs := by
  obtain ⟨ranges, comments⟩ := e
  obtain ⟨hranges, rfl⟩ := h
  rw [ExtensionRanges.symbols]
  simp only [List.cons_append, List.append_assoc, List.nil_append]
  refine reads_comments.then (Reads.afterKeyword (k := .extensionsKw) ?_)
  exact (reads_numberRanges hranges).then ((reads_endStatement []).then (.pure rfl))

/-! ## Oneofs -/

theorem reads_oneofItem {i : OneofItem} {o : Oneof} (ho : o.Canonical) (hi : i ∈ o.items) :
    Reads ((do return .option (← optionDecl)) <|> (do return .field (← oneofField)))
      (i.symbols ++ xs) (· = i) xs := by
  rcases List.mem_append.1 hi with hi | hi
  · obtain ⟨d, hd, rfl⟩ := List.mem_map.1 hi
    exact .orElse ((reads_optionDecl (ho.options d hd)).map OneofItem.option) _
  · obtain ⟨f, hf, rfl⟩ := List.mem_map.1 hi
    have hcanonical := ho.fields f hf
    refine .orElse_right (Refuses.map ?_ _) ((reads_oneofField hcanonical).map OneofItem.field)
    rw [OneofItem.symbols, OneofField.symbols, List.append_assoc]
    exact refuses_optionDecl_of_field hcanonical.notOption

end Production

/-- The declarations of a oneof, sorted by kind. -/
theorem Oneof.ofItems_items (o : Oneof) (h : o.comments = []) : ofItems o.name o.items [] = o := by
  obtain ⟨name, fields, options, comments⟩ := o
  obtain rfl : comments = [] := h
  simp [ofItems, items, List.filterMap_append, List.filterMap_map, Function.comp_def,
    OneofItem.field?, OneofItem.option?]

namespace Production

variable {xs : List Symbol}

theorem symbols_ne_nil_of_oneofItem (i : OneofItem) : i.symbols ≠ [] := by
  cases i with
  | option d => exact List.cons_ne_nil _ _
  | field f => exact List.append_ne_nil_of_right_ne_nil _ (List.cons_ne_nil _ _)

theorem reads_oneof {o : Oneof} (h : o.Canonical) : Reads oneof (o.symbols ++ xs) (· = o) xs := by
  have hend (rest : List Symbol) : Refuses
      ((do return .option (← optionDecl)) <|> (do return OneofItem.field (← oneofField)))
      (.punct .rightBrace :: rest) :=
    .past rfl (refuses_oneofField.map _)
  refine (reads_named o.name (fun i hi rest => reads_oneofItem h hi)
    (fun i _ => symbols_ne_nil_of_oneofItem i) hend).mono ?_
  exact fun _ heq => heq.trans (o.ofItems_items h.comments)

/-! ## Enums and extensions -/

/-- A name with something after it is not taken for a declaration that starts with a keyword, though
it may be spelled like it, if what stands after it does not fit. -/
theorem refuses_nameLike {α : Type} {k : Keyword} {q : List Comment → Span → Production α}
    {w : String} (h : ∀ leading first, Refuses (q leading first) xs) :
    Refuses (do
      let leading ← comments
      let first ← keyword k
      q leading first) (.word w :: xs) := by
  by_cases hw : w = k.text
  · subst hw
    exact reads_comments.refuses fun leading _ => (reads_keyword k).refuses fun first _ =>
      h leading first
  · exact refuses_declaration (decide_eq_false hw)

theorem reads_enumItem {i : EnumItem} (h : i.Canonical) :
    Reads enumItem (i.symbols ++ xs) (· = i) xs := by
  cases i with
  | option d => exact .orElse ((reads_optionDecl h).map EnumItem.option) _
  | reserved r =>
    exact .past rfl (.orElse ((reads_reserved h).map EnumItem.reserved) _)
  | value v =>
    have hvalue : Reads enumValue (v.symbols ++ xs) (· = v) xs := by
      obtain ⟨name, number, options, comments⟩ := v
      obtain ⟨-, hoptions, rfl⟩ := h
      exact reads_comments.then (reads_declarator [] EnumValue.mk name number hoptions)
    refine .orElse_right (Refuses.map ?_ _)
      (.orElse_right (Refuses.map ?_ _) (hvalue.map EnumItem.value))
    · exact refuses_nameLike fun _ _ => (refuses_optionName rfl rfl).bind _
    · exact refuses_nameLike fun _ _ => (refuses_reservedItems rfl rfl).bind _

theorem refuses_enumItem : Refuses enumItem (.punct .rightBrace :: xs) := by
  refine .past rfl (.past rfl ?_)
  exact Refuses.map (reads_comments.refuses fun _ _ => (refuses_takeOr rfl).bind _) _

theorem symbols_ne_nil_of_enumItem (i : EnumItem) : i.symbols ≠ [] := by
  cases i <;> exact List.cons_ne_nil _ _

theorem reads_enum {e : Enum} (h : e.Canonical) : Reads enum (e.symbols ++ xs) (· = e) xs := by
  obtain ⟨name, items, comments⟩ := e
  obtain ⟨-, hitems, rfl⟩ := h
  exact reads_named name (fun i hi rest => reads_enumItem (hitems i hi))
    (fun i _ => symbols_ne_nil_of_enumItem i) fun _ => refuses_enumItem

theorem symbols_ne_nil_of_field (f : Field) : f.symbols ≠ [] :=
  List.append_ne_nil_of_right_ne_nil _ (List.append_ne_nil_of_right_ne_nil _ (List.cons_ne_nil _ _))

theorem reads_extend {e : Extend} (h : e.Canonical) :
    Reads extend (e.symbols ++ xs) (· = e) xs := by
  obtain ⟨extendee, fields, comments⟩ := e
  obtain ⟨-, hfields, rfl⟩ := h
  rw [Extend.symbols, List.cons_append, List.append_assoc]
  refine reads_comments.then (Reads.afterKeyword (k := .extendKw) ?_)
  have hbody : Reads (body [] field) (Symbol.braces (fields.flatMap Field.symbols) ++ xs)
      (· = ⟨fields, []⟩) xs :=
    reads_body (fun f hf rest => reads_field (hfields f hf))
      (fun f _ => symbols_ne_nil_of_field f) (fun _ => refuses_field) []
  exact (reads_typeName extendee rfl).then (hbody.then (.pure rfl))

end Production

/-! ## Messages -/

/-- How a declaration in a message is written. -/
def MessageItem.symbols : MessageItem → List Symbol
  | .option decl => decl.symbols
  | .enum decl => decl.symbols
  | .message decl => decl.symbols
  | .member decl => decl.symbols
  | .extend decl => decl.symbols

namespace Message

/-- The declarations of a message in the order in which they are written. -/
def items (m : Message) : List MessageItem :=
  m.options.map .option ++ (m.enums.map .enum ++ (m.messages.map .message ++
    (m.members.map .member ++ m.extensions.map .extend)))

theorem listSymbols_eq (messages : List Message) :
    listSymbols messages = messages.flatMap symbols := by
  induction messages with
  | nil => rw [listSymbols, List.flatMap_nil]
  | cons m messages ih => rw [listSymbols, List.flatMap_cons, ih]

theorem symbols_eq (m : Message) :
    m.symbols = .word "message" :: .word m.name :: Symbol.braces (m.items.flatMap
      MessageItem.symbols) := by
  obtain ⟨name, members, enums, messages, options, extensions, comments⟩ := m
  rw [symbols, listSymbols_eq]
  simp only [items, List.flatMap_append, List.flatMap_map]
  rfl

/-- The declarations of a message, sorted by kind. -/
theorem ofItems_items {m : Message} (h : m.comments = []) : ofItems m.name m.items [] = m := by
  obtain ⟨name, members, enums, messages, options, extensions, comments⟩ := m
  obtain rfl : comments = [] := h
  simp [ofItems, items, List.filterMap_append, List.filterMap_map, Function.comp_def,
    MessageItem.member?, MessageItem.enum?, MessageItem.message?, MessageItem.option?,
    MessageItem.extend?]

end Message

namespace Production

variable {xs : List Symbol}

theorem symbols_ne_nil_of_messageItem (i : MessageItem) : i.symbols ≠ [] := by
  match i with
  | .option d => exact List.cons_ne_nil _ _
  | .enum e => exact List.cons_ne_nil _ _
  | .message m =>
    rw [MessageItem.symbols, Message.symbols_eq]
    exact List.cons_ne_nil _ _
  | .extend e => exact List.cons_ne_nil _ _
  | .member (.field f) => exact symbols_ne_nil_of_field f
  | .member (.map f) => exact List.cons_ne_nil _ _
  | .member (.oneof o) => exact List.cons_ne_nil _ _
  | .member (.reserved r) => exact List.cons_ne_nil _ _
  | .member (.extensions e) => exact List.cons_ne_nil _ _

/-- An alternative for a message is passed over where its keyword does not stand next. -/
theorem Reads.pastMessage {β : Type} {f : Message → β} {p : Production β} {P : β → Prop}
    {ys : List Symbol} (h : (Terminal.keyword .messageKw).fitsFirst xs = false)
    (hp : Reads p xs P ys) : Reads ((do return f (← Production.call .message)) <|> p) xs P ys :=
  .orElse_right ((Refuses.call (n := .message) (refuses_declaration h)).map f) hp

theorem Refuses.pastMessage {β : Type} {f : Message → β} {p : Production β}
    (h : (Terminal.keyword .messageKw).fitsFirst xs = false) (hp : p.Refuses xs) :
    Refuses ((do return f (← Production.call .message)) <|> p) xs :=
  ((Refuses.call (n := .message) (refuses_declaration h)).map f).orElse hp

/-- The word for a modifier is no other keyword. -/
theorem fitsFirst_modifier {m : Modifier} {k : Keyword}
    (hk : k ∉ [Keyword.optionalKw, .requiredKw, .repeatedKw]) :
    (Terminal.keyword k).fitsFirst (Modifier.symbols (some m) ++ xs) = false := by
  have hother (found : Keyword) (hfound : found ∈ [Keyword.optionalKw, .requiredKw, .repeatedKw]) :
      (Terminal.keyword k).fits (.word found.text) = false :=
    decide_eq_false fun hw => hk (Keyword.text_inj.1 hw ▸ hfound)
  cases m with
  | optional => exact hother .optionalKw (by decide)
  | required => exact hother .requiredKw (by decide)
  | repeated => exact hother .repeatedKw (by decide)

/-- A field is read where no declaration that starts with a keyword can be. -/
theorem reads_messageItem_of_field {f : Field} (h : f.Canonical)
    (hnotOption : f.modifier = none → ¬ f.type.LooksLikeOption f.options) :
    Reads messageItem (f.symbols ++ xs) (· = .member (.field f)) xs := by
  have hfield : Reads (do return .member (.field (← field))) (f.symbols ++ xs)
      (· = MessageItem.member (.field f)) xs :=
    (reads_field h).map fun f => MessageItem.member (.field f)
  cases hm : f.modifier with
  | none =>
    have hsymbols : f.symbols ++ xs = Symbol.typeName f.type.name ++
        (Symbol.declarator f.name f.number f.options ++ xs) := by
      rw [Field.symbols, hm, Modifier.symbols, List.nil_append, List.append_assoc]
      rfl
    rw [hsymbols] at hfield ⊢
    refine .orElse_right ((refuses_optionDecl_of_field (hnotOption hm)).map _) ?_
    refine .orElse_right (refuses_named_of_field.map _) ?_
    refine .orElse_right ((Refuses.call (n := .message) refuses_named_of_field).map _) ?_
    refine .orElse_right (refuses_named_of_field.map _) ?_
    refine .orElse_right (refuses_mapField_of_field.map _) ?_
    refine .orElse_right (refuses_reserved_of_field.map _) ?_
    refine .orElse_right (refuses_extensionRanges_of_field.map _) ?_
    exact .orElse_right (refuses_extend_of_field.map _) hfield
  | some m =>
    rw [Field.symbols, hm, List.append_assoc] at hfield ⊢
    refine .past (fitsFirst_modifier (by decide)) (.past (fitsFirst_modifier (by decide)) ?_)
    refine .pastMessage (fitsFirst_modifier (by decide)) ?_
    refine .past (fitsFirst_modifier (by decide)) (.past (fitsFirst_modifier (by decide)) ?_)
    refine .past (fitsFirst_modifier (by decide)) (.past (fitsFirst_modifier (by decide)) ?_)
    exact .past (fitsFirst_modifier (by decide)) hfield

/-- Each declaration of a message is read back, if this is known for the messages among them. -/
theorem reads_messageItem {m : Message} (hm : m.Canonical)
    (hmessages : ∀ n ∈ m.messages, Reads message (n.symbols ++ xs) (· = n) xs)
    {i : MessageItem} (hi : i ∈ m.items) :
    Reads messageItem (i.symbols ++ xs) (· = i) xs := by
  obtain ⟨-, hmembers, henums, -, hoptions, hextensions, -⟩ := hm
  simp only [Message.items, List.mem_append, List.mem_map] at hi
  rcases hi with ⟨d, hd, rfl⟩ | ⟨e, he, rfl⟩ | ⟨n, hn, rfl⟩ | ⟨x, hx, rfl⟩ | ⟨e, he, rfl⟩
  · exact .orElse ((reads_optionDecl (hoptions d hd)).map MessageItem.option) _
  · exact .past rfl (.orElse ((reads_enum (henums e he)).map MessageItem.enum) _)
  · have hmessage := hmessages n hn
    rw [MessageItem.symbols, Message.symbols_eq] at *
    refine .past rfl (.past rfl ?_)
    exact .orElse ((Reads.call (n := .message) hmessage).map MessageItem.message) _
  · have hcanonical := hmembers x hx
    cases x with
    | field f => exact reads_messageItem_of_field hcanonical.1 hcanonical.2
    | map f =>
      have hmap : Reads mapField (f.symbols ++ xs) (· = f) xs := reads_mapField hcanonical
      refine .past rfl (.past rfl (.pastMessage rfl (.past rfl ?_)))
      exact .orElse (hmap.map fun f => MessageItem.member (.map f)) _
    | oneof o =>
      have honeof : Reads oneof (o.symbols ++ xs) (· = o) xs := reads_oneof hcanonical
      refine .past rfl (.past rfl (.pastMessage rfl ?_))
      exact .orElse (honeof.map fun o => MessageItem.member (.oneof o)) _
    | reserved r =>
      have hreserved : Reads reserved (r.symbols ++ xs) (· = r) xs := reads_reserved hcanonical
      refine .past rfl (.past rfl (.pastMessage rfl (.past rfl (.past rfl ?_))))
      exact .orElse (hreserved.map fun r => MessageItem.member (.reserved r)) _
    | extensions e =>
      have hranges : Reads extensionRanges (e.symbols ++ xs) (· = e) xs :=
        reads_extensionRanges hcanonical
      refine .past rfl (.past rfl (.pastMessage rfl (.past rfl (.past rfl (.past rfl ?_)))))
      exact .orElse (hranges.map fun e => MessageItem.member (.extensions e)) _
  · have hextend : Reads extend (e.symbols ++ xs) (· = e) xs := reads_extend (hextensions e he)
    refine .past rfl (.past rfl (.pastMessage rfl (.past rfl (.past rfl (.past rfl ?_)))))
    exact .past rfl (.orElse (hextend.map MessageItem.extend) _)

theorem refuses_messageItem : Refuses messageItem (.punct .rightBrace :: xs) := by
  refine .past rfl (.past rfl (.pastMessage rfl ?_))
  exact .past rfl (.past rfl (.past rfl (.past rfl (.past rfl (refuses_field.map _)))))

/-- Messages are read back, however deep they are nested. -/
theorem reads_message {m : Message} (h : m.Canonical) :
    Reads message (m.symbols ++ xs) (· = m) xs := by
  induction h generalizing xs with
  | @intro m name members enums messages options extensions comments ih =>
    have hcanonical : m.Canonical :=
      .intro name members enums messages options extensions comments
    rw [Message.symbols_eq]
    refine (reads_named m.name (fun i hi rest => ?_) (fun i _ => symbols_ne_nil_of_messageItem i)
      fun _ => refuses_messageItem).mono ?_
    · exact reads_messageItem hcanonical (fun n hn => ih n hn) hi
    · exact fun _ heq => heq.trans (Message.ofItems_items comments)

/-! ## Services -/

/-- The name of a single message is not taken for a stream: if it starts with the word for one, the
name of the message is still missing after it. -/
theorem reads_rpcType {t : RpcType} (h : t.Canonical) :
    Reads rpcTypeInParens (t.symbols ++ xs) (· = t) xs := by
  obtain ⟨name, isStream⟩ := t
  rw [RpcType.symbols]
  simp only [List.cons_append, List.append_assoc, List.nil_append]
  refine .afterPunct ?_
  have hname : Reads typeName (Symbol.typeName name ++ .punct .rightParen :: xs) (· = name)
      (.punct .rightParen :: xs) := reads_typeName name rfl
  have hend (t : RpcType) : Reads (do
      let _ ← punct .rightParen
      return t) (.punct .rightParen :: xs) (· = t) xs := .afterPunct (.pure rfl)
  cases isStream with
  | true =>
    have hstream := Reads.afterKeyword (k := .streamKw) (hname.map fun n => RpcType.mk n true)
    exact (hstream.orElse _).then (hend _)
  | false =>
    have hsingle := hname.map fun n => RpcType.mk n false
    refine (Reads.orElse_right ?_ hsingle).then (hend _)
    by_cases hhead : (nameParts name).head? = some Keyword.streamKw.text
    · obtain ⟨others, hparts⟩ := List.head?_eq_some_iff.1 hhead
      obtain rfl := h.single rfl others hparts
      rcases Symbol.typeName_cases name with ⟨-, -, hempty, -, -⟩ | ⟨-, -, heq⟩
      · rw [hempty] at hhead
        exact absurd (Option.some.inj hhead) Keyword.streamKw.text_ne_empty.symm
      · rw [heq, Symbol.name, hparts]
        exact .afterKeyword ((refuses_typeName rfl rfl).bind _)
    · exact (refuses_takeOr (fitsFirst_typeName hhead)).bind _

theorem reads_rpcBody {options : List OptionDecl} (h : ∀ o ∈ options, o.Canonical) :
    Reads (rpcBody []) ((if options.isEmpty then [.punct .semicolon]
      else Symbol.braces (options.flatMap OptionDecl.symbols)) ++ xs) (· = ⟨options, []⟩) xs := by
  split
  · next hempty =>
    obtain rfl := List.isEmpty_iff.1 hempty
    refine (reads_sees _).then ?_
    refine (reads_takeOr (reads_fits rfl)).bind fun _ _ => ?_
    exact reads_trailing.then (.pure rfl)
  · refine (reads_sees _).then ?_
    exact reads_body (fun o ho rest => reads_optionDecl (h o ho)) (fun _ _ => List.cons_ne_nil _ _)
      (fun rest => refuses_declaration rfl) []

theorem reads_rpc {r : Rpc} (h : r.Canonical) : Reads rpc (r.symbols ++ xs) (· = r) xs := by
  obtain ⟨name, input, output, options, comments⟩ := r
  obtain ⟨-, hinput, houtput, hoptions, rfl⟩ := h
  rw [Rpc.symbols]
  simp only [List.cons_append, List.append_assoc]
  refine reads_comments.then (Reads.afterKeyword (k := .rpcKw) ((reads_ident name).then ?_))
  refine (reads_rpcType hinput).then (Reads.afterKeyword (k := .returnsKw) ?_)
  refine (reads_rpcType houtput).then ?_
  exact (reads_rpcBody hoptions).then (.pure rfl)

theorem reads_serviceItem {s : Service} (h : s.Canonical) {i : ServiceItem} (hi : i ∈ s.items) :
    Reads serviceItem (i.symbols ++ xs) (· = i) xs := by
  rcases List.mem_append.1 hi with hi | hi
  · obtain ⟨d, hd, rfl⟩ := List.mem_map.1 hi
    exact .orElse ((reads_optionDecl (h.options d hd)).map ServiceItem.option) _
  · obtain ⟨r, hr, rfl⟩ := List.mem_map.1 hi
    exact .past rfl ((reads_rpc (h.methods r hr)).map ServiceItem.rpc)

end Production

/-- The declarations of a service, sorted by kind. -/
theorem Service.ofItems_items {s : Service} (h : s.comments = []) :
    ofItems s.name s.items [] = s := by
  obtain ⟨name, methods, options, comments⟩ := s
  obtain rfl : comments = [] := h
  simp [ofItems, items, List.filterMap_append, List.filterMap_map, Function.comp_def,
    ServiceItem.rpc?, ServiceItem.option?]

namespace Production

variable {xs : List Symbol}

theorem reads_service {s : Service} (h : s.Canonical) :
    Reads service (s.symbols ++ xs) (· = s) xs := by
  refine (reads_named s.name (fun i hi rest => reads_serviceItem h hi) (fun i _ => ?_)
    fun _ => ?_).mono ?_
  · cases i <;> exact List.cons_ne_nil _ _
  · exact .past rfl ((refuses_declaration rfl).map _)
  · exact fun _ heq => heq.trans (Service.ofItems_items h.comments)

end Production

/-! ## Files -/

/-- How a statement at the top level of a file is written. -/
def FileItem.symbols : FileItem → List Symbol
  | .imported decl => decl.symbols
  | .package decl _ => decl.symbols
  | .option decl => decl.symbols
  | .definition decl => decl.symbols
  | .extend decl => decl.symbols

namespace File

/-- The statements of a file after the one for its package, in the order in which they are
written. -/
def statements (f : File) : List FileItem :=
  f.imports.map .imported ++ (f.options.map .option ++
    (f.definitions.map .definition ++ f.extensions.map .extend))

theorem symbols_eq (f : File) :
    f.symbols = f.version.symbols ++ (f.package.toList.flatMap Package.symbols ++
      f.statements.flatMap FileItem.symbols) := by
  rw [symbols]
  simp only [statements, List.flatMap_append, List.flatMap_map]
  rfl

/-- The statements of a file, sorted by kind. -/
theorem withPackage_statements {f : File} (h : f.comments = []) :
    withPackage f.version f.package f.statements [] = f := by
  obtain ⟨version, package, imports, options, definitions, extensions, comments⟩ := f
  obtain rfl : comments = [] := h
  simp [withPackage, statements, List.filterMap_append, List.filterMap_map, Function.comp_def,
    FileItem.import?, FileItem.option?, FileItem.definition?, FileItem.extend?]

theorem filterMap_package?_statements (f : File) :
    f.statements.filterMap FileItem.package? = [] := by
  simp [statements, List.filterMap_append, List.filterMap_map, Function.comp_def,
    FileItem.package?]

end File

namespace Production

variable {xs : List Symbol}

theorem reads_syntaxDecl {s : SyntaxDecl} (h : s.comments = []) :
    Reads syntaxDecl (s.symbols ++ xs) (· = s) xs := by
  obtain ⟨value, comments⟩ := s
  obtain rfl : comments = [] := h
  refine reads_comments.then (Reads.afterKeyword (k := .syntaxKw) (.afterPunct ?_))
  exact (reads_string value rfl).then ((reads_endStatement []).then (.pure rfl))

theorem reads_importModifier (m : Option ImportModifier) (path : String) :
    Reads importModifier (ImportModifier.symbols m ++ .string path :: xs) (· = m)
      (.string path :: xs) := by
  match m with
  | some .weakImport => exact (reads_skip rfl).then (.pure rfl)
  | some .publicImport => exact (reads_skip_none rfl).then ((reads_skip rfl).then (.pure rfl))
  | none => exact (reads_skip_none rfl).then ((reads_skip_none rfl).then (.pure rfl))

theorem reads_importDecl {i : Import} (h : i.Canonical) :
    Reads importDecl (i.symbols ++ xs) (· = i) xs := by
  obtain ⟨path, modifier, comments⟩ := i
  obtain ⟨hpath, rfl⟩ := h
  have hcollapse : Text.collapseBackslashes path = path := by
    rw [Text.collapseBackslashes, Text.collapse_of_no_run hpath, String.ofList_toList]
  rw [Import.symbols]
  simp only [List.cons_append, List.append_assoc, List.nil_append]
  refine reads_comments.then (Reads.afterKeyword (k := .importKw) ?_)
  refine (reads_importModifier modifier path).then ((reads_string path rfl).then ?_)
  refine (reads_endStatement []).then (.pure ?_)
  rw [hcollapse]

/-- A package is read with some place. -/
theorem reads_packageDecl {p : Package} (h : p.comments = []) :
    Reads packageDecl (p.symbols ++ xs) (fun i => ∃ span, i = .package p span) xs := by
  obtain ⟨name, comments⟩ := p
  obtain rfl : comments = [] := h
  rw [Package.symbols]
  simp only [List.cons_append, List.append_assoc, List.nil_append]
  refine reads_comments.then ((reads_keyword .packageKw).bind fun first _ => ?_)
  refine (reads_fullIdent name rfl).then ((reads_punct .semicolon).bind fun last _ => ?_)
  exact reads_trailing.then (.pure ⟨⟨first.start, last.stop⟩, rfl⟩)

theorem reads_fileItem {f : File} (h : f.Canonical) {i : FileItem} (hi : i ∈ f.statements) :
    Reads fileItem (i.symbols ++ xs) (· = i) xs := by
  simp only [File.statements, List.mem_append, List.mem_map] at hi
  rcases hi with ⟨d, hd, rfl⟩ | ⟨d, hd, rfl⟩ | ⟨d, hd, rfl⟩ | ⟨d, hd, rfl⟩
  · exact .orElse ((reads_importDecl (h.imports d hd)).map FileItem.imported) _
  · refine .past rfl (.orElse_right (refuses_declaration rfl) ?_)
    exact .orElse ((reads_optionDecl (h.options d hd)).map FileItem.option) _
  · have hcanonical := h.definitions d hd
    cases d with
    | message m =>
      have hmessage : Reads (call .message) (m.symbols ++ xs) (· = m) xs :=
        .call (reads_message hcanonical)
      rw [FileItem.symbols, Definition.symbols, Message.symbols_eq] at *
      refine .past rfl (.orElse_right (refuses_declaration rfl) (.past rfl ?_))
      exact .orElse (hmessage.map fun m => FileItem.definition (.message m)) _
    | enum e =>
      have henum : Reads enum (e.symbols ++ xs) (· = e) xs := reads_enum hcanonical
      refine .past rfl (.orElse_right (refuses_declaration rfl) (.past rfl (.pastMessage rfl ?_)))
      exact .orElse (henum.map fun e => FileItem.definition (.enum e)) _
    | service s =>
      have hservice : Reads service (s.symbols ++ xs) (· = s) xs := reads_service hcanonical
      refine .past rfl (.orElse_right (refuses_declaration rfl) (.past rfl (.pastMessage rfl ?_)))
      exact .past rfl (.orElse (hservice.map fun s => FileItem.definition (.service s)) _)
  · have hextend : Reads extend (d.symbols ++ xs) (· = d) xs := reads_extend (h.extensions d hd)
    refine .past rfl (.orElse_right (refuses_declaration rfl) (.past rfl (.pastMessage rfl ?_)))
    exact .past rfl (.past rfl (hextend.map FileItem.extend))

theorem refuses_fileItem : Refuses fileItem [] := by
  refine .past rfl (.orElse (refuses_declaration rfl) (.past rfl (.pastMessage rfl ?_)))
  exact .past rfl (.past rfl ((refuses_declaration rfl).map _))

theorem symbols_ne_nil_of_fileItem (i : FileItem) : i.symbols ≠ [] := by
  match i with
  | .definition (.message m) =>
    rw [FileItem.symbols, Definition.symbols, Message.symbols_eq]
    exact List.cons_ne_nil _ _
  | .definition (.enum e) => exact List.cons_ne_nil _ _
  | .definition (.service s) => exact List.cons_ne_nil _ _
  | .imported d => exact List.cons_ne_nil _ _
  | .package d _ => exact List.cons_ne_nil _ _
  | .option d => exact List.cons_ne_nil _ _
  | .extend d => exact List.cons_ne_nil _ _

/-- The statements of a file are read back, the one for the package with some place. -/
theorem reads_fileItems {f : File} (h : f.Canonical) :
    Reads (loop (bodyItem fileItem))
      (f.package.toList.flatMap Package.symbols ++ f.statements.flatMap FileItem.symbols)
      (fun items => File.ofItems f.version (Body.ofItems [] items).decls
        (Body.ofItems [] items).comments = .ok f) [] := by
  have hstatements : Reads (loop (bodyItem fileItem)) (f.statements.flatMap FileItem.symbols ++ [])
      (· = f.statements.map .decl) [] :=
    reads_items (fun i hi rest => reads_fileItem h hi)
      (fun i _ => symbols_ne_nil_of_fileItem i) refuses_fileItem rfl
  rw [List.append_nil] at hstatements
  cases hp : f.package with
  | none =>
    refine hstatements.mono ?_
    rintro _ rfl
    rw [ofItems_map_decl, File.ofItems, f.filterMap_package?_statements]
    rw [← hp, File.withPackage_statements h.comments]
  | some p =>
    rw [Option.toList_some, List.flatMap_singleton]
    have hfirst : Reads fileItem (p.symbols ++ f.statements.flatMap FileItem.symbols)
        (fun i => ∃ span, i = .package p span) (f.statements.flatMap FileItem.symbols) :=
      .past rfl ((reads_packageDecl (h.package p hp).2).orElse _)
    have hpackage : Reads (bodyItem fileItem) (p.symbols ++ f.statements.flatMap FileItem.symbols)
        (fun v => ∃ i, v = some i ∧ ∃ span, i = .decl (.package p span))
        (f.statements.flatMap FileItem.symbols) := by
      refine Reads.orElse (hfirst.bind ?_) _
      rintro _ ⟨span, rfl⟩
      exact .pure ⟨_, rfl, span, rfl⟩
    refine (hpackage.loop_cons ?_ hstatements).mono ?_
    · rw [Package.symbols, List.cons_append, List.length_cons, List.length_append]
      omega
    · rintro _ ⟨_, _, rfl, ⟨span, rfl⟩, rfl⟩
      rw [← List.map_cons, ofItems_map_decl, File.ofItems]
      have hone : (FileItem.package p span :: f.statements).filterMap FileItem.package? =
          [(p, span)] := by
        rw [List.filterMap_cons, f.filterMap_package?_statements]
        rfl
      rw [hone]
      have hfile := File.withPackage_statements h.comments
      rw [hp] at hfile
      exact congrArg Except.ok hfile

end Production

/-! ## Trees that are written alike

Each tree that is not canonical for the sake of the grammar is written with the same symbols as a
tree that is, so no way of reading could give back both. -/

/-- A name that starts with `w` and a dot is written like `w` and an absolute name. -/
theorem Symbol.typeName_append {w : String} (hw : IsWord w) (n : String) :
    typeName (w ++ "." ++ n) = .word w :: typeName ("." ++ n) := by
  have habsolute : typeName ("." ++ n) = .punct .dot :: name n := by
    rw [typeName, String.toList_append]
    exact congrArg (.punct .dot :: name ·) String.ofList_toList
  have hparts : nameParts (w ++ "." ++ n) = w :: nameParts n := by
    have hlist : (w ++ "." ++ n).toList = w.toList ++ '.' :: n.toList := by simp
    rw [nameParts, nameParts, hlist, List.splitOn_append_cons_self_of_not_mem hw.dot_notMem,
      List.map_cons, String.ofList_toList]
  obtain ⟨v, vs, hn, hname⟩ := name_eq n
  rcases typeName_cases (w ++ "." ++ n) with ⟨-, -, hempty, -, -⟩ | ⟨-, -, heq⟩
  · rw [hparts] at hempty
    obtain rfl : w = "" := Option.some.inj hempty
    exact absurd hw (by decide)
  · rw [heq, habsolute, name, hparts, hname, hn]
    rfl

/-- A field without a modifier whose type starts with the word for one and a dot. -/
theorem Field.symbols_of_modifier (m : Modifier) {w : String} (hw : IsWord w)
    (hm : Modifier.symbols (some m) = [.word w]) (n name : String) (number : Int)
    (options : FieldOptions) :
    symbols ⟨none, .named (w ++ "." ++ n), name, number, options, []⟩ =
      symbols ⟨some m, .named ("." ++ n), name, number, options, []⟩ := by
  rw [symbols, symbols, hm]
  dsimp only
  rw [FieldType.symbols, FieldType.name, Symbol.typeName_append hw]
  rfl

/-- A field without a modifier that looks like an option. -/
theorem Field.symbols_of_looksLikeOption {f : Field} (hmodifier : f.modifier = none)
    (hoption : f.type.LooksLikeOption f.options) (hname : IsWord f.name) :
    f.symbols = OptionDecl.symbols ⟨f.name, [⟨f.name, .int f.number, []⟩], []⟩ := by
  obtain ⟨modifier, type, name, number, options, comments⟩ := f
  obtain rfl : modifier = none := hmodifier
  obtain ⟨htype, hempty⟩ := hoption
  dsimp only at hname htype hempty
  have htypeSymbols : type.symbols = [.word "option"] := by
    rw [FieldType.symbols, htype]
    rfl
  have hoptionName : Symbol.optionName name = [.word name] := by
    have hparts : nameParts name = [name] := by
      rw [nameParts, List.splitOn_eq_singleton hname.dot_notMem, List.map_singleton,
        String.ofList_toList]
    rw [Symbol.optionName, if_neg hname.head?_ne_dot, Symbol.name, hparts]
    rfl
  have hvalue : OptionDecl.value ⟨name, [⟨name, .int number, []⟩], []⟩ = .int number :=
    if_pos ⟨rfl, rfl⟩
  rw [symbols, OptionDecl.symbols, hvalue]
  dsimp only
  rw [htypeSymbols, hoptionName, Symbol.declarator, FieldOptions.symbols, if_pos hempty]
  rfl

/-- What a method takes or gives back, of a type that starts with the word for a stream and a
dot. -/
theorem RpcType.symbols_of_stream (n : String) :
    symbols ⟨"stream" ++ "." ++ n, false⟩ = symbols ⟨"." ++ n, true⟩ := by
  rw [symbols, symbols]
  dsimp only
  rw [Symbol.typeName_append (by decide)]
  rfl

/-- Lexemes that show the canonical symbols of a file make up this file. -/
theorem File.ofLexemes_symbols {f : File} {ls : List Lexeme} (h : f.Canonical)
    (hls : Shows ls f.symbols) (size : Nat) : ofLexemes ls size = .ok f := by
  have hfile : Production.file.Reads f.symbols
      (fun v => ofItems v.1 v.2.decls v.2.comments = .ok f) [] := by
    rw [symbols_eq]
    refine (Production.reads_syntaxDecl h.version).then ((Production.reads_fileItems h).bind ?_)
    exact fun items hitems => .pure hitems
  obtain ⟨v, d, r, hrun, hv, hd⟩ := hfile (.start ls) .start hls
  have hrest : d.rest = [] := List.forall₂_nil_right_iff.1 hd
  rw [ofLexemes, Production.matchAll, hrun]
  dsimp only
  rw [hrest]
  exact hv

/-- A file in which most names are spelled like keywords. -/
theorem File.ofLexemes_symbols_keywords : ∃ (source : String) (f : File),
    f.Canonical ∧ f.package = some ⟨"option.true", []⟩ ∧ f.messages.length = 1 ∧
    Shows (lexemes (pieces source.toList)) f.symbols ∧
    ofLexemes (lexemes (pieces source.toList)) 0 = .ok f := by
  let source := "syntax = 'proto3'; package option.true; message message \x7b " ++
    "enum enum \x7b option = 0; \x7d option reserved = 1 [null = true]; \x7d"
  let setting : Setting := ⟨"null", .bool true, []⟩
  let field : Field := ⟨none, .named "option", "reserved", 1, ⟨[setting]⟩, []⟩
  let inner : Enum := ⟨"enum", [.value ⟨"option", 0, .empty, []⟩], []⟩
  let m : Message := ⟨"message", [.field field], [inner], [], [], [], []⟩
  let f : File := ⟨⟨"proto3", []⟩, some ⟨"option.true", []⟩, [], [], [.message m], [], []⟩
  have hsetting : setting.Canonical :=
    ⟨IsName.isTypeName (by decide +kernel), .bool true, rfl⟩
  have htype : (FieldType.named "option").Canonical := by
    refine ⟨IsName.isTypeName (by decide +kernel), ?_⟩
    rintro _ ⟨⟩
    exact ⟨by decide, fun s => by cases s <;> decide⟩
  have hfield : (Member.field field).Canonical :=
    ⟨⟨by decide +kernel, htype, ⟨by simpa [field] using hsetting, by simp [field]⟩, rfl,
      fun _ => by decide +kernel⟩, fun _ hoption => Bool.false_ne_true hoption.2⟩
  have hinner : inner.Canonical := by
    refine ⟨by decide +kernel, fun i hi => ?_, rfl⟩
    obtain rfl := List.mem_singleton.1 hi
    exact ⟨by decide +kernel, ⟨nofun, .nil⟩, rfl⟩
  have hm : (Definition.message m).Canonical := by
    refine Message.Canonical.intro (by decide +kernel) ?_ ?_ nofun nofun nofun rfl
    · simpa [m] using hfield
    · simpa [m] using hinner
  have hf : f.Canonical := by
    refine ⟨rfl, ?_, nofun, nofun, ?_, nofun, rfl⟩
    · rintro _ ⟨⟩
      exact ⟨by decide +kernel, rfl⟩
    · simpa [f] using hm
  have hls : Shows (lexemes (pieces source.toList)) f.symbols := by
    have hsymbols : ProtoSchema.symbols (lexemes (pieces source.toList)) = f.symbols := by
      decide +kernel
    rw [← hsymbols]
    exact shows_symbols (fun l hl => wellRead_of_mem_lexemes hl) (by decide +kernel)
  exact ⟨source, f, hf, rfl, rfl, hls, ofLexemes_symbols hf hls 0⟩

end ProtoSchema
