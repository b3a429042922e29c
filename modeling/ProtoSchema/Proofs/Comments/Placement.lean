import ProtoSchema.Proofs.Comments.Laying
import ProtoSchema.Proofs.Comments.Layout

/-
  Comments are where their declarations are. Each production of the grammar lays the layout of the
  node that it gives; the lemmas follow the productions, and the two nested constructs are laid one
  level after the other. `parse_layout`: the lexemes of a source that is read can be marked so that
  they are laid out as its file, with all comments of its nodes.
-/

namespace ProtoSchema

open Passage

namespace Production

variable {bound : Nat}

/-! ## Values and aggregates -/

section Nested

variable {nested : Aggregate → Passage} (hnested : Lays bound 1 (call .aggregate) nested)

include hnested

theorem lays_optionValue : Lays bound 1 optionValue (Value.layoutIn nested) := by
  refine .ifSees (hnested.then fun a => .pure ?_) ?_
  · rw [one_mul]
    exact le_rfl
  · refine (lays_plain plain_constant spells_constant .inner).mono fun v => ?_
    cases v with
    | aggregate a => exact fun _ _ ⟨_, _, h, _⟩ => absurd h (Language.notMem_zero _)
    | _ => exact le_rfl

theorem lays_entryValues :
    Lays bound 1 entryValues (Aggregate.valuesLayout (Value.layoutIn nested)) := by
  have hvalue := lays_optionValue hnested
  refine .ifSees (hnested.then fun a => .pure ?_) ((lays_mark .colon .inner).then fun _ => ?_)
  · rw [one_mul]
    exact fun _ _ h => .bare h
  · refine .ifSees ?_ (hvalue.then fun v => .pure fun _ _ h => .one (by rwa [one_mul] at h))
    refine (lays_words (plain_takeOr _ _) (spells_punct .leftBracket) _ _).bind fun _ => ?_
    rw [one_mul]
    refine .ifPunct .inner (.pure fun _ _ h => .empty h) ?_
    refine (lays_separated .comma hvalue).then fun vs => ?_
    refine (lays_mark .rightBracket .inner).then fun _ => .pure ?_
    rintro _ rest ⟨_, zs, rfl, ⟨xs, ys, rfl, hx, first, others, rfl, hy⟩, hz⟩
    exact .many (mul_append (mul_append hx hy) hz)

theorem lays_entry : Lays bound 1 entry (Aggregate.entryLayout (Value.layoutIn nested)) := by
  have hlaid : Lays bound 1 entry fun settings ms rest => ∃ key values leading last,
      settings = entrySettings key (leading ++ Option.toList last) values ∧
      (Passage.run .leading leading * words .inner (Phrase.entryKey key) *
        Aggregate.valuesLayout (Value.layoutIn nested) values * words .inner Phrase.entryEnd *
        sameLine last) ms rest := by
    refine lays_comments.bind fun leading => ?_
    refine (lays_plain plain_entryKey spells_entryKey .inner).then fun key => ?_
    refine (lays_entryValues hnested).then fun values => ?_
    refine (lays_plain plain_entryEnd spells_entryEnd .inner).then fun _ => ?_
    exact lays_trailing.then fun last => .pure fun ms rest h => ⟨key, values, leading, last, rfl, h⟩
  -- The settings that an entry makes are known only at its end.
  refine hlaid.remark ?_
  rintro settings ms rest ⟨key, values, leading, last, hsettings, h⟩
  obtain ⟨ns, hns, h⟩ := ((((Remarks.words .inner (.entry settings) (Phrase.entryKey key)).right
    _).left _).left _).left _ ms rest h
  refine ⟨ns, hns, key, values, _, hsettings, leading, last, by rw [List.append_nil], ?_⟩
  simpa only [mul_assoc] using h

/-- An aggregate is laid out if those in it are, behind its opening brace. -/
theorem lays_aggregate : Lays (bound + 1) 1 aggregate (Aggregate.layoutIn nested) := by
  have hentry := lays_entry hnested
  refine (lays_braces steps_aggregateItem declares_entry hentry .aggregateEnd).then fun inner => ?_
  refine .pure fun ms rest h => ⟨inner.decls, rfl, ?_⟩
  rwa [one_mul] at h

end Nested

/-- A nested construct is laid as its production. -/
theorem Lays.call {n : Nonterminal} {after : n.Result → Passage}
    (h : Lays bound 1 n.production after) : Lays bound 1 (call n) after :=
  fun c r v d r' hm => h c r v d r' (by rw [← n.matches_eq_run]; exact hm)

theorem lays_callAggregate : Lays bound 1 (call .aggregate) Aggregate.layout := by
  have hwithin (bound : Nat) :
      Lays bound 1 (Production.call .aggregate) (Aggregate.layoutWithin bound) := by
    induction bound with
    | zero => exact fun c r v d r' _ hb => absurd hb (Nat.not_lt_zero _)
    | succ bound ih => exact .call (lays_aggregate ih)
  exact (hwithin bound).mono fun a ms rest h => ⟨bound, h⟩

theorem lays_value : Lays bound 1 optionValue Value.layout := lays_optionValue lays_callAggregate

/-! ## Options -/

theorem lays_optionDecl : Lays bound 1 optionDecl OptionDecl.layout := by
  refine lays_comments.bind fun leading => ?_
  refine (lays_plain (plain_takeOr _ _) (spells_keyword .optionKw) .start).then fun _ => ?_
  refine (lays_words plain_optionName spells_optionName _ _).bind fun name => ?_
  refine (lays_words (plain_takeOr _ _) (spells_punct .equals) _ _).bind fun _ => ?_
  refine lays_value.then fun value => ?_
  refine (lays_mark .semicolon .statementEnd).then fun _ => ?_
  refine lays_trailing.then fun last => .pure fun ms rest h => ⟨value, ?_, leading, last, ?_, ?_⟩
  · cases value <;> rfl
  · cases value <;> simp [OptionDecl.ofValue, Value.comments]
  · obtain ⟨-, hname⟩ := holds_ofValue name value leading
    rw [hname]
    simpa only [mul_assoc] using h

theorem lays_fieldOption : Lays bound 1 fieldOption Setting.layout := by
  refine (lays_plain plain_optionName spells_optionName .inner).bind fun name => ?_
  rw [← one_mul (words _ _)]
  refine (lays_words (plain_takeOr _ _) (spells_punct .equals) _ _).bind fun _ => ?_
  refine lays_value.then fun value => .pure fun ms rest h => ⟨rfl, ?_⟩
  rwa [one_mul] at h

theorem lays_fieldOptions : Lays bound 1 fieldOptions FieldOptions.layout := by
  refine .ifPunct .inner ?_ (.pure fun ms rest h => .inl ⟨rfl, h⟩)
  have hlaid : Lays bound (1 * words .inner (Phrase.mark .leftBracket)) (do
      let settings ← Production.separated (.punct .comma) fieldOption
      let _ ← punct .rightBracket
      return FieldOptions.ofList settings) fun o ms rest => ∃ first others,
        o = FieldOptions.ofList (first :: others) ∧
        (words .inner (Phrase.mark .leftBracket) *
          Passage.separated .comma Setting.layout first others *
          words .inner (Phrase.mark .rightBracket)) ms rest := by
    refine (lays_separated .comma lays_fieldOption).then fun settings => ?_
    refine (lays_mark .rightBracket .inner).then fun _ => .pure ?_
    rintro _ rest ⟨_, zs, rfl, ⟨xs, ys, rfl, hx, first, others, rfl, hy⟩, hz⟩
    rw [one_mul] at hx
    exact ⟨first, others, rfl, mul_append (mul_append hx hy) hz⟩
  -- The options that are written are known only behind the bracket before them.
  refine hlaid.remark ?_
  rintro o ms rest ⟨first, others, ho, h⟩
  obtain ⟨ns, hns, h⟩ := ((Remarks.words .inner (.options (first :: others))
    (Phrase.mark .leftBracket)).left _).left _ ms rest h
  exact ⟨ns, hns, .inr ⟨first, others, ho, h⟩⟩

/-! ## Fields -/

/-- What all fields have after their types, followed by a step that only keeps what was read. -/
theorem lays_declarator {α : Type} (leading : List Comment) (head : Phrase)
    (node : String → Int → FieldOptions → List Comment → α) {after : α → Passage}
    (h : ∀ n number options cs,
      Passage.field cs head n number options ≤ after (node n number options cs)) :
    Lays bound (Passage.run .leading leading * words .start head) (do
      let name ← ident
      let _ ← punct .equals
      let number ← integer
      let options ← fieldOptions
      return node name number options (← endStatement leading)) after := by
  refine (lays_words (plain_takeOr _ _) spells_ident _ _).bind fun name => ?_
  refine (lays_words (plain_takeOr _ _) (spells_punct .equals) _ _).bind fun _ => ?_
  refine (lays_words (plain_takeOr _ _) spells_integer _ _).bind fun number => ?_
  refine lays_fieldOptions.then fun options => ?_
  refine (lays_endStatement leading).bind fun cs => .pure ?_
  rintro ms rest ⟨last, rfl, hms⟩
  refine h name number options _ ms rest ⟨leading, last, by rw [List.append_nil], ?_⟩
  simpa only [mul_assoc] using hms

theorem lays_field : Lays bound 1 field Field.layout := by
  refine lays_comments.bind fun leading => ?_
  refine (lays_plain plain_modifier spells_modifier .start).then fun modifier => ?_
  refine (lays_words plain_fieldType spells_fieldType _ _).bind fun type => ?_
  exact lays_declarator leading _ (Field.mk modifier type) fun _ _ _ _ => le_rfl

theorem lays_mapField : Lays bound 1 mapField MapField.layout := by
  refine lays_comments.bind fun leading => ?_
  refine (lays_plain (plain_takeOr _ _) (spells_keyword .mapKw) .start).then fun _ => ?_
  refine (lays_words (plain_takeOr _ _) (spells_punct .leftAngle) _ _).bind fun _ => ?_
  refine (lays_words plain_fieldType spells_fieldType _ _).bind fun keyType => ?_
  refine (lays_words (plain_takeOr _ _) (spells_punct .comma) _ _).bind fun _ => ?_
  refine (lays_words plain_fieldType spells_fieldType _ _).bind fun valueType => ?_
  refine (lays_words (plain_takeOr _ _) (spells_punct .rightAngle) _ _).bind fun _ => ?_
  exact lays_declarator leading _ (MapField.mk keyType valueType) fun _ _ _ _ => le_rfl

theorem lays_oneofField : Lays bound 1 oneofField OneofField.layout := by
  refine lays_comments.bind fun leading => ?_
  refine (lays_plain plain_fieldType spells_fieldType .start).then fun type => ?_
  exact lays_declarator leading _ (OneofField.mk type) fun _ _ _ _ => le_rfl

theorem lays_enumValue : Lays bound 1 enumValue EnumValue.layout := by
  refine lays_comments.bind fun leading => ?_
  rw [← mul_one (Passage.run .leading leading), ← words_one .start]
  exact lays_declarator leading _ EnumValue.mk fun _ _ _ _ => le_rfl

/-- An alternative lays what it gives as one of several kinds of declarations. -/
theorem Lays.alternative {α β : Type} {p : Production α} {f : α → β} {L : α → Passage}
    {M : β → Passage} (h : Lays bound 1 p L) (hle : ∀ v, L v ≤ M (f v)) :
    Lays bound 1 (do return f (← p)) M :=
  h.bind fun v => .pure (hle v)

/-! ## Statements -/

/-- The end of a statement, followed by a step that only keeps what was read. -/
theorem lays_statement {α : Type} (leading : List Comment) (head : Phrase)
    (node : List Comment → α) {after : α → Passage}
    (h : ∀ cs, statement cs [] (words .start head) ≤ after (node cs)) :
    Lays bound (Passage.run .leading leading * words .start head)
      (do return node (← endStatement leading)) after := by
  refine (lays_endStatement leading).bind fun cs => .pure ?_
  rintro ms rest ⟨last, rfl, hms⟩
  refine h _ ms rest ⟨leading, last, by rw [List.append_nil], ?_⟩
  simpa only [mul_assoc] using hms

theorem lays_reserved : Lays bound 1 reserved Reserved.layout := by
  refine lays_comments.bind fun leading => ?_
  refine (lays_plain (plain_takeOr _ _) (spells_keyword .reservedKw) .start).then fun _ => ?_
  refine (lays_words plain_reservedItems spells_reservedItems _ _).bind fun items => ?_
  exact lays_statement leading _ (Reserved.mk items) fun _ => le_rfl

theorem lays_extensionRanges : Lays bound 1 extensionRanges ExtensionRanges.layout := by
  refine lays_comments.bind fun leading => ?_
  refine (lays_plain (plain_takeOr _ _) (spells_keyword .extensionsKw) .start).then fun _ => ?_
  refine (lays_words plain_numberRanges spells_numberRanges _ _).bind fun ranges => ?_
  exact lays_statement leading _ (ExtensionRanges.mk ranges) fun _ => le_rfl

theorem lays_syntaxDecl : Lays bound 1 syntaxDecl SyntaxDecl.layout := by
  refine lays_comments.bind fun leading => ?_
  refine (lays_plain (plain_takeOr _ _) (spells_keyword .syntaxKw) .start).then fun _ => ?_
  refine (lays_words (plain_takeOr _ _) (spells_punct .equals) _ _).bind fun _ => ?_
  refine (lays_words plain_string spells_string _ _).bind fun value => ?_
  exact lays_statement leading _ (SyntaxDecl.mk value) fun _ => le_rfl

theorem lays_importDecl : Lays bound 1 importDecl Import.layout := by
  refine lays_comments.bind fun leading => ?_
  refine (lays_plain (plain_takeOr _ _) (spells_keyword .importKw) .start).then fun _ => ?_
  refine (lays_words plain_importModifier spells_importModifier _ _).bind fun modifier => ?_
  have hpath : Spells 1 string fun path => .of fun xs =>
      ∃ p, Text.collapseBackslashes path = Text.collapseBackslashes p ∧ xs ∈ Phrase.text p :=
    spells_string.mono fun path xs hxs => ⟨path, rfl, hxs⟩
  refine (lays_words plain_string hpath _ _).bind fun path => ?_
  exact lays_statement leading _ (Import.mk (Text.collapseBackslashes path) modifier)
    fun _ => le_rfl

theorem lays_packageDecl : Lays bound 1 packageDecl FileItem.layout := by
  refine lays_comments.bind fun leading => ?_
  refine (lays_plain (plain_takeOr _ _) (spells_keyword .packageKw) .start).then fun first => ?_
  refine (lays_words plain_fullIdent spells_fullIdent _ _).bind fun name => ?_
  refine (lays_mark .semicolon .statementEnd).then fun last => ?_
  refine lays_trailing.then fun comment => .pure fun ms rest h => ?_
  exact ⟨leading, comment, by rw [List.append_nil], by simpa only [mul_assoc] using h⟩

/-! ## Declarations with a body -/

theorem lays_oneof : Lays bound 1 oneof Oneof.layout := by
  have hitem : Lays bound 1
      ((do return .option (← optionDecl)) <|> (do return .field (← oneofField)))
      OneofItem.layout :=
    .orElse (lays_optionDecl.alternative fun _ => le_rfl)
      (lays_oneofField.alternative fun _ => le_rfl)
  refine lays_comments.bind fun leading => ?_
  refine (lays_plain (plain_takeOr _ _) (spells_keyword .oneofKw) .start).then fun _ => ?_
  refine (lays_words (plain_takeOr _ _) spells_ident _ _).bind fun name => ?_
  refine (lays_body leading _ declares_oneofItem hitem).weaken.bind fun inner => .pure ?_
  exact fun ms rest h => ⟨inner.decls, rfl, rfl, h⟩

theorem lays_enumItem : Lays bound 1 enumItem EnumItem.layout :=
  .orElse (lays_optionDecl.alternative fun _ => le_rfl)
    (.orElse (lays_reserved.alternative fun _ => le_rfl)
      (lays_enumValue.alternative fun _ => le_rfl))

theorem lays_enum : Lays bound 1 enum Enum.layout := by
  refine lays_comments.bind fun leading => ?_
  refine (lays_plain (plain_takeOr _ _) (spells_keyword .enumKw) .start).then fun _ => ?_
  refine (lays_words (plain_takeOr _ _) spells_ident _ _).bind fun name => ?_
  exact (lays_body leading _ declares_enumItem lays_enumItem).weaken.bind fun _ => .pure le_rfl

theorem lays_extend : Lays bound 1 extend Extend.layout := by
  refine lays_comments.bind fun leading => ?_
  refine (lays_plain (plain_takeOr _ _) (spells_keyword .extendKw) .start).then fun _ => ?_
  refine (lays_words plain_typeName spells_typeName _ _).bind fun extendee => ?_
  exact (lays_body leading _ declares_field lays_field).weaken.bind fun _ => .pure le_rfl

/-! ## Messages -/

theorem lays_messageItem {nested : Message → Passage}
    (hnested : Lays bound 1 (call .message) nested) :
    Lays bound 1 messageItem (MessageItem.layoutIn nested) := by
  refine .orElse (lays_optionDecl.alternative fun _ => le_rfl) ?_
  refine .orElse (lays_enum.alternative fun _ => le_rfl) ?_
  refine .orElse (hnested.alternative fun _ => le_rfl) ?_
  refine .orElse (lays_oneof.alternative fun _ => le_rfl) ?_
  refine .orElse (lays_mapField.alternative fun _ => le_rfl) ?_
  refine .orElse (lays_reserved.alternative fun _ => le_rfl) ?_
  refine .orElse (lays_extensionRanges.alternative fun _ => le_rfl) ?_
  refine .orElse (lays_extend.alternative fun _ => le_rfl) ?_
  exact lays_field.alternative fun _ => le_rfl

/-- A message is laid out if those in it are, behind its opening brace. -/
theorem lays_message {nested : Message → Passage}
    (hnested : Lays bound 1 (call .message) nested) :
    Lays (bound + 1) 1 message (Message.layoutIn nested) := by
  refine lays_comments.bind fun leading => ?_
  refine (lays_plain (plain_takeOr _ _) (spells_keyword .messageKw) .start).then fun _ => ?_
  refine (lays_words (plain_takeOr _ _) spells_ident _ _).bind fun name => ?_
  have hitem := lays_messageItem hnested
  refine (lays_body leading _ declares_messageItem hitem).bind fun inner => .pure ?_
  exact fun ms rest h => ⟨inner.decls, ⟨rfl, rfl, rfl, rfl, rfl⟩, h⟩

theorem lays_callMessage : Lays bound 1 (call .message) Message.layout := by
  have hwithin (bound : Nat) :
      Lays bound 1 (Production.call .message) (Message.layoutWithin bound) := by
    induction bound with
    | zero => exact fun c r v d r' _ hb => absurd hb (Nat.not_lt_zero _)
    | succ bound ih => exact .call (lays_message ih)
  exact (hwithin bound).mono fun m ms rest h => ⟨bound, h⟩

/-! ## Services -/

theorem lays_rpcBody (leading : List Comment) (head : Phrase) :
    Lays bound (Passage.run .leading leading * words .start head) (rpcBody leading)
      fun b ms rest => (b.decls = [] ∧ statement b.comments [] (words .start head) ms rest) ∨
        block b.comments head OptionDecl.layout b.decls ms rest := by
  have hoption : Lays bound 1 optionDecl OptionDecl.layout := lays_optionDecl
  have hbody := (lays_body leading head declares_optionDecl hoption).weaken
  refine .ifSees (hbody.mono fun b ms rest h => .inr h) ?_
  have hmark : Spells 1 (takeOr (.punct .semicolon) .bodyOrSemicolon) fun _ =>
    Phrase.mark .semicolon := spells_takeOr _ _
  refine (lays_plain (plain_takeOr _ _) hmark .statementEnd).then fun _ => ?_
  refine lays_trailing.then fun last => .pure fun ms rest h => .inl ⟨rfl, leading, last, ?_, ?_⟩
  · rw [List.append_nil]
  · simpa only [mul_assoc] using h

theorem lays_rpc : Lays bound 1 rpc Rpc.layout := by
  refine lays_comments.bind fun leading => ?_
  refine (lays_plain (plain_takeOr _ _) (spells_keyword .rpcKw) .start).then fun _ => ?_
  refine (lays_words (plain_takeOr _ _) spells_ident _ _).bind fun name => ?_
  refine (lays_words plain_rpcTypeInParens spells_rpcTypeInParens _ _).bind fun input => ?_
  refine (lays_words (plain_takeOr _ _) (spells_keyword .returnsKw) _ _).bind fun _ => ?_
  refine (lays_words plain_rpcTypeInParens spells_rpcTypeInParens _ _).bind fun output => ?_
  exact (lays_rpcBody leading _).bind fun inner => .pure le_rfl

theorem lays_serviceItem : Lays bound 1 serviceItem ServiceItem.layout :=
  .orElse (lays_optionDecl.alternative fun _ => le_rfl) (lays_rpc.alternative fun _ => le_rfl)

theorem lays_service : Lays bound 1 service Service.layout := by
  refine lays_comments.bind fun leading => ?_
  refine (lays_plain (plain_takeOr _ _) (spells_keyword .serviceKw) .start).then fun _ => ?_
  refine (lays_words (plain_takeOr _ _) spells_ident _ _).bind fun name => ?_
  refine (lays_body leading _ declares_serviceItem lays_serviceItem).weaken.bind fun inner => ?_
  exact .pure fun ms rest h => ⟨inner.decls, rfl, rfl, h⟩

/-! ## Files -/

theorem lays_fileItem : Lays bound 1 fileItem FileItem.layout := by
  refine .orElse (lays_importDecl.alternative fun _ => le_rfl) ?_
  refine .orElse lays_packageDecl ?_
  refine .orElse (lays_optionDecl.alternative fun _ => le_rfl) ?_
  refine .orElse (lays_callMessage.alternative fun _ => le_rfl) ?_
  refine .orElse (lays_enum.alternative fun _ => le_rfl) ?_
  refine .orElse (lays_service.alternative fun _ => le_rfl) ?_
  exact lays_extend.alternative fun _ => le_rfl

theorem lays_file : Lays bound 1 file fun (version, inner) => version.layout *
    items (Phrase.mark .semicolon) FileItem.layout inner.decls inner.comments := by
  refine lays_syntaxDecl.bind fun version => ?_
  exact (lays_items (steps_bodyItem _) declares_fileItem lays_fileItem).then fun _ => .pure le_rfl

end Production

/-! ## Reading lays out -/

theorem File.comments_of_ofItems {version : SyntaxDecl} {items : List FileItem}
    {comments : List Comment} {f : File} (h : File.ofItems version items comments = .ok f) :
    f.comments = comments := by
  unfold File.ofItems at h
  split at h <;> cases h <;> rfl

/-- The lexemes that make up a file are laid out as it. -/
theorem File.layout_of_ofLexemes {ls : List Lexeme} {size : Nat} {f : File}
    (hw : ∀ l ∈ ls, l.WellRead) (h : File.ofLexemes ls size = .ok f) :
    ∃ ms, unmarked ms = ls ∧ f.layout ms [] := by
  unfold File.ofLexemes Production.matchAll at h
  cases hm : Production.file.run (.start ls) .start with
  | failed r => rw [hm] at h; cases h
  | done v d r =>
    obtain ⟨version, body⟩ := v
    rw [hm] at h
    dsimp only at h
    cases hrest : d.rest with
    | cons _ _ => rw [hrest] at h; cases h
    | nil =>
      rw [hrest] at h
      obtain ⟨rfl, hsorts⟩ := File.sorts_of_ofItems h
      have hlays : Production.Lays (ls.length + 1) 1 Production.file _ := Production.lays_file
      obtain ⟨passed, hpassed, hlaid⟩ := hlays _ _ _ _ _ hm (Nat.lt_succ_self _) hw
      obtain ⟨ms, hms, hlayout⟩ := hlaid [] rfl
      rw [hrest] at hpassed hlayout
      rw [List.append_nil] at hpassed
      refine ⟨ms, ?_, body.decls, hsorts, ?_⟩
      · rw [hms, unmarked_nil, List.nil_append, ← hpassed]
        rfl
      · rwa [File.comments_of_ofItems h]

/-- The comments of a source that is read are where the tree has them: its tokens and comments can
be marked so that they are laid out as its file, in which each declaration has exactly the comments
of the run right before its first token, those of its own body, and the one that ends its line. -/
theorem parse_layout {source : String} {f : File} (h : parse source = .ok f) :
    ∃ ms, tokenize source.toList = .ok (unmarked ms) ∧ f.layout ms [] := by
  unfold parse at h
  dsimp only at h
  split at h
  · cases h
  · split at h
    · cases h
    · next hfaults =>
      split at h
      · next hfile =>
        cases h
        obtain ⟨ms, hms, hlayout⟩ :=
          File.layout_of_ofLexemes (fun l hl => wellRead_of_mem_lexemes hl) hfile
        exact ⟨ms, by rw [tokenize, hfaults, hms], hlayout⟩
      · cases h

/-- Comments before, in and behind a message, of which the one before its brace is its own and the
last one is the file's. -/
theorem parse_layout_message : ∃ source f ms, parse source = .ok f ∧
    f.version.comments = [⟨"s"⟩] ∧ f.comments = [⟨"t"⟩] ∧
    tokenize source.toList = .ok (unmarked ms) ∧ f.layout ms [] := by
  let source := "syntax = 'proto3'; // s\n/* m */ message A \x7b // o\n// x\n" ++
    "int32 x = 1; // y\n// z\n; // l\n\x7d // e\n// t"
  have hfile : parse source = .ok ⟨⟨"proto3", [⟨"s"⟩]⟩, none, [], [],
      [.message ⟨"A", [.field ⟨none, .scalar .int32, "x", 1, .empty, [⟨"x"⟩, ⟨"y"⟩]⟩], [], [], [],
        [], [⟨"m"⟩, ⟨"o"⟩, ⟨"z"⟩, ⟨"l"⟩, ⟨"e"⟩]⟩], [], [⟨"t"⟩]⟩ := by
    decide +kernel
  obtain ⟨ms, hms, hlayout⟩ := parse_layout hfile
  exact ⟨source, _, ms, hfile, rfl, rfl, hms, hlayout⟩

end ProtoSchema
