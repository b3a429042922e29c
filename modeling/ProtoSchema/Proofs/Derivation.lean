import ProtoSchema.Proofs.Spelling

/-
  What is read is derived. Each production of the grammar spells the phrase of the node that it
  gives; the lemmas follow the productions, and the two nested constructs are tied together by
  induction over their depth. `parse_derives`: the symbols of a source that is read are in the
  phrase of its file.
-/

namespace ProtoSchema

/-! ## Products as sequences -/

namespace Phrase

variable {α : Type}

theorem prod_le_series (phrase : α → Phrase) (items : List α) :
    (items.map phrase).prod ≤ .of (Series (fun i xs => xs ∈ phrase i) items) := by
  induction items with
  | nil =>
    intro xs hxs
    rw [(Language.mem_one xs).1 hxs]
    exact .nil
  | cons i items ih =>
    intro xs hxs
    rw [List.map_cons, List.prod_cons] at hxs
    obtain ⟨ys, hys, zs, hzs, rfl⟩ := Language.mem_mul.1 hxs
    exact .cons hys (ih hzs)

theorem prod_le_separated (separator : Punct) (phrase : α → Phrase) (first : α) (others : List α) :
    phrase first * (others.map fun i => mark separator * phrase i).prod ≤
      .of (Separated separator (fun i xs => xs ∈ phrase i) (first :: others)) := by
  induction others generalizing first with
  | nil =>
    rw [List.map_nil, List.prod_nil, mul_one]
    exact fun xs hxs => .last hxs
  | cons i others ih =>
    intro xs hxs
    rw [List.map_cons, List.prod_cons, mul_assoc (mark separator)] at hxs
    obtain ⟨ys, hys, zs, hzs, rfl⟩ := Language.mem_mul.1 hxs
    obtain ⟨us, rfl, vs, hvs, rfl⟩ := Language.mem_mul.1 hzs
    exact .cons hys (ih i hvs)

theorem eq_of_mem_prod_singleton (symbol : α → Symbol) {items : List α} {xs : List Symbol}
    (h : xs ∈ (items.map fun i => ({[symbol i]} : Phrase)).prod) : xs = items.map symbol := by
  induction items generalizing xs with
  | nil => exact (Language.mem_one xs).1 h
  | cons i items ih =>
    rw [List.map_cons, List.prod_cons] at h
    obtain ⟨_, rfl, ys, hys, rfl⟩ := Language.mem_mul.1 h
    rw [ih hys]
    rfl

/-- What an item of a body is written as: a comment has no symbol. -/
def bodyItem (phrase : α → Phrase) : BodyItem α → Phrase
  | .decl v => phrase v
  | .comment _ => 1
  | .stray => mark .semicolon

theorem prod_le_statements (phrase : α → Phrase) (items : List (BodyItem α)) :
    (items.map (bodyItem phrase)).prod ≤
      .of (Statements (fun i xs => xs ∈ phrase i) (items.filterMap BodyItem.decl?)) := by
  induction items with
  | nil =>
    intro xs hxs
    rw [(Language.mem_one xs).1 hxs]
    exact .nil
  | cons i items ih =>
    intro xs hxs
    rw [List.map_cons, List.prod_cons] at hxs
    obtain ⟨ys, hys, zs, hzs, rfl⟩ := Language.mem_mul.1 hxs
    cases i with
    | decl v => exact .cons hys (ih hzs)
    | comment c => rw [(Language.mem_one ys).1 hys]; exact ih hzs
    | stray => rw [show ys = [.punct .semicolon] from hys]; exact .stray (ih hzs)

end Phrase

namespace Production

variable {α : Type} {before : Phrase}

theorem spells_separated {item : Production α} {phrase : α → Phrase} (separator : Punct)
    (h : Spells 1 item phrase) : Spells 1 (separated (.punct separator) item) fun vs =>
      .of (Separated separator (fun v xs => xs ∈ phrase v) vs) := by
  refine h.then fun first => ?_
  refine (spells_loop (L := fun v => Phrase.mark separator * phrase v) ?_).then fun others => ?_
  · refine .ifPunct (h.then fun v => .pure ?_) (.pure le_rfl)
    exact le_of_eq (by simp [Phrase.optional])
  · refine .pure (le_trans (le_of_eq ?_) (Phrase.prod_le_separated separator phrase first others))
    rw [one_mul]

/-! ## Names, numbers and strings -/

theorem spells_ident : Spells 1 ident Phrase.word := spells_takeOr _ _

theorem spells_integer : Spells 1 integer Phrase.integer := spells_takeOr _ _

theorem spells_fullIdent : Spells 1 fullIdent Phrase.name := by
  refine (spells_separated .dot spells_ident).then fun parts => .pure ?_
  rw [one_mul]
  exact fun xs hxs => ⟨parts, rfl, hxs⟩

theorem spells_typeName : Spells 1 typeName Phrase.typeName := by
  refine (spells_skip (t := .punct .dot) (L := Phrase.mark .dot) fun _ => rfl).then
    fun absolute => ?_
  refine spells_fullIdent.then fun name => .pure ?_
  cases absolute with
  | true =>
    rw [if_pos rfl, one_mul]
    exact fun xs hxs => .inr ⟨name, rfl, hxs⟩
  | false =>
    rw [if_neg Bool.false_ne_true, one_mul, one_mul]
    exact fun xs hxs => .inl hxs

theorem spells_fieldType : Spells 1 fieldType FieldType.phrase := by
  refine spells_typeName.then fun name => .pure (le_of_eq ?_)
  rw [one_mul, FieldType.phrase, FieldType.name_ofName]

theorem spells_string : Spells 1 string Phrase.text := by
  refine (spells_takeOr .string _).then fun first => ?_
  refine (spells_loop (spells_take .string)).then fun others => .pure fun xs hxs => ?_
  rw [one_mul] at hxs
  obtain ⟨_, rfl, ys, hys, rfl⟩ := Language.mem_mul.1 hxs
  refine ⟨first :: others, List.cons_ne_nil _ _, String.join_cons.symm, ?_⟩
  rw [Phrase.eq_of_mem_prod_singleton Symbol.string hys]
  rfl

/-! ## Options -/

theorem withoutLeadingDots_of_name {n : String} {xs : List Symbol} (h : xs ∈ Phrase.name n) :
    withoutLeadingDots n = n := by
  obtain ⟨parts, rfl, h⟩ := h
  have hfirst : ∃ w ws, parts = w :: ws ∧ IsWord w := by
    cases h with
    | last h => exact ⟨_, _, rfl, h.1⟩
    | cons h _ => exact ⟨_, _, rfl, h.1⟩
  obtain ⟨w, ws, rfl, hw⟩ := hfirst
  refine withoutLeadingDots_of_head? ?_
  cases ws with
  | nil =>
    rw [String.intercalate_singleton]
    exact hw.head?_ne_dot
  | cons v ws =>
    rw [String.intercalate_cons_cons]
    obtain ⟨c, cs, hc, -⟩ := id hw
    have hne := hw.head?_ne_dot
    rw [hc] at hne
    simpa [hc] using hne

theorem withoutLeadingDots_dot (n : String) :
    withoutLeadingDots ("." ++ n) = withoutLeadingDots n := by
  rw [withoutLeadingDots, withoutLeadingDots, String.toList_append]
  rfl

theorem optionNameStart_le (part : String) :
    Phrase.optionNameStart part ≤ Phrase.optionNamePart (withoutLeadingDots part) := by
  intro xs hxs
  rcases hxs with hword | hparen
  · have hname : xs ∈ Phrase.name part :=
      ⟨[part], String.intercalate_singleton.symm, .last hword⟩
    rw [withoutLeadingDots_of_name hname]
    exact .inl hword
  · refine .inr ?_
    obtain ⟨ys, hys, zs, hzs, rfl⟩ := Language.mem_mul.1 hparen
    obtain ⟨us, hus, vs, hvs, rfl⟩ := Language.mem_mul.1 hys
    refine Language.append_mem_mul ?_ hzs
    rw [mul_assoc]
    refine Language.append_mem_mul hus ?_
    rcases hvs with hname | ⟨relative, rfl, hdot⟩
    · rw [withoutLeadingDots_of_name hname]
      exact Language.append_mem_mul (a := []) (.inl rfl) hname
    · obtain ⟨as, has, bs, hbs, rfl⟩ := Language.mem_mul.1 hdot
      rw [withoutLeadingDots_dot, withoutLeadingDots_of_name hbs]
      exact Language.append_mem_mul (.inr has) hbs

theorem spells_optionNamePart : Spells 1 optionNamePart Phrase.optionNameStart := by
  refine .ifPunct ?_ ?_
  · refine spells_typeName.then fun name => ?_
    refine (spells_punct .rightParen).then fun _ => .pure fun xs hxs => .inr ?_
    rwa [one_mul] at hxs
  · exact (spells_takeOr .word _).mono fun name xs hxs => .inl hxs

theorem spells_optionName : Spells 1 optionName Phrase.optionName := by
  refine spells_optionNamePart.then fun first => ?_
  refine (spells_loop (L := fun p => Phrase.mark .dot * Phrase.optionNamePart p)
    ?_).then fun others => ?_
  · refine .ifPunct (spells_optionNamePart.then fun part => .pure ?_) (.pure le_rfl)
    rw [one_mul]
    exact mul_le_mul' le_rfl (optionNameStart_le part)
  · refine .pure fun xs hxs => ?_
    rw [one_mul] at hxs
    obtain ⟨ys, hys, zs, hzs, rfl⟩ := Language.mem_mul.1 hxs
    exact ⟨first, others, ys, zs, rfl, hys, Phrase.prod_le_series _ _ hzs, rfl⟩

theorem nil_notMem_name (n : String) : [] ∉ Phrase.name n := by
  rintro ⟨parts, -, h⟩
  generalize hxs : [] = xs at h
  cases h with
  | last h => exact absurd (hxs.trans h.2) (by simp)
  | cons _ _ => simp at hxs

theorem spells_constant : Spells 1 constant Value.constant := by
  refine .ifSees (spells_string.then fun s => .pure ?_) ?_
  · rw [one_mul]
    exact le_rfl
  · refine .ifSeen (L := fun v => .of fun xs => ∃ n, v = .ident n ∧ xs ∈ Phrase.name n)
      (spells_fullIdent.then fun n => .pure ?_) (spells_takeOr .literal _) ?_ ?_
    · rw [one_mul]
      exact fun xs hxs => ⟨n, rfl, hxs⟩
    · rintro v ⟨n, -, hn⟩
      exact nil_notMem_name n hn
    · rintro v s xs w ⟨n, rfl, hn⟩ ⟨hname, -, hs⟩
      rw [List.singleton_inj] at hs
      subst hs
      exact ⟨hn, w, xs, hname, rfl⟩

theorem spells_optionValue : Spells 1 optionValue Value.phrase := by
  refine .ifSees ((spells_call .aggregate).then fun a => .pure ?_) ?_
  · rw [one_mul]
    exact fun xs hxs => Value.Yields.aggregate hxs
  · exact spells_constant.mono fun v xs hxs => Value.Yields.constant hxs

theorem spells_valueList : Spells 1 valueList fun vs =>
    .of fun xs => Aggregate.ValuesYield vs (.punct .colon :: xs) := by
  refine (spells_punct .leftBracket).then fun _ => ?_
  refine .ifPunct (.pure ?_) ?_
  · rintro _ ⟨_, ⟨_, rfl, _, rfl, rfl⟩, _, rfl, rfl⟩
    exact .empty
  · refine (spells_separated .comma spells_optionValue).then fun vs => ?_
    refine (spells_punct .rightBracket).then fun _ => .pure ?_
    rintro _ ⟨_, ⟨_, ⟨_, rfl, _, rfl, rfl⟩, ys, hys, rfl⟩, _, rfl, rfl⟩
    exact .many hys

/-! ## Aggregates -/

theorem spells_entryKey : Spells 1 entryKey Phrase.entryKey := by
  refine .ifPunct ?_ ?_
  · refine spells_typeName.then fun name => ?_
    refine (spells_punct .rightBracket).then fun _ => .pure fun xs hxs => .inr ?_
    rwa [one_mul] at hxs
  · exact (spells_takeOr .word _).mono fun name xs hxs => .inl hxs

theorem spells_entryValues : Spells 1 entryValues fun vs => .of (Aggregate.ValuesYield vs) := by
  refine .ifSees ?_ ?_
  · refine (spells_call .aggregate).then fun a => .pure ?_
    rw [one_mul]
    exact fun xs hxs => .bare hxs
  · refine (spells_punct .colon).then fun _ => ?_
    refine .ifSees ?_ ?_
    · refine (spells_valueList.frame _).mono fun vs => ?_
      rintro _ ⟨_, ⟨_, rfl, _, rfl, rfl⟩, ys, hys, rfl⟩
      exact hys
    · refine spells_optionValue.then fun v => .pure ?_
      rintro _ ⟨_, ⟨_, rfl, _, rfl, rfl⟩, ys, hys, rfl⟩
      exact .one hys

theorem spells_entryEnd : Spells 1 entryEnd fun _ => Phrase.entryEnd := by
  refine .ifPunct (.pure ?_) ?_
  · rw [one_mul]
    exact fun xs hxs => .inl (.inr hxs)
  · refine (spells_skip (t := .punct .semicolon) (L := Phrase.mark .semicolon) fun _ => rfl).mono ?_
    rintro (_ | _)
    · exact fun xs hxs => .inl (.inl hxs)
    · exact fun xs hxs => .inr hxs

theorem name_of_mem_entrySettings {name : String} {comments : List Comment} {values : List Value}
    {s : Setting} (h : s ∈ entrySettings name comments values) : s.name = name := by
  cases values with
  | nil => cases h
  | cons v vs =>
    rcases List.mem_cons.1 h with rfl | h
    · rfl
    · obtain ⟨w, -, rfl⟩ := List.mem_map.1 h
      rfl

theorem value_entrySettings (name : String) (comments : List Comment) (values : List Value) :
    (entrySettings name comments values).map Setting.value = values := by
  cases values with
  | nil => rfl
  | cons v vs => simp [entrySettings, Function.comp_def]

theorem spells_entry : Spells 1 entry fun settings => .of (Aggregate.EntryYields settings) := by
  refine spells_comments.then fun leading => ?_
  refine spells_entryKey.then fun key => ?_
  refine spells_entryValues.then fun values => ?_
  refine spells_entryEnd.then fun _ => ?_
  refine spells_trailing.then fun last => .pure ?_
  rw [one_mul, one_mul, mul_one]
  rintro _ ⟨_, ⟨xs, hxs, ys, hys, rfl⟩, zs, hzs, rfl⟩
  exact .intro (fun s hs => name_of_mem_entrySettings hs) (value_entrySettings key _ values)
    hxs hys hzs

/-- What an item of an aggregate is written as. -/
def entryItemPhrase : BodyItem (List Setting) → Phrase
  | .decl settings => .of (Aggregate.EntryYields settings)
  | .comment _ => 1
  | .stray => 0

theorem spells_aggregateItem : Spells 1 aggregateItem (Phrase.optional entryItemPhrase) := by
  refine .orElse (spells_entry.then fun settings => .pure ?_) (spells_comment.then fun found => ?_)
  · rw [one_mul]
    exact le_rfl
  · refine .pure ?_
    cases found <;> exact le_of_eq (mul_one 1)

/-- Items in braces spell a mark, the items and a mark. -/
theorem spells_braces {α : Type} {item : Production (Option (BodyItem α))}
    {L : BodyItem α → Phrase} {M : List α → Phrase} (h : Spells 1 item (Phrase.optional L))
    (hle : ∀ items : List (BodyItem α), (items.map L).prod ≤ M (items.filterMap BodyItem.decl?)) :
    Spells 1 (braces item) fun b =>
      Phrase.mark .leftBrace * M b.decls * Phrase.mark .rightBrace := by
  refine (spells_punct .leftBrace).then fun _ => ?_
  refine spells_trailing.then fun opening => ?_
  refine (spells_loop h).then fun items => ?_
  refine (spells_punct .rightBrace).then fun _ => .pure ?_
  rw [one_mul, mul_one]
  exact mul_le_mul' (mul_le_mul' le_rfl (hle items)) le_rfl

theorem prod_entryItemPhrase_le (items : List (BodyItem (List Setting))) :
    (items.map entryItemPhrase).prod ≤
      .of (Series Aggregate.EntryYields (items.filterMap BodyItem.decl?)) := by
  induction items with
  | nil =>
    intro xs hxs
    rw [(Language.mem_one xs).1 hxs]
    exact .nil
  | cons i items ih =>
    intro xs hxs
    rw [List.map_cons, List.prod_cons] at hxs
    obtain ⟨ys, hys, zs, hzs, rfl⟩ := Language.mem_mul.1 hxs
    cases i with
    | decl v => exact .cons hys (ih hzs)
    | comment c => rw [(Language.mem_one ys).1 hys]; exact ih hzs
    | stray => exact absurd hys (Language.notMem_zero ys)

theorem spells_aggregate : Spells 1 aggregate Aggregate.phrase := by
  refine (spells_braces spells_aggregateItem prod_entryItemPhrase_le).then fun inner => .pure ?_
  rw [one_mul]
  rintro _ ⟨_, ⟨_, rfl, ys, hys, rfl⟩, _, rfl, rfl⟩
  exact .intro rfl hys

/-! ## Where options are written -/

theorem holds_ofValue (name : String) (value : Value) (leading : List Comment) :
    (OptionDecl.ofValue name value leading).Holds value ∧
      (OptionDecl.ofValue name value leading).name = name := by
  cases value <;> exact ⟨rfl, rfl⟩

theorem spells_optionDecl : Spells 1 optionDecl OptionDecl.phrase := by
  refine spells_comments.then fun leading => ?_
  refine (spells_keyword .optionKw).then fun _ => ?_
  refine spells_optionName.then fun name => ?_
  refine (spells_punct .equals).then fun _ => ?_
  refine spells_optionValue.then fun value => ?_
  refine (spells_punct .semicolon).then fun _ => ?_
  refine spells_trailing.then fun last => .pure ?_
  obtain ⟨hvalue, hname⟩ := holds_ofValue name value leading
  rw [one_mul, one_mul, mul_one, OptionDecl.phrase, hname]
  refine mul_le_mul' (mul_le_mul' le_rfl fun xs hxs => ⟨value, ?_, hxs⟩) le_rfl
  cases value <;> exact hvalue

theorem spells_fieldOption : Spells 1 fieldOption Setting.phrase := by
  refine spells_optionName.then fun name => ?_
  refine (spells_punct .equals).then fun _ => ?_
  refine spells_optionValue.then fun value => .pure ?_
  rw [one_mul]
  exact le_rfl

theorem spells_fieldOptions : Spells 1 fieldOptions FieldOptions.phrase := by
  refine .ifPunct ?_ (.pure ?_)
  · refine (spells_separated .comma spells_fieldOption).then fun settings => ?_
    refine (spells_punct .rightBracket).then fun _ => .pure fun xs hxs => .inr ?_
    rw [one_mul] at hxs
    obtain ⟨_, ⟨ys, hys, zs, hzs, rfl⟩, us, hus, rfl⟩ := hxs
    exact Language.append_mem_mul (Language.append_mem_mul hys ⟨settings, rfl, hzs⟩) hus
  · exact fun xs hxs => .inl ⟨rfl, (Language.mem_one xs).1 hxs⟩

/-! ## Fields -/

theorem spells_modifier : Spells 1 modifier Modifier.phrase := by
  refine .ifKeyword (.pure ?_) (.ifKeyword (.pure ?_) (.ifKeyword (.pure ?_) (.pure le_rfl)))
  all_goals exact le_of_eq (one_mul _)

/-- What all fields have after their types, followed by a step that only keeps what was read. -/
theorem spells_declarator {α : Type} {before : Phrase} (leading : List Comment)
    (node : String → Int → FieldOptions → List Comment → α) {after : α → Phrase}
    (h : ∀ n number options cs,
      before * Phrase.declarator n number options ≤ after (node n number options cs)) :
    Spells before (do
      let name ← ident
      let _ ← punct .equals
      let number ← integer
      let options ← fieldOptions
      return node name number options (← endStatement leading)) after := by
  refine spells_ident.then fun name => ?_
  refine (spells_punct .equals).then fun _ => ?_
  refine spells_integer.then fun number => ?_
  refine spells_fieldOptions.then fun options => ?_
  refine (spells_endStatement leading).then fun cs => .pure ?_
  refine le_trans (le_of_eq ?_) (h name number options cs)
  simp only [Phrase.declarator, mul_assoc]

theorem spells_field : Spells 1 field Field.phrase := by
  refine spells_comments.then fun leading => ?_
  refine spells_modifier.then fun modifier => ?_
  refine spells_fieldType.then fun type => ?_
  refine spells_declarator leading (Field.mk modifier type) fun n number options cs => ?_
  rw [one_mul, one_mul]
  exact le_rfl

theorem spells_mapField : Spells 1 mapField MapField.phrase := by
  refine spells_comments.then fun leading => ?_
  refine (spells_keyword .mapKw).then fun _ => ?_
  refine (spells_punct .leftAngle).then fun _ => ?_
  refine spells_fieldType.then fun keyType => ?_
  refine (spells_punct .comma).then fun _ => ?_
  refine spells_fieldType.then fun valueType => ?_
  refine (spells_punct .rightAngle).then fun _ => ?_
  refine spells_declarator leading (MapField.mk keyType valueType) fun n number options cs => ?_
  rw [one_mul, one_mul]
  exact le_rfl

theorem spells_oneofField : Spells 1 oneofField OneofField.phrase := by
  refine spells_comments.then fun leading => ?_
  refine spells_fieldType.then fun type => ?_
  refine spells_declarator leading (OneofField.mk type) fun n number options cs => ?_
  rw [one_mul, one_mul]
  exact le_rfl

theorem spells_enumValue : Spells 1 enumValue EnumValue.phrase := by
  refine spells_comments.then fun leading => ?_
  refine spells_declarator leading EnumValue.mk fun n number options cs => ?_
  rw [one_mul, one_mul]
  exact le_rfl

/-! ## Bodies -/

theorem spells_commentOrStray {α : Type} (L : α → Phrase) :
    Spells 1 commentOrStray (Phrase.bodyItem L) := by
  refine spells_comment.bind fun found => ?_
  cases found with
  | some c => exact .pure le_rfl
  | none => exact (spells_punct .semicolon).then fun _ => .pure (le_of_eq (one_mul _))

theorem spells_bodyItem {α : Type} {decl : Production α} {L : α → Phrase} (h : Spells 1 decl L) :
    Spells 1 (bodyItem decl) (Phrase.optional (Phrase.bodyItem L)) := by
  refine .orElse (h.then fun v => .pure (le_of_eq (one_mul _))) (.orElse ?_ (.pure le_rfl))
  exact (spells_commentOrStray L).then fun i => .pure (le_of_eq (one_mul _))

theorem spells_body {α : Type} {decl : Production α} {L : α → Phrase} (leading : List Comment)
    (h : Spells 1 decl L) : Spells 1 (body leading decl) fun b => Phrase.body L b.decls := by
  refine (spells_braces (M := fun items => .of (Statements (fun i xs => xs ∈ L i) items))
    (spells_bodyItem h) (Phrase.prod_le_statements L)).then fun inner => ?_
  refine spells_trailing.then fun last => .pure (le_of_eq ?_)
  rw [one_mul, mul_one]
  rfl

/-- An alternative spells what it gives as one of several kinds of declarations. -/
theorem Spells.alternative {α β : Type} {p : Production α} {f : α → β} {L : α → Phrase}
    {M : β → Phrase} (h : Spells 1 p L) (hle : ∀ v, L v ≤ M (f v)) :
    Spells 1 (do return f (← p)) M :=
  h.then fun v => .pure (by rw [one_mul]; exact hle v)

theorem spells_oneof : Spells 1 oneof Oneof.phrase := by
  have hitem : Spells 1 ((do return .option (← optionDecl)) <|> (do return .field (← oneofField)))
      OneofItem.phrase :=
    .orElse (spells_optionDecl.alternative fun _ => le_rfl)
      (spells_oneofField.alternative fun _ => le_rfl)
  refine spells_comments.then fun leading => ?_
  refine (spells_keyword .oneofKw).then fun _ => ?_
  refine spells_ident.then fun name => ?_
  refine (spells_body leading hitem).then fun inner => .pure ?_
  rw [one_mul, one_mul]
  exact mul_le_mul' le_rfl fun xs hxs => ⟨inner.decls, rfl, rfl, hxs⟩

/-! ## Ranges of numbers -/

theorem spells_rangeEnd : Spells 1 rangeEnd RangeEnd.phrase := by
  refine .ifKeyword (.pure (le_of_eq (one_mul _))) ?_
  exact (spells_takeOr .integer _).then fun n => .pure (le_of_eq (one_mul _))

theorem spells_numberRange : Spells 1 numberRange NumberRange.phrase := by
  refine spells_integer.then fun first => .ifKeyword ?_ (.pure (le_of_eq (one_mul _)))
  refine spells_rangeEnd.then fun last => .pure (le_of_eq ?_)
  rw [one_mul]
  rfl

theorem spells_numberRanges : Spells 1 numberRanges NumberRange.listPhrase :=
  spells_separated .comma spells_numberRange

theorem spells_reservedItems : Spells 1 reservedItems ReservedItems.phrase :=
  .orElse (spells_numberRanges.alternative fun _ => le_rfl)
    ((spells_separated .comma spells_string).alternative fun _ => le_rfl)

theorem spells_reserved : Spells 1 reserved Reserved.phrase := by
  refine spells_comments.then fun leading => ?_
  refine (spells_keyword .reservedKw).then fun _ => ?_
  refine spells_reservedItems.then fun items => ?_
  refine (spells_endStatement leading).then fun cs => .pure (le_of_eq ?_)
  rw [one_mul, one_mul]
  rfl

theorem spells_extensionRanges : Spells 1 extensionRanges ExtensionRanges.phrase := by
  refine spells_comments.then fun leading => ?_
  refine (spells_keyword .extensionsKw).then fun _ => ?_
  refine spells_numberRanges.then fun ranges => ?_
  refine (spells_endStatement leading).then fun cs => .pure (le_of_eq ?_)
  rw [one_mul, one_mul]
  rfl

/-! ## Enums, extensions and messages -/

theorem spells_enumItem : Spells 1 enumItem EnumItem.phrase :=
  .orElse (spells_optionDecl.alternative fun _ => le_rfl)
    (.orElse (spells_reserved.alternative fun _ => le_rfl)
      (spells_enumValue.alternative fun _ => le_rfl))

theorem spells_enum : Spells 1 enum Enum.phrase := by
  refine spells_comments.then fun leading => ?_
  refine (spells_keyword .enumKw).then fun _ => ?_
  refine spells_ident.then fun name => ?_
  refine (spells_body leading spells_enumItem).then fun inner => .pure (le_of_eq ?_)
  rw [one_mul, one_mul]
  rfl

theorem spells_extend : Spells 1 extend Extend.phrase := by
  refine spells_comments.then fun leading => ?_
  refine (spells_keyword .extendKw).then fun _ => ?_
  refine spells_typeName.then fun extendee => ?_
  refine (spells_body leading spells_field).then fun inner => .pure (le_of_eq ?_)
  rw [one_mul, one_mul]
  rfl

theorem member_le (decl : Member) : decl.phrase ≤ (MessageItem.member decl).phrase :=
  fun _ h => .member h

theorem spells_messageItem : Spells 1 messageItem MessageItem.phrase := by
  refine .orElse (spells_optionDecl.alternative fun _ _ h => .option h) ?_
  refine .orElse (spells_enum.alternative fun _ _ h => .enum h) ?_
  refine .orElse ((spells_call .message).alternative fun _ _ h => .message h) ?_
  refine .orElse (spells_oneof.alternative fun decl => member_le (.oneof decl)) ?_
  refine .orElse (spells_mapField.alternative fun decl => member_le (.map decl)) ?_
  refine .orElse (spells_reserved.alternative fun decl => member_le (.reserved decl)) ?_
  refine .orElse (spells_extensionRanges.alternative fun decl => member_le (.extensions decl)) ?_
  refine .orElse (spells_extend.alternative fun _ _ h => .extend h) ?_
  exact spells_field.alternative fun decl => member_le (.field decl)

theorem spells_message : Spells 1 message Message.phrase := by
  refine spells_comments.then fun leading => ?_
  refine (spells_keyword .messageKw).then fun _ => ?_
  refine spells_ident.then fun name => ?_
  refine (spells_body leading spells_messageItem).then fun inner => .pure ?_
  rw [one_mul, one_mul]
  rintro _ ⟨_, ⟨_, rfl, _, ⟨hname, rfl⟩, rfl⟩, _, ⟨_, ⟨_, rfl, ys, hys, rfl⟩, _, rfl, rfl⟩, rfl⟩
  exact .intro hname ⟨rfl, rfl, rfl, rfl, rfl⟩ hys

/-! ## Services -/

theorem spells_rpcTypeInParens : Spells 1 rpcTypeInParens RpcType.phrase := by
  have htype : Spells 1 rpcType fun t =>
      (if t.isStream then Phrase.keyword .streamKw else 1) * Phrase.typeName t.name := by
    refine .orElse ((spells_keyword .streamKw).then fun _ => ?_) ?_
    · refine spells_typeName.then fun name => .pure (le_of_eq ?_)
      rw [one_mul, if_pos rfl]
    · refine spells_typeName.then fun name => .pure (le_of_eq ?_)
      rw [if_neg Bool.false_ne_true]
  refine (spells_punct .leftParen).then fun _ => ?_
  refine htype.then fun type => ?_
  refine (spells_punct .rightParen).then fun _ => .pure (le_of_eq ?_)
  rw [one_mul, RpcType.phrase]
  simp only [mul_assoc]

theorem spells_rpcBody (leading : List Comment) : Spells 1 (rpcBody leading) fun b =>
    Phrase.body OptionDecl.phrase b.decls +
      .of fun xs => b.decls = [] ∧ xs = [.punct .semicolon] := by
  refine .ifSees ((spells_body leading spells_optionDecl).mono fun b xs hxs => .inl hxs) ?_
  refine (spells_takeOr (.punct .semicolon) _).then fun _ => ?_
  refine spells_trailing.then fun last => .pure fun xs hxs => .inr ⟨rfl, ?_⟩
  rw [one_mul, mul_one] at hxs
  exact hxs

theorem spells_rpc : Spells 1 rpc Rpc.phrase := by
  refine spells_comments.then fun leading => ?_
  refine (spells_keyword .rpcKw).then fun _ => ?_
  refine spells_ident.then fun name => ?_
  refine spells_rpcTypeInParens.then fun input => ?_
  refine (spells_keyword .returnsKw).then fun _ => ?_
  refine spells_rpcTypeInParens.then fun output => ?_
  refine (spells_rpcBody leading).then fun inner => .pure (le_of_eq ?_)
  rw [one_mul, one_mul]
  rfl

theorem spells_service : Spells 1 service Service.phrase := by
  have hitem : Spells 1 serviceItem ServiceItem.phrase :=
    .orElse (spells_optionDecl.alternative fun _ => le_rfl)
      (spells_rpc.alternative fun _ => le_rfl)
  refine spells_comments.then fun leading => ?_
  refine (spells_keyword .serviceKw).then fun _ => ?_
  refine spells_ident.then fun name => ?_
  refine (spells_body leading hitem).then fun inner => .pure ?_
  rw [one_mul, one_mul]
  exact mul_le_mul' le_rfl fun xs hxs => ⟨inner.decls, rfl, rfl, hxs⟩

/-! ## Files -/

theorem spells_syntaxDecl : Spells 1 syntaxDecl SyntaxDecl.phrase := by
  refine spells_comments.then fun leading => ?_
  refine (spells_keyword .syntaxKw).then fun _ => ?_
  refine (spells_punct .equals).then fun _ => ?_
  refine spells_string.then fun value => ?_
  refine (spells_endStatement leading).then fun cs => .pure (le_of_eq ?_)
  rw [one_mul, one_mul]
  rfl

theorem spells_importModifier : Spells 1 importModifier ImportModifier.phrase := by
  refine .ifKeyword (.pure ?_) (.ifKeyword (.pure ?_) (.pure le_rfl))
  all_goals exact le_of_eq (one_mul _)

theorem spells_importDecl : Spells 1 importDecl Import.phrase := by
  refine spells_comments.then fun leading => ?_
  refine (spells_keyword .importKw).then fun _ => ?_
  refine spells_importModifier.then fun modifier => ?_
  refine spells_string.then fun path => ?_
  refine (spells_endStatement leading).then fun cs => .pure ?_
  rw [one_mul, one_mul]
  exact mul_le_mul' (mul_le_mul' le_rfl fun xs hxs => ⟨path, rfl, hxs⟩) le_rfl

theorem spells_packageDecl : Spells 1 packageDecl FileItem.phrase := by
  refine spells_comments.then fun leading => ?_
  refine (spells_keyword .packageKw).then fun first => ?_
  refine spells_fullIdent.then fun name => ?_
  refine (spells_punct .semicolon).then fun last => ?_
  refine spells_trailing.then fun comment => .pure (le_of_eq ?_)
  rw [one_mul, one_mul, mul_one]
  rfl

theorem spells_fileItem : Spells 1 fileItem FileItem.phrase := by
  refine .orElse (spells_importDecl.alternative fun _ => le_rfl) ?_
  refine .orElse spells_packageDecl ?_
  refine .orElse (spells_optionDecl.alternative fun _ => le_rfl) ?_
  refine .orElse ((spells_call .message).alternative fun _ => le_rfl) ?_
  refine .orElse (spells_enum.alternative fun _ => le_rfl) ?_
  refine .orElse (spells_service.alternative fun _ => le_rfl) ?_
  exact spells_extend.alternative fun _ => le_rfl

theorem spells_file : Spells 1 file fun (version, inner) =>
    version.phrase * .of (Statements (fun i xs => xs ∈ FileItem.phrase i) inner.decls) := by
  refine spells_syntaxDecl.then fun version => ?_
  refine (spells_loop (spells_bodyItem spells_fileItem)).then fun items => .pure ?_
  rw [one_mul]
  exact mul_le_mul' le_rfl (Phrase.prod_le_statements _ items)

end Production

/-! ## Reading derives -/

/-- The nested constructs spell their phrases. -/
theorem Nonterminal.matches_spells : Callee.Spells Nonterminal.matches := by
  intro n c r
  revert n c r
  refine Nonterminal.matches_induct (P := fun n c _ reply => ∀ v d r', reply = .done v d r' →
    (∀ l ∈ c.rest, l.WellRead) → c.Spells d 1 (n.phrase v)) (fun _ _ r => .failed r)
    (fun _ _ _ _ _ _ h => nomatch h) (fun _ _ _ _ _ _ h => nomatch h) ?_
  intro callee _ hcallee n c r v d r' h hw
  cases n with
  | aggregate => exact Production.spells_aggregate callee hcallee c r v d r' h hw
  | message => exact Production.spells_message callee hcallee c r v d r' h hw

theorem File.sorts_of_ofItems {version : SyntaxDecl} {items : List FileItem}
    {comments : List Comment} {f : File} (h : File.ofItems version items comments = .ok f) :
    f.version = version ∧ f.Sorts items := by
  unfold File.ofItems at h
  split at h
  · next hp => cases h; exact ⟨rfl, by rw [hp]; rfl, rfl, rfl, rfl, rfl⟩
  · next hp => cases h; exact ⟨rfl, by rw [hp]; rfl, rfl, rfl, rfl, rfl⟩
  · cases h

/-- The lexemes that make up a file have symbols in its phrase. -/
theorem File.derives_of_ofLexemes {ls : List Lexeme} {size : Nat} {f : File}
    (hw : ∀ l ∈ ls, l.WellRead) (h : File.ofLexemes ls size = .ok f) :
    ProtoSchema.symbols ls ∈ f.phrase := by
  unfold File.ofLexemes Production.matchAll Production.run at h
  cases hm : Production.file.matchWith Nonterminal.matches (.start ls) .start with
  | failed r => rw [hm] at h; cases h
  | done v d r =>
    obtain ⟨version, body⟩ := v
    rw [hm] at h
    dsimp only at h
    cases hrest : d.rest with
    | cons _ _ => rw [hrest] at h; cases h
    | nil =>
      rw [hrest] at h
      obtain ⟨rfl, hsorts⟩ := File.sorts_of_ofItems h
      obtain ⟨passed, hpassed, hmem⟩ :=
        Production.spells_file _ Nonterminal.matches_spells _ _ _ _ _ hm hw
      rw [hrest, List.append_nil] at hpassed
      obtain ⟨xs, hxs, ys, hys, hxy⟩ := Language.mem_mul.1 (hmem [] Language.nil_mem_one)
      rw [show ls = passed from hpassed, ← List.nil_append (ProtoSchema.symbols passed),
        ← hxy]
      exact Language.append_mem_mul hxs ⟨body.decls, hsorts, hys⟩

/-- A source that is read as a file consists of tokens that, without the comments, derive this file
in the grammar. -/
theorem parse_derives {source : String} {f : File} (h : parse source = .ok f) :
    ∃ ls, tokenize source.toList = .ok ls ∧ symbols ls ∈ f.phrase := by
  unfold parse at h
  dsimp only at h
  split at h
  · cases h
  · split at h
    · cases h
    · next hfaults =>
      refine ⟨lexemes (pieces source.toList), by rw [tokenize, hfaults], ?_⟩
      split at h
      · next hfile =>
        cases h
        exact File.derives_of_ofLexemes (fun l hl => wellRead_of_mem_lexemes hl) hfile
      · cases h

/-- A message in a message, with a comment, a stray semicolon and a field between two braces. -/
theorem parse_derives_nested_message : ∃ source f ls, parse source = .ok f ∧
    f.definitions.length = 1 ∧ tokenize source.toList = .ok ls ∧ symbols ls ∈ f.phrase := by
  let source :=
    "syntax = 'proto3'; message A \x7b message B \x7b\x7d // b\n ; optional .x.Y z = 1; \x7d"
  have hfile : parse source = .ok ⟨⟨"proto3", []⟩, none, [], [],
      [.message ⟨"A", [.field ⟨some .optional, .named ".x.Y", "z", 1, .empty, []⟩], [],
        [⟨"B", [], [], [], [], [], [⟨"b"⟩]⟩], [], [], []⟩], [], []⟩ := by
    decide +kernel
  obtain ⟨ls, hls, hmem⟩ := parse_derives hfile
  exact ⟨source, _, ls, hfile, rfl, hls, hmem⟩

end ProtoSchema
