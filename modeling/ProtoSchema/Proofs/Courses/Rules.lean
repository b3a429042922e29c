import ProtoSchema.Proofs.Comments.Unmoved
import ProtoSchema.Proofs.Courses.Course
import ProtoSchema.Proofs.Omissions

/-
  The rules of the grammar. Most of them are mandatory: wherever one matches, it passes at least one
  lexeme (`Mandatory.passes`). The others may be left out and then stay where they are. The loops of
  all of them move on at every turn, since each turn passes something mandatory or a comment
  (`Rule.advances`).
-/

namespace ProtoSchema

namespace Production

variable {α β : Type} {nested : Prop}

/-! ## Passing a lexeme -/

theorem Passes.bind_left {p : Production α} (h : p.Passes) (k : α → Production β) :
    (p >>= k).Passes := by
  intro c r v d r' hm
  rw [run_bind] at hm
  cases hp : p.run c r with
  | failed s => rw [hp] at hm; cases hm
  | done a e s =>
    rw [hp] at hm
    exact Nat.lt_of_le_of_lt (run_reaches (k a) hm).length_le (h c r a e s hp)

theorem Passes.bind_right (p : Production α) {k : α → Production β} (h : ∀ a, (k a).Passes) :
    (p >>= k).Passes := by
  intro c r v d r' hm
  rw [run_bind] at hm
  cases hp : p.run c r with
  | failed s => rw [hp] at hm; cases hm
  | done a e s =>
    rw [hp] at hm
    exact Nat.lt_of_lt_of_le (h a e s v d r' hm) (run_reaches p hp).length_le

@[simp] theorem passes_bind {p : Production α} {k : α → Production β}
    (h : p.Passes ∨ ∀ a, (k a).Passes) : (p >>= k).Passes :=
  h.elim (fun hp => hp.bind_left k) (.bind_right p)

@[simp] theorem passes_orElse {p q : Production α} (hp : p.Passes) (hq : q.Passes) :
    (p <|> q).Passes :=
  hp.orElse hq

@[simp] theorem passes_ite {c : Prop} [Decidable c] {p q : Production α} (hp : p.Passes)
    (hq : q.Passes) : (if c then p else q).Passes := by
  split
  · exact hp
  · exact hq

@[simp] theorem passes_takeOr (t : Terminal) (e : Expectation) : (takeOr t e).Passes :=
  (consumes_takeOr t e).passes

@[simp] theorem passes_punct (p : Punct) : (punct p).Passes := passes_takeOr _ _

@[simp] theorem passes_keyword (k : Keyword) : (keyword k).Passes := passes_takeOr _ _

@[simp] theorem passes_ident : ident.Passes := passes_takeOr _ _

@[simp] theorem passes_integer : integer.Passes := passes_takeOr _ _

@[simp] theorem passes_word (e : Expectation) : @Passes String (takeOr .word e) := passes_takeOr _ _

@[simp] theorem passes_literal : @Passes Value (expect .literal) := passes_takeOr _ _

@[simp] theorem passes_string : string.Passes := (passes_takeOr _ _).bind_left _

@[simp] theorem passes_separated {t : Terminal} {item : Production α} (h : item.Passes) :
    (separated t item).Passes :=
  h.bind_left _

theorem passes_ifSkip {t : Terminal} {p q : Production α} (hq : q.Passes) :
    (skip t >>= fun b => if b = true then p else q).Passes := by
  intro c r v d r' hm
  rw [skip, run, matchWith_bind, matchWith_bind, matchWith] at hm
  cases htake : c.take? t with
  | none => rw [htake] at hm; exact hq c r v d r' hm
  | some next =>
    rw [htake] at hm
    exact Nat.lt_of_le_of_lt (run_reaches p hm).length_le (Cursor.reaches_of_take? htake).2

@[simp] theorem passes_braces (item : Production (Option (BodyItem α))) : (braces item).Passes := by
  simp [braces]

@[simp] theorem passes_body (leading : List Comment) (decl : Production α) :
    (body leading decl).Passes := by
  simp [body]

@[simp] theorem passes_fullIdent : fullIdent.Passes := by simp [fullIdent]

@[simp] theorem passes_typeName : typeName.Passes := by simp [typeName]

@[simp] theorem passes_call (n : Nonterminal) : (call n).Passes := by
  cases n with
  | message => exact passes_message
  | aggregate =>
    intro c r v d r' hm
    have heq : Nonterminal.aggregate.matches c r = .done v d r' := hm
    rw [Nonterminal.matches_eq_run] at heq
    exact (passes_braces aggregateItem).bind_left _ c r v d r' heq

@[simp] theorem passes_optionNamePart : optionNamePart.Passes := by simp [optionNamePart]

@[simp] theorem passes_optionName : optionName.Passes := by simp [optionName]

@[simp] theorem passes_constant : constant.Passes := by
  refine .bind_right _ fun _ => passes_ite (by simp) ?_
  exact .bind_right _ fun _ => passes_ite (by simp) passes_literal

@[simp] theorem passes_optionValue : optionValue.Passes := by simp [optionValue]

@[simp] theorem passes_rangeEnd : rangeEnd.Passes := passes_ifSkip (by simp)

@[simp] theorem passes_endStatement (cs : List Comment) : (endStatement cs).Passes := by
  simp [endStatement]

attribute [simp] passes_commentOrStray passes_fileItem

@[simp] theorem passes_fieldType : fieldType.Passes := by simp [fieldType]

@[simp] theorem passes_valueList : valueList.Passes := by simp [valueList]

@[simp] theorem passes_entryKey : entryKey.Passes := consumes_entryKey.passes

@[simp] theorem passes_entryValues : entryValues.Passes := by simp [entryValues]

@[simp] theorem passes_entry : entry.Passes := declares_entry.passes

@[simp] theorem passes_aggregate : aggregate.Passes := by simp [aggregate]

@[simp] theorem passes_optionDecl : optionDecl.Passes := declares_optionDecl.passes

@[simp] theorem passes_fieldOption : fieldOption.Passes := by simp [fieldOption]

@[simp] theorem passes_field : field.Passes := declares_field.passes

@[simp] theorem passes_mapField : mapField.Passes := declares_mapField.passes

@[simp] theorem passes_oneofField : oneofField.Passes := declares_oneofField.passes

@[simp] theorem passes_oneof : oneof.Passes := declares_oneof.passes

@[simp] theorem passes_numberRange : numberRange.Passes := by simp [numberRange]

@[simp] theorem passes_numberRanges : numberRanges.Passes := by simp [numberRanges]

@[simp] theorem passes_reservedItems : reservedItems.Passes := passes_orElse (by simp) (by simp)

@[simp] theorem passes_reserved : reserved.Passes := declares_reserved.passes

@[simp] theorem passes_extensionRanges : extensionRanges.Passes := declares_extensionRanges.passes

@[simp] theorem passes_enumValue : enumValue.Passes := declares_enumValue.passes

@[simp] theorem passes_enumItem : enumItem.Passes := declares_enumItem.passes

@[simp] theorem passes_enum : enum.Passes := declares_enum.passes

@[simp] theorem passes_extend : extend.Passes := declares_extend.passes

@[simp] theorem passes_messageItem : messageItem.Passes := declares_messageItem.passes

@[simp] theorem passes_rpcType : rpcType.Passes := by simp [rpcType]

@[simp] theorem passes_rpcTypeInParens : rpcTypeInParens.Passes := by simp [rpcTypeInParens]

@[simp] theorem passes_rpcBody (leading : List Comment) : (rpcBody leading).Passes := by
  simp [rpcBody]

@[simp] theorem passes_rpc : rpc.Passes := declares_rpc.passes

@[simp] theorem passes_serviceItem : serviceItem.Passes := declares_serviceItem.passes

@[simp] theorem passes_service : service.Passes := declares_service.passes

@[simp] theorem passes_syntaxDecl : syntaxDecl.Passes := passes_declaration _

@[simp] theorem passes_importDecl : importDecl.Passes := declares_importDecl.passes

@[simp] theorem passes_packageDecl : packageDecl.Passes := declares_packageDecl.passes

@[simp] theorem passes_file : file.Passes := by simp [file]

/-! ## Loops that move on -/

@[simp] theorem moves_comment : comment.Moves := by
  intro c r v d r' hm
  rw [run, matchWith] at hm
  cases hc : c.comment? with
  | none => rw [hc] at hm; cases hm
  | some next =>
    rw [hc] at hm
    cases hm
    exact Cursor.shorter_of_comment? (show c.comment? = some (next.1, next.2) from hc)

@[simp] theorem moves_take (t : Terminal) : (take t).Moves := by
  intro c r v d r' hm
  rw [run, matchWith] at hm
  cases hc : c.take? t with
  | none => rw [hc] at hm; cases hm
  | some next =>
    rw [hc] at hm
    cases hm
    exact (Cursor.reaches_of_take? (show c.take? t = some (next.1, next.2) from hc)).2

/-- A turn that starts with a separator. -/
@[simp] theorem moves_ifSkip (t : Terminal) (p : Production (Option α)) :
    Moves (skip t >>= fun b => if b = true then p else Pure.pure none) := by
  intro c r v d r' hm
  rw [skip, run, matchWith_bind, matchWith_bind, matchWith] at hm
  cases htake : c.take? t with
  | none => rw [htake] at hm; cases hm
  | some next =>
    rw [htake] at hm
    exact Nat.lt_of_le_of_lt (run_reaches p hm).length_le (Cursor.reaches_of_take? htake).2

@[simp] theorem moves_bodyItem {decl : Production α} (h : decl.Passes) : (bodyItem decl).Moves := by
  intro c r v d r' hm
  rcases bodyItem_cases hm with ⟨w, -, hw⟩ | ⟨i, s, -, hi⟩ | ⟨hv, -⟩
  · exact h c r w d r' hw
  · exact passes_commentOrStray c s i d r' hi
  · cases hv

@[simp] theorem moves_aggregateItem : aggregateItem.Moves :=
  fun _ _ _ _ _ hm => shorter_of_aggregateItem Nonterminal.matches_reaches hm

/-! ## Productions that move on -/

section Advances

@[simp] theorem advances_pure (v : α) : (Pure.pure v : Production α).Advances nested := trivial

@[simp] theorem advances_sees (t : Terminal) : (sees t).Advances nested := trivial

@[simp] theorem advances_take (t : Terminal) : (take t).Advances nested := trivial

@[simp] theorem advances_comment : comment.Advances nested := trivial

@[simp] theorem advances_trailing : trailing.Advances nested := trivial

@[simp] theorem advances_call (n : Nonterminal) : (call n).Advances nested ↔ nested := .rfl

@[simp] theorem advances_bind (p : Production α) (k : α → Production β) :
    (p >>= k).Advances nested ↔ p.Advances nested ∧ ∀ a, (k a).Advances nested := .rfl

@[simp] theorem advances_orElse (p q : Production α) :
    (p <|> q).Advances nested ↔ p.Advances nested ∧ q.Advances nested := .rfl

@[simp] theorem advances_loop (p : Production (Option α)) :
    (loop p).Advances nested ↔ p.Advances nested ∧ p.Moves := .rfl

@[simp] theorem advances_takeOr (t : Terminal) (e : Expectation) :
    (takeOr t e).Advances nested := by
  refine ⟨trivial, fun found => ?_⟩
  cases found <;> trivial

@[simp] theorem advances_punct (p : Punct) : (punct p).Advances nested := advances_takeOr _ _

@[simp] theorem advances_keyword (k : Keyword) : (keyword k).Advances nested := advances_takeOr _ _

@[simp] theorem advances_ident : ident.Advances nested := advances_takeOr _ _

@[simp] theorem advances_integer : integer.Advances nested := advances_takeOr _ _

@[simp] theorem advances_word (e : Expectation) : @Advances nested String (takeOr .word e) :=
  advances_takeOr _ _

@[simp] theorem advances_literal : @Advances nested Value (expect .literal) := advances_takeOr _ _

@[simp] theorem advances_skip (t : Terminal) : (skip t).Advances nested := by simp [skip]

@[simp] theorem advances_separated {t : Terminal} {item : Production α}
    (h : item.Advances nested) : (separated t item).Advances nested := by
  simp [separated, h]

@[simp] theorem advances_comments : comments.Advances nested := by simp [comments]

@[simp] theorem advances_endStatement (cs : List Comment) :
    (endStatement cs).Advances nested := by
  simp [endStatement]

/-! ### Names, options and aggregates -/

@[simp] theorem advances_string : string.Advances nested :=
  ⟨advances_takeOr _ _, fun _ => ⟨(advances_loop _).2 ⟨trivial, moves_take _⟩, fun _ => trivial⟩⟩

@[simp] theorem advances_fullIdent : fullIdent.Advances nested := by simp [fullIdent]

@[simp] theorem advances_typeName : typeName.Advances nested := by simp [typeName]

@[simp] theorem advances_fieldType : fieldType.Advances nested := by simp [fieldType]

@[simp] theorem advances_optionNamePart : optionNamePart.Advances nested := by
  simp [optionNamePart]

@[simp] theorem advances_optionName : optionName.Advances nested := by simp [optionName]

@[simp] theorem advances_constant : constant.Advances nested := by simp [constant]

@[simp] theorem advances_optionValue : optionValue.Advances True := by simp [optionValue]

@[simp] theorem advances_valueList : valueList.Advances True := by simp [valueList]

@[simp] theorem advances_entryKey : entryKey.Advances nested := by simp [entryKey]

@[simp] theorem advances_entryValues : entryValues.Advances True := by simp [entryValues]

@[simp] theorem advances_entryEnd : entryEnd.Advances nested := by simp [entryEnd]

@[simp] theorem advances_entry : entry.Advances True := by simp [entry]

@[simp] theorem advances_aggregateItem : aggregateItem.Advances True := by simp [aggregateItem]

@[simp] theorem advances_optionDecl : optionDecl.Advances True := by simp [optionDecl]

@[simp] theorem advances_fieldOption : fieldOption.Advances True := by simp [fieldOption]

@[simp] theorem advances_fieldOptions : fieldOptions.Advances True := by simp [fieldOptions]

/-! ### Bodies -/

@[simp] theorem advances_commentOrStray :
    (commentOrStray : Production (BodyItem α)).Advances nested := by
  refine ⟨trivial, fun found => ?_⟩
  cases found with
  | some v => trivial
  | none => exact ⟨advances_punct _, fun _ => trivial⟩

@[simp] theorem advances_bodyItem {decl : Production α} (h : decl.Advances nested) :
    (bodyItem decl).Advances nested := by
  simp [bodyItem, h]

@[simp] theorem advances_braces {item : Production (Option (BodyItem α))}
    (h : item.Advances nested) (hmoves : item.Moves) : (braces item).Advances nested := by
  simp [braces, h, hmoves]

@[simp] theorem advances_body (leading : List Comment) {decl : Production α}
    (h : decl.Advances nested) (hpasses : decl.Passes) : (body leading decl).Advances nested := by
  simp [body, h, hpasses]

@[simp] theorem advances_aggregate : aggregate.Advances True := by simp [aggregate]

/-! ### Declarations -/

@[simp] theorem advances_modifier : modifier.Advances nested := by simp [modifier]

@[simp] theorem advances_field : field.Advances True := by simp [field]

@[simp] theorem advances_mapField : mapField.Advances True := by simp [mapField]

@[simp] theorem advances_oneofField : oneofField.Advances True := by simp [oneofField]

@[simp] theorem advances_oneof : oneof.Advances True := by
  simp [oneof, declares_oneofItem.passes]

@[simp] theorem advances_rangeEnd : rangeEnd.Advances nested := by simp [rangeEnd]

@[simp] theorem advances_numberRange : numberRange.Advances nested := by simp [numberRange]

@[simp] theorem advances_numberRanges : numberRanges.Advances nested := by simp [numberRanges]

@[simp] theorem advances_reservedItems : reservedItems.Advances nested := by simp [reservedItems]

@[simp] theorem advances_reserved : reserved.Advances nested := by simp [reserved]

@[simp] theorem advances_extensionRanges : extensionRanges.Advances nested := by
  simp [extensionRanges]

@[simp] theorem advances_enumValue : enumValue.Advances True := by simp [enumValue]

@[simp] theorem advances_enumItem : enumItem.Advances True := by simp [enumItem]

@[simp] theorem advances_enum : enum.Advances True := by simp [enum]

@[simp] theorem advances_extend : extend.Advances True := by simp [extend]

@[simp] theorem advances_messageItem : messageItem.Advances True := by simp [messageItem]

@[simp] theorem advances_message : message.Advances True := by simp [message]

@[simp] theorem advances_rpcType : rpcType.Advances nested := by simp [rpcType]

@[simp] theorem advances_rpcTypeInParens : rpcTypeInParens.Advances nested := by
  simp [rpcTypeInParens]

@[simp] theorem advances_rpcBody (leading : List Comment) : (rpcBody leading).Advances True := by
  simp [rpcBody]

@[simp] theorem advances_rpc : rpc.Advances True := by simp [rpc]

@[simp] theorem advances_serviceItem : serviceItem.Advances True := by simp [serviceItem]

@[simp] theorem advances_service : service.Advances True := by simp [service]

@[simp] theorem advances_syntaxDecl : syntaxDecl.Advances nested := by simp [syntaxDecl]

@[simp] theorem advances_importModifier : importModifier.Advances nested := by
  simp [importModifier]

@[simp] theorem advances_importDecl : importDecl.Advances nested := by simp [importDecl]

@[simp] theorem advances_packageDecl : packageDecl.Advances nested := by simp [packageDecl]

@[simp] theorem advances_fileItem : fileItem.Advances True := by simp [fileItem]

@[simp] theorem advances_file : file.Advances True := by simp [file]

end Advances

/-! ## The rules -/

/-- The mandatory rules of the grammar: those for a single lexeme, those for whatever a file is made
of, and choices between them. -/
inductive Mandatory : {α : Type} → Production α → Prop
  | takeOr (t : Terminal) (e : Expectation) : Mandatory (takeOr t e)
  | giving {α β : Type} {p : Production α} (h : Mandatory p) (f : α → β) :
      Mandatory (do return f (← p))
  | orElse {α : Type} {p q : Production α} (hp : Mandatory p) (hq : Mandatory q) :
      Mandatory (p <|> q)
  | ident : Mandatory ident
  | fullIdent : Mandatory fullIdent
  | typeName : Mandatory typeName
  | fieldType : Mandatory fieldType
  | integer : Mandatory integer
  | string : Mandatory string
  | optionNamePart : Mandatory optionNamePart
  | optionName : Mandatory optionName
  | constant : Mandatory constant
  | optionValue : Mandatory optionValue
  | valueList : Mandatory valueList
  | entryKey : Mandatory entryKey
  | entryValues : Mandatory entryValues
  | entry : Mandatory entry
  | aggregate : Mandatory aggregate
  | optionDecl : Mandatory optionDecl
  | fieldOption : Mandatory fieldOption
  | endStatement (leading : List Comment) : Mandatory (endStatement leading)
  | commentOrStray {α : Type} : Mandatory (commentOrStray : Production (BodyItem α))
  | braces {α : Type} {decl : Production α} (h : Mandatory decl) :
      Mandatory (braces (bodyItem decl))
  | body {α : Type} {decl : Production α} (leading : List Comment) (h : Mandatory decl) :
      Mandatory (body leading decl)
  | field : Mandatory field
  | mapField : Mandatory mapField
  | oneofField : Mandatory oneofField
  | oneof : Mandatory oneof
  | rangeEnd : Mandatory rangeEnd
  | numberRange : Mandatory numberRange
  | numberRanges : Mandatory numberRanges
  | names : Mandatory (separated (.punct .comma) string)
  | reservedItems : Mandatory reservedItems
  | reserved : Mandatory reserved
  | extensionRanges : Mandatory extensionRanges
  | enumValue : Mandatory enumValue
  | enumItem : Mandatory enumItem
  | enum : Mandatory enum
  | extend : Mandatory extend
  | messageItem : Mandatory messageItem
  | message : Mandatory message
  | rpcType : Mandatory rpcType
  | rpcTypeInParens : Mandatory rpcTypeInParens
  | rpcBody (leading : List Comment) : Mandatory (rpcBody leading)
  | rpc : Mandatory rpc
  | serviceItem : Mandatory serviceItem
  | service : Mandatory service
  | syntaxDecl : Mandatory syntaxDecl
  | importDecl : Mandatory importDecl
  | packageDecl : Mandatory packageDecl
  | fileItem : Mandatory fileItem
  | file : Mandatory file
  | call (n : Nonterminal) : Mandatory (call n)

/-- The parts that may be left out, and the loops over what may stand in a body or an aggregate. -/
inductive Omittable : {α : Type} → Production α → Prop
  | sees (t : Terminal) : Omittable (sees t)
  | take (t : Terminal) : Omittable (take t)
  | skip (t : Terminal) : Omittable (skip t)
  | comment : Omittable comment
  | comments : Omittable comments
  | trailing : Omittable trailing
  | entryEnd : Omittable entryEnd
  | fieldOptions : Omittable fieldOptions
  | modifier : Omittable modifier
  | importModifier : Omittable importModifier
  | bodyItem {α : Type} {decl : Production α} (h : Mandatory decl) : Omittable (bodyItem decl)
  | bodyItems {α : Type} {decl : Production α} (h : Mandatory decl) :
      Omittable (loop (Production.bodyItem decl))
  | aggregateItem : Omittable aggregateItem
  | aggregateItems : Omittable (loop Production.aggregateItem)

/-- The rules of the grammar. -/
def Rule (p : Production α) : Prop := p.Mandatory ∨ p.Omittable

/-- A mandatory rule passes something wherever it matches. -/
theorem Mandatory.passes {p : Production α} (h : p.Mandatory) : p.Passes := by
  induction h with
  | giving _ f ih => exact ih.giving f
  | orElse _ _ ihp ihq => exact ihp.orElse ihq
  | message => exact passes_declaration _
  | _ => simp

theorem Mandatory.advances {p : Production α} (h : p.Mandatory) : p.Advances True := by
  induction h with
  | giving _ f ih => exact ⟨ih, fun _ => trivial⟩
  | orElse _ _ ihp ihq => exact ⟨ihp, ihq⟩
  | braces h ih => exact advances_braces (advances_bodyItem ih) (moves_bodyItem h.passes)
  | body leading h ih => exact advances_body leading ih h.passes
  | _ => simp

theorem Omittable.advances {p : Production α} (h : p.Omittable) : p.Advances True := by
  cases h with
  | bodyItem hdecl => exact advances_bodyItem hdecl.advances
  | bodyItems hdecl => exact ⟨advances_bodyItem hdecl.advances, moves_bodyItem hdecl.passes⟩
  | _ => simp

/-- The loops of all rules move on at every turn. -/
theorem Rule.advances {p : Production α} (h : p.Rule) : p.Advances True :=
  h.elim Mandatory.advances Omittable.advances

end Production

end ProtoSchema
