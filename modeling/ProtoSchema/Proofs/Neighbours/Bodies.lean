import ProtoSchema.Grammar.File
import ProtoSchema.Proofs.Neighbours.Nesting

/-
  The constructs of the grammar pass whole bodies. Most of them take no brace of their own
  (`flat_*`); those with a body have it from `nests_body`, and since a nested construct passes the
  brace of its body before it refers to another one, all of them have it at any depth
  (`nests_call`).
-/

namespace ProtoSchema.Production

variable {α β γ : Type} {choices : Bool} {bound : Nat}

/-! ## Constructs without a body -/

section Flat

@[simp] theorem flat_pure (v : α) : (Pure.pure v : Production α).Flat choices := trivial

@[simp] theorem flat_fail (e : Expectation) : (fail e : Production α).Flat choices := trivial

@[simp] theorem flat_sees (t : Terminal) : (sees t).Flat choices := trivial

@[simp] theorem flat_comment : comment.Flat choices := trivial

@[simp] theorem flat_trailing : trailing.Flat choices := trivial

@[simp] theorem flat_call (n : Nonterminal) : (call n).Flat choices := trivial

@[simp] theorem flat_take (t : Terminal) :
    (take t).Flat choices ↔ t ≠ .punct .leftBrace ∧ t ≠ .punct .rightBrace := .rfl

@[simp] theorem flat_bind (p : Production α) (k : α → Production β) :
    (p >>= k).Flat choices ↔ p.Flat choices ∧ ∀ a, (k a).Flat choices := .rfl

@[simp] theorem flat_orElse (p q : Production α) :
    (p <|> q).Flat choices ↔ choices = true ∧ p.Flat choices ∧ q.Flat choices := .rfl

@[simp] theorem flat_loop (p : Production (Option α)) :
    (loop p).Flat choices ↔ p.Flat choices := .rfl

@[simp] theorem flat_ite (c : Prop) [Decidable c] (p q : Production α) :
    (if c then p else q).Flat choices ↔ (c → p.Flat choices) ∧ (¬c → q.Flat choices) := by
  split <;> simp [*]

@[simp] theorem flat_takeOr (t : Terminal) (e : Expectation) :
    (takeOr t e).Flat choices ↔ t ≠ .punct .leftBrace ∧ t ≠ .punct .rightBrace := by
  refine ⟨fun h => h.1, fun h => ⟨h, fun found => ?_⟩⟩
  cases found <;> trivial

@[simp] theorem flat_punct (p : Punct) :
    (punct p).Flat choices ↔ p ≠ .leftBrace ∧ p ≠ .rightBrace :=
  (flat_takeOr _ _).trans (by simp)

@[simp] theorem flat_keyword (k : Keyword) : (keyword k).Flat choices :=
  (flat_takeOr _ _).2 (by simp)

@[simp] theorem flat_word (e : Expectation) : @Flat choices String (takeOr .word e) :=
  (flat_takeOr _ _).2 (by simp)

@[simp] theorem flat_skip (t : Terminal) :
    (skip t).Flat choices ↔ t ≠ .punct .leftBrace ∧ t ≠ .punct .rightBrace := by
  simp [skip]

@[simp] theorem flat_separated {t : Terminal} {item : Production α} (hitem : item.Flat choices)
    (hleft : t ≠ .punct .leftBrace) (hright : t ≠ .punct .rightBrace) :
    (separated t item).Flat choices := by
  simp [separated, *]

@[simp] theorem flat_comments : comments.Flat choices := by simp [comments]

@[simp] theorem flat_endStatement (cs : List Comment) : (endStatement cs).Flat choices := by
  simp [endStatement]

@[simp] theorem flat_ident : ident.Flat choices := flat_word _

@[simp] theorem flat_integer : integer.Flat choices := (flat_takeOr _ _).2 (by simp)

@[simp] theorem flat_string : string.Flat choices :=
  ⟨(flat_takeOr _ _).2 (by simp), fun _ => ⟨(flat_take _).2 (by simp), fun _ => trivial⟩⟩

@[simp] theorem flat_fullIdent : fullIdent.Flat choices := by simp [fullIdent]

@[simp] theorem flat_typeName : typeName.Flat choices := by simp [typeName]

@[simp] theorem flat_fieldType : fieldType.Flat choices := by simp [fieldType]

/-! ### Options -/

@[simp] theorem flat_optionNamePart : optionNamePart.Flat choices := by simp [optionNamePart]

@[simp] theorem flat_optionName : optionName.Flat choices := by simp [optionName]

@[simp] theorem flat_literal : @Flat choices Value (expect .literal) :=
  (flat_takeOr _ _).2 (by simp)

@[simp] theorem flat_constant : constant.Flat choices := by simp [constant]

@[simp] theorem flat_optionValue : optionValue.Flat choices := by simp [optionValue]

@[simp] theorem flat_valueList : valueList.Flat choices := by simp [valueList]

@[simp] theorem flat_entryKey : entryKey.Flat choices := by simp [entryKey]

@[simp] theorem flat_entryValues : entryValues.Flat choices := by simp [entryValues]

@[simp] theorem flat_entryEnd : entryEnd.Flat choices := by simp [entryEnd]

@[simp] theorem flat_entry : entry.Flat choices := by simp [entry]

theorem flat_aggregateItem : aggregateItem.Flat true := by simp [aggregateItem]

@[simp] theorem flat_optionDecl : optionDecl.Flat choices := by simp [optionDecl]

@[simp] theorem flat_fieldOption : fieldOption.Flat choices := by simp [fieldOption]

@[simp] theorem flat_fieldOptions : fieldOptions.Flat choices := by simp [fieldOptions]

/-! ### Fields and statements -/

@[simp] theorem flat_modifier : modifier.Flat choices := by simp [modifier]

@[simp] theorem flat_field : field.Flat choices := by simp [field]

@[simp] theorem flat_mapField : mapField.Flat choices := by simp [mapField]

@[simp] theorem flat_oneofField : oneofField.Flat choices := by simp [oneofField]

@[simp] theorem flat_rangeEnd : rangeEnd.Flat choices := by simp [rangeEnd]

@[simp] theorem flat_numberRange : numberRange.Flat choices := by simp [numberRange]

@[simp] theorem flat_numberRanges : numberRanges.Flat choices := by simp [numberRanges]

@[simp] theorem flat_reserved : reserved.Flat true := by simp [reserved, reservedItems]

@[simp] theorem flat_extensionRanges : extensionRanges.Flat choices := by simp [extensionRanges]

@[simp] theorem flat_enumValue : enumValue.Flat choices := by simp [enumValue]

theorem flat_enumItem : enumItem.Flat true := by simp [enumItem]

@[simp] theorem flat_rpcTypeInParens : rpcTypeInParens.Flat true := by
  simp [rpcTypeInParens, rpcType]

@[simp] theorem flat_importModifier : importModifier.Flat choices := by simp [importModifier]

@[simp] theorem flat_syntaxDecl : syntaxDecl.Flat choices := by simp [syntaxDecl]

@[simp] theorem flat_importDecl : importDecl.Flat choices := by simp [importDecl]

@[simp] theorem flat_packageDecl : packageDecl.Flat choices := by simp [packageDecl]

@[simp] theorem flat_commentOrStray : (commentOrStray (α := α)).Flat choices := by
  refine (flat_bind _ _).2 ⟨trivial, fun found => ?_⟩
  cases found <;> simp

end Flat

/-! ## Braces -/

/-- Behind the opening brace of a body that is closed, nothing is left of it and nothing behind it
is seen. -/
theorem yield_braces {item : Production (Option (BodyItem α))} (h : item.Nests bound)
    {cs inner : List Lexeme} {l : Lexeme} (hcs : ∀ c ∈ cs, c.token.isComment = true)
    (hl : l.token = .punct .leftBrace) (hclosed : Closed inner) (hlength : inner.length < bound)
    (more : List Lexeme) : (braces item).yield (cs ++ l :: (inner ++ more)) =
      ((braces item).yield (cs ++ l :: inner)).map fun found => (found.1, more) := by
  have hopening (rest : List Lexeme) :
      (punct .leftBrace).yield (cs ++ l :: rest) = some (l.span, rest) :=
    yield_punct_eq_some.2 ⟨cs, l, hcs, rfl, hl, rfl⟩
  rw [braces, yield_bind, yield_bind, hopening, hopening, Option.bind_some, Option.bind_some,
    yield_bind, yield_bind, (nests_trailing inner hlength).sealed hclosed more]
  cases htrailing : trailing.yield inner with
  | none => rfl
  | some opening =>
    have hopened := (nests_trailing inner hlength).whole opening.1 opening.2 htrailing
    have hitems := h.loop opening.2 (Nat.lt_of_le_of_lt hopened.length_le hlength)
    have hclosed' := hopened.closed hclosed
    rw [followedBy, Option.map_some, Option.bind_some, Option.bind_some, yield_bind, yield_bind,
      hitems.sealed hclosed' more]
    cases hloop : (loop item).yield opening.2 with
    | none => rfl
    | some items =>
      have hclosed'' := (hitems.whole items.1 items.2 hloop).closed hclosed'
      have hsealed : (punct .rightBrace).yield (items.2 ++ more) =
          followedBy more ((punct .rightBrace).yield items.2) :=
        yield_takeOr_append _ _ hclosed''.firstToken?.choose_spec more
      rw [followedBy, Option.map_some, Option.bind_some, Option.bind_some, yield_bind, yield_bind,
        hsealed]
      cases hbrace : (punct .rightBrace).yield items.2 with
      | none => rfl
      | some closing =>
        obtain ⟨ds, m, hds, hrest, hm, -⟩ := yield_punct_eq_some.1 hbrace
        have hnil := ((hrest ▸ hclosed'').of_comments hds).nil_of_rightBrace hm
        rw [followedBy, Option.map_some, Option.bind_some, Option.bind_some, hnil]
        rfl

/-- A body is all that stands up to the brace that closes it. -/
theorem closed_of_yield_braces {item : Production (Option (BodyItem α))} {ls rest : List Lexeme}
    {v : Body α} (h : item.Nests ls.length) (hv : (braces item).yield ls = some (v, rest)) :
    ∃ cs l inner, (∀ c ∈ cs, c.token.isComment = true) ∧ l.token = .punct .leftBrace ∧
      Closed inner ∧ ls = cs ++ l :: (inner ++ rest) := by
  obtain ⟨_, behind, hopening, hinside⟩ := yield_bind_eq_some.1 hv
  obtain ⟨cs, l, hcs, rfl, hl, -⟩ := yield_punct_eq_some.1 hopening
  have hlength : behind.length < (cs ++ l :: behind).length := by
    rw [List.length_append, List.length_cons]
    omega
  obtain ⟨opening, opened, htrailing, hinside⟩ := yield_bind_eq_some.1 hinside
  have hopened := (nests_trailing behind hlength).whole opening opened htrailing
  obtain ⟨items, passed, hloop, hclosing⟩ := yield_bind_eq_some.1 hinside
  have hpassed := (h.loop opened (Nat.lt_of_le_of_lt hopened.length_le hlength)).whole
    items passed hloop
  obtain ⟨_, after, hbrace, hend⟩ := yield_bind_eq_some.1 hclosing
  rw [yield_pure] at hend
  cases hend
  obtain ⟨ds, m, hds, rfl, hm, -⟩ := yield_punct_eq_some.1 hbrace
  obtain ⟨inner, rfl, hbalanced⟩ := (hopened.trans hpassed).balanced
  refine ⟨cs, l, inner ++ (ds ++ [m]), hcs, hl, ?_, by simp⟩
  exact hbalanced _ (Balanced.comments hds _ (.brace hm))

theorem nests_braces {item : Production (Option (BodyItem α))} (h : ∀ n < bound, item.Nests n) :
    Nests bound (braces item) := by
  intro ls hls
  refine ⟨fun v rest hv => ?_, fun hclosed more => ?_⟩
  · obtain ⟨cs, l, inner, hcs, hl, hinner, rfl⟩ := closed_of_yield_braces (h _ hls) hv
    refine ⟨⟨cs ++ l :: inner, by simp, (Balanced.comments hcs).append (.body hl hinner)⟩, ?_⟩
    intro hclosed
    obtain ⟨inner', ls', heq, hinner', hls'⟩ := (hclosed.of_comments hcs).of_leftBrace hl
    have hlength : inner'.length < (cs ++ l :: (inner ++ rest)).length := by
      rw [heq]
      simp
      omega
    -- What is left behind the body is the same for both ways to see where it is closed.
    rw [heq, yield_braces (h _ hls) hcs hl hinner' hlength] at hv
    obtain ⟨found, -, hfound⟩ := Option.map_eq_some_iff.1 hv
    cases hfound
    exact hls'
  · cases hopening : (punct .leftBrace).yield ls with
    | none =>
      have hnone (xs : List Lexeme) (hxs : (punct .leftBrace).yield xs = none) :
          (braces item).yield xs = none := by
        rw [braces, yield_bind, hxs]
        rfl
      have hsealed : (punct .leftBrace).yield (ls ++ more) =
          followedBy more ((punct .leftBrace).yield ls) :=
        yield_takeOr_append _ _ hclosed.firstToken?.choose_spec more
      rw [hnone ls hopening, hnone _ (by rw [hsealed, hopening]; rfl)]
      rfl
    | some opened =>
      obtain ⟨cs, l, hcs, rfl, hl, -⟩ := yield_punct_eq_some.1 hopening
      obtain ⟨inner, ls', heq, hinner, -⟩ := (hclosed.of_comments hcs).of_leftBrace hl
      have hlength : inner.length < (cs ++ l :: opened.2).length := by
        rw [heq]
        simp
        omega
      have hitem := h _ hls
      rw [heq] at hitem hlength ⊢
      rw [List.append_assoc, List.cons_append, List.append_assoc,
        yield_braces hitem hcs hl hinner hlength, yield_braces hitem hcs hl hinner hlength,
        followedBy, Option.map_map]
      rfl

theorem nests_bodyItem {decl : Production α} (h : decl.Nests bound) :
    (bodyItem decl).Nests bound := by
  refine (Nests.bind h fun _ => nests_pure _).orElse (.orElse ?_ (nests_pure none))
  refine .bind (nests_comment.bind fun found => ?_) fun _ => nests_pure _
  cases found with
  | some c => exact nests_pure _
  | none => exact (nests_takeOr _ (by simp) (by simp)).bind fun _ => nests_pure _

theorem nests_body (leading : List Comment) {decl : Production α}
    (h : ∀ n < bound, decl.Nests n) : Nests bound (body leading decl) :=
  (nests_braces fun n hn => nests_bodyItem (h n hn)).bind fun _ => nests_trailing.bind fun _ =>
    nests_pure _

/-! ## Constructs with a body -/

/-- A declaration that ends with a body. -/
theorem nests_headed {k : Keyword} {head : Production α} {decl : Production β}
    {node : α → Body β → γ} (hhead : head.Nests bound) (hdecl : ∀ n < bound, decl.Nests n) :
    Nests bound (do
      let leading ← comments
      let _ ← keyword k
      let name ← head
      let inner ← body leading decl
      return node name inner) :=
  nests_comment.loop.bind fun leading => (nests_takeOr _ (by simp) (by simp)).bind fun _ =>
    hhead.bind fun _ => (nests_body leading hdecl).bind fun _ => nests_pure _

theorem nests_ident : ident.Nests bound := nests_takeOr _ (by simp) (by simp)

section Calls

variable (hcall : ∀ n, (call n).Nests bound)

include hcall

theorem nests_flat_below {p : Production α} (h : p.Flat true) : ∀ n < bound, p.Nests n :=
  fun _ hn => (h.nests hcall).mono hn.le

theorem nests_oneof : oneof.Nests bound :=
  nests_headed nests_ident (nests_flat_below hcall (by simp))

theorem nests_enum : enum.Nests bound :=
  nests_headed nests_ident (nests_flat_below hcall flat_enumItem)

theorem nests_extend : extend.Nests bound :=
  nests_headed ((show typeName.Flat true from flat_typeName).nests hcall)
    (nests_flat_below hcall flat_field)

theorem nests_messageItem : messageItem.Nests bound := by
  have hflat {α : Type} {p : Production α} (h : p.Flat true) : p.Nests bound := h.nests hcall
  refine .orElse (.giving (hflat flat_optionDecl) _) (.orElse (.giving (nests_enum hcall) _) ?_)
  refine .orElse (.giving (hcall .message) _) (.orElse (.giving (nests_oneof hcall) _) ?_)
  refine .orElse (.giving (hflat flat_mapField) _) (.orElse (.giving (hflat flat_reserved) _) ?_)
  refine .orElse (.giving (hflat flat_extensionRanges) _) ?_
  exact .orElse (.giving (nests_extend hcall) _) (.giving (hflat flat_field) _)

theorem nests_rpcBody (leading : List Comment) : (rpcBody leading).Nests bound := by
  refine (nests_sees _).bind fun seen => ?_
  cases seen with
  | true => exact nests_body leading (nests_flat_below hcall flat_optionDecl)
  | false =>
    exact (nests_takeOr _ (by simp) (by simp)).bind fun _ => nests_trailing.bind fun _ =>
      nests_pure _

theorem nests_rpc : rpc.Nests bound := by
  have hflat {α : Type} {p : Production α} (h : p.Flat true) : p.Nests bound := h.nests hcall
  refine (hflat flat_comments).bind fun leading => (hflat (flat_keyword _)).bind fun _ => ?_
  refine nests_ident.bind fun _ => (hflat flat_rpcTypeInParens).bind fun _ => ?_
  refine (hflat (flat_keyword _)).bind fun _ => (hflat flat_rpcTypeInParens).bind fun _ => ?_
  exact (nests_rpcBody hcall leading).bind fun _ => nests_pure _

theorem nests_serviceItem : serviceItem.Nests bound :=
  .orElse (.giving ((show optionDecl.Flat true from flat_optionDecl).nests hcall) _)
    (.giving (nests_rpc hcall) _)

end Calls

theorem Nests.called {n : Nonterminal} (h : n.production.Nests bound) : (call n).Nests bound :=
  fun ls hls => ⟨fun v rest hv => (h ls hls).whole v rest (yield_call n ls ▸ hv),
    fun hclosed more => by
      rw [yield_call, yield_call]
      exact (h ls hls).sealed hclosed more⟩

/-- Nested constructs pass whole bodies at any depth. -/
theorem nests_call (n : Nonterminal) : (call n).Nests bound := by
  induction bound using Nat.strongRecOn generalizing n with
  | ind bound ih =>
    refine .called ?_
    cases n with
    | aggregate =>
      exact (nests_braces fun m hm => flat_aggregateItem.nests (ih m hm)).bind fun _ => nests_pure _
    | message => exact nests_headed nests_ident fun m hm => nests_messageItem (ih m hm)

end ProtoSchema.Production
