import ProtoSchema.Proofs.Comments.Unmoved
import ProtoSchema.Proofs.Exhaustive

/-
  What is left out of a report. Every production of the grammar is exhaustive, with one lemma for
  each; so a lexeme that a rejected file could go on with is meant by one of its expectations or
  belongs to a class that may be left out in front of one: `expectation_exhaustive`.
-/

namespace ProtoSchema

namespace Production

/-- An exhaustive production after which at most the classes `us` are to be answered. -/
abbrev Leaves {α : Type} (ts us : List Terminal) (p : Production α) : Prop :=
  Exhaustive ts (fun _ => us) p

/-- An exhaustive production that starts and ends where no class is to be answered. -/
abbrev Thorough {α : Type} (p : Production α) : Prop := p.Leaves [] []

variable {α β : Type} {ts us vs ws : List Terminal}

/-! ### Rules -/

theorem Leaves.mono {p : Production α} (h : p.Leaves us vs) (hbefore : ts ⊆ us)
    (hafter : vs ⊆ ws) : p.Leaves ts ws :=
  .weaken h hbefore fun _ => hafter

theorem leaves_pure (v : α) : Leaves ts ts (Pure.pure v) := .pure (List.Subset.refl _)

theorem Leaves.then {p : Production α} {k : α → Production β} (hp : p.Leaves ts us)
    (hk : ∀ v, (k v).Leaves us vs) : Leaves ts vs (p >>= k) :=
  .bind hp hk

/-- A production, and then a function of what it gives. -/
theorem Leaves.giving {p : Production α} (f : α → β) (hp : p.Leaves ts us) :
    Leaves ts us (do return f (← p)) :=
  hp.then fun v => leaves_pure (f v)

theorem Leaves.orElse {p q : Production α} (hp : p.Leaves ts us) (hq : q.Leaves [] us) :
    Leaves ts us (p <|> q) :=
  Exhaustive.orElse hp hq

theorem leaves_takeOr {t : Terminal} {e : Expectation} (h : ∀ t' ∈ t :: ts, e.answers t') :
    Leaves ts [] (takeOr t e) := by
  refine .bind (.take t) fun found => ?_
  cases found with
  | some v => exact leaves_pure v
  | none => exact .fail h

/-- A lexeme that has to stand next, and that its own class answers. -/
theorem leaves_expect (t : Terminal) (h : ∀ t' ∈ ts, t.expectation.answers t') :
    Leaves ts [] (expect t) := by
  refine leaves_takeOr (List.forall_mem_cons.2 ⟨?_, h⟩)
  cases t with
  | punct p => exact Bool.or_eq_true_iff.2 (.inl (decide_eq_true rfl))
  | keyword k => exact Bool.or_eq_true_iff.2 (.inl (decide_eq_true rfl))
  | _ => rfl

theorem exhaustive_skip (t : Terminal) :
    Exhaustive ts (fun skipped => if skipped then [] else t :: ts) (skip t) :=
  .bind (.take t) fun _ => .pure (List.Subset.refl _)

theorem exhaustive_ifSkip {t : Terminal} {p q : Production α} {Q : α → List Terminal}
    (hp : Exhaustive [] Q p) (hq : Exhaustive (t :: ts) Q q) :
    Exhaustive ts Q (skip t >>= fun b => if b = true then p else q) := by
  refine .bind (exhaustive_skip t) fun b => ?_
  cases b with
  | true => exact hp
  | false => exact hq

theorem exhaustive_ifSees {t : Terminal} {p q : Production α} {Q : α → List Terminal}
    (hp : Exhaustive [] Q p) (hq : Exhaustive (t :: ts) Q q) :
    Exhaustive ts Q (sees t >>= fun b => if b = true then p else q) := by
  refine .bind (.sees t) fun b => ?_
  cases b with
  | true => exact hp
  | false => exact hq

/-! ### Combinators -/

/-- One `p` after every lexeme of the class `t`. -/
theorem leaves_loop_ifSkip {t : Terminal} {p : Production α} (f : α → β) (h : p.Leaves [] us) :
    Leaves us (t :: us) (loop do if ← skip t then return some (f (← p)) else return none) := by
  refine .loop (Q := fun found => if found.isSome then us else t :: us) ?_
    (fun _ => List.Subset.refl _) (List.Subset.refl _) (.inl fun _ => List.subset_cons_self _ _)
  exact exhaustive_ifSkip (.bind h fun v => .pure (List.Subset.refl _)) (.pure (List.Subset.refl _))

theorem leaves_separated {separator : Terminal} {item : Production α} (h : item.Leaves ts us) :
    Leaves ts (separator :: us) (separated separator item) :=
  h.then fun _ => (leaves_loop_ifSkip id (h.mono (List.nil_subset _) (List.Subset.refl _))).giving _

theorem leaves_comments : Leaves ts ts comments :=
  .loop .comment (fun _ => List.Subset.refl _) (List.Subset.refl _) (.inl fun _ =>
    List.Subset.refl _)

/-- The semicolon at the end of a statement. -/
theorem leaves_endStatement (h : ∀ t ∈ ts, (Expectation.punct .semicolon).answers t)
    (leading : List Comment) : Leaves ts [] (endStatement leading) :=
  (leaves_expect _ h).then fun _ => Leaves.giving _ .trailing

theorem thorough_commentOrStray : Thorough (commentOrStray (α := α)) := by
  refine .bind .comment fun found => ?_
  cases found with
  | some c => exact leaves_pure _
  | none => exact Leaves.giving _ (leaves_expect _ (List.forall_mem_nil _))

theorem thorough_bodyItem {decl : Production α} (h : decl.Thorough) : Thorough (bodyItem decl) :=
  (h.giving _).orElse ((thorough_commentOrStray.giving _).orElse (leaves_pure none))

theorem thorough_loop {p : Production (Option α)} (h : p.Thorough) : Thorough (loop p) :=
  .loop h (fun _ => List.Subset.refl _) (List.Subset.refl _) (.inl fun _ => List.Subset.refl _)

theorem leaves_braces {item : Production (Option (BodyItem α))} (h : (loop item).Thorough)
    (hts : ∀ t ∈ ts, (Expectation.punct .leftBrace).answers t) : Leaves ts [] (braces item) := by
  refine (leaves_expect _ hts).then fun _ => Leaves.then .trailing fun opening => ?_
  exact h.then fun items => (leaves_expect _ (List.forall_mem_nil _)).then fun _ => leaves_pure _

theorem leaves_body {decl : Production α} (h : decl.Thorough) (leading : List Comment)
    (hts : ∀ t ∈ ts, (Expectation.punct .leftBrace).answers t) :
    Leaves ts [] (body leading decl) :=
  (leaves_braces (thorough_loop (thorough_bodyItem h)) hts).then fun _ => Leaves.giving _ .trailing

/-- A declaration that starts with a keyword. -/
theorem thorough_declaration {k : Keyword} {q : List Comment → Production α}
    (h : ∀ leading, (q leading).Thorough) : Thorough (do
      let leading ← comments
      let _ ← keyword k
      q leading) :=
  leaves_comments.then fun leading => (leaves_expect _ (List.forall_mem_nil _)).then fun _ =>
    h leading

/-! ### Names, numbers and strings -/

theorem leaves_ident (h : ∀ t ∈ ts, Expectation.identifier.answers t) : Leaves ts [] ident :=
  leaves_expect .word h

theorem leaves_fullIdent (h : ∀ t ∈ ts, Expectation.identifier.answers t) :
    Leaves ts [.punct .dot] fullIdent :=
  (leaves_separated (leaves_ident h)).giving _

theorem leaves_typeName (h : ∀ t ∈ ts, Expectation.identifier.answers t) :
    Leaves ts [.punct .dot] typeName := by
  refine .bind (exhaustive_skip _) fun absolute => ?_
  refine Leaves.giving _ (leaves_fullIdent ?_)
  cases absolute with
  | true => exact nofun
  | false => exact List.forall_mem_cons.2 ⟨rfl, h⟩

theorem leaves_fieldType (h : ∀ t ∈ ts, Expectation.identifier.answers t) :
    Leaves ts [.punct .dot] fieldType :=
  (leaves_typeName h).giving _

theorem thorough_integer : Thorough integer := leaves_expect _ (List.forall_mem_nil _)

theorem leaves_string (h : ∀ t ∈ ts, Expectation.stringLiteral.answers t) :
    Leaves ts [.string] string := by
  refine (leaves_expect .string h).then fun first => Leaves.giving _ ?_
  exact .loop (.take .string) (fun _ => List.Subset.refl _) (List.Subset.refl _)
    (.inl fun _ => List.nil_subset _)

/-! ### Options -/

theorem thorough_optionNamePart : Thorough optionNamePart := by
  refine exhaustive_ifSkip ((leaves_typeName (List.forall_mem_nil _)).then fun name => ?_) ?_
  · exact (leaves_expect _ (by decide)).then fun _ => leaves_pure name
  · exact leaves_takeOr (t := .word) (by decide)

theorem leaves_optionName : Leaves [] [.punct .dot] optionName :=
  thorough_optionNamePart.then fun _ =>
    (leaves_loop_ifSkip withoutLeadingDots thorough_optionNamePart).giving _

/-- The classes that may be missing in front of a constant. -/
abbrev beforeConstant : List Terminal :=
  [.punct .leftBrace, .punct .leftBracket, .punct .rightBracket]

/-- The classes that may be missing after a constant. -/
abbrev afterConstant : List Terminal := [.string, .punct .dot]

theorem leaves_constant : Leaves beforeConstant afterConstant constant := by
  have htext := (leaves_string (List.forall_mem_nil _)).giving Value.string
  have hname := (leaves_fullIdent (List.forall_mem_nil _)).giving Value.ident
  refine exhaustive_ifSees (htext.mono (List.Subset.refl _) ?_)
    (exhaustive_ifSees (hname.mono (List.Subset.refl _) ?_) ?_)
  · decide
  · decide
  · exact (leaves_expect .literal (by decide)).mono (List.Subset.refl _) (List.nil_subset _)

theorem leaves_call (n : Nonterminal) : Leaves [] us (call n) :=
  Leaves.mono (.call n) (List.Subset.refl _) (List.nil_subset _)

theorem leaves_optionValue :
    Leaves [.punct .leftBracket, .punct .rightBracket] afterConstant optionValue :=
  exhaustive_ifSees ((leaves_call .aggregate).giving _) leaves_constant

theorem thorough_valueList : Thorough valueList := by
  refine (leaves_expect _ (List.forall_mem_nil _)).then fun _ =>
    exhaustive_ifSkip (leaves_pure []) ?_
  refine (leaves_separated (leaves_optionValue.mono (by decide) (List.Subset.refl _))).then ?_
  exact fun values => (leaves_expect _ (by decide)).then fun _ => leaves_pure values

/-! ### Aggregates -/

/-- The classes that may be missing after an entry. -/
abbrev afterEntry : List Terminal := [.punct .semicolon, .punct .comma, .string, .punct .dot]

theorem leaves_entryKey : Leaves afterEntry [] entryKey := by
  refine exhaustive_ifSkip ((leaves_typeName (List.forall_mem_nil _)).then fun name => ?_) ?_
  · exact (leaves_expect _ (by decide)).then fun _ => leaves_pure name
  · exact leaves_takeOr (t := .word) (by decide)

theorem leaves_entryValues : Leaves [] afterConstant entryValues := by
  refine exhaustive_ifSees ((leaves_call .aggregate).giving _) ?_
  refine (leaves_expect _ (by decide)).then fun _ => exhaustive_ifSees ?_ ?_
  · exact thorough_valueList.mono (List.Subset.refl _) (List.nil_subset _)
  · exact (leaves_optionValue.mono (by decide) (List.Subset.refl _)).giving _

theorem leaves_entryEnd : Leaves afterConstant afterEntry entryEnd := by
  refine exhaustive_ifSkip ((leaves_pure true).mono (List.Subset.refl _) (List.nil_subset _)) ?_
  refine .weaken (exhaustive_skip _) (List.Subset.refl _) fun skipped => ?_
  cases skipped with
  | true => exact List.nil_subset _
  | false => exact List.Subset.refl _

theorem leaves_entry : Leaves afterEntry afterEntry entry := by
  refine leaves_comments.then fun leading => leaves_entryKey.then fun key => ?_
  refine leaves_entryValues.then fun values => leaves_entryEnd.then fun _ => ?_
  exact Leaves.giving _ .trailing

theorem shorter_of_aggregateItem {callee : Callee} {c d : Cursor} {r r' : Report}
    {v : BodyItem (List Setting)} (hreaches : callee.Reaches)
    (h : aggregateItem.matchWith callee c r = .done (some v) d r') :
    d.rest.length < c.rest.length := by
  have hentry : Consumes (do return some (BodyItem.decl (← entry))) :=
    .bind_left (.bind_right _ fun _ => consumes_entryKey.bind_left _) _
  change (Production.orElse _ _).matchWith callee c r = _ at h
  simp only [matchWith] at h
  split at h
  · next hm =>
    cases h
    exact hentry _ _ _ _ _ _ hreaches hm
  · obtain ⟨found, e, s, hm, hfound⟩ := matchWith_bind_done h
    rw [matchWith] at hm
    cases hf : c.comment? with
    | none => rw [hf] at hm; cases hm; cases hfound
    | some next =>
      rw [hf] at hm
      cases hm
      cases hfound
      exact Cursor.shorter_of_comment? (show c.comment? = some (next.1, next.2) from hf)

theorem exhaustive_aggregateItem :
    Exhaustive afterEntry (fun found => if found.isSome then afterEntry else []) aggregateItem := by
  refine Exhaustive.orElse (.bind leaves_entry fun v => .pure (List.Subset.refl _)) ?_
  exact .bind .comment fun found => .pure (List.nil_subset _)

theorem thorough_aggregate : Thorough aggregate := by
  have hitems : Leaves afterEntry [] (loop aggregateItem) :=
    .loop exhaustive_aggregateItem (fun _ => List.Subset.refl _) (List.nil_subset _)
      (.inr fun callee c r v d r' hreaches h => shorter_of_aggregateItem hreaches h)
  exact (leaves_braces (hitems.mono (List.nil_subset _) (List.Subset.refl _))
    (List.forall_mem_nil _)).giving _

/-! ### Where options are written -/

theorem leaves_afterEquals : Leaves [] afterConstant optionValue :=
  leaves_optionValue.mono (List.nil_subset _) (List.Subset.refl _)

theorem thorough_optionDecl : Thorough optionDecl := by
  refine thorough_declaration fun leading => leaves_optionName.then fun name => ?_
  refine (leaves_expect _ (by decide)).then fun _ => leaves_afterEquals.then fun value => ?_
  exact (leaves_expect _ (by decide)).then fun _ => Leaves.giving _ .trailing

theorem leaves_fieldOption : Leaves [] afterConstant fieldOption := by
  refine leaves_optionName.then fun name => (leaves_expect _ (by decide)).then fun _ => ?_
  exact leaves_afterEquals.giving _

theorem leaves_fieldOptions : Leaves [] [.punct .leftBracket] fieldOptions := by
  refine exhaustive_ifSkip ((leaves_separated leaves_fieldOption).then fun settings => ?_)
    (leaves_pure _)
  refine (leaves_expect _ (by decide)).then fun _ => ?_
  exact (leaves_pure _).mono (List.Subset.refl _) (List.nil_subset _)

/-! ### Fields -/

theorem leaves_modifier : Leaves []
    [.keyword .repeatedKw, .keyword .requiredKw, .keyword .optionalKw] modifier := by
  refine exhaustive_ifSkip ((leaves_pure _).mono (List.Subset.refl _) (List.nil_subset _)) ?_
  refine exhaustive_ifSkip ((leaves_pure _).mono (List.Subset.refl _) (List.nil_subset _)) ?_
  exact exhaustive_ifSkip ((leaves_pure _).mono (List.Subset.refl _) (List.nil_subset _))
    (leaves_pure _)

/-- The part that all fields have after their types. -/
theorem leaves_declarator (h : ∀ t ∈ ts, Expectation.identifier.answers t)
    (leading : List Comment) (node : String → Int → FieldOptions → List Comment → α) :
    Leaves ts [] (do
      let name ← ident
      let _ ← punct .equals
      let number ← integer
      let options ← fieldOptions
      return node name number options (← endStatement leading)) := by
  refine (leaves_ident h).then fun name => ?_
  refine (leaves_expect _ (List.forall_mem_nil _)).then fun _ => ?_
  refine thorough_integer.then fun number => leaves_fieldOptions.then fun options => ?_
  exact (leaves_endStatement (by decide) leading).giving _

theorem thorough_field : Thorough field := by
  refine leaves_comments.then fun leading => leaves_modifier.then fun modifier => ?_
  refine (leaves_fieldType (by decide)).then fun type => ?_
  exact leaves_declarator (by decide) leading (Field.mk modifier type)

theorem thorough_mapField : Thorough mapField := by
  refine thorough_declaration fun leading =>
    (leaves_expect _ (List.forall_mem_nil _)).then fun _ => ?_
  refine (leaves_fieldType (List.forall_mem_nil _)).then fun keyType =>
    (leaves_expect _ (by decide)).then fun _ => ?_
  refine (leaves_fieldType (List.forall_mem_nil _)).then fun valueType => ?_
  refine (leaves_expect _ (by decide)).then fun _ => ?_
  exact leaves_declarator (List.forall_mem_nil _) leading (MapField.mk keyType valueType)

theorem thorough_oneofField : Thorough oneofField := by
  refine leaves_comments.then fun leading =>
    (leaves_fieldType (List.forall_mem_nil _)).then fun type => ?_
  exact leaves_declarator (by decide) leading (OneofField.mk type)

theorem thorough_oneof : Thorough oneof := by
  refine thorough_declaration fun leading =>
    (leaves_ident (List.forall_mem_nil _)).then fun name => ?_
  refine (leaves_body ?_ leading (List.forall_mem_nil _)).giving _
  exact (thorough_optionDecl.giving _).orElse (thorough_oneofField.giving _)

theorem leaves_rangeEnd : Thorough rangeEnd :=
  exhaustive_ifSkip (leaves_pure _) ((leaves_takeOr (by decide)).giving _)

theorem leaves_numberRange : Leaves [] [.keyword .toKw] numberRange := by
  refine thorough_integer.then fun first => exhaustive_ifSkip ?_ (leaves_pure _)
  exact (leaves_rangeEnd.giving _).mono (List.Subset.refl _) (List.nil_subset _)

theorem leaves_numberRanges : Leaves [] [.punct .comma, .keyword .toKw] numberRanges :=
  leaves_separated leaves_numberRange

theorem leaves_reservedItems :
    Leaves [] [.punct .comma, .keyword .toKw, .string] reservedItems := by
  refine .orElse ((leaves_numberRanges.giving _).mono (List.Subset.refl _) (by decide)) ?_
  have hnames : Leaves [] [.punct .comma, .string] (separated (.punct .comma) string) :=
    leaves_separated (leaves_string (List.forall_mem_nil _))
  exact (hnames.giving _).mono (List.Subset.refl _) (by decide)

theorem thorough_reserved : Thorough reserved := by
  refine thorough_declaration fun leading => leaves_reservedItems.then fun items => ?_
  exact (leaves_endStatement (by decide) leading).giving _

theorem thorough_extensionRanges : Thorough extensionRanges := by
  refine thorough_declaration fun leading => leaves_numberRanges.then fun ranges => ?_
  exact (leaves_endStatement (by decide) leading).giving _

/-! ### Enums, extensions and messages -/

theorem thorough_enumValue : Thorough enumValue :=
  leaves_comments.then fun leading => leaves_declarator (List.forall_mem_nil _) leading EnumValue.mk

theorem thorough_enum : Thorough enum := by
  refine thorough_declaration fun leading =>
    (leaves_ident (List.forall_mem_nil _)).then fun name => ?_
  refine (leaves_body ?_ leading (List.forall_mem_nil _)).giving _
  exact (thorough_optionDecl.giving _).orElse
    ((thorough_reserved.giving _).orElse (thorough_enumValue.giving _))

theorem thorough_extend : Thorough extend := by
  refine thorough_declaration fun leading =>
    (leaves_typeName (List.forall_mem_nil _)).then fun extendee => ?_
  exact (leaves_body thorough_field leading (by decide)).giving _

theorem thorough_messageItem : Thorough messageItem := by
  refine (thorough_optionDecl.giving _).orElse ((thorough_enum.giving _).orElse ?_)
  refine ((leaves_call .message).giving _).orElse ((thorough_oneof.giving _).orElse ?_)
  refine (thorough_mapField.giving _).orElse ((thorough_reserved.giving _).orElse ?_)
  refine (thorough_extensionRanges.giving _).orElse ((thorough_extend.giving _).orElse ?_)
  exact thorough_field.giving _

theorem thorough_message : Thorough message := by
  refine thorough_declaration fun leading =>
    (leaves_ident (List.forall_mem_nil _)).then fun name => ?_
  exact (leaves_body thorough_messageItem leading (List.forall_mem_nil _)).giving _

/-- The production of a nested construct is thorough. -/
theorem thorough_production (n : Nonterminal) : n.production.Thorough := by
  cases n with
  | aggregate => exact thorough_aggregate
  | message => exact thorough_message

/-! ### Services -/

theorem thorough_rpcTypeInParens : Thorough rpcTypeInParens := by
  have hstream : Leaves [] [.punct .dot] rpcType := by
    refine .orElse ?_ ((leaves_typeName (List.forall_mem_nil _)).giving _)
    exact (leaves_expect _ (List.forall_mem_nil _)).then fun _ =>
      (leaves_typeName (List.forall_mem_nil _)).giving _
  refine (leaves_expect _ (List.forall_mem_nil _)).then fun _ => hstream.then fun type => ?_
  exact (leaves_expect _ (by decide)).then fun _ => leaves_pure type

theorem thorough_rpcBody (leading : List Comment) : Thorough (rpcBody leading) := by
  refine exhaustive_ifSees (leaves_body thorough_optionDecl leading (List.forall_mem_nil _)) ?_
  exact (leaves_takeOr (by decide)).then fun _ => Leaves.giving _ .trailing

theorem thorough_rpc : Thorough rpc := by
  refine thorough_declaration fun leading =>
    (leaves_ident (List.forall_mem_nil _)).then fun name => ?_
  refine thorough_rpcTypeInParens.then fun input =>
    (leaves_expect _ (List.forall_mem_nil _)).then fun _ => ?_
  exact thorough_rpcTypeInParens.then fun output => (thorough_rpcBody leading).giving _

theorem thorough_service : Thorough service := by
  refine thorough_declaration fun leading =>
    (leaves_ident (List.forall_mem_nil _)).then fun name => ?_
  refine (leaves_body ?_ leading (List.forall_mem_nil _)).giving _
  exact (thorough_optionDecl.giving _).orElse (thorough_rpc.giving _)

/-! ### Files -/

theorem thorough_syntaxDecl : Thorough syntaxDecl := by
  refine thorough_declaration fun leading =>
    (leaves_expect _ (List.forall_mem_nil _)).then fun _ => ?_
  refine (leaves_string (List.forall_mem_nil _)).then fun value => ?_
  exact (leaves_endStatement (by decide) leading).giving _

theorem leaves_importModifier :
    Leaves [] [.keyword .publicKw, .keyword .weakKw] importModifier := by
  refine exhaustive_ifSkip ((leaves_pure _).mono (List.Subset.refl _) (List.nil_subset _)) ?_
  exact exhaustive_ifSkip ((leaves_pure _).mono (List.Subset.refl _) (List.nil_subset _))
    (leaves_pure _)

theorem thorough_importDecl : Thorough importDecl := by
  refine thorough_declaration fun leading => leaves_importModifier.then fun modifier => ?_
  refine (leaves_string (by decide)).then fun path => ?_
  exact (leaves_endStatement (by decide) leading).giving _

theorem thorough_packageDecl : Thorough packageDecl := by
  refine leaves_comments.then fun leading =>
    (leaves_expect _ (List.forall_mem_nil _)).then fun first => ?_
  refine (leaves_fullIdent (List.forall_mem_nil _)).then fun name =>
    (leaves_expect _ (by decide)).then fun last => ?_
  exact Leaves.giving _ .trailing

theorem thorough_fileItem : Thorough fileItem := by
  refine (thorough_importDecl.giving _).orElse (thorough_packageDecl.orElse ?_)
  refine (thorough_optionDecl.giving _).orElse (((leaves_call .message).giving _).orElse ?_)
  refine (thorough_enum.giving _).orElse ((thorough_service.giving _).orElse ?_)
  exact thorough_extend.giving _

theorem thorough_file : Thorough file :=
  thorough_syntaxDecl.then fun _ => (thorough_loop (thorough_bodyItem thorough_fileItem)).giving _

end Production

/-! ## Reports on files -/

/-- Where no class is left to be answered, a pending lexeme has been noted. -/
theorem Reply.Pends.heard {α : Type} {ls : List Lexeme} {l : Lexeme} {reply : Reply α}
    (h : reply.Pends ls l fun _ => []) : reply.report.Heard ls l := by
  cases reply with
  | done v d r =>
    rcases h with h | ⟨-, t, ht, -⟩
    · exact h
    · cases ht
  | failed r => exact h

/-- Nested constructs are matched alike among more lexemes, unless they look in vain for the first
of them. -/
theorem Nonterminal.matches_pends_or_eq {ls more : List Lexeme} {l : Lexeme}
    (hl : l.token.isComment = false) (n : Nonterminal) (c : Cursor) (r : Report) (hc : c.Among ls)
    (hr : r.furthest ≤ ls.length) : ((n.matches c r).Pends ls l fun _ => []) ∨
      n.matches (c.before (l :: more)) r = (n.matches c r).before (l :: more) := by
  obtain ⟨e, he⟩ := Expectation.exists_describes hl
  -- The fallback notes `e` at the end of the lexemes, so that its replies are pending too.
  have h := Nonterminal.matches_induct (P := fun n c r reply => reply.Notes c r ∧
      (c.Among ls → r.furthest ≤ ls.length → (reply.Pends ls l fun _ => []) ∨
        n.matches (c.before (l :: more)) r = reply.before (l :: more)))
    (fun _ c r => .failed (r.note (c.index + c.rest.length) e)) (fun _ _ _ _ _ _ h => nomatch h)
    (fun _ c r => ⟨?_, fun hc hr => .inl ?_⟩) ?_
  · exact (h n c r).2 hc hr
  · have hreach : c.Reaches ⟨c.index + c.rest.length, []⟩ := ⟨c.rest, by simp, rfl⟩
    exact .note .refl hreach e
  · change Report.Heard ls l _
    rw [hc.index_add_length]
    exact Report.heard_note hr (.inl he)
  · intro callee hreaches halways n c r
    have hnotes : callee.Notes := fun n c r => (halways n c r).1
    refine ⟨Production.matchWith_notes hreaches hnotes _ c r, fun hc hr => ?_⟩
    rw [n.matches_eq_run]
    exact (Production.thorough_production n).pends_or_eq hl hreaches hnotes
      (fun n c r => (halways n c r).2) hc hr

/-- A match that ends before the last lexeme is an error with its report. -/
theorem Production.matchAll_eq_error_of_before {α : Type} {p : Production α}
    {ls tail : List Lexeme} {reply : Reply α} (htail : tail ≠ [])
    (h : p.run (.start ls) .start = reply.before tail) : p.matchAll ls = .error reply.report := by
  rw [matchAll, h]
  cases reply with
  | failed r => rfl
  | done v d r =>
    refine if_neg fun hempty => htail ?_
    exact (List.append_eq_nil_iff.1 (List.isEmpty_iff.1 hempty)).2

namespace File

open Production

variable {ls : List Lexeme} {index : Nat} {expected : List Expectation}

/-- A file that is rejected at a place has a fault before the next one. -/
theorem RejectedAt.not_faultless (h : RejectedAt ls index expected) :
    ¬ FaultlessBefore (index + 1) ls := by
  intro hgoes
  rcases hgoes 0 with ⟨f, hf⟩ | ⟨first, second, hdup⟩ | ⟨i, others, hi, h'⟩
  · rw [ofLexemes_of_rejectedAt h] at hf
    cases hf
  · rw [ofLexemes_of_rejectedAt h] at hdup
    unfold Report.fault at hdup
    dsimp only at hdup
    split at hdup <;> cases hdup
  · obtain ⟨rfl, -⟩ := h.unique h'
    omega

/-- A lexeme that a rejected file could go on with is admitted by something that it is said to
miss. If a token can stand where the file was rejected, so that the file is not rejected there nor
before, then one of the expectations means this token, or it may be left out in front of what this
expectation means. -/
theorem expectation_exhaustive (h : RejectedAt ls index expected) {l : Lexeme}
    (hl : l.token.isComment = false) {more : List Lexeme}
    (hgoes : FaultlessBefore (index + 1) (ls.take index ++ l :: more)) :
    ∃ e ∈ expected, e.Admits l := by
  have hlength : (ls.take index).length = index := by
    rw [List.length_take, Nat.min_eq_left h.honest.bound]
  have hreport := h.report_take
  have hstart : Report.start.furthest ≤ (ls.take index).length := Nat.zero_le _
  have hboth : ((file.run (.start (ls.take index)) .start).Pends (ls.take index) l fun _ => []) ∨
      file.run (.start (ls.take index ++ l :: more)) .start =
        (file.run (.start (ls.take index)) .start).before (l :: more) :=
    thorough_file.pends_or_eq hl Nonterminal.matches_reaches Nonterminal.matches_notes
      (fun n c r => Nonterminal.matches_pends_or_eq hl n c r) (Cursor.among_start _) hstart
  rcases hboth with hpends | hsame
  · have hheard := hpends.heard
    rw [hreport] at hheard
    exact hheard.admits
  · -- The two readings end alike, so the second one is rejected at its lexeme `l` as well.
    have hagain : RejectedAt (ls.take index ++ l :: more) index expected :=
      (matchAll_eq_error_of_before (List.cons_ne_nil _ _) hsame).trans
        (congrArg Except.error hreport)
    exact absurd hgoes hagain.not_faultless

/-- The lexemes of `syntax = 'proto3'; option a =`. -/
def unfinishedOption : List Lexeme :=
  [⟨.word (.keyword .syntaxKw), "syntax", ⟨0, 6⟩⟩, ⟨.punct .equals, "=", ⟨7, 8⟩⟩,
    ⟨.string "proto3", "'proto3'", ⟨9, 17⟩⟩, ⟨.punct .semicolon, ";", ⟨17, 18⟩⟩,
    ⟨.word (.keyword .optionKw), "option", ⟨19, 25⟩⟩, ⟨.word (.ident "a"), "a", ⟨26, 27⟩⟩,
    ⟨.punct .equals, "=", ⟨28, 29⟩⟩]

theorem rejectedAt_unfinishedOption :
    RejectedAt (unfinishedOption ++ [⟨.punct .semicolon, ";", ⟨30, 31⟩⟩]) 7 [.constant] := by
  unfold RejectedAt
  decide +kernel

theorem ofLexemes_braces_of_unfinishedOption (size : Nat) :
    ofLexemes (unfinishedOption ++ [⟨.punct .leftBrace, "\x7b", ⟨30, 31⟩⟩,
      ⟨.punct .rightBrace, "\x7d", ⟨31, 32⟩⟩, ⟨.punct .semicolon, ";", ⟨32, 33⟩⟩]) size =
      .ok ⟨⟨"proto3", []⟩, none, [], [⟨"a", [], []⟩], [], [], []⟩ := by
  have hmatch : file.matchAll (unfinishedOption ++ [⟨.punct .leftBrace, "\x7b", ⟨30, 31⟩⟩,
      ⟨.punct .rightBrace, "\x7d", ⟨31, 32⟩⟩, ⟨.punct .semicolon, ";", ⟨32, 33⟩⟩]) =
      .ok (⟨"proto3", []⟩, ⟨[.option ⟨"a", [], []⟩], []⟩) := by
    decide +kernel
  rw [ofLexemes, hmatch]
  rfl

/-- An option without a value is said to miss a constant, in front of which a brace may be left
out. -/
theorem expectation_exhaustive_brace :
    RejectedAt (unfinishedOption ++ [⟨.punct .semicolon, ";", ⟨30, 31⟩⟩]) 7 [.constant] ∧
    FaultlessBefore 8 (unfinishedOption ++ [⟨.punct .leftBrace, "\x7b", ⟨30, 31⟩⟩,
      ⟨.punct .rightBrace, "\x7d", ⟨31, 32⟩⟩, ⟨.punct .semicolon, ";", ⟨32, 33⟩⟩]) ∧
    ∃ e ∈ [Expectation.constant], e.Admits ⟨.punct .leftBrace, "\x7b", ⟨30, 31⟩⟩ := by
  have hgoes : FaultlessBefore 8 (unfinishedOption ++ [⟨.punct .leftBrace, "\x7b", ⟨30, 31⟩⟩,
      ⟨.punct .rightBrace, "\x7d", ⟨31, 32⟩⟩, ⟨.punct .semicolon, ";", ⟨32, 33⟩⟩]) :=
    fun size => .inl ⟨_, ofLexemes_braces_of_unfinishedOption size⟩
  exact ⟨rejectedAt_unfinishedOption, hgoes,
    expectation_exhaustive rejectedAt_unfinishedOption rfl hgoes⟩

/-- A token with which a file is accepted need not be meant by what the file is said to miss: the
option without a value goes on with a brace, and only a constant is reported. -/
theorem expectation_not_exhaustive : ∃ ls index expected l more f,
    tokenize "syntax = 'proto3'; option a = ;".toList = .ok ls ∧ RejectedAt ls index expected ∧
    l.token.isComment = false ∧ (∀ size, ofLexemes (ls.take index ++ l :: more) size = .ok f) ∧
    ¬ ∃ e ∈ expected, e.Describes l := by
  have htokens : tokenize "syntax = 'proto3'; option a = ;".toList =
      .ok (unfinishedOption ++ [⟨.punct .semicolon, ";", ⟨30, 31⟩⟩]) := by
    decide +kernel
  refine ⟨_, 7, [.constant], _, _, _, htokens, rejectedAt_unfinishedOption, ?_,
    ofLexemes_braces_of_unfinishedOption, ?_⟩
  · rfl
  · rintro ⟨e, he, hdescribes⟩
    rw [List.mem_singleton.1 he] at hdescribes
    rcases hdescribes with ⟨_, h⟩ | ⟨_, h⟩ | ⟨_, h⟩ | ⟨_, h⟩ <;> cases h

end File

end ProtoSchema
