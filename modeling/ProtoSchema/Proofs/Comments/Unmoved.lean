import ProtoSchema.Proofs.Yield

/-
  Comments decide nothing. Whether a declaration stands somewhere depends neither on the report so
  far (`run_outcome`) nor on how many of the comments before it have been passed already
  (`Declares`). So a declaration that is missing before a run of comments is also missing behind
  each of them, and the comments up to the next token all have the same fate.
-/

namespace ProtoSchema

/-! ## Comments at a cursor -/

namespace Cursor

theorem comment?_eq_some {c d : Cursor} {v : Comment} (h : c.comment? = some (v, d)) :
    ∃ l, c.rest = l :: d.rest ∧ l.comment? = some v ∧ d.index = c.index + 1 := by
  obtain ⟨i, rest⟩ := c
  cases rest with
  | nil => cases h
  | cons l rest =>
    rw [comment?_cons, Option.map_eq_some_iff] at h
    obtain ⟨v, hv, h⟩ := h
    cases h
    exact ⟨l, rfl, hv, rfl⟩

theorem Reaches.eq_of_rest {c d e : Cursor} (h : c.Reaches d) (h' : c.Reaches e)
    (hrest : d.rest = e.rest) : d = e := by
  obtain ⟨a, ha, hi⟩ := h
  obtain ⟨b, hb, hj⟩ := h'
  rw [hrest] at ha
  obtain rfl : a = b := List.append_cancel_right (ha.symm.trans hb)
  obtain ⟨i, rest⟩ := d
  obtain ⟨j, rest'⟩ := e
  rw [Cursor.mk.injEq]
  exact ⟨hi.trans hj.symm, hrest⟩

theorem head?_of_comment?_eq_none {c : Cursor} (h : c.comment? = none) :
    ∀ l ∈ c.rest.head?, l.token.isComment = false := by
  obtain ⟨i, rest⟩ := c
  cases rest with
  | nil => exact fun l hl => nomatch hl
  | cons l rest =>
    intro m hm
    cases hm
    rw [comment?_cons, Option.map_eq_none_iff] at h
    exact Lexeme.comment?_eq_none.1 h

end Cursor

namespace Reply

variable {α : Type}

/-- What a reply gives and the place after it, without the report. -/
def outcome : Reply α → Option (α × Cursor)
  | done v d _ => some (v, d)
  | failed _ => none

end Reply

namespace Production

variable {α β γ : Type}

/-- What is matched does not depend on the report so far. -/
theorem run_outcome (p : Production α) (c : Cursor) (r r' : Report) :
    (p.run c r).outcome = (p.run c r').outcome := by
  have hyield := (yield_run p c r).trans (yield_run p c r').symm
  cases hm : p.run c r with
  | failed s =>
    rw [hm] at hyield
    obtain ⟨s', hm'⟩ := Reply.yield_eq_none.1 hyield.symm
    rw [hm']
    rfl
  | done v d s =>
    rw [hm] at hyield
    obtain ⟨d', s', hm', hrest⟩ := Reply.yield_eq_some.1 hyield.symm
    rw [hm', (run_reaches p hm').eq_of_rest (run_reaches p hm) hrest]
    rfl

/-! ## Productions that match the same lexemes -/

/-- Where a match ends, if there is one. -/
def stop? (p : Production α) (c : Cursor) (r : Report) : Option Cursor :=
  (p.run c r).outcome.map Prod.snd

theorem stop?_report (p : Production α) (c : Cursor) (r r' : Report) :
    p.stop? c r = p.stop? c r' := by
  rw [stop?, run_outcome p c r r', stop?]

theorem stop?_bind (p : Production α) (k : α → Production β) (c : Cursor) (r : Report) :
    stop? (p >>= k) c r = (p.run c r).outcome.bind fun (v, d) => (k v).stop? d r := by
  rw [stop?, run, matchWith_bind, run]
  cases hm : p.matchWith Nonterminal.matches c r with
  | failed s => rfl
  | done v d s => exact stop?_report (k v) d s r

theorem stop?_orElse (p q : Production α) (c : Cursor) (r : Report) :
    stop? (p <|> q) c r = (p.stop? c r).or (q.stop? c r) := by
  change ((Production.orElse p q).run c r).outcome.map Prod.snd = _
  simp only [stop?, run, matchWith]
  cases hm : p.matchWith Nonterminal.matches c r with
  | failed s => exact stop?_report q c s r
  | done v d s => rfl

theorem stop?_giving (p : Production α) (f : α → β) (c : Cursor) (r : Report) :
    stop? (do return f (← p)) c r = p.stop? c r := by
  rw [stop?_bind, stop?]
  cases (p.run c r).outcome <;> rfl

/-- Two productions that match from the same places, and each time up to the same place. -/
def Akin (p : Production α) (q : Production β) : Prop := ∀ c r, p.stop? c r = q.stop? c r

theorem Akin.pure (v : α) (w : β) : Akin (Pure.pure v : Production α) (Pure.pure w) :=
  fun _ _ => rfl

theorem Akin.bind {δ : Type} {p : Production α} {q : Production β} {k : α → Production γ}
    {l : β → Production δ} (h : p.Akin q) (hk : ∀ v w, (k v).Akin (l w)) :
    Akin (p >>= k) (q >>= l) := by
  intro c r
  have hstop : (p.run c r).outcome.map Prod.snd = (q.run c r).outcome.map Prod.snd := h c r
  rw [stop?_bind, stop?_bind]
  cases hp : (p.run c r).outcome with
  | none =>
    rw [hp] at hstop
    rw [Option.map_eq_none_iff.1 hstop.symm]
    rfl
  | some v =>
    rw [hp] at hstop
    obtain ⟨⟨w, d⟩, hw, rfl⟩ := Option.map_eq_some_iff.1 hstop.symm
    rw [hw]
    exact hk v.1 w _ r

/-- The same production, and then productions that match the same lexemes. -/
theorem Akin.then (p : Production α) {k : α → Production β} {l : α → Production γ}
    (hk : ∀ v, (k v).Akin (l v)) : Akin (p >>= k) (p >>= l) := by
  intro c r
  rw [stop?_bind, stop?_bind]
  cases (p.run c r).outcome with
  | none => rfl
  | some v => exact hk v.1 v.2 r

theorem akin_endStatement (cs cs' : List Comment) : (endStatement cs).Akin (endStatement cs') :=
  .then _ fun _ => .then _ fun _ => .pure _ _

theorem akin_body (cs cs' : List Comment) (decl : Production α) :
    (body cs decl).Akin (body cs' decl) :=
  .then _ fun _ => .then _ fun _ => .pure _ _

/-! ## Declarations -/

/-- A production that matches, and ends, at the same places before and behind a comment. -/
def Unmoved (p : Production α) : Prop :=
  ∀ i l rest r, l.token.isComment = true → p.stop? ⟨i, l :: rest⟩ r = p.stop? ⟨i + 1, rest⟩ r

/-- The comments that stand next are passed up to the next token. -/
theorem run_comments (c : Cursor) (r : Report) : ∃ cs, comments.run c r = .done cs c.significant r ∧
    (c.rest.takeWhile (·.token.isComment)).map Lexeme.comment? = cs.map some := by
  have hstep (c : Cursor) (r : Report) :
      comment.matchWith Nonterminal.matches c r = .optional c.comment? c r := rfl
  obtain ⟨i, rest⟩ := c
  change ∃ cs, matchLoop (comment.matchWith Nonterminal.matches) ⟨i, rest⟩ r = _ ∧ _
  induction rest generalizing i with
  | nil =>
    rw [matchLoop, hstep]
    exact ⟨[], rfl, rfl⟩
  | cons l rest ih =>
    rw [matchLoop, hstep, Cursor.comment?_cons]
    cases hl : l.token.isComment with
    | false =>
      rw [Lexeme.comment?_eq_none.2 hl, Cursor.significant_of_token hl]
      exact ⟨[], rfl, by simp [hl]⟩
    | true =>
      obtain ⟨cs, hcs, htexts⟩ := ih (i + 1)
      cases hc : l.comment? with
      | none => rw [Lexeme.comment?_eq_none.1 hc] at hl; cases hl
      | some v =>
        refine ⟨v :: cs, ?_, ?_⟩
        · rw [Cursor.significant_of_comment hl]
          dsimp only [Option.map_some, Reply.optional]
          rw [if_pos (by simp), hcs]
          rfl
        · simpa [hl, hc] using htexts

/-- A production for declarations: it passes something, and the comments before it do not decide
how it goes on. -/
structure Declares (p : Production α) : Prop where
  passes : p.Passes
  unmoved : p.Unmoved

/-- A declaration after the comments before it. -/
theorem Declares.after {k : List Comment → Production α} (hpasses : ∀ cs, (k cs).Consumes)
    (hakin : ∀ cs cs', (k cs).Akin (k cs')) : Declares (comments >>= k) := by
  refine ⟨Consumes.passes (.bind_right _ hpasses), fun i l rest r hl => ?_⟩
  obtain ⟨cs, hcs, -⟩ := run_comments ⟨i, l :: rest⟩ r
  obtain ⟨cs', hcs', -⟩ := run_comments ⟨i + 1, rest⟩ r
  rw [stop?_bind, stop?_bind, hcs, hcs', Cursor.significant_of_comment hl]
  exact hakin cs cs' _ r

/-- A declaration that starts with a keyword. -/
theorem Declares.keyword {keyword : Keyword} {k : List Comment → Span → Production α}
    (h : ∀ span cs cs', (k cs span).Akin (k cs' span)) :
    Declares (do
      let leading ← comments
      let first ← Production.keyword keyword
      k leading first) :=
  .after (fun _ => (consumes_takeOr _ _).bind_left _) fun cs cs' =>
    .then _ fun span => h span cs cs'

theorem Declares.giving {p : Production α} (h : p.Declares) (f : α → β) :
    Declares (do return f (← p)) := by
  refine ⟨h.passes.giving f, fun i l rest r hl => ?_⟩
  rw [stop?_giving, stop?_giving, h.unmoved i l rest r hl]

theorem Declares.orElse {p q : Production α} (hp : p.Declares) (hq : q.Declares) :
    Declares (p <|> q) := by
  refine ⟨hp.passes.orElse hq.passes, fun i l rest r hl => ?_⟩
  rw [stop?_orElse, stop?_orElse, hp.unmoved i l rest r hl, hq.unmoved i l rest r hl]

/-! ### Options and fields -/

theorem declares_optionDecl : optionDecl.Declares :=
  .keyword fun _ _ _ => .then _ fun _ => .then _ fun _ => .then _ fun _ => .then _ fun _ =>
    .then _ fun _ => .pure _ _

theorem consumes_entryKey : entryKey.Consumes := by
  refine .bind_right _ fun found => ?_
  cases found with
  | true => exact .bind_right _ fun _ => (consumes_takeOr _ _).bind_left _
  | false => exact consumes_takeOr _ _

theorem declares_entry : entry.Declares :=
  .after (fun _ => consumes_entryKey.bind_left _) fun _ _ => .then _ fun _ => .then _ fun _ =>
    .then _ fun _ => .then _ fun _ => .pure _ _

/-- The part of a field after its types. -/
theorem consumes_declarator {k : String → Production α} : Consumes (ident >>= k) :=
  (consumes_takeOr _ _).bind_left _

theorem akin_declarator (cs cs' : List Comment)
    (node : String → Int → FieldOptions → List Comment → α) :
    Akin (do
        let name ← ident
        let _ ← punct .equals
        let number ← integer
        let options ← fieldOptions
        return node name number options (← endStatement cs))
      (do
        let name ← ident
        let _ ← punct .equals
        let number ← integer
        let options ← fieldOptions
        return node name number options (← endStatement cs')) :=
  .then _ fun _ => .then _ fun _ => .then _ fun _ => .then _ fun _ =>
    .bind (akin_endStatement _ _) fun _ _ => .pure _ _

theorem declares_field : field.Declares :=
  .after (fun _ => .bind_right _ fun _ => .bind_right _ fun _ => consumes_declarator)
    fun cs cs' => .then _ fun _ => .then _ fun _ => akin_declarator cs cs' _

theorem declares_mapField : mapField.Declares :=
  .keyword fun _ cs cs' => .then _ fun _ => .then _ fun _ => .then _ fun _ => .then _ fun _ =>
    .then _ fun _ => akin_declarator cs cs' _

theorem declares_oneofField : oneofField.Declares :=
  .after (fun _ => .bind_right _ fun _ => consumes_declarator)
    fun cs cs' => .then _ fun _ => akin_declarator cs cs' _

theorem declares_enumValue : enumValue.Declares :=
  .after (fun _ => consumes_declarator) fun cs cs' => akin_declarator cs cs' _

/-! ### Statements -/

theorem declares_reserved : reserved.Declares :=
  .keyword fun _ _ _ => .then _ fun _ => .bind (akin_endStatement _ _) fun _ _ => .pure _ _

theorem declares_extensionRanges : extensionRanges.Declares :=
  .keyword fun _ _ _ => .then _ fun _ => .bind (akin_endStatement _ _) fun _ _ => .pure _ _

theorem declares_importDecl : importDecl.Declares :=
  .keyword fun _ _ _ => .then _ fun _ => .then _ fun _ =>
    .bind (akin_endStatement _ _) fun _ _ => .pure _ _

theorem declares_packageDecl : packageDecl.Declares :=
  .keyword fun _ _ _ => .then _ fun _ => .then _ fun _ => .then _ fun _ => .pure _ _

/-! ### Declarations with a body -/

theorem akin_headed {head : Production α} {decl : Production β} {node : α → Body β → γ}
    (cs cs' : List Comment) :
    Akin (do
        let name ← head
        let inner ← body cs decl
        return node name inner)
      (do
        let name ← head
        let inner ← body cs' decl
        return node name inner) :=
  .then _ fun _ => .bind (akin_body _ _ _) fun _ _ => .pure _ _

theorem declares_oneof : oneof.Declares := .keyword fun _ cs cs' => akin_headed cs cs'

theorem declares_enum : enum.Declares := .keyword fun _ cs cs' => akin_headed cs cs'

theorem declares_extend : extend.Declares := .keyword fun _ cs cs' => akin_headed cs cs'

theorem declares_service : service.Declares := .keyword fun _ cs cs' => akin_headed cs cs'

theorem declares_message : (call .message).Declares := by
  have heq (c : Cursor) (r : Report) : (call .message).stop? c r = message.stop? c r := by
    rw [stop?, stop?, ← show _ = message.run c r from Nonterminal.matches_eq_run .message c r]
    rfl
  have hmessage : message.Declares := .keyword fun _ cs cs' => akin_headed cs cs'
  refine ⟨passes_message, fun i l rest r hl => ?_⟩
  rw [heq, heq, hmessage.unmoved i l rest r hl]

theorem akin_rpcBody (cs cs' : List Comment) : (rpcBody cs).Akin (rpcBody cs') := by
  refine .then _ fun seen => ?_
  cases seen with
  | true => exact akin_body cs cs' optionDecl
  | false => exact .then _ fun _ => .then _ fun _ => .pure _ _

theorem declares_rpc : rpc.Declares :=
  .keyword fun _ cs cs' => .then _ fun _ => .then _ fun _ => .then _ fun _ => .then _ fun _ =>
    .bind (akin_rpcBody cs cs') fun _ _ => .pure _ _

/-! ### What may stand in a body -/

theorem declares_oneofItem :
    Declares ((do return .option (← optionDecl)) <|> (do return .field (← oneofField)) :
      Production OneofItem) :=
  .orElse (declares_optionDecl.giving _) (declares_oneofField.giving _)

theorem declares_enumItem : enumItem.Declares :=
  .orElse (declares_optionDecl.giving _)
    (.orElse (declares_reserved.giving _) (declares_enumValue.giving _))

theorem declares_messageItem : messageItem.Declares := by
  refine .orElse (declares_optionDecl.giving _) (.orElse (declares_enum.giving _) ?_)
  refine .orElse (declares_message.giving _) (.orElse (declares_oneof.giving _) ?_)
  refine .orElse (declares_mapField.giving _) (.orElse (declares_reserved.giving _) ?_)
  refine .orElse (declares_extensionRanges.giving _) (.orElse (declares_extend.giving _) ?_)
  exact declares_field.giving _

theorem declares_serviceItem : serviceItem.Declares :=
  .orElse (declares_optionDecl.giving _) (declares_rpc.giving _)

theorem declares_fileItem : fileItem.Declares := by
  refine .orElse (declares_importDecl.giving _) (.orElse declares_packageDecl ?_)
  refine .orElse (declares_optionDecl.giving _) (.orElse (declares_message.giving _) ?_)
  refine .orElse (declares_enum.giving _) (.orElse (declares_service.giving _) ?_)
  exact declares_extend.giving _

end Production

end ProtoSchema
