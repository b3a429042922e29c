import ProtoSchema.Proofs.Comments.Unmoved
import ProtoSchema.Proofs.Neighbours.Carrying

/-
  Statements before other lexemes. A statement that is matched is matched all the same when more
  lexemes stand behind it, unless the first of them is a comment that ends its last line
  (`toldBy_fileItem`): its bodies are closed, its last token is its own, and its first keyword tells
  it from all other statements. So the statements of a file are followed by those of any other
  lexemes (`yield_file_append`).
-/

namespace ProtoSchema

open Passage

theorem firstToken?_of_comments {cs : List Lexeme} (h : ∀ c ∈ cs, c.token.isComment = true)
    (ls : List Lexeme) : firstToken? (cs ++ ls) = firstToken? ls := by
  induction cs with
  | nil => rfl
  | cons c cs ih =>
    obtain ⟨hc, hcs⟩ := List.forall_mem_cons.1 h
    rw [List.cons_append, firstToken?_of_comment hc, ih hcs]

/-- A word counts as at most one keyword. -/
theorem Terminal.isKeyword_inj {j k : Keyword} {w : Word} (hj : isKeyword j w)
    (hk : isKeyword k w) : j = k := by
  cases w with
  | keyword found => exact (beq_iff_eq.1 hj).symm.trans (beq_iff_eq.1 hk)
  | ident text =>
    have htext : j.text = k.text := (beq_iff_eq.1 hj).symm.trans (beq_iff_eq.1 hk)
    rw [← Option.some.injEq, ← Keyword.ofText?_text j, htext, Keyword.ofText?_text]
  | _ => cases hj

namespace Production

variable {α β γ : Type} {more : List Lexeme}

/-! ## Statements carry over -/

section Statements

variable (hmore : ∀ l ∈ more.head?, l.trailing? = none)

include hmore

/-- A token, and the comment that ends its line, at the end of a statement. -/
theorem concludes_ending {t : Terminal} {e : Expectation} {f : t.Result → Option Comment → α} :
    Concludes more (do
      let last ← takeOr t e
      let ending ← trailing
      return f last ending) :=
  (concludes_takeOr t e).then fun _ => (carries_trailing hmore).bind fun _ => carries_pure _

theorem concludes_endStatement (cs : List Comment) : (endStatement cs).Concludes more :=
  concludes_ending hmore

theorem concludes_body (leading : List Comment) {decl : Production α}
    (h : ∀ n, decl.Nests n) : (body leading decl).Concludes more :=
  (concludes_braces fun _ => nests_bodyItem (h _)).then fun _ =>
    (carries_trailing hmore).bind fun _ => carries_pure _

theorem concludes_headed {k : Keyword} {head : Production α} {decl : Production β}
    {node : α → Body β → γ} (hhead : head.CarriesBefore more) (hdecl : ∀ n, decl.Nests n) :
    Concludes more (do
      let leading ← comments
      let _ ← keyword k
      let name ← head
      let inner ← body leading decl
      return node name inner) :=
  .bind (carriesBefore_optional yield_comment fun _ h => takeHead?_append _ h.ne_nil more).loop
    fun leading => .bind (concludes_takeOr _ _).carries.before fun _ => .bind hhead fun _ =>
      (concludes_body hmore leading hdecl).giving _

theorem concludes_call (n : Nonterminal) : (call n).Concludes more := by
  have hproduction : n.production.Concludes more := by
    cases n with
    | aggregate =>
      exact (concludes_braces fun _ => flat_aggregateItem.nests nests_call).giving _
    | message =>
      exact concludes_headed hmore (concludes_takeOr _ _).carries.before fun _ =>
        nests_messageItem nests_call
  refine ⟨fun ls v rest h => ?_, fun ls v rest h => ?_⟩
  · exact hproduction.token ls v rest (yield_call n ls ▸ h)
  · rw [yield_call] at h ⊢
    exact hproduction.carries ls v rest h

/-- What has no braces of its own and no alternatives carries over up to its last token. -/
theorem Flat.before {p : Production α} (h : p.Flat false) : p.CarriesBefore more :=
  h.carriesBefore fun n => (concludes_call hmore n).carries.before

theorem concludes_syntaxDecl : syntaxDecl.Concludes more := by
  have hflat {α : Type} {p : Production α} (h : p.Flat false) := h.before hmore
  refine .bind (hflat flat_comments) fun leading => .bind (hflat (flat_keyword _)) fun _ => ?_
  refine .bind (hflat ((flat_punct _).2 (by simp))) fun _ => .bind (hflat flat_string) fun _ => ?_
  exact (concludes_endStatement hmore leading).giving _

theorem concludes_importDecl : importDecl.Concludes more := by
  have hflat {α : Type} {p : Production α} (h : p.Flat false) := h.before hmore
  refine .bind (hflat flat_comments) fun leading => .bind (hflat (flat_keyword _)) fun _ => ?_
  refine .bind (hflat flat_importModifier) fun _ => .bind (hflat flat_string) fun _ => ?_
  exact (concludes_endStatement hmore leading).giving _

theorem concludes_packageDecl : packageDecl.Concludes more := by
  have hflat {α : Type} {p : Production α} (h : p.Flat false) := h.before hmore
  refine .bind (hflat flat_comments) fun leading => .bind (hflat (flat_keyword _)) fun _ => ?_
  exact .bind (hflat flat_fullIdent) fun _ => concludes_ending hmore

theorem concludes_optionDecl : optionDecl.Concludes more := by
  have hflat {α : Type} {p : Production α} (h : p.Flat false) := h.before hmore
  refine .bind (hflat flat_comments) fun leading => .bind (hflat (flat_keyword _)) fun _ => ?_
  refine .bind (hflat flat_optionName) fun _ => ?_
  refine .bind (hflat ((flat_punct _).2 (by simp))) fun _ => ?_
  exact .bind (hflat flat_optionValue) fun _ => concludes_ending hmore

theorem concludes_enum : enum.Concludes more :=
  concludes_headed hmore (concludes_takeOr _ _).carries.before fun _ =>
    flat_enumItem.nests nests_call

theorem concludes_extend : extend.Concludes more :=
  concludes_headed hmore (flat_typeName.before hmore) fun _ =>
    (show field.Flat true from flat_field).nests nests_call

theorem concludes_service : service.Concludes more :=
  concludes_headed hmore (concludes_takeOr _ _).carries.before fun _ => nests_serviceItem nests_call

end Statements

/-! ## The first keyword of a statement -/

/-- The first token counts as the keyword `k`. -/
def StartsWith (k : Keyword) (ls : List Lexeme) : Prop :=
  ∃ l w, firstToken? ls = some l ∧ l.token = .word w ∧ Terminal.isKeyword k w

/-- A production that matches only where one of the keywords `ks` stands next. -/
def Begins (ks : List Keyword) (p : Production α) : Prop :=
  ∀ ls v rest, p.yield ls = some (v, rest) → ∃ k ∈ ks, StartsWith k ls

theorem comments_of_yield_comments {ls rest : List Lexeme} {v : List Comment}
    (h : comments.yield ls = some (v, rest)) :
    ∃ cs, (∀ c ∈ cs, c.token.isComment = true) ∧ ls = cs ++ rest := by
  obtain ⟨v', hrun, -⟩ := run_comments (.start ls) .start
  rw [yield, hrun] at h
  cases h
  refine ⟨ls.takeWhile (·.token.isComment), fun c hc => ?_, ?_⟩
  · simpa using List.mem_takeWhile_imp hc
  · exact (List.prefix_iff_eq_append.1 (List.takeWhile_prefix _)).symm

theorem begins_keyword {k : Keyword} {q : List Comment → Span → Production α} :
    Begins [k] (do
      let leading ← comments
      let first ← keyword k
      q leading first) := by
  intro ls v rest h
  obtain ⟨_, between, hcomments, h⟩ := yield_bind_eq_some.1 h
  obtain ⟨_, behind, hkeyword, -⟩ := yield_bind_eq_some.1 h
  obtain ⟨cs, hcs, rfl⟩ := comments_of_yield_comments hcomments
  obtain ⟨ds, l, hds, rfl, hl, hread⟩ := yield_takeOr_eq_some.1 hkeyword
  obtain ⟨w, hw, hk, -⟩ := Terminal.read?_keyword.1 hread
  refine ⟨k, List.mem_singleton_self k, l, w, ?_, hw, hk⟩
  rw [firstToken?_of_comments hcs, firstToken?_of_comments hds, firstToken?_of_token hl]

theorem Begins.giving {ks : List Keyword} {p : Production α} (h : p.Begins ks) (f : α → β) :
    Begins ks (do return f (← p)) := by
  intro ls v rest hv
  obtain ⟨a, between, ha, -⟩ := yield_bind_eq_some.1 hv
  exact h ls a between ha

theorem Begins.orElse {ks ks' : List Keyword} {p q : Production α} (hp : p.Begins ks)
    (hq : q.Begins ks') : Begins (ks ++ ks') (p <|> q) := by
  intro ls v rest hv
  rw [yield_orElse] at hv
  rcases Option.or_eq_some_iff.1 hv with hv | ⟨-, hv⟩
  · obtain ⟨k, hk, hstart⟩ := hp ls v rest hv
    exact ⟨k, List.mem_append_left _ hk, hstart⟩
  · obtain ⟨k, hk, hstart⟩ := hq ls v rest hv
    exact ⟨k, List.mem_append_right _ hk, hstart⟩

theorem begins_message : (call .message).Begins [.messageKw] :=
  fun ls v rest h => begins_keyword ls v rest (yield_call .message ls ▸ h)

/-- A production that settles for itself where it ends, and that its first keyword tells from
others. -/
structure ToldBy (more : List Lexeme) (ks : List Keyword) (p : Production α) : Prop extends
    Concludes more p where
  begins : p.Begins ks

theorem ToldBy.giving {ks : List Keyword} {p : Production α} (h : p.ToldBy more ks) (f : α → β) :
    ToldBy more ks (do return f (← p)) :=
  ⟨h.toConcludes.giving f, h.begins.giving f⟩

/-- Alternatives that begin with different keywords are not taken for one another. -/
theorem ToldBy.orElse {ks ks' : List Keyword} {p q : Production α} (hp : p.ToldBy more ks)
    (hq : q.ToldBy more ks') (hdisjoint : ∀ k ∈ ks, k ∉ ks') :
    ToldBy more (ks ++ ks') (p <|> q) := by
  refine ⟨⟨fun ls v rest hv => ?_, fun ls v rest hv => ?_⟩, hp.begins.orElse hq.begins⟩
  · rw [yield_orElse] at hv
    rcases Option.or_eq_some_iff.1 hv with hv | ⟨-, hv⟩
    · exact hp.token ls v rest hv
    · exact hq.token ls v rest hv
  · rw [yield_orElse] at hv ⊢
    rcases Option.or_eq_some_iff.1 hv with hv | ⟨-, hv⟩
    · rw [hp.carries ls v rest hv]
      rfl
    · have hnone : p.yield (ls ++ more) = none := by
        refine Option.eq_none_iff_forall_ne_some.2 fun found hfound => ?_
        obtain ⟨k, hk, m, w, hm, hw, hkeyword⟩ := hp.begins _ found.1 found.2 hfound
        obtain ⟨k', hk', m', w', hm', hw', hkeyword'⟩ := hq.begins ls v rest hv
        cases hm.symm.trans (firstToken?_append hm' more)
        cases hw.symm.trans hw'
        cases Terminal.isKeyword_inj hkeyword hkeyword'
        exact hdisjoint k hk hk'
      rw [hnone, hq.carries ls v rest hv]
      rfl

/-- A statement is the same statement before other lexemes, and starts with a keyword. -/
theorem toldBy_fileItem (hmore : ∀ l ∈ more.head?, l.trailing? = none) :
    ∃ ks, fileItem.ToldBy more ks := by
  have himport : importDecl.ToldBy more _ := ⟨concludes_importDecl hmore, begins_keyword⟩
  have hpackage : packageDecl.ToldBy more _ := ⟨concludes_packageDecl hmore, begins_keyword⟩
  have hoption : optionDecl.ToldBy more _ := ⟨concludes_optionDecl hmore, begins_keyword⟩
  have hmessage : (call .message).ToldBy more _ := ⟨concludes_call hmore _, begins_message⟩
  have henum : enum.ToldBy more _ := ⟨concludes_enum hmore, begins_keyword⟩
  have hservice : service.ToldBy more _ := ⟨concludes_service hmore, begins_keyword⟩
  have hextend : extend.ToldBy more _ := ⟨concludes_extend hmore, begins_keyword⟩
  refine ⟨_, .orElse (himport.giving _) (.orElse hpackage (.orElse (hoption.giving _)
    (.orElse (hmessage.giving _) (.orElse (henum.giving _) (.orElse (hservice.giving _)
      (hextend.giving _) ?_) ?_) ?_) ?_) ?_) ?_⟩
  all_goals decide

/-! ## One statement after the other -/

/-- A step through a body. -/
theorem yield_bodyItem (decl : Production α) (ls : List Lexeme) : (bodyItem decl).yield ls =
    some (match decl.yield ls with
      | some (v, rest) => (some (.decl v), rest)
      | none =>
        match takeHead? Lexeme.comment? ls with
        | some (c, rest) => (some (.comment c), rest)
        | none =>
          match (punct .semicolon).yield ls with
          | some (_, rest) => (some .stray, rest)
          | none => (none, ls)) := by
  have hstray : (do return some (← commentOrStray) : Production (Option (BodyItem α))).yield ls =
      match takeHead? Lexeme.comment? ls with
      | some (c, rest) => some (some (.comment c), rest)
      | none => ((punct .semicolon).yield ls).map fun found => (some .stray, found.2) := by
    rw [yield_bind, commentOrStray, yield_bind, yield_comment]
    cases takeHead? Lexeme.comment? ls with
    | some found => rfl
    | none =>
      change Option.bind (yield (punct .semicolon >>= fun _ => _) ls) _ = _
      rw [yield_bind]
      cases (punct .semicolon).yield ls <;> rfl
  rw [bodyItem, yield_orElse, yield_orElse, yield_bind, hstray]
  cases decl.yield ls with
  | some found => rfl
  | none =>
    cases takeHead? Lexeme.comment? ls with
    | some found => rfl
    | none => cases (punct .semicolon).yield ls <;> rfl

theorem yield_items_of_decl {decl : Production α} {ls rest : List Lexeme} {v : α}
    (h : decl.yield ls = some (v, rest)) (hlt : rest.length < ls.length) :
    (loop (bodyItem decl)).yield ls = ((loop (bodyItem decl)).yield rest).map fun found =>
      (.decl v :: found.1, found.2) := by
  rw [yield_loop, yield_bodyItem, h, Option.bind_some]
  exact if_pos hlt

theorem yield_items_of_comment {decl : Production α} {l : Lexeme} {c : Comment}
    {rest : List Lexeme} (h : decl.yield (l :: rest) = none) (hl : l.comment? = some c) :
    (loop (bodyItem decl)).yield (l :: rest) =
      ((loop (bodyItem decl)).yield rest).map fun found => (.comment c :: found.1, found.2) := by
  rw [yield_loop, yield_bodyItem, h, takeHead?, hl]
  exact if_pos (Nat.lt_succ_self _)

theorem yield_items_of_semicolon {decl : Production α} {l : Lexeme} {rest : List Lexeme}
    (h : decl.yield (l :: rest) = none) (hl : l.token = .punct .semicolon) :
    (loop (bodyItem decl)).yield (l :: rest) =
      ((loop (bodyItem decl)).yield rest).map fun found => (.stray :: found.1, found.2) := by
  have hcomment : l.comment? = none := Lexeme.comment?_eq_none.2 (by rw [hl]; rfl)
  have hsemicolon : (punct .semicolon).yield (l :: rest) = some (l.span, rest) :=
    yield_punct_eq_some.2 ⟨[], l, nofun, rfl, hl, rfl⟩
  rw [yield_loop, yield_bodyItem, h, takeHead?, hcomment, Option.map_none, hsemicolon]
  exact if_pos (Nat.lt_succ_self _)

theorem yield_items_of_none {decl : Production α} {ls : List Lexeme} (h : decl.yield ls = none)
    (hcomment : takeHead? Lexeme.comment? ls = none)
    (hsemicolon : (punct .semicolon).yield ls = none) :
    (loop (bodyItem decl)).yield ls = some ([], ls) := by
  rw [yield_loop, yield_bodyItem, h, hcomment, hsemicolon]
  rfl

theorem Unmoved.yield_isSome {p : Production α} (h : p.Unmoved) {l : Lexeme}
    (hl : l.token.isComment = true) (rest : List Lexeme) :
    (p.yield (l :: rest)).isSome = (p.yield rest).isSome := by
  have hstop (c : Cursor) : (p.stop? c .start).isSome = (p.yield c.rest).isSome := by
    rw [← yield_run p c .start, stop?, Option.isSome_map]
    cases p.run c .start <;> rfl
  rw [← hstop ⟨0, l :: rest⟩, ← hstop ⟨1, rest⟩, h 0 l rest .start hl]

/-- Items that are followed by nothing: where a token other than a semicolon is the first, a
declaration stands next. -/
theorem decl_of_yield_items {decl : Production α} (hdecl : decl.Unmoved) {ls : List Lexeme}
    {items : List (BodyItem α)} (h : (loop (bodyItem decl)).yield ls = some (items, []))
    {l : Lexeme} (hl : firstToken? ls = some l) (hsemicolon : l.token ≠ .punct .semicolon) :
    (decl.yield ls).isSome := by
  induction ls generalizing items with
  | nil => cases hl
  | cons m ls ih =>
    by_contra hnone
    rw [Option.not_isSome_iff_eq_none] at hnone
    cases hm : m.token.isComment with
    | true =>
      obtain ⟨c, hc⟩ : ∃ c, m.comment? = some c := by
        rw [← Option.ne_none_iff_exists', Ne, Lexeme.comment?_eq_none, hm]
        exact Bool.noConfusion
      rw [yield_items_of_comment hnone hc] at h
      obtain ⟨⟨others, _⟩, hfound, heq⟩ := Option.map_eq_some_iff.1 h
      cases heq
      have hsome := ih hfound (firstToken?_of_comment hm ls ▸ hl)
      rw [← hdecl.yield_isSome hm, hnone] at hsome
      cases hsome
    | false =>
      rw [firstToken?_of_token hm] at hl
      cases hl
      have hstuck : (punct .semicolon).yield (l :: ls) = none := by
        refine Option.eq_none_iff_forall_ne_some.2 fun found hfound => ?_
        obtain ⟨cs, k, hcs, heq, hk, -⟩ := yield_punct_eq_some.1 hfound
        cases cs with
        | nil =>
          cases heq
          exact hsemicolon hk
        | cons c cs =>
          cases heq
          rw [(List.forall_mem_cons.1 hcs).1] at hm
          cases hm
      rw [yield_items_of_none hnone (by rw [takeHead?, Lexeme.comment?_eq_none.2 hm]; rfl)
        hstuck] at h
      cases h

/-- Items that are followed by nothing and end with a token are followed by all items that stand
behind them. -/
theorem yield_items_append {decl : Production α} {ks : List Keyword} (hdecl : decl.Declares)
    (htold : decl.ToldBy more ks) {ls : List Lexeme} {items : List (BodyItem α)}
    (h : (loop (bodyItem decl)).yield ls = some (items, [])) (hends : EndsOnToken ls) :
    (loop (bodyItem decl)).yield (ls ++ more) =
      ((loop (bodyItem decl)).yield more).map fun found => (items ++ found.1, found.2) := by
  induction hn : ls.length using Nat.strongRecOn generalizing ls items with
  | ind n ih =>
    cases hv : decl.yield ls with
    | some found =>
      obtain ⟨v, rest⟩ := found
      have hlt := hdecl.passes.shorter hv
      rw [yield_items_of_decl hv hlt] at h
      obtain ⟨⟨others, _⟩, hothers, heq⟩ := Option.map_eq_some_iff.1 h
      cases heq
      have hrest := ih rest.length (hn ▸ hlt) hothers (hends.of_suffix (suffix_of_yield hv)) rfl
      rw [yield_items_of_decl (htold.carries ls v rest hv)
        (by rw [List.length_append, List.length_append]; omega), hrest, Option.map_map]
      rfl
    | none =>
      cases ls with
      | nil =>
        rw [yield_items_of_none hv rfl rfl] at h
        cases h
        rw [List.nil_append]
        cases (loop (bodyItem decl)).yield more <;> rfl
      | cons m ls =>
        obtain ⟨l, hl⟩ := (hends.hasToken (List.cons_ne_nil m ls)).firstToken?
        have hsemicolon : l.token = .punct .semicolon := by
          by_contra hne
          have hsome := decl_of_yield_items hdecl.unmoved h hl hne
          rw [hv] at hsome
          cases hsome
        -- No declaration starts with a semicolon, whatever follows.
        have hnone : decl.yield (m :: (ls ++ more)) = none := by
          refine Option.eq_none_iff_forall_ne_some.2 fun found hfound => ?_
          obtain ⟨k, -, l', w, hl', hw, -⟩ := htold.begins _ found.1 found.2 hfound
          cases hl'.symm.trans (firstToken?_append hl more)
          cases hsemicolon.symm.trans hw
        have hothers {others : List (BodyItem α)}
            (h : (loop (bodyItem decl)).yield ls = some (others, [])) :=
          ih ls.length (hn ▸ Nat.lt_succ_self _) h (hends.of_suffix (List.suffix_cons m ls)) rfl
        cases hm : m.comment? with
        | some c =>
          rw [yield_items_of_comment hv hm] at h
          obtain ⟨⟨others, _⟩, hfound, heq⟩ := Option.map_eq_some_iff.1 h
          cases heq
          rw [List.cons_append, yield_items_of_comment hnone hm, hothers hfound, Option.map_map]
          rfl
        | none =>
          rw [firstToken?_of_token (Lexeme.comment?_eq_none.1 hm)] at hl
          cases hl
          rw [yield_items_of_semicolon hv hsemicolon] at h
          obtain ⟨⟨others, _⟩, hfound, heq⟩ := Option.map_eq_some_iff.1 h
          cases heq
          rw [List.cons_append, yield_items_of_semicolon hnone hsemicolon, hothers hfound,
            Option.map_map]
          rfl

/-- The statements of a file are followed by those that stand behind it. -/
theorem yield_file_append (hmore : ∀ l ∈ more.head?, l.trailing? = none) {ls : List Lexeme}
    {version : SyntaxDecl} {inner : Body FileItem}
    (h : file.yield ls = some ((version, inner), [])) (hends : EndsOnToken ls)
    {items : List (BodyItem FileItem)}
    (hitems : (loop (bodyItem fileItem)).yield more = some (items, [])) :
    file.yield (ls ++ more) = some ((version,
      ⟨inner.decls ++ items.filterMap BodyItem.decl?,
        inner.comments ++ items.filterMap BodyItem.comment?⟩), []) := by
  obtain ⟨ks, htold⟩ := toldBy_fileItem hmore
  obtain ⟨_, between, hversion, h⟩ := yield_bind_eq_some.1 h
  obtain ⟨others, _, hothers, h⟩ := yield_bind_eq_some.1 h
  rw [yield_pure] at h
  cases h
  rw [file, yield_bind, (concludes_syntaxDecl hmore).carries ls version between hversion,
    Option.bind_some, yield_bind, yield_items_append declares_fileItem htold hothers
      (hends.of_suffix (suffix_of_yield hversion)), hitems]
  simp [Body.ofItems]

end Production

end ProtoSchema
