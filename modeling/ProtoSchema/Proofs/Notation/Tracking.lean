import ProtoSchema.Proofs.Notation.Variation

/-
  The grammar tracks variations. There is one lemma for each construct: a statement leads from the
  inside of a statement to the next boundary, a value from behind its equals sign back to the
  inside. So variations of a file make up the same file: `ofLexemes_of_varies`.
-/

namespace ProtoSchema

namespace Production

variable {α β γ : Type} {bound : Nat} {s t u : Spot}

/-! ## Marks -/

theorem yield_takeOr_eq_none {t : Terminal} (e : Expectation) {l : Lexeme} {ls : List Lexeme}
    (noComment : l.token.isComment = false) (h : ∀ v, t.read? l ≠ some v) :
    (takeOr t e).yield (l :: ls) = none := by
  rw [yield_takeOr, t.take?_of_token noComment, Option.eq_none_iff_forall_ne_some.2 h]
  rfl

/-- A lexeme that has to stand next within a statement, and the place behind it. -/
theorem tracks_takeOr {t : Terminal} (e : Expectation)
    (hbehind : ∀ l v, t.read? l = some v → Spot.behind l.token = s) :
    Tracks bound .inside s (takeOr t e) := by
  intro ls ls' _ h
  rw [yield_takeOr, yield_takeOr]
  cases h with
  | nil => exact .neither
  | @token l ls ls' noComment rest =>
    rw [t.take?_of_token noComment, t.take?_of_token noComment]
    cases hread : t.read? l with
    | none => exact .neither
    | some v =>
      rw [hbehind l v hread] at rest
      exact .both v rest

theorem tracks_punct (p : Punct) : Tracks bound .inside (.behind (.punct p)) (punct p) :=
  tracks_takeOr _ fun _ _ hread => by rw [(Terminal.read?_punct.1 hread).1]

theorem tracks_keyword (k : Keyword) : Tracks bound .inside .inside (keyword k) :=
  tracks_takeOr _ fun _ _ hread => behind_of_inner (inner_keyword k) hread

/-- A lexeme that has to stand where a value does. -/
theorem tracks_takeOr_value {t : Terminal} (ht : t.Inner) (e : Expectation) :
    Tracks bound .value .inside (takeOr t e) := by
  have hbrace {l : Lexeme} {ls : List Lexeme} (hl : l.token = .punct .leftBrace) :
      (takeOr t e).yield (l :: ls) = none :=
    yield_takeOr_eq_none e (by rw [hl]; rfl) fun v hv => Terminal.token_ne_punct hv ht.2.1 hl
  intro ls ls' hlength h
  cases h with
  | constant _ rest => exact tracks_takeOr e (fun _ _ => behind_of_inner ht) ls ls' hlength rest
  | aggregate token token' =>
    rw [hbrace token, hbrace token']
    exact .neither
  | unread token token' =>
    rw [hbrace token, hbrace token']
    exact .neither

theorem tracks_integer : Tracks bound .value .inside integer :=
  tracks_takeOr_value (by simp [Terminal.Inner]) _

theorem tracks_string : Tracks bound .value .inside string :=
  (tracks_takeOr_value (t := .string) (by simp [Terminal.Inner]) _).then fun first =>
    Tracks.giving
      (Takes.tracks ((takes_loop _).2 ((takes_take .string).2 (by simp [Terminal.Inner])))) _

theorem tracks_endStatement (leading : List Comment) :
    Tracks bound .inside .boundary (endStatement leading) :=
  (tracks_punct .semicolon).then fun _ => tracks_trailing.giving _

/-! ## Values -/

theorem yield_optionValue (ls : List Lexeme) : optionValue.yield ls =
    if (Terminal.take? (.punct .leftBrace) ls).isSome then
      (aggregate.yield ls).map fun found => (.aggregate found.1, found.2)
    else constant.yield ls := by
  rw [optionValue, yield_bind, yield_sees, Option.bind_some]
  dsimp only
  cases (Terminal.take? (.punct .leftBrace) ls).isSome with
  | false => rfl
  | true =>
    change (call .aggregate >>= fun a => Pure.pure (Value.aggregate a)).yield ls = _
    rw [yield_bind, yield_call]
    change (aggregate.yield ls).bind _ = _
    cases aggregate.yield ls <;> rfl

theorem tracks_optionValue : Tracks bound .value .inside optionValue := by
  have hbrace {l : Lexeme} {ls : List Lexeme} (hl : l.token = .punct .leftBrace) :
      (Terminal.take? (.punct .leftBrace) (l :: ls)).isSome = true := by
    rw [Terminal.take?_of_token _ (by rw [hl]; rfl), Option.isSome_map]
    exact Option.isSome_iff_exists.2 ⟨_, Terminal.read?_punct.2 ⟨hl, rfl⟩⟩
  have hnone {ls : List Lexeme} (hls : ∀ l ∈ ls.head?, l.token ≠ .punct .leftBrace)
      (hcomment : ∀ l ∈ ls.head?, l.token.isComment = false) :
      (Terminal.take? (.punct .leftBrace) ls).isSome = false := by
    cases ls with
    | nil => rfl
    | cons l ls =>
      rw [Terminal.take?_of_token _ (hcomment l rfl), Option.isSome_map]
      by_contra hsome
      rw [Bool.not_eq_false] at hsome
      obtain ⟨v, hv⟩ := Option.isSome_iff_exists.1 hsome
      exact hls l rfl (Terminal.read?_punct.1 hv).1
  intro ls ls' hlength h
  rw [yield_optionValue, yield_optionValue]
  cases h with
  | constant noBrace rest =>
    have hfirst := hnone noBrace rest.head_not_comment.1
    have hsecond := (isSome_take?_of_varies (.punct .leftBrace) rest).symm.trans hfirst
    rw [hfirst, hsecond]
    exact inner_constant.tracks ls ls' hlength rest
  | aggregate token token' yield yield' rest =>
    rw [hbrace token, hbrace token', if_pos rfl, if_pos rfl, yield, yield']
    exact .both _ rest
  | unread token token' yield yield' =>
    rw [hbrace token, hbrace token', if_pos rfl, if_pos rfl, yield, yield']
    exact .neither

/-! ## Bodies -/

/-- A production that does not match where a semicolon stands next. -/
def Spurns (p : Production α) : Prop :=
  ∀ l rest, l.token = .punct .semicolon → p.yield (l :: rest) = none

/-- A declaration that goes on alike within a statement, passes something and does not start with a
semicolon. -/
structure Declared (bound : Nat) (decl : Production α) : Prop where
  tracks : decl.Tracks bound .inside .boundary
  passes : decl.Passes
  spurns : decl.Spurns

/-- The statements from a boundary on are the same but for strays. -/
theorem Declared.items {decl : Production α} (h : decl.Declared bound) {ls ls' : List Lexeme}
    (hlength : ls.length + ls'.length < bound) (hvaries : Varies .boundary ls ls') :
    ∃ items items' rest rest', (loop (bodyItem decl)).yield ls = some (items, rest) ∧
      (loop (bodyItem decl)).yield ls' = some (items', rest') ∧
      Body.ofItems [] items = Body.ofItems [] items' ∧ Varies .inside rest rest' := by
  induction hn : ls.length + ls'.length using Nat.strongRecOn generalizing ls ls' with
  | ind n ih =>
    have hstray {l : Lexeme} {ms : List Lexeme} (hl : l.token = .punct .semicolon) :=
      yield_items_of_semicolon (h.spurns l ms hl) hl
    cases hvaries with
    | @strayLeft l ms _ token rest =>
      rw [List.length_cons] at hlength hn
      obtain ⟨items, items', us, us', hitems, hitems', heq, hrest⟩ :=
        ih _ (by omega) (by omega) rest rfl
      exact ⟨.stray :: items, items', us, us', by rw [hstray token, hitems]; rfl, hitems', heq,
        hrest⟩
    | @strayRight l _ ms token rest =>
      rw [List.length_cons] at hlength hn
      obtain ⟨items, items', us, us', hitems, hitems', heq, hrest⟩ :=
        ih _ (by omega) (by omega) rest rfl
      exact ⟨items, .stray :: items', us, us', hitems, by rw [hstray token, hitems']; rfl, heq,
        hrest⟩
    | statement rest =>
      have hdecl := h.tracks ls ls' hlength rest
      generalize hv : decl.yield ls = found, hv' : decl.yield ls' = found' at hdecl
      cases hdecl with
      | @both v ms ms' hms =>
        have hlt := h.passes.shorter hv
        have hlt' := h.passes.shorter hv'
        obtain ⟨items, items', us, us', hitems, hitems', heq, hrest⟩ :=
          ih _ (by omega) (by omega) hms rfl
        refine ⟨.decl v :: items, .decl v :: items', us, us', ?_, ?_, ?_, hrest⟩
        · rw [yield_items_of_decl hv hlt, hitems]
          rfl
        · rw [yield_items_of_decl hv' hlt', hitems']
          rfl
        · exact congrArg (fun b => Body.mk (v :: b.decls) b.comments) heq
      | neither =>
        cases rest with
        | nil => exact ⟨[], [], [], [], yield_items_of_none hv rfl rfl,
            yield_items_of_none hv' rfl rfl, rfl, .nil⟩
        | @token l ms ms' noComment rest =>
          by_cases hl : l.token = .punct .semicolon
          · rw [hl] at rest
            rw [List.length_cons, List.length_cons] at hlength hn
            obtain ⟨items, items', us, us', hitems, hitems', heq, hrest⟩ :=
              ih _ (by omega) (by omega) rest rfl
            exact ⟨.stray :: items, .stray :: items', us, us', by rw [hstray hl, hitems]; rfl,
              by rw [hstray hl, hitems']; rfl, heq, hrest⟩
          · have hend (us : List Lexeme) (hus : decl.yield (l :: us) = none) :
                (loop (bodyItem decl)).yield (l :: us) = some ([], l :: us) := by
              refine yield_items_of_none hus ?_ ?_
              · rw [takeHead?, Lexeme.comment?_eq_none.2 noComment]
                rfl
              · exact yield_takeOr_eq_none _ noComment fun v hread =>
                  hl (Terminal.read?_punct.1 hread).1
            exact ⟨[], [], _, _, hend ms hv, hend ms' hv', rfl, .token noComment rest⟩

theorem ofItems_congr {items items' : List (BodyItem α)}
    (h : Body.ofItems [] items = Body.ofItems [] items') (opening : List Comment) :
    Body.ofItems opening items = Body.ofItems opening items' :=
  congrArg (fun b => Body.mk b.decls (opening ++ b.comments)) h

/-- Statements, and then something that depends on them only but for strays. -/
theorem Declared.itemsThen {decl : Production α} (h : decl.Declared bound)
    {k : List (BodyItem α) → Production β} (hk : ∀ items, (k items).Tracks bound .inside s)
    (hsame : ∀ items items', Body.ofItems [] items = Body.ofItems [] items' → k items = k items') :
    Tracks bound .boundary s (loop (bodyItem decl) >>= k) := by
  intro ls ls' hlength hvaries
  obtain ⟨items, items', rest, rest', hitems, hitems', heq, hrest⟩ := h.items hlength hvaries
  have hle := (suffix_of_yield hitems).length_le
  have hle' := (suffix_of_yield hitems').length_le
  rw [yield_bind, yield_bind, hitems, hitems', Option.bind_some, Option.bind_some,
    ← hsame items items' heq]
  exact hk items rest rest' (by omega) hrest

theorem tracks_braces {decl : Production α} (h : ∀ n < bound, decl.Declared n) :
    Tracks bound .inside .boundary (braces (bodyItem decl)) := by
  intro ls ls' hlength hvaries
  rw [braces, yield_bind, yield_bind]
  refine (tracks_punct .leftBrace ls ls' hlength hvaries).bind fun _ ms ms' hms hms' hrest => ?_
  obtain ⟨cs, l, -, rfl, -⟩ := yield_punct_eq_some.1 hms
  obtain ⟨cs', l', -, rfl, -⟩ := yield_punct_eq_some.1 hms'
  simp only [List.length_append, List.length_cons] at hlength
  -- Behind the brace fewer lexemes are left.
  have hdecl := h (ms.length + ms'.length + 1) (by omega)
  refine (tracks_trailing.then fun opening => hdecl.itemsThen (fun items => ?_)
    fun items items' hsame => ?_) ms ms' (Nat.lt_succ_self _) hrest
  · exact (tracks_punct .rightBrace).then fun _ => tracks_pure _
  · rw [ofItems_congr hsame]

theorem tracks_body (leading : List Comment) {decl : Production α}
    (h : ∀ n < bound, decl.Declared n) : Tracks bound .inside .boundary (body leading decl) :=
  (tracks_braces h).then fun _ => tracks_trailing.giving _

/-! ## Statements that start with no semicolon -/

theorem spurns_keyword {k : Keyword} {q : List Comment → Span → Production α} : Spurns (do
      let leading ← comments
      let first ← keyword k
      q leading first) := by
  intro l rest hl
  refine Option.eq_none_iff_forall_ne_some.2 fun found hfound => ?_
  obtain ⟨k', -, m, w, hm, hw, -⟩ := begins_keyword _ found.1 found.2 hfound
  rw [firstToken?_of_token (by rw [hl]; rfl)] at hm
  cases hm
  rw [hl] at hw
  cases hw

theorem Spurns.giving {p : Production α} (h : p.Spurns) (f : α → β) :
    Spurns (do return f (← p)) := by
  intro l rest hl
  rw [yield_bind, h l rest hl]
  rfl

theorem Spurns.orElse {p q : Production α} (hp : p.Spurns) (hq : q.Spurns) : Spurns (p <|> q) := by
  intro l rest hl
  rw [yield_orElse, hp l rest hl, hq l rest hl]
  rfl

theorem Spurns.bind {p : Production α} (h : p.Spurns) (k : α → Production β) :
    Spurns (p >>= k) := by
  intro l rest hl
  rw [yield_bind, h l rest hl]
  rfl

theorem spurns_message : (call .message).Spurns := by
  intro l rest hl
  rw [yield_call]
  exact spurns_keyword l rest hl

theorem spurns_takeOr {t : Terminal} (ht : t ≠ .punct .semicolon) (e : Expectation) :
    Spurns (takeOr t e) :=
  fun _ _ hl => yield_takeOr_eq_none e (by rw [hl]; rfl) fun _ hv =>
    Terminal.token_ne_punct hv ht hl

/-- Comments or a lexeme that may be left out, in front of what does not match. -/
theorem Spurns.after {p : Production α} {v : α} {k : α → Production β}
    (hp : ∀ l rest, l.token = .punct .semicolon → p.yield (l :: rest) = some (v, l :: rest))
    (hk : (k v).Spurns) : Spurns (p >>= k) := by
  intro l rest hl
  rw [yield_bind, hp l rest hl]
  exact hk l rest hl

theorem spurns_after_comments {k : List Comment → Production α} (hk : (k []).Spurns) :
    Spurns (comments >>= k) := by
  refine .after (fun l rest hl => ?_) hk
  rw [comments, yield_loop, yield_comment_of_token fun m hm => by
    rw [← Option.some.inj (Option.mem_def.1 hm), hl]
    rfl]
  rfl

theorem yield_skip_of_semicolon {t : Terminal} (ht : t ≠ .punct .semicolon) {l : Lexeme}
    (hl : l.token = .punct .semicolon) (rest : List Lexeme) :
    (skip t).yield (l :: rest) = some (false, l :: rest) := by
  have hnone : t.read? l = none :=
    Option.eq_none_iff_forall_ne_some.2 fun _ hv => Terminal.token_ne_punct hv ht hl
  rw [skip, yield_bind, yield_take, t.take?_of_token (by rw [hl]; rfl), hnone]
  rfl

/-! ## Options in brackets -/

theorem Tracks.loop {p : Production (Option α)} (h : p.Tracks bound .inside .inside)
    (hshorter : ∀ ls v rest, p.yield ls = some (some v, rest) → rest.length < ls.length) :
    Tracks bound .inside .inside (Production.loop p) := by
  intro ls ls' hlength hvaries
  induction hn : ls.length using Nat.strongRecOn generalizing ls ls' with
  | ind n ih =>
    rw [yield_loop, yield_loop]
    refine (h ls ls' hlength hvaries).bind fun v rest rest' hv hv' hrest => ?_
    cases v with
    | none => exact .both [] hrest
    | some v =>
      have hlt := hshorter ls v rest hv
      have hlt' := hshorter ls' v rest' hv'
      dsimp only
      rw [if_pos hlt, if_pos hlt']
      exact (ih _ (hn ▸ hlt) rest rest' (by omega) hrest rfl).map (v :: ·)

/-- One more item behind a separator, as long as there is a separator. -/
theorem tracks_more {sep : Terminal} (hsep : sep.Inner) {item : Production α}
    (h : item.Tracks bound .inside .inside) :
    Tracks bound .inside .inside
      (do if ← skip sep then return some (← item) else return none) := by
  refine Tracks.then (Takes.tracks ((takes_skip sep).2 hsep)) fun found => ?_
  cases found with
  | true => exact h.giving some
  | false => exact tracks_pure none

theorem length_lt_of_more {sep : Terminal} {item : Production α} {ls rest : List Lexeme} {v : α}
    (h : (do if ← skip sep then return some (← item) else return none :
      Production (Option α)).yield ls = some (some v, rest)) : rest.length < ls.length := by
  obtain ⟨found, between, hfound, h⟩ := yield_bind_eq_some.1 h
  rw [skip, yield_bind, yield_take, Option.bind_some, yield_pure, Option.some.injEq,
    Prod.mk.injEq] at hfound
  cases htake : sep.take? ls with
  | none =>
    rw [htake] at hfound
    obtain ⟨rfl, rfl⟩ := hfound
    cases h
  | some next =>
    rw [htake] at hfound
    obtain ⟨rfl, rfl⟩ := hfound
    obtain ⟨v', between⟩ := next
    obtain ⟨cs, l, -, rfl, -, -⟩ := Terminal.take?_eq_some.1 htake
    have hle := (suffix_of_yield h).length_le
    rw [List.length_append, List.length_cons]
    change rest.length ≤ between.length at hle
    omega

theorem tracks_separated {sep : Terminal} (hsep : sep.Inner) {item : Production α}
    (h : item.Tracks bound .inside .inside) : (separated sep item).Tracks bound .inside .inside :=
  h.then fun _ => ((tracks_more hsep h).loop fun _ _ _ => length_lt_of_more).then fun _ =>
    tracks_pure _

theorem tracks_fieldOption : Tracks bound .inside .inside fieldOption :=
  inner_optionName.tracks.then fun _ => (tracks_punct .equals).then fun _ =>
    tracks_optionValue.giving _

theorem tracks_fieldOptions : Tracks bound .inside .inside fieldOptions := by
  refine Tracks.then (Takes.tracks ((takes_skip _).2 (by simp [Terminal.Inner]))) fun found => ?_
  cases found with
  | true =>
    exact (tracks_separated (by simp [Terminal.Inner]) tracks_fieldOption).then fun _ =>
      (tracks_punct .rightBracket).then fun _ => tracks_pure _
  | false => exact tracks_pure _

/-! ## Statements -/

theorem tracks_comments : Tracks bound .inside .inside comments := inner_comments.tracks

theorem declared_optionDecl : optionDecl.Declared bound where
  tracks := tracks_comments.then fun _ => (tracks_keyword _).then fun _ =>
    inner_optionName.tracks.then fun _ => (tracks_punct .equals).then fun _ =>
      tracks_optionValue.then fun _ => (tracks_punct .semicolon).then fun _ =>
        tracks_trailing.then fun _ => tracks_pure _
  passes := declares_optionDecl.passes
  spurns := spurns_keyword

theorem tracks_declarator (leading : List Comment)
    (node : String → Int → FieldOptions → List Comment → α) :
    Tracks bound .inside .boundary (do
      let name ← ident
      let _ ← punct .equals
      let number ← integer
      let options ← fieldOptions
      return node name number options (← endStatement leading)) :=
  inner_ident.tracks.then fun _ => (tracks_punct .equals).then fun _ =>
    tracks_integer.then fun _ => tracks_fieldOptions.then fun _ =>
      (tracks_endStatement leading).giving _

theorem spurns_ident : ident.Spurns := spurns_takeOr (by simp) _

theorem spurns_typeName : typeName.Spurns := by
  refine .after (fun l rest hl => yield_skip_of_semicolon (by simp) hl rest) ?_
  exact ((spurns_ident.bind _).bind _).bind _

theorem spurns_fieldType : fieldType.Spurns := spurns_typeName.bind _

theorem yield_modifier_of_semicolon {l : Lexeme} (hl : l.token = .punct .semicolon)
    (rest : List Lexeme) : modifier.yield (l :: rest) = some (none, l :: rest) := by
  have hskip (k : Keyword) := yield_skip_of_semicolon (t := .keyword k) (by simp) hl rest
  rw [modifier, yield_bind, hskip, Option.bind_some, if_neg (by simp), yield_bind, hskip,
    Option.bind_some, if_neg (by simp), yield_bind, hskip]
  rfl

theorem declared_field : field.Declared bound where
  tracks := tracks_comments.then fun _ => inner_modifier.tracks.then fun _ =>
    inner_fieldType.tracks.then fun _ => tracks_declarator _ _
  passes := declares_field.passes
  spurns := spurns_after_comments (.after (fun _ rest hl => yield_modifier_of_semicolon hl rest)
    (spurns_fieldType.bind _))

theorem declared_mapField : mapField.Declared bound where
  tracks := tracks_comments.then fun _ => (tracks_keyword _).then fun _ =>
    (tracks_punct .leftAngle).then fun _ => inner_fieldType.tracks.then fun _ =>
      (tracks_punct .comma).then fun _ => inner_fieldType.tracks.then fun _ =>
        (tracks_punct .rightAngle).then fun _ => tracks_declarator _ _
  passes := declares_mapField.passes
  spurns := spurns_keyword

theorem declared_oneofField : oneofField.Declared bound where
  tracks := tracks_comments.then fun _ => inner_fieldType.tracks.then fun _ =>
    tracks_declarator _ _
  passes := declares_oneofField.passes
  spurns := spurns_after_comments (spurns_fieldType.bind _)

theorem declared_enumValue : enumValue.Declared bound where
  tracks := tracks_comments.then fun _ => tracks_declarator _ _
  passes := declares_enumValue.passes
  spurns := spurns_after_comments (spurns_ident.bind _)

/-- A statement with a keyword, an inner part and a semicolon. -/
theorem tracks_listing {k : Keyword} {p : Production β} (hp : p.Inner)
    (node : β → List Comment → α) : Tracks bound .inside .boundary (do
      let leading ← comments
      let _ ← keyword k
      let items ← p
      return node items (← endStatement leading)) :=
  tracks_comments.then fun _ => (tracks_keyword k).then fun _ => hp.tracks.then fun _ =>
    (tracks_endStatement _).giving _

theorem declared_reserved : reserved.Declared bound where
  tracks := tracks_listing inner_reservedItems _
  passes := declares_reserved.passes
  spurns := spurns_keyword

theorem declared_extensionRanges : extensionRanges.Declared bound where
  tracks := tracks_listing inner_numberRanges _
  passes := declares_extensionRanges.passes
  spurns := spurns_keyword

theorem declared_importDecl : importDecl.Declared bound where
  tracks := tracks_comments.then fun _ => (tracks_keyword _).then fun _ =>
    inner_importModifier.tracks.then fun _ => inner_string.tracks.then fun _ =>
      (tracks_endStatement _).giving _
  passes := declares_importDecl.passes
  spurns := spurns_keyword

/-! ## Declarations with a body -/

theorem Declared.giving {p : Production α} (h : p.Declared bound) (f : α → β) :
    Declared bound (do return f (← p)) :=
  ⟨h.tracks.giving f, h.passes.giving f, h.spurns.giving f⟩

theorem Declared.orElse {p q : Production α} (hp : p.Declared bound) (hq : q.Declared bound) :
    Declared bound (p <|> q) :=
  ⟨hp.tracks.orElse hq.tracks, hp.passes.orElse hq.passes, hp.spurns.orElse hq.spurns⟩

/-- A keyword, an inner head and a body. -/
theorem tracks_headed {k : Keyword} {head : Production β} (hhead : head.Inner)
    {decl : Production α} (hdecl : ∀ n < bound, decl.Declared n) (node : β → Body α → γ) :
    Tracks bound .inside .boundary (do
      let leading ← comments
      let _ ← keyword k
      let name ← head
      let inner ← body leading decl
      return node name inner) :=
  tracks_comments.then fun _ => (tracks_keyword k).then fun _ => hhead.tracks.then fun _ =>
    (tracks_body _ hdecl).giving _

theorem declared_oneof : oneof.Declared bound where
  tracks := tracks_headed inner_ident
    (fun _ _ => (declared_optionDecl.giving _).orElse (declared_oneofField.giving _)) _
  passes := declares_oneof.passes
  spurns := spurns_keyword

theorem declared_enumItem : enumItem.Declared bound :=
  (declared_optionDecl.giving _).orElse
    ((declared_reserved.giving _).orElse (declared_enumValue.giving _))

theorem declared_enum : enum.Declared bound where
  tracks := tracks_headed inner_ident (fun _ _ => declared_enumItem) _
  passes := declares_enum.passes
  spurns := spurns_keyword

theorem declared_extend : extend.Declared bound where
  tracks := tracks_headed inner_typeName (fun _ _ => declared_field) _
  passes := declares_extend.passes
  spurns := spurns_keyword

theorem declared_messageItem (hmessage : (call .message).Declared bound) :
    messageItem.Declared bound := by
  refine (declared_optionDecl.giving _).orElse ((declared_enum.giving _).orElse ?_)
  refine (hmessage.giving _).orElse ((declared_oneof.giving _).orElse ?_)
  refine (declared_mapField.giving _).orElse ((declared_reserved.giving _).orElse ?_)
  refine (declared_extensionRanges.giving _).orElse ((declared_extend.giving _).orElse ?_)
  exact declared_field.giving _

/-- A message, by induction on the lexemes that are left: a message in it has fewer. -/
theorem declared_message : (call .message).Declared bound := by
  induction bound using Nat.strongRecOn with
  | ind n ih =>
    refine ⟨fun ls ls' hlength h => ?_, passes_message, spurns_message⟩
    rw [yield_call, yield_call]
    exact tracks_headed inner_ident (fun m hm => declared_messageItem (ih m hm)) _ ls ls' hlength h

/-! ## Services -/

theorem tracks_rpcBody (leading : List Comment) :
    Tracks bound .inside .boundary (rpcBody leading) := by
  refine Tracks.then (Takes.tracks (takes_sees _)) fun found => ?_
  cases found with
  | true => exact tracks_body leading fun _ _ => declared_optionDecl
  | false =>
    refine Tracks.then (tracks_takeOr _ fun l v hread => ?_) fun _ =>
      tracks_trailing.then fun _ => tracks_pure _
    rw [(Terminal.read?_punct.1 hread).1]
    rfl

theorem declared_rpc : rpc.Declared bound where
  tracks := tracks_comments.then fun _ => (tracks_keyword _).then fun _ =>
    inner_ident.tracks.then fun _ => inner_rpcTypeInParens.tracks.then fun _ =>
      (tracks_keyword _).then fun _ => inner_rpcTypeInParens.tracks.then fun _ =>
        (tracks_rpcBody _).giving _
  passes := declares_rpc.passes
  spurns := spurns_keyword

theorem declared_serviceItem : serviceItem.Declared bound :=
  (declared_optionDecl.giving _).orElse (declared_rpc.giving _)

theorem declared_service : service.Declared bound where
  tracks := tracks_headed inner_ident (fun _ _ => declared_serviceItem) _
  passes := declares_service.passes
  spurns := spurns_keyword

/-! ## Files -/

theorem declared_packageDecl : packageDecl.Declared bound where
  tracks := tracks_comments.then fun _ => (tracks_keyword _).then fun _ =>
    inner_fullIdent.tracks.then fun _ => (tracks_punct .semicolon).then fun _ =>
      tracks_trailing.then fun _ => tracks_pure _
  passes := declares_packageDecl.passes
  spurns := spurns_keyword

theorem declared_fileItem : fileItem.Declared bound := by
  refine (declared_importDecl.giving _).orElse (declared_packageDecl.orElse ?_)
  refine (declared_optionDecl.giving _).orElse ((declared_message.giving _).orElse ?_)
  refine (declared_enum.giving _).orElse ((declared_service.giving _).orElse ?_)
  exact declared_extend.giving _

theorem tracks_syntaxDecl : Tracks bound .inside .boundary syntaxDecl :=
  tracks_comments.then fun _ => (tracks_keyword _).then fun _ =>
    (tracks_punct .equals).then fun _ => tracks_string.then fun _ =>
      (tracks_endStatement _).giving _

theorem tracks_file : Tracks bound .inside .inside file :=
  tracks_syntaxDecl.then fun version => declared_fileItem.itemsThen (fun _ => tracks_pure _)
    fun _ _ h => congrArg (fun inner => Pure.pure (version, inner)) h

end Production

/-- Variations make up the same file. -/
theorem File.ofLexemes_of_varies {ls ls' : List Lexeme} (h : Varies .inside ls ls') (m n : Nat)
    (f : File) : File.ofLexemes ls m = .ok f ↔ File.ofLexemes ls' n = .ok f := by
  have hmatch (v : SyntaxDecl × Body FileItem) :
      Production.file.matchAll ls = .ok v ↔ Production.file.matchAll ls' = .ok v := by
    have hfile := Production.tracks_file ls ls' (Nat.lt_succ_self _) h
    rw [Production.matchAll_eq_ok, Production.matchAll_eq_ok]
    generalize Production.file.yield ls = found, Production.file.yield ls' = found' at hfile
    cases hfile with
    | neither => simp
    | both w hrest => cases hrest <;> simp
  unfold ofLexemes
  cases hls : Production.file.matchAll ls with
  | ok v => rw [(hmatch v).1 hls]
  | error r =>
    cases hls' : Production.file.matchAll ls' with
    | ok v => cases hls.symm.trans ((hmatch v).2 hls')
    | error r' => simp

end ProtoSchema
