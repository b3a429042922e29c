import ProtoSchema.Parse
import ProtoSchema.Proofs.Nested
import ProtoSchema.Proofs.Phrase

/-
  What productions spell. A production spells a phrase if the symbols of the lexemes that it passes
  are always in the phrase of what it gives. There is one lemma for each rule of productions and for
  each way in which the grammar combines them; a chain of `Spells.then` follows a production step by
  step and collects the product of the phrases of its parts.
-/

namespace ProtoSchema

/-! ## What a production spells -/

/-- The ways to write a nested construct. -/
def Nonterminal.phrase : (n : Nonterminal) → n.Result → Phrase
  | aggregate => Aggregate.phrase
  | message => Message.phrase

/-- The lexemes between two cursors have symbols that, after a start from `before`, are in
`after`. -/
def Cursor.Spells (c d : Cursor) (before after : Phrase) : Prop :=
  ∃ passed, c.rest = passed ++ d.rest ∧ ∀ xs ∈ before, xs ++ symbols passed ∈ after

/-- A way to match nested constructs that spells their phrases. -/
def Callee.Spells (callee : Callee) : Prop :=
  ∀ n c r v d r', callee n c r = .done v d r' → (∀ l ∈ c.rest, l.WellRead) →
    c.Spells d 1 (n.phrase v)

/-- A production that, after a start from `before`, spells the phrase `after` of what it gives. -/
def Production.Spells {α : Type} (before : Phrase) (p : Production α) (after : α → Phrase) : Prop :=
  ∀ callee : Callee, callee.Spells → ∀ c r v d r', p.matchWith callee c r = .done v d r' →
    (∀ l ∈ c.rest, l.WellRead) → c.Spells d before (after v)

/-- The phrase of what may be left out. -/
def Phrase.optional {α : Type} (item : α → Phrase) : Option α → Phrase
  | some v => item v
  | none => 1

theorem Cursor.Spells.refl (c : Cursor) {before after : Phrase} (h : before ≤ after) :
    c.Spells c before after :=
  ⟨[], rfl, fun xs hxs => by rw [symbols_nil, List.append_nil]; exact h hxs⟩

theorem Cursor.Spells.trans {c d e : Cursor} {before between after : Phrase}
    (h : c.Spells d before between) (h' : d.Spells e between after) : c.Spells e before after := by
  obtain ⟨xs, hxs, hx⟩ := h
  obtain ⟨ys, hys, hy⟩ := h'
  refine ⟨xs ++ ys, by rw [hxs, hys, List.append_assoc], fun zs hzs => ?_⟩
  rw [symbols_append, ← List.append_assoc]
  exact hy _ (hx zs hzs)

theorem Cursor.Spells.wellRead {c d : Cursor} {before after : Phrase} (h : c.Spells d before after)
    (hw : ∀ l ∈ c.rest, l.WellRead) : ∀ l ∈ d.rest, l.WellRead := by
  obtain ⟨xs, hxs, -⟩ := h
  intro l hl
  exact hw l (by rw [hxs]; exact List.mem_append_right _ hl)

theorem Cursor.Spells.frame {c d : Cursor} {after : Phrase} (h : c.Spells d 1 after)
    (before : Phrase) : c.Spells d before (before * after) := by
  obtain ⟨xs, hxs, hx⟩ := h
  exact ⟨xs, hxs, fun zs hzs => Language.append_mem_mul hzs (hx [] Language.nil_mem_one)⟩

theorem Cursor.Spells.mono {c d : Cursor} {before after after' : Phrase}
    (h : c.Spells d before after) (hle : after ≤ after') : c.Spells d before after' := by
  obtain ⟨xs, hxs, hx⟩ := h
  exact ⟨xs, hxs, fun zs hzs => hle (hx zs hzs)⟩

/-! ## Cursors and terminals -/

theorem Cursor.spells_significant (c : Cursor) : c.Spells c.significant 1 1 := by
  refine ⟨c.rest.takeWhile (·.token.isComment), ?_, fun xs hxs => ?_⟩
  · exact (List.prefix_iff_eq_append.1 (List.takeWhile_prefix _)).symm
  · rw [symbols_comments fun l hl => List.all_eq_true.1 List.all_takeWhile l hl, List.append_nil]
    exact hxs

/-- The ways to write a terminal. -/
def Terminal.phrase : (t : Terminal) → t.Result → Phrase
  | punct p, _ => Phrase.mark p
  | keyword k, _ => Phrase.keyword k
  | word, w => Phrase.word w
  | name, w => .of fun xs => spellsName w ∧ xs ∈ Phrase.word w
  | integer, n => Phrase.integer n
  | string, s => {[.string s]}
  | literal, v => v.constant

theorem Terminal.isKeyword_iff {k : Keyword} {before : Option Char} {spelling : String} :
    isKeyword k (Word.ofSpelling before spelling.toList) → spelling = k.text := by
  intro h
  rcases Word.ofSpelling_cases before spelling with ⟨b, -, hb⟩ | ⟨-, -, hb⟩ | ⟨-, hb | ⟨k', hk, hb⟩⟩
  · rw [hb] at h; cases h
  · rw [hb] at h; cases h
  · rw [hb] at h
    simpa [isKeyword] using h
  · rw [hb] at h
    rw [← hk, show k' = k by simpa [isKeyword] using h]

theorem Terminal.spellsName_of_isName {before : Option Char} {spelling : String}
    (h : isName (Word.ofSpelling before spelling.toList)) : spellsName spelling := by
  rcases Word.ofSpelling_cases before spelling with ⟨b, -, hb⟩ | ⟨-, -, hb⟩ | ⟨hn, -⟩
  · rw [hb] at h; cases h
  · rw [hb] at h; cases h
  · exact hn

theorem Terminal.mem_constant_of_literal? {l : Lexeme} {v : Value} (hl : l.WellRead)
    (h : literal? l.token = some v) : ∃ s, l.symbol? = some s ∧ [s] ∈ v.constant := by
  unfold Lexeme.symbol?
  cases ht : l.token with
  | int n => rw [ht] at h; cases h; exact ⟨_, rfl, rfl⟩
  | float x => rw [ht] at h; cases h; exact ⟨_, rfl, rfl⟩
  | word w =>
    obtain ⟨hword, before, rfl⟩ := hl w ht
    rw [ht] at h
    refine ⟨_, rfl, ?_⟩
    rcases Word.ofSpelling_cases before l.spelling with
      ⟨b, hb, hw⟩ | ⟨hn, -, hw⟩ | ⟨-, hw | ⟨k, -, hw⟩⟩
    · rw [hw] at h; cases h; exact ⟨_, hb, hword, rfl⟩
    · rw [hw] at h; cases h; exact ⟨_, hn, hword, rfl⟩
    · rw [hw] at h; cases h
    · rw [hw] at h; cases h
  | _ => rw [ht] at h; cases h

/-- A lexeme that belongs to a class is written as the class says. -/
theorem Terminal.mem_phrase_of_read? {t : Terminal} {l : Lexeme} {v : t.Result} (hl : l.WellRead)
    (h : t.read? l = some v) : ∃ s, l.symbol? = some s ∧ [s] ∈ t.phrase v := by
  have hword {w : Word} (ht : l.token = .word w) : l.symbol? = some (.word l.spelling) := by
    rw [Lexeme.symbol?, ht]
  cases t with
  | punct p =>
    obtain ⟨ht, -⟩ := read?_punct.1 h
    exact ⟨.punct p, by rw [Lexeme.symbol?, ht], rfl⟩
  | keyword k =>
    obtain ⟨w, ht, hk, -⟩ := read?_keyword.1 h
    obtain ⟨-, before, rfl⟩ := hl w ht
    exact ⟨_, hword ht, by rw [isKeyword_iff hk]; rfl⟩
  | word =>
    obtain ⟨w, ht, rfl⟩ := read?_word.1 h
    exact ⟨_, hword ht, (hl w ht).1, rfl⟩
  | name =>
    obtain ⟨w, ht, hn, rfl⟩ := read?_name.1 h
    obtain ⟨hw, before, rfl⟩ := hl w ht
    exact ⟨_, hword ht, spellsName_of_isName hn, hw, rfl⟩
  | integer => exact ⟨.int v, by rw [Lexeme.symbol?, read?_integer.1 h], rfl⟩
  | string => exact ⟨.string v, by rw [Lexeme.symbol?, read?_string.1 h], rfl⟩
  | literal => exact mem_constant_of_literal? hl (read?_literal.1 h)

theorem Cursor.spells_of_take? {c d : Cursor} {t : Terminal} {v : t.Result}
    (h : c.take? t = some (v, d)) (hw : ∀ l ∈ c.rest, l.WellRead) :
    ∃ s, symbols c.rest = s :: symbols d.rest ∧ c.Spells d 1 (t.phrase v) ∧ [s] ∈ t.phrase v := by
  obtain ⟨l, hl, hv, -⟩ := take?_eq_some.1 h
  have hs := c.spells_significant
  have hwell : l.WellRead := hs.wellRead hw l (by rw [hl]; exact List.mem_cons_self)
  obtain ⟨s, hsym, hmem⟩ := Terminal.mem_phrase_of_read? hwell hv
  refine ⟨s, ?_, hs.trans ⟨[l], hl, fun xs hxs => ?_⟩, hmem⟩
  · obtain ⟨passed, hpassed, hnil⟩ := hs
    rw [hpassed, symbols_append, hl]
    have hcomments : symbols passed = [] := by simpa using hnil [] Language.nil_mem_one
    rw [hcomments, List.nil_append, symbols, List.filterMap_cons, hsym]
    rfl
  · rw [(Language.mem_one xs).1 hxs, symbols, List.filterMap_cons, hsym]
    exact hmem

/-- A comment is no symbol. -/
theorem Cursor.spells_of_isComment {c d : Cursor} {l : Lexeme} (h : c.rest = l :: d.rest)
    (hl : l.token.isComment = true) : c.Spells d 1 1 :=
  ⟨[l], h, fun xs hxs => by simpa [symbols, Lexeme.symbol?_eq_none.2 hl] using hxs⟩

theorem Cursor.spells_of_comment? {c d : Cursor} {v : Comment} (h : c.comment? = some (v, d)) :
    c.Spells d 1 1 := by
  unfold comment? at h
  split at h
  · next heq => cases h; exact spells_of_isComment heq rfl
  · next heq => cases h; exact spells_of_isComment heq rfl
  · cases h

theorem Cursor.spells_of_trailing? {c d : Cursor} {v : Comment} (h : c.trailing? = some (v, d)) :
    c.Spells d 1 1 := by
  unfold trailing? at h
  split at h
  · next heq => cases h; exact spells_of_isComment heq rfl
  · cases h

/-! ## The rules of productions -/

namespace Production

variable {α β : Type} {before : Phrase}

theorem Spells.pure {v : α} {after : α → Phrase} (h : before ≤ after v) :
    Spells before (Pure.pure v : Production α) after := by
  intro callee _ c r v' d r' hm _
  cases hm
  exact .refl c h

theorem Spells.bind {p : Production α} {k : α → Production β} {L : α → Phrase}
    {after : β → Phrase} (hp : Spells before p L)
    (hk : ∀ a, Spells (L a) (k a) after) : Spells before (p >>= k) after := by
  intro callee hc c r v d r' h hw
  change (Production.bind p k).matchWith callee c r = _ at h
  simp only [matchWith] at h
  split at h
  · next a e s hm =>
    have he := hp callee hc c r a e s hm hw
    exact he.trans (hk a callee hc e s v d r' h (he.wellRead hw))
  · cases h

theorem Spells.frame {p : Production α} {after : α → Phrase} (hp : Spells 1 p after)
    (before : Phrase) : Spells before p fun v => before * after v :=
  fun callee hc c r v d r' h hw => (hp callee hc c r v d r' h hw).frame before

theorem Spells.mono {p : Production α} {after after' : α → Phrase} (hp : Spells before p after)
    (h : ∀ v, after v ≤ after' v) : Spells before p after' :=
  fun callee hc c r v d r' hm hw => (hp callee hc c r v d r' hm hw).mono (h v)

/-- A production, and then another one that goes on with what it gives. -/
theorem Spells.then {p : Production α} {k : α → Production β} {L : α → Phrase}
    {after : β → Phrase} (hp : Spells 1 p L)
    (hk : ∀ a, Spells (before * L a) (k a) after) : Spells before (p >>= k) after :=
  (hp.frame before).bind hk

theorem Spells.fail (e : Expectation) (after : α → Phrase) :
    Spells before (Production.fail e) after := by
  intro callee _ c r v d r' h _
  cases h

theorem Spells.orElse {p q : Production α} {after : α → Phrase} (hp : Spells before p after)
    (hq : Spells before q after) : Spells before (p <|> q) after := by
  intro callee hc c r v d r' h hw
  change (Production.orElse p q).matchWith callee c r = _ at h
  simp only [matchWith] at h
  split at h
  · next hm => cases h; exact hp callee hc _ _ _ _ _ hm hw
  · exact hq callee hc _ _ _ _ _ h hw

theorem Spells.ifSees {t : Terminal} {p q : Production α} {after : α → Phrase}
    (hp : Spells before p after) (hq : Spells before q after) :
    Spells before (sees t >>= fun b => if b = true then p else q) after := by
  intro callee hc c r v d r' h hw
  rw [matchWith_ifSees] at h
  split at h
  · exact hp callee hc _ _ _ _ _ h hw
  · exact hq callee hc _ _ _ _ _ h hw

/-- A production that goes on where a `t` has been seen, and passes something, starts with that. -/
theorem Spells.ifSeen {t : Terminal} {p q : Production α} {L after : α → Phrase}
    (hp : Spells 1 p L) (hq : Spells 1 q after) (hne : ∀ v, [] ∉ L v)
    (hle : ∀ v s xs w, s :: xs ∈ L v → [s] ∈ t.phrase w → s :: xs ∈ after v) :
    Spells 1 (sees t >>= fun b => if b = true then p else q) after := by
  intro callee hc c r v d r' h hw
  rw [matchWith_ifSees] at h
  split at h
  · next hseen =>
    obtain ⟨⟨w, e⟩, htake⟩ := Option.isSome_iff_exists.1 hseen
    obtain ⟨s, hs, -, hmem⟩ := Cursor.spells_of_take? htake hw
    obtain ⟨passed, hpassed, hL⟩ := hp callee hc c r v d r' h hw
    refine ⟨passed, hpassed, fun xs hxs => ?_⟩
    rw [(Language.mem_one xs).1 hxs]
    have hv := hL [] Language.nil_mem_one
    rw [List.nil_append] at hv ⊢
    -- The symbols that are passed are not empty, so they start with what was seen.
    rw [hpassed, symbols_append] at hs
    cases hx : symbols passed with
    | nil => rw [hx] at hv; exact absurd hv (hne v)
    | cons s' xs' =>
      rw [hx] at hs hv
      obtain ⟨rfl, -⟩ := List.cons.inj hs
      exact hle v _ _ w hv hmem
  · exact hq callee hc _ _ _ _ _ h hw

theorem spells_optional {p : Production (Option α)} {L : α → Phrase}
    {find : Cursor → Option (α × Cursor)}
    (hp : ∀ callee c r, p.matchWith callee c r = .optional (find c) c r)
    (hfind : ∀ c d v, (∀ l ∈ c.rest, l.WellRead) → find c = some (v, d) →
      c.Spells d 1 (L v)) : Spells 1 p (Phrase.optional L) := by
  intro callee _ c r v d r' h hw
  rw [hp] at h
  unfold Reply.optional at h
  split at h
  · next hf => cases h; exact hfind _ _ _ hw hf
  · cases h; exact .refl c le_rfl

theorem spells_take (t : Terminal) : Spells 1 (take t) (Phrase.optional t.phrase) :=
  spells_optional (fun _ _ _ => rfl) fun _ _ _ hw h => by
    obtain ⟨_, -, hs, -⟩ := Cursor.spells_of_take? h hw
    exact hs

theorem spells_comment : Spells 1 comment (Phrase.optional fun _ => 1) :=
  spells_optional (fun _ _ _ => rfl) fun _ _ _ _ h => Cursor.spells_of_comment? h

theorem spells_trailing : Spells 1 trailing fun _ => 1 := by
  refine Spells.mono (spells_optional (L := fun _ => 1) (fun _ _ _ => rfl)
    fun _ _ _ _ h => Cursor.spells_of_trailing? h) fun v => ?_
  cases v <;> exact le_rfl

theorem spells_call (n : Nonterminal) : Spells 1 (call n) n.phrase :=
  fun _ hc _ _ _ _ _ h hw => hc _ _ _ _ _ _ h hw

/-- A loop spells what its steps give, one after the other. -/
theorem spells_loop {p : Production (Option α)} {L : α → Phrase}
    (hp : Spells 1 p (Phrase.optional L)) :
    Spells 1 (loop p) fun vs => (vs.map L).prod := by
  intro callee hc c r vs d r' h hw
  change matchLoop (p.matchWith callee) c r = _ at h
  generalize hstep : p.matchWith callee = step at h
  fun_induction matchLoop step c r generalizing vs with
  | case1 => cases h
  | case2 c r e r₁ hs =>
    cases h
    exact hp callee hc c r none _ _ (by rw [hstep, hs]) hw
  | case3 c r a e r₁ hs hlt ih =>
    have he := hp callee hc c r (some a) e r₁ (by rw [hstep, hs]) hw
    cases hl : matchLoop step e r₁ with
    | failed _ => rw [hl] at h; cases h
    | done ws _ _ =>
      rw [hl] at h
      cases h
      exact (he.trans ((ih ws (he.wellRead hw) hl).frame _)).mono (by simp [Phrase.optional])
  | case4 => cases h; exact .refl _ (by simp)

/-! ## Combinators -/

theorem spells_takeOr (t : Terminal) (e : Expectation) : Spells 1 (takeOr t e) t.phrase := by
  refine (spells_take t).bind fun found => ?_
  cases found with
  | some v => exact .pure le_rfl
  | none => exact .fail e _

theorem spells_punct (p : Punct) : Spells 1 (punct p) fun _ => Phrase.mark p :=
  spells_takeOr _ _

theorem spells_keyword (k : Keyword) : Spells 1 (keyword k) fun _ => Phrase.keyword k :=
  spells_takeOr _ _

/-- Passing a lexeme if it is a `t`, all of which are written alike. -/
theorem spells_skip {t : Terminal} {L : Phrase} (ht : ∀ v, t.phrase v = L) :
    Spells 1 (skip t) fun b => if b = true then L else 1 := by
  refine (spells_take t).bind fun found => ?_
  cases found with
  | some v => exact .pure (le_of_eq (ht v))
  | none => exact .pure le_rfl

theorem Spells.ifSkip {t : Terminal} {L : Phrase} {p q : Production α} {after : α → Phrase}
    (ht : ∀ v, t.phrase v = L) (hp : Spells (before * L) p after)
    (hq : Spells before q after) :
    Spells before (skip t >>= fun b => if b = true then p else q) after := by
  refine (spells_skip ht).then fun b => ?_
  cases b with
  | true => exact hp
  | false => rw [if_neg Bool.false_ne_true, mul_one]; exact hq

theorem Spells.ifPunct {p : Punct} {a b : Production α} {after : α → Phrase}
    (ha : Spells (before * Phrase.mark p) a after) (hb : Spells before b after) :
    Spells before (skip (.punct p) >>= fun x => if x = true then a else b) after :=
  .ifSkip (fun _ => rfl) ha hb

theorem Spells.ifKeyword {k : Keyword} {a b : Production α} {after : α → Phrase}
    (ha : Spells (before * Phrase.keyword k) a after) (hb : Spells before b after) :
    Spells before (skip (.keyword k) >>= fun x => if x = true then a else b) after :=
  .ifSkip (fun _ => rfl) ha hb

theorem spells_comments : Spells 1 comments fun _ => 1 := by
  refine (spells_loop spells_comment).mono fun cs => ?_
  exact le_of_eq (by simp [List.prod_replicate])

theorem spells_endStatement (leading : List Comment) :
    Spells 1 (endStatement leading) fun _ => Phrase.mark .semicolon := by
  refine (spells_punct _).then fun _ => ?_
  refine spells_trailing.then fun _ => .pure ?_
  exact le_of_eq (by simp)

end Production

end ProtoSchema
