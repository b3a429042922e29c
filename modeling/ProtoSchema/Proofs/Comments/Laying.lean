import ProtoSchema.Proofs.Comments.Unmoved
import ProtoSchema.Proofs.Derivation

/-
  What productions lay. A production lays a passage if the lexemes that it passes can be marked so
  that they are in the passage of what it gives. There is one lemma for each rule of productions and
  for each way in which the grammar combines them; the symbols come from what productions spell
  (`Lays.words`), so only the comments are new here. The lemmas hold where fewer than `bound`
  lexemes are left, since nested constructs are laid one level after the other.
-/

namespace ProtoSchema

open Passage

/-! ## What a production lays -/

/-- The lexemes between two cursors can be marked so that, after marked lexemes in `before`, they
make up marked lexemes in `after`. -/
def Cursor.Lays (c d : Cursor) (before after : Passage) : Prop :=
  ∃ passed, c.rest = passed ++ d.rest ∧ ∀ ms, before ms c.rest →
    ∃ ns, unmarked ns = unmarked ms ++ passed ∧ after ns d.rest

/-- A production that, after a start from `before`, lays the passage `after` of what it gives. -/
def Production.Lays {α : Type} (bound : Nat) (before : Passage) (p : Production α)
    (after : α → Passage) : Prop :=
  ∀ c r v d r', p.run c r = .done v d r' → c.rest.length < bound → (∀ l ∈ c.rest, l.WellRead) →
    c.Lays d before (after v)

/-- Lexemes that are marked as in `A` can be marked as in `B`. -/
def Passage.Remarks (A B : Passage) : Prop :=
  ∀ ms rest, A ms rest → ∃ ns, unmarked ns = unmarked ms ∧ B ns rest

namespace Passage.Remarks

variable {A A' B B' : Passage}

theorem left (h : A.Remarks A') (B : Passage) : (A * B).Remarks (A' * B) := by
  rintro _ rest ⟨xs, ys, rfl, hxs, hys⟩
  obtain ⟨xs', hxs', hA'⟩ := h xs _ hxs
  exact ⟨xs' ++ ys, by rw [unmarked_append, unmarked_append, hxs'], mul_append hA' hys⟩

theorem right (h : B.Remarks B') (A : Passage) : (A * B).Remarks (A * B') := by
  rintro _ rest ⟨xs, ys, rfl, hxs, hys⟩
  obtain ⟨ys', hys', hB'⟩ := h ys rest hys
  refine ⟨xs ++ ys', by rw [unmarked_append, unmarked_append, hys'], mul_append ?_ hB'⟩
  rwa [hys']

/-- The role of the first token may be settled later. -/
theorem words (role role' : Role) (P : Phrase) :
    (Passage.words role P).Remarks (Passage.words role' P) := by
  rintro _ rest ⟨ls, rfl, hmem, hends⟩
  exact ⟨markFirst role' ls, by simp, ls, rfl, hmem, hends⟩

end Passage.Remarks

/-- The passage of what may be left out. -/
def Passage.optional {α : Type} (item : α → Passage) : Option α → Passage
  | some v => item v
  | none => 1

namespace Cursor.Lays

variable {c d e : Cursor} {before between after after' : Passage}

theorem refl (c : Cursor) (h : before ≤ after) : c.Lays c before after :=
  ⟨[], rfl, fun ms hms => ⟨ms, (List.append_nil _).symm, h _ _ hms⟩⟩

theorem trans (h : c.Lays d before between) (h' : d.Lays e between after) :
    c.Lays e before after := by
  obtain ⟨xs, hxs, hx⟩ := h
  obtain ⟨ys, hys, hy⟩ := h'
  refine ⟨xs ++ ys, by rw [hxs, hys, List.append_assoc], fun ms hms => ?_⟩
  obtain ⟨ns, hns, hbetween⟩ := hx ms hms
  obtain ⟨os, hos, hafter⟩ := hy ns hbetween
  exact ⟨os, by rw [hos, hns, List.append_assoc], hafter⟩

theorem length_le (h : c.Lays d before after) : d.rest.length ≤ c.rest.length := by
  obtain ⟨xs, hxs, -⟩ := h
  rw [hxs, List.length_append]
  omega

theorem wellRead (h : c.Lays d before after) (hw : ∀ l ∈ c.rest, l.WellRead) :
    ∀ l ∈ d.rest, l.WellRead := by
  obtain ⟨xs, hxs, -⟩ := h
  intro l hl
  exact hw l (by rw [hxs]; exact List.mem_append_right _ hl)

/-- Marks of its own for what is passed. -/
theorem of_marks (ms : List Marked) (hrest : c.rest = unmarked ms ++ d.rest)
    (h : after ms d.rest) : c.Lays d 1 after := by
  refine ⟨unmarked ms, hrest, ?_⟩
  rintro _ rfl
  exact ⟨ms, rfl, h⟩

theorem frame (h : c.Lays d 1 after) (before : Passage) :
    c.Lays d before (before * after) := by
  obtain ⟨xs, hxs, hx⟩ := h
  obtain ⟨ns, hns, hafter⟩ := hx [] rfl
  rw [unmarked_nil, List.nil_append] at hns
  refine ⟨xs, hxs, fun ms hms => ⟨ms ++ ns, by rw [unmarked_append, hns], ?_⟩⟩
  exact mul_append (by rwa [hns, ← hxs]) hafter

theorem remark (h : c.Lays d before after) (hle : after.Remarks after') :
    c.Lays d before after' := by
  obtain ⟨xs, hxs, hx⟩ := h
  refine ⟨xs, hxs, fun ms hms => ?_⟩
  obtain ⟨ns, hns, hafter⟩ := hx ms hms
  obtain ⟨os, hos, hafter'⟩ := hle ns d.rest hafter
  exact ⟨os, hos.trans hns, hafter'⟩

theorem mono (h : c.Lays d before after) (hle : after ≤ after') : c.Lays d before after' :=
  h.remark fun ms rest hms => ⟨ms, rfl, hle ms rest hms⟩

end Cursor.Lays

/-! ## The rules of productions -/

namespace Production

variable {α β : Type} {bound : Nat} {before : Passage}

theorem Lays.pure {v : α} {after : α → Passage} (h : before ≤ after v) :
    Lays bound before (Pure.pure v : Production α) after := by
  intro c r v' d r' hm _ _
  cases hm
  exact .refl c h

/-- A production that passes something may go on with one that lays its passage only where fewer
lexemes are left. -/
theorem Lays.bindPasses {p : Production α} {k : α → Production β} {L : α → Passage}
    {after : β → Passage} (hp : Lays (bound + 1) before p L) (hpasses : p.Passes)
    (hk : ∀ a, Lays bound (L a) (k a) after) : Lays (bound + 1) before (p >>= k) after := by
  intro c r v d r' h hb hw
  obtain ⟨a, e, s, hm, hk'⟩ := matchWith_bind_done h
  have he := hp c r a e s hm hb hw
  have hlt := hpasses c r a e s hm
  exact he.trans (hk a e s v d r' hk' (by omega) (he.wellRead hw))

theorem Lays.bind {p : Production α} {k : α → Production β} {L : α → Passage}
    {after : β → Passage} (hp : Lays bound before p L) (hk : ∀ a, Lays bound (L a) (k a) after) :
    Lays bound before (p >>= k) after := by
  intro c r v d r' h hb hw
  obtain ⟨a, e, s, hm, hk'⟩ := matchWith_bind_done h
  have he := hp c r a e s hm hb hw
  exact he.trans (hk a e s v d r' hk' (Nat.lt_of_le_of_lt he.length_le hb) (he.wellRead hw))

theorem Lays.frame {p : Production α} {after : α → Passage} (hp : Lays bound 1 p after)
    (before : Passage) : Lays bound before p fun v => before * after v :=
  fun c r v d r' h hb hw => (hp c r v d r' h hb hw).frame before

theorem Lays.mono {p : Production α} {after after' : α → Passage}
    (hp : Lays bound before p after) (h : ∀ v, after v ≤ after' v) :
    Lays bound before p after' :=
  fun c r v d r' hm hb hw => (hp c r v d r' hm hb hw).mono (h v)

theorem Lays.remark {p : Production α} {after after' : α → Passage}
    (hp : Lays bound before p after) (h : ∀ v, (after v).Remarks (after' v)) :
    Lays bound before p after' :=
  fun c r v d r' hm hb hw => (hp c r v d r' hm hb hw).remark (h v)

theorem Lays.weaken {p : Production α} {after : α → Passage}
    (hp : Lays (bound + 1) before p after) : Lays bound before p after :=
  fun c r v d r' hm hb hw => hp c r v d r' hm (by omega) hw

/-- A production, and then another one that goes on with what it gives. -/
theorem Lays.then {p : Production α} {k : α → Production β} {L : α → Passage}
    {after : β → Passage} (hp : Lays bound 1 p L)
    (hk : ∀ a, Lays bound (before * L a) (k a) after) : Lays bound before (p >>= k) after :=
  (hp.frame before).bind hk

theorem Lays.orElse {p q : Production α} {after : α → Passage} (hp : Lays bound before p after)
    (hq : Lays bound before q after) : Lays bound before (p <|> q) after := by
  intro c r v d r' h hb hw
  change (Production.orElse p q).matchWith _ c r = _ at h
  simp only [matchWith] at h
  split at h
  · next hm => cases h; exact hp _ _ _ _ _ hm hb hw
  · exact hq _ _ _ _ _ h hb hw

theorem Lays.ifSees {t : Terminal} {p q : Production α} {after : α → Passage}
    (hp : Lays bound before p after) (hq : Lays bound before q after) :
    Lays bound before (sees t >>= fun b => if b = true then p else q) after := by
  intro c r v d r' h hb hw
  rw [run, matchWith_ifSees] at h
  split at h
  · exact hp _ _ _ _ _ h hb hw
  · exact hq _ _ _ _ _ h hb hw

/-- A loop lays what its steps give, one after the other. -/
theorem lays_loop {p : Production (Option α)} {L : α → Passage}
    (hp : Lays bound 1 p (Passage.optional L)) :
    Lays bound 1 (loop p) fun vs => (vs.map L).prod := by
  intro c r vs d r' h hb hw
  change matchLoop (p.matchWith Nonterminal.matches) c r = _ at h
  generalize hstep : p.matchWith Nonterminal.matches = step at h
  fun_induction matchLoop step c r generalizing vs with
  | case1 => cases h
  | case2 c r e r₁ hs =>
    cases h
    exact hp c r none _ _ (by rw [run, hstep, hs]) hb hw
  | case3 c r a e r₁ hs hlt ih =>
    have he := hp c r (some a) e r₁ (by rw [run, hstep, hs]) hb hw
    cases hl : matchLoop step e r₁ with
    | failed _ => rw [hl] at h; cases h
    | done ws _ _ =>
      rw [hl] at h
      cases h
      have hws := ih ws (by omega) (he.wellRead hw) hl
      exact (he.trans (hws.frame _)).mono (le_of_eq (by simp [Passage.optional]))
  | case4 => cases h; exact .refl _ le_rfl

/-! ## Comments -/

theorem lays_comments : Lays bound 1 comments (Passage.run .leading) := by
  intro c r v d r' h hb hw
  obtain ⟨cs, hcs, htexts⟩ := run_comments c r
  rw [hcs] at h
  cases h
  have hrest : c.rest = c.rest.takeWhile (·.token.isComment) ++ c.significant.rest :=
    (List.prefix_iff_eq_append.1 (List.takeWhile_prefix _)).symm
  refine .of_marks (markAll .leading _) (by rwa [unmarked_markAll]) ⟨_, rfl, htexts, fun l hl => ?_⟩
  have hdrop : c.significant.rest = c.rest.dropWhile (·.token.isComment) := by
    refine @List.append_cancel_left _ (c.rest.takeWhile (·.token.isComment)) _ _ ?_
    rw [← hrest, List.takeWhile_append_dropWhile]
  rw [hdrop] at hl
  have hnot := List.head?_dropWhile_not (fun l : Lexeme => l.token.isComment) c.rest
  rw [Option.mem_def.1 hl] at hnot
  simpa using hnot

theorem lays_trailing : Lays bound 1 trailing sameLine := by
  intro c r v d r' h hb hw
  change Reply.optional c.trailing? c r = _ at h
  obtain ⟨i, rest⟩ := c
  cases rest with
  | nil => cases h; exact .of_marks [] rfl ⟨rfl, fun l hl => nomatch hl⟩
  | cons l rest =>
    rw [Cursor.trailing?_cons] at h
    cases hl : l.trailing? with
    | none =>
      rw [hl] at h
      cases h
      refine .of_marks [] rfl ⟨rfl, fun m hm => ?_⟩
      cases hm
      exact hl
    | some t =>
      rw [hl] at h
      cases h
      exact .of_marks [⟨l, .sameLine⟩] rfl ⟨l, rfl, hl⟩

/-! ## Tokens -/

/-- A production that gives no comments: it passes comments only before tokens. -/
def Plain : {α : Type} → Production α → Prop
  | _, .pure _ | _, .sees _ | _, .take _ | _, .fail _ => True
  | _, .comment | _, .trailing | _, .call _ => False
  | _, .bind p k => p.Plain ∧ ∀ a, (k a).Plain
  | _, .orElse p q => p.Plain ∧ q.Plain
  | _, .loop p => p.Plain

end Production

theorem Passage.EndsOnToken.append {xs ys : List Lexeme} (hx : EndsOnToken xs)
    (hy : EndsOnToken ys) : EndsOnToken (xs ++ ys) := by
  intro l hl
  rw [List.getLast?_append] at hl
  cases hlast : ys.getLast? with
  | none => rw [hlast] at hl; exact hx l hl
  | some m => rw [hlast] at hl; exact hy l (hlast.trans hl)

theorem Terminal.isComment_of_read? {t : Terminal} {l : Lexeme} {v : t.Result}
    (h : t.read? l = some v) : l.token.isComment = false := by
  unfold read? at h
  cases hl : l.token with
  | lineComment | blockComment => rw [hl] at h; cases t <;> cases h
  | _ => rfl

/-- The lexemes between two cursors end with a token, if there are any. -/
def Cursor.Tokens (c d : Cursor) : Prop :=
  ∃ passed, c.rest = passed ++ d.rest ∧ EndsOnToken passed

theorem Cursor.Tokens.refl (c : Cursor) : c.Tokens c := ⟨[], rfl, fun _ h => nomatch h⟩

theorem Cursor.Tokens.trans {c d e : Cursor} (h : c.Tokens d) (h' : d.Tokens e) :
    c.Tokens e := by
  obtain ⟨xs, hxs, hx⟩ := h
  obtain ⟨ys, hys, hy⟩ := h'
  exact ⟨xs ++ ys, by rw [hxs, hys, List.append_assoc], hx.append hy⟩

theorem Cursor.tokens_of_take? {c d : Cursor} {t : Terminal} {v : t.Result}
    (h : c.take? t = some (v, d)) : c.Tokens d := by
  obtain ⟨l, hl, hread, -⟩ := take?_eq_some.1 h
  obtain ⟨passed, hpassed, -⟩ := c.reaches_significant
  refine ⟨passed ++ [l], by rw [hpassed, hl, List.append_assoc]; rfl, fun m hm => ?_⟩
  rw [List.getLast?_concat] at hm
  cases hm
  exact Terminal.isComment_of_read? hread

theorem matchLoop_tokens {α : Type} {step : Cursor → Report → Reply (Option α)}
    (hstep : ∀ c r v d r', step c r = .done v d r' → c.Tokens d) {c d : Cursor} {r r' : Report}
    {vs : List α} (h : matchLoop step c r = .done vs d r') : c.Tokens d := by
  fun_induction matchLoop step c r generalizing vs with
  | case1 => cases h
  | case2 c r e s hs => cases h; exact hstep _ _ _ _ _ hs
  | case3 c r a e s hs hlt ih =>
    cases hl : matchLoop step e s with
    | failed _ => rw [hl] at h; cases h
    | done ws _ _ => rw [hl] at h; cases h; exact (hstep _ _ _ _ _ hs).trans (ih hl)
  | case4 => cases h; exact .refl _

namespace Production

variable {α β : Type} {bound : Nat} {before : Passage}

theorem Plain.tokens {callee : Callee} {p : Production α} (hp : p.Plain) {c d : Cursor}
    {r r' : Report} {v : α} (h : p.matchWith callee c r = .done v d r') : c.Tokens d := by
  induction p generalizing c d r r' with
  | pure | sees => cases h; exact .refl _
  | bind p k ihp ihk =>
    obtain ⟨a, e, s, hm, hk⟩ := matchWith_bind_done (p := p) (k := k) h
    exact (ihp hp.1 hm).trans (ihk a (hp.2 a) hk)
  | take t =>
    rw [matchWith] at h
    unfold Reply.optional at h
    split at h
    · next htake => cases h; exact Cursor.tokens_of_take? htake
    · cases h; exact .refl _
  | comment | trailing | call => exact absurd hp id
  | fail => cases h
  | orElse p q ihp ihq =>
    simp only [matchWith] at h
    split at h
    · next hm => cases h; exact ihp hp.1 hm
    · exact ihq hp.2 h
  | loop p ih => exact matchLoop_tokens (fun _ _ _ _ _ hs => ih hp hs) h

/-- A plain production goes on with the tokens before it. -/
theorem lays_words {p : Production α} {L : α → Phrase} (hplain : p.Plain) (hp : Spells 1 p L)
    (role : Role) (P : Phrase) :
    Lays bound (before * words role P) p fun v => before * words role (P * L v) := by
  intro c r v d r' h hb hw
  obtain ⟨passed, hpassed, hsymbols⟩ := hp _ Nonterminal.matches_spells c r v d r' h hw
  obtain ⟨passed', hpassed', hends⟩ := hplain.tokens h
  obtain rfl : passed = passed' := List.append_cancel_right (hpassed.symm.trans hpassed')
  refine ⟨passed, hpassed, ?_⟩
  rintro _ ⟨xs, _, rfl, hbefore, ls, rfl, hmem, hends'⟩
  refine ⟨xs ++ markFirst role (ls ++ passed), ?_, mul_append ?_ ⟨_, rfl, ?_, hends'.append hends⟩⟩
  · simp
  · rw [unmarked_markFirst] at hbefore ⊢
    rwa [List.append_assoc, ← hpassed]
  · rw [symbols_append]
    exact Language.append_mem_mul hmem (hsymbols [] Language.nil_mem_one)

end Production

theorem Passage.words_one (role : Role) : words role 1 = 1 := by
  funext ms rest
  refine propext ⟨?_, fun h => ⟨[], h, Language.nil_mem_one, fun _ h => nomatch h⟩⟩
  rintro ⟨ls, rfl, hmem, hends⟩
  have hnone : ls.getLast? = none := by
    cases hlast : ls.getLast? with
    | none => rfl
    | some l =>
      -- The last lexeme is a token, so it has a symbol.
      have hsymbol : l.symbol? = none :=
        List.filterMap_eq_nil_iff.1 ((Language.mem_one _).1 hmem) l (List.mem_of_getLast? hlast)
      have hcomment := Lexeme.symbol?_eq_none.1 hsymbol
      rw [hends l hlast] at hcomment
      cases hcomment
  rw [List.getLast?_eq_none_iff.1 hnone]
  rfl

namespace Production

variable {α β : Type} {bound : Nat} {before : Passage}

/-- A plain production lays words. -/
theorem lays_plain {p : Production α} {L : α → Phrase} (hplain : p.Plain) (hp : Spells 1 p L)
    (role : Role) : Lays bound 1 p fun v => words role (L v) := by
  have h : Lays bound (1 * words role 1) p _ := lays_words hplain hp role 1
  rw [words_one, one_mul] at h
  exact h.mono fun v => by rw [one_mul, one_mul]

/-! ### Plain productions -/

theorem Plain.bind {p : Production α} {k : α → Production β} (hp : p.Plain)
    (hk : ∀ a, (k a).Plain) : Plain (p >>= k) := ⟨hp, hk⟩

theorem Plain.giving {p : Production α} (hp : p.Plain) (f : α → β) :
    Plain (do return f (← p)) := ⟨hp, fun _ => trivial⟩

theorem Plain.orElse {p q : Production α} (hp : p.Plain) (hq : q.Plain) : Plain (p <|> q) :=
  ⟨hp, hq⟩

theorem plain_pure (v : α) : Plain (Pure.pure v : Production α) := trivial

theorem Plain.ite {p q : Production α} (hp : p.Plain) (hq : q.Plain) (b : Bool) :
    Plain (if b = true then p else q) := by
  cases b with
  | true => exact hp
  | false => exact hq

theorem plain_takeOr (t : Terminal) (e : Expectation) : (takeOr t e).Plain := by
  refine .bind trivial fun found => ?_
  cases found <;> trivial

theorem plain_skip (t : Terminal) : (skip t).Plain := ⟨trivial, fun _ => trivial⟩

theorem Plain.separated {item : Production α} (h : item.Plain) (separator : Terminal) :
    (separated separator item).Plain := by
  refine .bind h fun first => .giving ?_ _
  exact .bind (plain_skip _) (.ite (h.giving _) (plain_pure _))

theorem plain_fullIdent : fullIdent.Plain := ((plain_takeOr _ _).separated _).giving _

theorem plain_typeName : typeName.Plain :=
  .bind (plain_skip _) fun _ => plain_fullIdent.giving _

theorem plain_fieldType : fieldType.Plain := plain_typeName.giving _

theorem plain_string : string.Plain :=
  .bind (plain_takeOr _ _) fun _ => ⟨trivial, fun _ => trivial⟩

theorem plain_optionNamePart : optionNamePart.Plain := by
  refine .bind (plain_skip _) (.ite ?_ (plain_takeOr _ _))
  exact .bind plain_typeName fun _ => .bind (plain_takeOr _ _) fun _ => plain_pure _

theorem plain_optionName : optionName.Plain := by
  refine .bind plain_optionNamePart fun _ => .giving ?_ _
  exact .bind (plain_skip _) (.ite (plain_optionNamePart.giving _) (plain_pure _))

theorem plain_constant : constant.Plain := by
  refine .bind trivial (.ite (plain_string.giving _) ?_)
  exact .bind trivial (.ite (plain_fullIdent.giving _) (plain_takeOr _ _))

theorem plain_entryKey : entryKey.Plain := by
  refine .bind (plain_skip _) (.ite ?_ (plain_takeOr _ _))
  exact .bind plain_typeName fun _ => .bind (plain_takeOr _ _) fun _ => plain_pure _

theorem plain_entryEnd : entryEnd.Plain :=
  .bind (plain_skip _) (.ite (plain_pure _) (plain_skip _))

theorem plain_modifier : modifier.Plain :=
  .bind (plain_skip _) (.ite (plain_pure _) (.bind (plain_skip _) (.ite (plain_pure _)
    (.bind (plain_skip _) (.ite (plain_pure _) (plain_pure _))))))

theorem plain_numberRange : numberRange.Plain := by
  refine .bind (plain_takeOr _ _) fun _ => .bind (plain_skip _) (.ite (.giving ?_ _) (plain_pure _))
  exact .bind (plain_skip _) (.ite (plain_pure _) ((plain_takeOr _ _).giving _))

theorem plain_numberRanges : numberRanges.Plain := plain_numberRange.separated _

theorem plain_reservedItems : reservedItems.Plain :=
  .orElse (plain_numberRanges.giving _) ((plain_string.separated _).giving _)

theorem plain_rpcTypeInParens : rpcTypeInParens.Plain := by
  refine .bind (plain_takeOr _ _) fun _ => .bind (.orElse ?_ (plain_typeName.giving _)) fun _ =>
    .bind (plain_takeOr _ _) fun _ => plain_pure _
  exact .bind (plain_takeOr _ _) fun _ => plain_typeName.giving _

theorem plain_importModifier : importModifier.Plain :=
  .bind (plain_skip _) (.ite (plain_pure _) (.bind (plain_skip _) (.ite (plain_pure _)
    (plain_pure _))))

/-! ## Combinators -/

theorem lays_mark (p : Punct) (role : Role) :
    Lays bound 1 (punct p) fun _ => words role (Phrase.mark p) :=
  lays_plain (plain_takeOr _ _) (spells_punct p) role

theorem Lays.ifPunct {p : Punct} {a b : Production α} {after : α → Passage} (role : Role)
    (ha : Lays bound (before * words role (Phrase.mark p)) a after)
    (hb : Lays bound before b after) :
    Lays bound before (skip (.punct p) >>= fun x => if x = true then a else b) after := by
  have hskip : Spells 1 (skip (.punct p)) fun x => if x = true then Phrase.mark p else 1 :=
    spells_skip fun _ => rfl
  refine (lays_plain (plain_skip _) hskip role).then fun x => ?_
  cases x with
  | true => exact ha
  | false => rw [if_neg Bool.false_ne_true, words_one, mul_one]; exact hb

theorem lays_separated {item : Production α} {L : α → Passage} (separator : Punct)
    (h : Lays bound 1 item L) : Lays bound 1 (Production.separated (.punct separator) item)
      fun vs ms rest => ∃ first others, vs = first :: others ∧
        Passage.separated separator L first others ms rest := by
  refine h.then fun first => ?_
  refine (lays_loop (L := fun v => words .inner (Phrase.mark separator) * L v) ?_).then
    fun others => .pure fun ms rest hms => ⟨first, others, rfl, by rwa [one_mul] at hms⟩
  refine .ifPunct .inner (h.then fun v => .pure ?_) (.pure le_rfl)
  exact le_of_eq (by simp [Passage.optional])

theorem lays_endStatement (leading : List Comment) :
    Lays bound before (endStatement leading) fun cs ms rest => ∃ last : Option Comment,
      cs = leading ++ last.toList ∧
      (before * words .statementEnd (Phrase.mark .semicolon) * sameLine last) ms rest := by
  refine (lays_mark .semicolon .statementEnd).then fun _ => ?_
  exact lays_trailing.then fun last => .pure fun ms rest hms => ⟨last, rfl, hms⟩

/-! ## Items and bodies -/

/-- What a step through a body does: it passes a declaration, or a comment where there is no
declaration, or a stray semicolon. It passes nothing where no comment stands next. -/
inductive ItemStep (empty : Phrase) (decl : Production α) (c : Cursor) :
    Option (BodyItem α) → Cursor → Prop
  | decl {w d} (r r' : Report) (matched : decl.run c r = .done w d r') :
      ItemStep empty decl c (some (.decl w)) d
  | comment {k d} (found : c.comment? = some (k, d)) (stuck : ∀ r, decl.stop? c r = none) :
      ItemStep empty decl c (some (.comment k)) d
  | stray {d} (l : Lexeme) (rest : c.rest = l :: d.rest) (token : l.token = .punct .semicolon)
      (allowed : [.punct .semicolon] ∈ empty) : ItemStep empty decl c (some .stray) d
  | none (missing : c.comment? = none) : ItemStep empty decl c none c

/-- A production for the items of a body with the given declarations. -/
def Steps (empty : Phrase) (decl : Production α) (item : Production (Option (BodyItem α))) : Prop :=
  ∀ c r v d r', item.run c r = .done v d r' → ItemStep empty decl c v d

theorem stop?_eq_none {p : Production α} {c : Cursor} {r r' : Report}
    (h : p.matchWith Nonterminal.matches c r = .failed r') (s : Report) : p.stop? c s = none := by
  rw [stop?_report p c s r, stop?, run, h]
  rfl

theorem commentOrStray_done {c d : Cursor} {r r' : Report} {i : BodyItem α}
    (h : commentOrStray.run c r = .done i d r') :
    (∃ k, i = .comment k ∧ c.comment? = some (k, d)) ∨
    (i = .stray ∧ ∃ l, c.rest = l :: d.rest ∧ l.token = .punct .semicolon) := by
  obtain ⟨found, e, s, hfound, h⟩ := matchWith_bind_done h
  rw [matchWith] at hfound
  cases hc : c.comment? with
  | some next =>
    rw [hc] at hfound
    cases hfound
    cases h
    exact .inl ⟨_, rfl, rfl⟩
  | none =>
    rw [hc] at hfound
    cases hfound
    obtain ⟨span, f, t, hpunct, h⟩ := matchWith_bind_done h
    cases h
    obtain ⟨l, hl, hread, -⟩ := Cursor.take?_eq_some.1 (take?_of_takeOr hpunct).1
    refine .inr ⟨rfl, l, ?_, (Terminal.read?_punct.1 hread).1⟩
    -- No comment stands before the semicolon.
    obtain ⟨i, rest⟩ := c
    cases rest with
    | nil => cases hl
    | cons m rest =>
      rwa [Cursor.significant_of_token (Cursor.head?_of_comment?_eq_none hc m rfl)] at hl

theorem commentOrStray_failed {c : Cursor} {r r' : Report}
    (h : (commentOrStray (α := α)).run c r = .failed r') : c.comment? = none := by
  rw [run, commentOrStray, matchWith_bind, matchWith] at h
  cases hc : c.comment? with
  | some next => rw [hc] at h; cases h
  | none => rfl

theorem steps_bodyItem (decl : Production α) :
    Steps (Phrase.mark .semicolon) decl (bodyItem decl) := by
  intro c r v d r' h
  change (Production.orElse _ (.orElse _ (.pure none))).matchWith _ c r = _ at h
  simp only [matchWith, matchWith_bind] at h
  cases hdecl : decl.matchWith Nonterminal.matches c r with
  | done w e s =>
    rw [hdecl] at h
    cases h
    exact .decl r _ hdecl
  | failed s =>
    rw [hdecl] at h
    dsimp only at h
    cases hstray : (commentOrStray (α := α)).matchWith Nonterminal.matches c s with
    | done i e s' =>
      rw [hstray] at h
      cases h
      rcases commentOrStray_done hstray with ⟨k, rfl, hk⟩ | ⟨rfl, l, hrest, hl⟩
      · exact .comment hk (stop?_eq_none hdecl)
      · exact .stray l hrest hl rfl
    | failed s' =>
      rw [hstray] at h
      cases h
      exact .none (commentOrStray_failed hstray)

theorem steps_aggregateItem : Steps 0 entry aggregateItem := by
  intro c r v d r' h
  change (Production.orElse _ _).matchWith _ c r = _ at h
  simp only [matchWith, matchWith_bind] at h
  cases hentry : entry.matchWith Nonterminal.matches c r with
  | done w e s =>
    rw [hentry] at h
    cases h
    exact .decl r _ hentry
  | failed s =>
    rw [hentry] at h
    cases hfound : c.comment? with
    | some found =>
      rw [hfound] at h
      cases h
      exact .comment hfound (stop?_eq_none hentry)
    | none =>
      rw [hfound] at h
      cases h
      exact .none hfound

theorem ItemStep.shorter {empty : Phrase} {decl : Production α} (hdecl : decl.Declares)
    {c d : Cursor} {v : BodyItem α} (h : ItemStep empty decl c (some v) d) :
    d.rest.length < c.rest.length := by
  cases h with
  | decl r r' hm => exact hdecl.passes c r _ d r' hm
  | comment hfound => exact Cursor.shorter_of_comment? hfound
  | stray l hrest => rw [hrest]; exact Nat.lt_succ_self _

/-- A comment at which there is no declaration is passed, and there is none behind it either. -/
theorem Declares.stuck {decl : Production α} (hdecl : decl.Declares) {c d : Cursor} {k : Comment}
    (h : c.comment? = some (k, d)) (hstuck : ∀ r, decl.stop? c r = none) :
    ∀ r, decl.stop? d r = none := by
  intro r
  obtain ⟨l, hrest, hl, hindex⟩ := Cursor.comment?_eq_some h
  obtain ⟨i, rest⟩ := c
  obtain ⟨j, rest'⟩ := d
  obtain rfl : rest = l :: rest' := hrest
  obtain rfl : j = i + 1 := hindex
  rw [← hdecl.unmoved i l rest' r (Lexeme.isComment_of_comment? hl)]
  exact hstuck r

end Production

/-- Items, also together with comments right before them, which there are only if `stuck`. -/
def Passage.Behind {α : Type} (stuck : Prop) (empty : Phrase) (item : α → Passage) (values : List α)
    (loose : List Comment) (ms : List Marked) (rest : List Lexeme) : Prop :=
  ∀ ls cs, ls.map Lexeme.comment? = cs.map some → (ls ≠ [] → stuck) →
    Items empty item values (cs ++ loose) (markAll .loose ls ++ ms) rest

namespace Passage.Behind

variable {α : Type} {stuck stuck' : Prop} {empty : Phrase} {L : α → Passage} {values : List α}
  {loose : List Comment} {ms : List Marked} {rest : List Lexeme}

theorem here (h : Behind stuck empty L values loose ms rest) :
    Items empty L values loose ms rest :=
  h [] [] rfl fun hne => absurd rfl hne

theorem done (h : ∀ l ∈ rest.head?, l.token.isComment = false) :
    Behind stuck empty L [] [] [] rest := by
  intro ls cs htexts _
  rw [List.append_nil, List.append_nil]
  exact .done ⟨ls, rfl, htexts, h⟩

theorem comment {l : Lexeme} {k : Comment} (hl : l.comment? = some k)
    (h : Behind stuck' empty L values loose ms rest) (hstuck : stuck') :
    Behind stuck empty L values (k :: loose) (⟨l, .loose⟩ :: ms) rest := by
  intro ls cs htexts _
  have hnext := h (ls ++ [l]) (cs ++ [k]) (by simp [htexts, hl]) fun _ => hstuck
  simpa [markAll] using hnext

theorem stray {l : Lexeme} (hl : l.token = .punct .semicolon)
    (hempty : [.punct .semicolon] ∈ empty) (h : Behind stuck' empty L values loose ms rest) :
    Behind stuck empty L values loose (⟨l, .stray⟩ :: ms) rest := by
  intro ls cs htexts _
  have htoken : l.token.isComment = false := by rw [hl]; rfl
  have hmark : [⟨l, .stray⟩] = markFirst .stray [l] := by rw [markFirst, htoken]; rfl
  have hfirst : (run .loose cs * words .stray empty) (markAll .loose ls ++ [⟨l, .stray⟩])
      (unmarked ms ++ rest) := by
    refine mul_append ⟨ls, rfl, htexts, ?_⟩ ⟨[l], hmark, ?_, ?_⟩
    · rintro m hm
      cases hm
      exact htoken
    · simpa [symbols, Lexeme.symbol?, hl] using hempty
    · rintro m hm
      cases hm
      exact htoken
  have hitems := Items.stray hfirst h.here
  rwa [List.append_assoc] at hitems

theorem item {value : α} {ns : List Marked} (hstuck : ¬ stuck)
    (hvalue : L value ns (unmarked ms ++ rest))
    (h : Behind stuck' empty L values loose ms rest) :
    Behind stuck empty L (value :: values) loose (ns ++ ms) rest := by
  intro ls cs htexts hls
  obtain rfl : ls = [] := by
    by_contra hne
    exact hstuck (hls hne)
  obtain rfl : cs = [] := List.map_eq_nil_iff.1 htexts.symm
  have hitems := Items.item hvalue h.here
  exact hitems

end Passage.Behind

namespace Production

variable {α β : Type} {bound : Nat} {before : Passage}

/-- The items of a body from a place on. Where there is no declaration, the comments before this
place may be among them: a declaration that is missing before a comment is missing behind it. -/
theorem matchLoop_items {empty : Phrase} {decl : Production α}
    {item : Production (Option (BodyItem α))} {L : α → Passage} (hitem : Steps empty decl item)
    (hdecl : decl.Declares) (hL : Lays bound 1 decl L) {c d : Cursor} {r r' : Report}
    {vs : List (BodyItem α)}
    (h : matchLoop (item.matchWith Nonterminal.matches) c r = .done vs d r')
    (hb : c.rest.length < bound) (hw : ∀ l ∈ c.rest, l.WellRead) :
    ∃ ms, c.rest = unmarked ms ++ d.rest ∧ Behind (∀ r, decl.stop? c r = none) empty L
      (vs.filterMap BodyItem.decl?) (vs.filterMap BodyItem.comment?) ms d.rest := by
  generalize hstep : item.matchWith Nonterminal.matches = step at h
  fun_induction matchLoop step c r generalizing vs with
  | case1 => cases h
  | case2 c r e s hs =>
    cases h
    cases hitem c r none d r' (by rw [run, hstep, hs]) with
    | none hmissing => exact ⟨[], rfl, .done (Cursor.head?_of_comment?_eq_none hmissing)⟩
  | case3 c r a e s hs hlt ih =>
    cases hl : matchLoop step e s with
    | failed _ => rw [hl] at h; cases h
    | done ws _ _ =>
      rw [hl] at h
      cases h
      have hnext (passed : List Lexeme) (hrest : c.rest = passed ++ e.rest) :=
        ih (by omega) (fun l hl => hw l (by rw [hrest]; exact List.mem_append_right _ hl)) hl
      cases hitem c r (some a) e s (by rw [run, hstep, hs]) with
      | decl t t' hm =>
        obtain ⟨passed, hrest, hlaid⟩ := hL c t _ e t' hm hb hw
        obtain ⟨ns, hns, hvalue⟩ := hlaid [] rfl
        obtain ⟨ms, hms, hbehind⟩ := hnext passed hrest
        rw [unmarked_nil, List.nil_append] at hns
        refine ⟨ns ++ ms, by rw [unmarked_append, hns, hrest, hms, List.append_assoc], ?_⟩
        refine .item (fun hstuck => ?_) (by rwa [← hms]) hbehind
        have hnone := hstuck t
        rw [stop?, hm] at hnone
        cases hnone
      | comment hfound hstuck =>
        obtain ⟨l, hrest, hcomment, -⟩ := Cursor.comment?_eq_some hfound
        obtain ⟨ms, hms, hbehind⟩ := hnext [l] hrest
        refine ⟨⟨l, .loose⟩ :: ms, by rw [hrest, hms]; rfl, ?_⟩
        exact .comment hcomment hbehind (hdecl.stuck hfound hstuck)
      | stray l hrest htoken hallowed =>
        obtain ⟨ms, hms, hbehind⟩ := hnext [l] hrest
        exact ⟨⟨l, .stray⟩ :: ms, by rw [hrest, hms]; rfl, .stray htoken hallowed hbehind⟩
  | case4 c r a e s hs hlt =>
    exact absurd ((hitem c r (some a) e s (by rw [run, hstep, hs])).shorter hdecl) hlt

theorem lays_items {empty : Phrase} {decl : Production α}
    {item : Production (Option (BodyItem α))} {L : α → Passage} (hitem : Steps empty decl item)
    (hdecl : decl.Declares) (hL : Lays bound 1 decl L) : Lays bound 1 (loop item) fun vs =>
      items empty L (vs.filterMap BodyItem.decl?) (vs.filterMap BodyItem.comment?) := by
  intro c r vs d r' h hb hw
  obtain ⟨ms, hrest, hbehind⟩ := matchLoop_items hitem hdecl hL h hb hw
  exact .of_marks ms hrest hbehind.here

/-- Items in braces. Behind the opening brace, fewer lexemes are left. -/
theorem lays_braces {empty : Phrase} {decl : Production α}
    {item : Production (Option (BodyItem α))} {L : α → Passage} (hitem : Steps empty decl item)
    (hdecl : decl.Declares) (hL : Lays bound 1 decl L) (closing : Role) :
    Lays (bound + 1) 1 (braces item) fun b =>
      Passage.braces closing (items empty L b.decls) b.comments := by
  refine (lays_mark .leftBrace .inner).bindPasses (consumes_takeOr _ _).passes fun _ => ?_
  refine lays_trailing.then fun opening => ?_
  refine (lays_items hitem hdecl hL).then fun is => ?_
  refine (lays_mark .rightBrace closing).then fun _ => .pure fun ms rest h => ?_
  exact ⟨opening, _, rfl, h⟩

/-- A body with the head before it makes up a declaration. -/
theorem lays_body {decl : Production α} {L : α → Passage} (leading : List Comment) (head : Phrase)
    (hdecl : decl.Declares) (hL : Lays bound 1 decl L) :
    Lays (bound + 1) (Passage.run .leading leading * words .start head) (body leading decl) fun b =>
      block b.comments head L b.decls := by
  refine (lays_braces (steps_bodyItem decl) hdecl hL .bodyEnd).then fun inner => ?_
  refine lays_trailing.then fun last => .pure fun ms rest h => ?_
  exact ⟨inner.comments, leading, last, rfl, by rwa [← mul_assoc (Passage.run .leading leading)]⟩

end Production

end ProtoSchema
