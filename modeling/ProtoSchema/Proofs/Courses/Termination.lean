import ProtoSchema.Proofs.Courses.Rules

/-
  Matching ends. A rule of the grammar has a course for any budget greater than the number of
  lexemes that are left: every turn of a loop and every nested construct passes a lexeme first, so
  nothing has to watch for that, and a loop over alternatives stops only where none of them matches
  (`courses_end`).
-/

namespace ProtoSchema

open Production

variable {α : Type}

/-! ## Nested constructs -/

/-- A nested construct passes its first lexeme before it refers to another one. -/
theorem Nonterminal.foretold_production
    {callee? : (n : Nonterminal) → Cursor → Option (Course n.Result)} {bound : Nat}
    (hcalls : ∀ turns n, (call n).Foretold callee? turns bound) (n : Nonterminal) :
    n.production.Foretold callee? (bound + 1) (bound + 1) := by
  have hrest {β : Type} {p : Production β} (h : p.Advances True) :
      p.Foretold callee? (bound + 1) bound :=
    h.foretold (Nat.le_succ bound) fun _ => hcalls _
  have hfirst {β : Type} {p : Production β} (h : p.Advances False) :
      p.Foretold callee? (bound + 1) (bound + 1) :=
    h.foretold (Nat.le_refl _) False.elim
  cases n with
  | aggregate =>
    have hbraces : (braces aggregateItem).Advances True := by simp
    refine .bind (.passing (hfirst (advances_punct _)) (passes_punct _) fun v => ?_) fun inner => ?_
    · exact hrest (hbraces.2 v)
    · exact hfirst trivial
  | message =>
    refine .bind (hfirst advances_comments) fun leading => ?_
    refine .passing (hfirst (advances_keyword _)) (passes_keyword _) fun first => ?_
    exact hrest ((advances_message.2 leading).2 first)

/-- As many levels as lexemes are left are enough for a nested construct. -/
theorem Nonterminal.foretells_course? (n : Nonterminal) {c : Cursor} {budget : Nat}
    (h : c.rest.length < budget) :
    ∃ course, n.course? budget c = some course ∧ course.Foretells c (n.matches c) := by
  induction budget generalizing n c with
  | zero => exact absurd h (Nat.not_lt_zero _)
  | succ budget ih =>
    obtain ⟨course, hcourse, hreaches, hreply⟩ :=
      Nonterminal.foretold_production (fun turns m d hd => ih m hd) n c h
    exact ⟨course, hcourse, hreaches, fun r => (n.matches_eq_run c r).trans (hreply r)⟩

/-- A production that moves on has a course, for any budget greater than the number of lexemes that
are left. -/
theorem Production.Advances.foretells_course? {p : Production α} (h : p.Advances True) {c : Cursor}
    {budget : Nat} (hbudget : c.rest.length < budget) :
    ∃ course, p.course? budget c = some course ∧ course.Foretells c (p.run c) :=
  h.foretold (Nat.le_refl budget) (fun _ n _ hd => n.foretells_course? hd) c hbudget

/-! ## Where a loop stops -/

/-- A loop that moves on stops at a step that gives nothing. -/
theorem matchLoop_stops {step : Cursor → Report → Reply (Option α)}
    (hdone : ∀ c r, ∃ v d r', step c r = .done v d r')
    (hmoves : ∀ c r v d r', step c r = .done (some v) d r' → d.rest.length < c.rest.length)
    (c : Cursor) (r : Report) :
    ∃ vs d e s r', matchLoop step c r = .done vs d r' ∧ step e s = .done none d r' := by
  fun_induction matchLoop step c r with
  | case1 c r r' hs =>
    obtain ⟨v, d, s, hdone⟩ := hdone c r
    rw [hs] at hdone
    cases hdone
  | case2 c r d r' hs => exact ⟨[], d, c, r, r', rfl, hs⟩
  | case3 c r v d r' hs hlt ih =>
    obtain ⟨vs, e, e', s, s', hloop, hstop⟩ := ih
    exact ⟨v :: vs, e, e', s, s', by rw [hloop]; rfl, hstop⟩
  | case4 c r v d r' hs hlt => exact absurd (hmoves c r v d r' hs) hlt

namespace Production

theorem bodyItem_done (decl : Production α) (c : Cursor) (r : Report) :
    ∃ v d r', (bodyItem decl).run c r = .done v d r' := by
  rw [bodyItem, run_orElse]
  cases (do return some (BodyItem.decl (← decl))).run c r with
  | done v d r' => exact ⟨v, d, r', rfl⟩
  | failed s =>
    dsimp only
    rw [run_orElse]
    cases (do return some (← commentOrStray) : Production (Option (BodyItem α))).run c s with
    | done v d r' => exact ⟨v, d, r', rfl⟩
    | failed s' => exact ⟨none, c, s', rfl⟩

theorem aggregateItem_done (c : Cursor) (r : Report) :
    ∃ v d r', aggregateItem.run c r = .done v d r' := by
  rw [aggregateItem, run_orElse]
  cases (do return some (BodyItem.decl (← entry))).run c r with
  | done v d r' => exact ⟨v, d, r', rfl⟩
  | failed s =>
    dsimp only
    rw [run_bind, run, matchWith]
    cases c.comment? with
    | none => exact ⟨none, c, s, rfl⟩
    | some next => exact ⟨_, _, _, rfl⟩

/-- An item of an aggregate is an entry or else a comment; there is none only where neither stands
next. -/
theorem aggregateItem_none {c d : Cursor} {r r' : Report}
    (hm : aggregateItem.run c r = .done none d r') :
    d = c ∧ c.comment? = none ∧ entry.run c r = .failed r' := by
  rw [aggregateItem, run_orElse, run_bind] at hm
  cases hentry : entry.run c r with
  | done v e s => rw [hentry] at hm; cases hm
  | failed s =>
    rw [hentry] at hm
    dsimp only at hm
    rw [run_bind, run, matchWith] at hm
    cases hc : c.comment? with
    | none => rw [hc] at hm; cases hm; exact ⟨rfl, rfl, rfl⟩
    | some next => rw [hc] at hm; cases hm

/-- The production has a course from `c` that gives nothing. -/
def Fails (p : Production α) (budget : Nat) (c : Cursor) : Prop :=
  ∃ course, p.course? budget c = some course ∧ course.value = none

theorem Advances.fails {p : Production α} (h : p.Advances True) {c : Cursor} {budget : Nat}
    (hbudget : c.rest.length < budget) {r r' : Report} (hm : p.run c r = .failed r') :
    p.Fails budget c := by
  obtain ⟨course, hcourse, hforetells⟩ := h.foretells_course? hbudget
  refine ⟨course, hcourse, ?_⟩
  cases hv : course.value with
  | none => rfl
  | some v =>
    rw [hforetells.run_eq hv] at hm
    cases hm

/-- The second alternative is taken only where the first one fails, and from the same place. -/
theorem course?_orElse {p q : Production α} {budget : Nat} {c : Cursor} {course : Course α}
    (h : (p <|> q).course? budget c = some course) :
    (course.value.isSome ∧ p.course? budget c = some course) ∨
    ∃ first second, p.course? budget c = some first ∧ first.value = none ∧
      q.course? budget c = some second ∧ course = ⟨first.misses ++ second.misses, second.value,
        if second.value.isSome then second.cursor else c⟩ := by
  change (Production.orElse p q).courseWith? _ _ c = _ at h
  rw [courseWith?] at h
  obtain ⟨first, hfirst, h⟩ := Option.bind_eq_some_iff.1 h
  rw [Course.orElse?] at h
  cases hv : first.value with
  | some v =>
    rw [hv] at h
    cases h
    exact .inl ⟨by rw [hv]; rfl, hfirst⟩
  | none =>
    rw [hv] at h
    obtain ⟨second, hsecond, rfl⟩ := Option.map_eq_some_iff.1 h
    exact .inr ⟨first, second, hfirst, hv, hsecond, rfl⟩

/-- A loop over items ends with all of them, at a place where there is no further item. -/
theorem course?_loop {item : Production (Option α)} (hadvances : item.Advances True)
    (hmoves : item.Moves) (hdone : ∀ c r, ∃ v d r', item.run c r = .done v d r') {c : Cursor}
    {budget : Nat} (hbudget : c.rest.length < budget) :
    ∃ course items e s r', (loop item).course? budget c = some course ∧ c.Reaches course.cursor ∧
      course.value = some items ∧ item.run e s = .done none course.cursor r' := by
  have hloop : (loop item).Advances True := ⟨hadvances, hmoves⟩
  obtain ⟨course, hcourse, hforetells⟩ := hloop.foretells_course? hbudget
  obtain ⟨vs, d, e, s, r', hm, hstop⟩ := matchLoop_stops hdone hmoves c .start
  have hreply := hforetells.reply_eq .start
  rw [run_loop, hm] at hreply
  cases hv : course.value with
  | none => rw [Course.reply, hv] at hreply; cases hreply
  | some items =>
    rw [Course.reply, hv] at hreply
    cases hreply
    exact ⟨course, vs, e, s, _, hcourse, hforetells.reaches, hv, hstop⟩

/-- A course that gives something has passed a lexeme, if every match of the production does. -/
theorem Advances.shorter_of_course? {p : Production α} (h : p.Advances True) {c : Cursor}
    {budget : Nat} (hbudget : c.rest.length < budget) {v : α}
    (hpasses : ∀ r d r', p.run c r = .done v d r' → d.rest.length < c.rest.length)
    {course : Course α} (hcourse : p.course? budget c = some course)
    (hv : course.value = some v) :
    c.Reaches course.cursor ∧ course.cursor.rest.length < c.rest.length := by
  obtain ⟨course', hcourse', hforetells⟩ := h.foretells_course? hbudget
  obtain rfl := Option.some.inj (hcourse.symm.trans hcourse')
  exact ⟨hforetells.reaches, hpasses .start _ _ (hforetells.run_eq hv .start)⟩

end Production

/-! ## Every rule comes to an end -/

namespace Cursor

/-- The place before the token with the given index. -/
def ofIndex (tokens : List Lexeme) (index : Nat) : Cursor := ⟨index, tokens.drop index⟩

theorem reaches_ofIndex {tokens : List Lexeme} {pos : Nat} (hpos : pos ≤ tokens.length) {d : Cursor}
    (h : (ofIndex tokens pos).Reaches d) :
    d = ofIndex tokens d.index ∧ pos ≤ d.index ∧ d.index + d.rest.length = tokens.length := by
  obtain ⟨passed, hpassed, hindex⟩ := h
  have hlength := congrArg List.length hpassed
  simp only [ofIndex, List.length_drop, List.length_append] at hpassed hindex hlength
  refine ⟨?_, by omega, by omega⟩
  obtain ⟨i, rest⟩ := d
  dsimp only at hpassed hindex
  rw [ofIndex, hindex, ← List.drop_drop, hpassed, List.drop_left]

theorem lt_index_of_shorter {tokens : List Lexeme} {pos : Nat} (hpos : pos ≤ tokens.length)
    {d : Cursor} (h : (ofIndex tokens pos).Reaches d ∧
      d.rest.length < (ofIndex tokens pos).rest.length) : pos < d.index := by
  obtain ⟨-, -, hlength⟩ := reaches_ofIndex hpos h.1
  have hlt := h.2
  rw [ofIndex, List.length_drop] at hlt
  omega

end Cursor

/-- From every place among the tokens, every rule of the grammar comes to an end, whatever the
tokens are: no loop takes more turns, and no construct contains more levels of others, than tokens
are left. A rule ends where it starts or further on, a mandatory one further on if it matches. An
alternative is tried where the one before it was, and if all fail this is where they end. A loop
over what may stand in a body or an aggregate moves on with each item, and stops where none of the
alternatives matches. -/
theorem courses_end {tokens : List Lexeme} {pos budget : Nat} (hpos : pos ≤ tokens.length)
    (hbudget : tokens.length - pos < budget) :
    (∀ {α : Type} {p : Production α}, p.Rule → ∃ course,
      p.course? budget (.ofIndex tokens pos) = some course ∧
      (∀ r, p.run (.ofIndex tokens pos) r = course.reply r) ∧
      course.cursor = .ofIndex tokens course.cursor.index ∧
      pos ≤ course.cursor.index ∧ course.cursor.index ≤ tokens.length ∧
      (p.Mandatory → course.value.isSome → pos < course.cursor.index)) ∧
    (∀ {α : Type} {p q : Production α} {course : Course α},
      (p <|> q).course? budget (.ofIndex tokens pos) = some course →
      (course.value.isSome ∧ p.course? budget (.ofIndex tokens pos) = some course) ∨
      (p.Fails budget (.ofIndex tokens pos) ∧ ∃ second,
        q.course? budget (.ofIndex tokens pos) = some second ∧ course.value = second.value ∧
        course.cursor = if second.value.isSome then second.cursor else .ofIndex tokens pos)) ∧
    (∀ {α : Type} {decl : Production α}, decl.Mandatory →
      (∀ turn i, (bodyItem decl).course? budget (.ofIndex tokens pos) = some turn →
        turn.value = some (some i) → pos < turn.cursor.index) ∧
      ∃ course items, (loop (bodyItem decl)).course? budget (.ofIndex tokens pos) = some course ∧
        course.value = some items ∧ decl.Fails budget course.cursor ∧
        (commentOrStray : Production (BodyItem α)).Fails budget course.cursor) ∧
    (∀ turn i, aggregateItem.course? budget (.ofIndex tokens pos) = some turn →
      turn.value = some (some i) → pos < turn.cursor.index) ∧
    ∃ course items, (loop aggregateItem).course? budget (.ofIndex tokens pos) = some course ∧
      course.value = some items ∧ entry.Fails budget course.cursor ∧
      course.cursor.comment? = none := by
  have hleft : (Cursor.ofIndex tokens pos).rest.length < budget := by
    rwa [Cursor.ofIndex, List.length_drop]
  refine ⟨fun {α p} hp => ?_, fun {α p q course} hcourse => ?_, fun {α decl} hdecl => ⟨?_, ?_⟩,
    ?_, ?_⟩
  · obtain ⟨course, hcourse, hforetells⟩ := hp.advances.foretells_course? hleft
    obtain ⟨hcursor, hle, hlength⟩ := Cursor.reaches_ofIndex hpos hforetells.reaches
    refine ⟨course, hcourse, hforetells.reply_eq, hcursor, hle, by omega, ?_⟩
    intro hmandatory hsome
    obtain ⟨v, hv⟩ := Option.isSome_iff_exists.1 hsome
    exact Cursor.lt_index_of_shorter hpos <| hp.advances.shorter_of_course? hleft
      (fun r d r' hm => hmandatory.passes _ r v d r' hm) hcourse hv
  · rcases course?_orElse hcourse with hfirst | ⟨first, second, hfirst, hnone, hsecond, rfl⟩
    · exact .inl hfirst
    · exact .inr ⟨⟨first, hfirst, hnone⟩, second, hsecond, rfl, rfl⟩
  · intro turn i hturn hv
    have hitem : (bodyItem decl).Advances True := advances_bodyItem hdecl.advances
    exact Cursor.lt_index_of_shorter hpos <| hitem.shorter_of_course? hleft
      (fun r d r' hm => moves_bodyItem hdecl.passes _ r i d r' hm) hturn hv
  · obtain ⟨course, items, e, s, r', hcourse, hreaches, hitems, hstop⟩ :=
      course?_loop (advances_bodyItem hdecl.advances) (moves_bodyItem hdecl.passes)
        (bodyItem_done decl) hleft
    have hbudget' : course.cursor.rest.length < budget :=
      Nat.lt_of_le_of_lt hreaches.length_le hleft
    rcases bodyItem_cases hstop with ⟨w, hw, -⟩ | ⟨i, s', hi, -⟩ | ⟨-, hd, s', hfail, hfail'⟩
    · cases hw
    · cases hi
    · rw [← hd] at hfail hfail'
      exact ⟨course, items, hcourse, hitems, hdecl.advances.fails hbudget' hfail,
        advances_commentOrStray.fails hbudget' hfail'⟩
  · intro turn i hturn hv
    exact Cursor.lt_index_of_shorter hpos <| advances_aggregateItem.shorter_of_course? hleft
      (fun r d r' hm => moves_aggregateItem _ r i d r' hm) hturn hv
  · obtain ⟨course, items, e, s, r', hcourse, hreaches, hitems, hstop⟩ :=
      course?_loop advances_aggregateItem moves_aggregateItem aggregateItem_done hleft
    have hbudget' : course.cursor.rest.length < budget :=
      Nat.lt_of_le_of_lt hreaches.length_le hleft
    obtain ⟨hd, hcomment, hfail⟩ := aggregateItem_none hstop
    rw [← hd] at hcomment hfail
    exact ⟨course, items, hcourse, hitems, advances_entry.fails hbudget' hfail, hcomment⟩

theorem courses_end_message : ∃ (tokens : List Lexeme) (course : Course Message),
    tokens.map (·.spelling) = ["message", "M", "\x7b", "\x7d"] ∧
    (0 ≤ tokens.length ∧ tokens.length - 0 < 5) ∧
    (call .message).course? 5 (.ofIndex tokens 0) = some course ∧ course.value.isSome ∧
    0 < course.cursor.index ∧ course.cursor.index = tokens.length := by
  let mark (p : Punct) : Lexeme := ⟨.punct p, String.singleton p.char, ⟨0, 0⟩⟩
  let tokens : List Lexeme := [⟨.word (.keyword .messageKw), "message", ⟨0, 0⟩⟩,
    ⟨.word (.ident "M"), "M", ⟨0, 0⟩⟩, mark .leftBrace, mark .rightBrace]
  have hpos : 0 ≤ tokens.length := Nat.zero_le _
  have hbudget : tokens.length - 0 < 5 := by decide
  obtain ⟨course, hcourse, -, -, -, -, hlt⟩ := (courses_end hpos hbudget).1 (.inl (.call .message))
  have hend : ((call .message).course? 5 (.ofIndex tokens 0)).map
      (fun course => (course.value.isSome, course.cursor.index)) = some (true, 4) := by
    decide +kernel
  rw [hcourse, Option.map_some, Option.some.injEq, Prod.mk.injEq] at hend
  exact ⟨tokens, course, by decide, ⟨hpos, hbudget⟩, hcourse, hend.1,
    hlt (.call .message) hend.1, hend.2⟩

end ProtoSchema
