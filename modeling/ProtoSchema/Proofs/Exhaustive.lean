import ProtoSchema.Proofs.Blame
import ProtoSchema.Proofs.Genuine

/-
  How much a report leaves out. A lexeme that may be missing is looked for without a note, so a file
  could go on with it although nothing in the report says so. `Expectation.omitted` lists for every
  expectation the classes that may stand in front of what it means, and `Exhaustive` follows the
  classes that a production has looked for in vain to the next note. A file that is read up to the
  end of the lexemes before the one that was blamed, and another one that goes on with a lexeme `l`,
  are read alike until the second reading takes `l`; from there on the class of `l` is among those
  that the first one has looked for in vain, and what it notes next answers to this class:
  `expectation_exhaustive`.
-/

namespace ProtoSchema

/-! ## What may be left out -/

namespace Expectation

/-- The classes of lexemes that may be left out in front of what `e` means. They are looked for
without a note, also where nothing else follows but `e`. -/
def omitted : Expectation → List Terminal
  | punct .semicolon => [.string, .punct .dot, .punct .comma, .punct .leftBracket, .keyword .toKw]
  | punct .rightBracket => [.string, .punct .dot, .punct .comma]
  | punct .rightParen | punct .leftBrace | punct .equals | punct .comma | punct .rightAngle =>
    [.punct .dot]
  | punct .colon => [.punct .leftBrace]
  | identifier => [.punct .dot]
  | identifierOrBracket => [.string, .punct .dot, .punct .comma, .punct .semicolon]
  | constant => [.punct .leftBrace, .punct .leftBracket, .punct .rightBracket]
  | stringLiteral => [.keyword .weakKw, .keyword .publicKw]
  | _ => []

/-- The lexemes that `e` means, and those that may be left out in front of them. -/
def Admits (e : Expectation) (l : Lexeme) : Prop :=
  e.Describes l ∨ ∃ t ∈ e.omitted, (t.read? l).isSome

/-- Whether all lexemes of the class are among those that `e` means. -/
def includes : Expectation → Terminal → Bool
  | punct p, t => t = .punct p
  | keyword k, t => t = .keyword k
  | identifier, .word | identifier, .name | identifier, .keyword _ => true
  | identifierOrParen, t => t = .word ∨ t = .punct .leftParen
  | identifierOrBracket, t => t = .word ∨ t = .punct .leftBracket
  | constant, .string | constant, .name | constant, .literal => true
  | integer, t => t = .integer
  | integerOrMax, t => t = .integer ∨ t = .keyword .maxKw
  | stringLiteral, t => t = .string
  | bodyOrSemicolon, t => t = .punct .leftBrace ∨ t = .punct .semicolon
  | _, _ => false

/-- Whether a note of `e` speaks for lexemes of the class. -/
def answers (e : Expectation) (t : Terminal) : Bool := e.includes t || t ∈ e.omitted

variable {e : Expectation} {t : Terminal} {l : Lexeme}

theorem describes_constant_of_literal (h : (Terminal.literal.read? l).isSome) :
    constant.Describes l := by
  obtain ⟨v, hv⟩ := Option.isSome_iff_exists.1 h
  have hliteral := Terminal.read?_literal.1 hv
  unfold Describes
  cases htoken : l.token with
  | int n => exact .inr (.inl ⟨n, rfl⟩)
  | float x => exact .inr (.inr (.inl ⟨x, rfl⟩))
  | word w => exact .inr (.inr (.inr ⟨w, rfl⟩))
  | string | punct | lineComment | blockComment => rw [htoken] at hliteral; cases hliteral

/-- What is reported when a lexeme of the class is missing means all lexemes of the class. -/
theorem describes_expectation (h : (t.read? l).isSome) : t.expectation.Describes l := by
  obtain ⟨v, hv⟩ := Option.isSome_iff_exists.1 h
  cases t with
  | punct p => exact (Terminal.read?_punct.1 hv).1
  | keyword k =>
    obtain ⟨w, hw, hk, -⟩ := Terminal.read?_keyword.1 hv
    cases w with
    | keyword found => exact .inl (by rw [hw, beq_iff_eq.1 hk])
    | ident text => exact .inr (by rw [hw, beq_iff_eq.1 hk])
    | bool | null => cases hk
  | word =>
    obtain ⟨w, hw, -⟩ := Terminal.read?_word.1 hv
    exact ⟨w, hw⟩
  | name =>
    obtain ⟨w, hw, -⟩ := Terminal.read?_name.1 hv
    exact ⟨w, hw⟩
  | integer => exact ⟨v, Terminal.read?_integer.1 hv⟩
  | string => exact ⟨v, Terminal.read?_string.1 hv⟩
  | literal => exact describes_constant_of_literal h

theorem describes_identifier_of_keyword {k : Keyword} (h : (keyword k).Describes l) :
    identifier.Describes l := by
  rcases h with h | h <;> exact ⟨_, h⟩

theorem describes_of_includes (h : e.includes t) (hread : (t.read? l).isSome) :
    e.Describes l := by
  have hsimple := describes_expectation hread
  cases e with
  | punct | keyword | integer | stringLiteral =>
    obtain rfl := of_decide_eq_true h
    exact hsimple
  | identifierOrParen | identifierOrBracket | integerOrMax | bodyOrSemicolon =>
    obtain rfl | rfl := of_decide_eq_true h
    · exact .inl hsimple
    · exact .inr hsimple
  | identifier =>
    cases t with
    | word | name => exact hsimple
    | keyword k => exact describes_identifier_of_keyword hsimple
    | punct | integer | string | literal => cases h
  | constant =>
    cases t with
    | string => exact .inl hsimple
    | name => exact .inr (.inr (.inr hsimple))
    | literal => exact hsimple
    | punct | integer | word | keyword => cases h

theorem admits_of_answers (h : e.answers t) (hread : (t.read? l).isSome) : e.Admits l := by
  rcases Bool.or_eq_true_iff.1 h with h | h
  · exact .inl (describes_of_includes h hread)
  · exact .inr ⟨t, of_decide_eq_true h, hread⟩

/-- Every token is meant by some expectation. -/
theorem exists_describes (h : l.token.isComment = false) :
    ∃ e : Expectation, e.Describes l := by
  cases htoken : l.token with
  | punct p => exact ⟨.punct p, htoken⟩
  | word w => exact ⟨.identifier, w, htoken⟩
  | int n => exact ⟨.integer, n, htoken⟩
  | float x => exact ⟨.constant, .inr (.inr (.inl ⟨x, htoken⟩))⟩
  | string s => exact ⟨.stringLiteral, s, htoken⟩
  | lineComment | blockComment => rw [htoken] at h; cases h

end Expectation

/-! ## Reading up to the end of the lexemes -/

/-- The cursor among more lexemes: those in `tail` follow as well. -/
def Cursor.before (tail : List Lexeme) (c : Cursor) : Cursor := ⟨c.index, c.rest ++ tail⟩

/-- The reply among more lexemes. -/
def Reply.before {α : Type} (tail : List Lexeme) : Reply α → Reply α
  | done v d r => done v (d.before tail) r
  | failed r => failed r

/-- Only comments follow. -/
def Cursor.Ended (c : Cursor) : Prop := ∀ x ∈ c.rest, x.token.isComment = true

namespace Cursor

variable {ls tail more : List Lexeme} {l : Lexeme} {c d : Cursor} {t : Terminal}

@[simp] theorem index_before : (c.before tail).index = c.index := rfl

@[simp] theorem rest_before : (c.before tail).rest = c.rest ++ tail := rfl

theorem Ended.reaches (h : c.Ended) (hd : c.Reaches d) : d.Ended := by
  obtain ⟨passed, hrest, -⟩ := hd
  exact fun x hx => h x (hrest ▸ List.mem_append_right _ hx)

theorem Ended.significant (h : c.Ended) :
    c.significant = ⟨c.index + c.rest.length, []⟩ := by
  rw [Cursor.significant, List.takeWhile_eq_self_iff.2 h, List.drop_length]

theorem Ended.take? (h : c.Ended) (t : Terminal) : c.take? t = none := by
  rw [Cursor.take?, h.significant]

/-- Where only comments follow, the next token is the first of those that follow as well. -/
theorem Ended.significant_before (h : c.Ended) (hl : l.token.isComment = false) :
    (c.before (l :: more)).significant = ⟨c.index + c.rest.length, l :: more⟩ := by
  obtain ⟨i, rest⟩ := c
  induction rest generalizing i with
  | nil => exact significant_of_token hl
  | cons x rest ih =>
    have hfirst : x.token.isComment = true := h x List.mem_cons_self
    change Cursor.significant ⟨i, x :: (rest ++ l :: more)⟩ = _
    rw [significant_of_comment hfirst,
      show Cursor.significant ⟨i + 1, rest ++ l :: more⟩ = _ from
        ih (i + 1) fun y hy => h y (List.mem_cons_of_mem _ hy)]
    simp only [List.length_cons, Cursor.mk.injEq, and_true]
    omega

/-- Either only comments follow, or a token does, which is the next one among more lexemes too. -/
theorem ended_or_significant (c : Cursor) (tail : List Lexeme) : c.Ended ∨
    ∃ i x rest, c.significant = ⟨i, x :: rest⟩ ∧
      (c.before tail).significant = ⟨i, x :: (rest ++ tail)⟩ := by
  obtain ⟨i, rest⟩ := c
  induction rest generalizing i with
  | nil => exact .inl fun _ hx => nomatch hx
  | cons x rest ih =>
    cases hx : x.token.isComment with
    | false =>
      exact .inr ⟨i, x, rest, significant_of_token hx, significant_of_token hx⟩
    | true =>
      rcases ih (i + 1) with hended | ⟨j, y, others, hy, hy'⟩
      · exact .inl (List.forall_mem_cons.2 ⟨hx, hended⟩)
      · exact .inr ⟨j, y, others, (significant_of_comment hx).trans hy,
          (significant_of_comment hx).trans hy'⟩

/-- A class is looked for with the same result among more lexemes, unless none are left and the
first that follows belongs to the class. -/
theorem take?_before (c : Cursor) (t : Terminal) (hl : l.token.isComment = false)
    (more : List Lexeme) :
    (c.Ended ∧ (t.read? l).isSome) ∨ (c.before (l :: more)).take? t =
      (c.take? t).map fun found => (found.1, found.2.before (l :: more)) := by
  rcases c.ended_or_significant (l :: more) with hended | ⟨i, x, rest, hc, hc'⟩
  · cases hread : t.read? l with
    | some v => exact .inl ⟨hended, rfl⟩
    | none =>
      right
      rw [hended.take? t, take?, hended.significant_before hl]
      simp only [hread, Option.map_none]
  · right
    rw [take?, take?, hc, hc']
    dsimp only
    cases t.read? x <;> rfl

theorem comment?_before (c : Cursor) (hl : l.token.isComment = false) :
    (c.before (l :: more)).comment? =
      c.comment?.map fun found => (found.1, found.2.before (l :: more)) := by
  obtain ⟨i, rest⟩ := c
  cases rest with
  | nil => exact decidesByToken_comment?.token i l more hl
  | cons x rest =>
    obtain ⟨token, _, _⟩ := x
    cases token <;> rfl

theorem trailing?_before (c : Cursor) (hl : l.token.isComment = false) :
    (c.before (l :: more)).trailing? =
      c.trailing?.map fun found => (found.1, found.2.before (l :: more)) := by
  obtain ⟨i, rest⟩ := c
  cases rest with
  | nil => exact decidesByToken_trailing?.token i l more hl
  | cons x rest =>
    obtain ⟨token, _, _⟩ := x
    cases token with
    | lineComment text trails => cases trails <;> rfl
    | _ => rfl

theorem Among.index_significant_le (hc : c.Among ls) (hd : c.Reaches d) :
    d.significant.index ≤ ls.length :=
  Among.index_le (hc.trans (hd.trans (reaches_significant d)))

/-- Where only comments follow, the next token would stand at the end of the lexemes. -/
theorem Ended.significant_index (h : c.Ended) (hc : c.Among ls) :
    c.significant.index = ls.length := by
  rw [h.significant]
  exact hc.index_add_length

theorem significant_index_before (c : Cursor) (hl : l.token.isComment = false) :
    (c.before (l :: more)).significant.index = c.significant.index := by
  rcases c.ended_or_significant (l :: more) with hended | ⟨i, x, rest, hc, hc'⟩
  · rw [hended.significant, hended.significant_before hl]
  · rw [hc, hc']

end Cursor

/-! ## What is noted at the end of the lexemes -/

/-- The report speaks for `l` at the end of the lexemes `ls`. -/
structure Report.Heard (ls : List Lexeme) (l : Lexeme) (r : Report) : Prop where
  furthest : r.furthest = ls.length
  admits : ∃ e ∈ r.expected, e.Admits l

namespace Report

variable {ls : List Lexeme} {l : Lexeme} {r s : Report} {c d : Cursor}

theorem furthest_note_le {i n : Nat} {e : Expectation} (hr : r.furthest ≤ n) (hi : i ≤ n) :
    (r.note i e).furthest ≤ n := by
  rw [furthest_note]
  exact Nat.max_le.2 ⟨hr, hi⟩

theorem Noted.furthest_le (h : r.Noted c s) (hc : c.Among ls) (hr : r.furthest ≤ ls.length) :
    s.furthest ≤ ls.length := by
  induction h with
  | refl => exact hr
  | note _ hd e ih => exact furthest_note_le ih (hc.index_significant_le hd)

/-- A note at the end of the lexemes stands in the report. -/
theorem heard_note {e : Expectation} (hr : r.furthest ≤ ls.length) (he : e.Admits l) :
    (r.note ls.length e).Heard ls l := by
  refine ⟨(furthest_note r _ e).trans (Nat.max_eq_right hr), e, ?_, he⟩
  unfold note
  split
  · exact List.mem_singleton_self e
  · split
    · next hskip => exact hskip.resolve_left (Nat.not_lt_of_le hr)
    · exact List.mem_append_right _ (List.mem_singleton_self e)

/-- What a report says of the end of the lexemes it goes on to say. -/
theorem Heard.note {i : Nat} {e : Expectation} (h : r.Heard ls l) (hi : i ≤ ls.length) :
    (r.note i e).Heard ls l := by
  refine ⟨?_, ?_⟩
  · rw [furthest_note, h.furthest, Nat.max_eq_left hi]
  · obtain ⟨e', he', hadmits⟩ := h.admits
    refine ⟨e', ?_, hadmits⟩
    unfold Report.note
    rw [if_neg (Nat.not_lt_of_le (h.furthest ▸ hi))]
    split
    · exact he'
    · exact List.mem_append_left _ he'

theorem Heard.noted (h : r.Heard ls l) (hc : c.Among ls) (hs : r.Noted c s) : s.Heard ls l := by
  induction hs with
  | refl => exact h
  | note _ hd e ih => exact ih.note (hc.index_significant_le hd)

end Report

/-! ## Productions that leave nothing out -/

namespace Production

/-- A production that looks for classes of lexemes so that each of them is answered by a later
note. `ts` are classes looked for in vain before it, since the last lexeme passed; after it, these
are at most those of `Q`. -/
inductive Exhaustive : {α : Type} → List Terminal → (α → List Terminal) → Production α → Prop
  | pure {α : Type} {ts} {Q : α → List Terminal} {v : α} (h : ts ⊆ Q v) :
      Exhaustive ts Q (.pure v)
  | bind {α β : Type} {ts} {Q : α → List Terminal} {R : β → List Terminal} {p : Production α}
      {k : α → Production β} (first : Exhaustive ts Q p) (others : ∀ v, Exhaustive (Q v) R (k v)) :
      Exhaustive ts R (.bind p k)
  | sees {ts} (t : Terminal) :
      Exhaustive ts (fun seen => if seen then [] else t :: ts) (.sees t)
  | take {ts} (t : Terminal) :
      Exhaustive ts (fun found => if found.isSome then [] else t :: ts) (.take t)
  | comment {ts} : Exhaustive ts (fun _ => ts) .comment
  | trailing {ts} : Exhaustive ts (fun _ => ts) .trailing
  | fail {α : Type} {ts} {Q : α → List Terminal} {e : Expectation}
      (answered : ∀ t ∈ ts, e.answers t) : Exhaustive ts Q (.fail e)
  | orElse {α : Type} {ts} {Q : α → List Terminal} {p q : Production α}
      (first : Exhaustive ts Q p) (second : Exhaustive [] Q q) : Exhaustive ts Q (.orElse p q)
  | loop {α : Type} {ts us} {Q : Option α → List Terminal} {p : Production (Option α)}
      (step : Exhaustive ts Q p) (again : ∀ v, Q (some v) ⊆ ts) (stop : Q none ⊆ us)
      (idle : (∀ v, Q (some v) ⊆ us) ∨ ∀ callee c r v d r', callee.Reaches →
        p.matchWith callee c r = .done (some v) d r' → d.rest.length < c.rest.length) :
      Exhaustive ts (fun _ => us) (.loop p)
  | call (n : Nonterminal) : Exhaustive [] (fun _ => []) (.call n)
  | weaken {α : Type} {ts us} {Q R : α → List Terminal} {p : Production α}
      (h : Exhaustive us Q p) (before : ts ⊆ us) (after : ∀ v, Q v ⊆ R v) : Exhaustive ts R p

end Production

/-- The lexeme belongs to one of the classes. -/
def Lexeme.Among (ts : List Terminal) (l : Lexeme) : Prop := ∃ t ∈ ts, (t.read? l).isSome

theorem Lexeme.Among.mono {ts us : List Terminal} {l : Lexeme} (h : l.Among ts) (hle : ts ⊆ us) :
    l.Among us := by
  obtain ⟨t, ht, hread⟩ := h
  exact ⟨t, hle ht, hread⟩

/-- The reply of a match at the end of the lexemes `ls` where the lexeme `l` has been looked for in
vain: either this has been noted, or there is a match that ends there and `l` is still among the
classes `Q` to be answered. -/
def Reply.Pends {α : Type} (ls : List Lexeme) (l : Lexeme) (Q : α → List Terminal) :
    Reply α → Prop
  | done v d r => r.Heard ls l ∨ d.Ended ∧ l.Among (Q v)
  | failed r => r.Heard ls l

namespace Reply

variable {α β : Type} {ls : List Lexeme} {l : Lexeme} {Q R : α → List Terminal} {reply : Reply α}

theorem Pends.of_heard (h : reply.report.Heard ls l) : reply.Pends ls l Q := by
  cases reply with
  | done v d r => exact .inl h
  | failed r => exact h

theorem Pends.mono (h : reply.Pends ls l Q) (hle : ∀ v, Q v ⊆ R v) : reply.Pends ls l R := by
  cases reply with
  | done v d r => exact h.imp id fun ⟨hend, hl⟩ => ⟨hend, hl.mono (hle v)⟩
  | failed r => exact h

theorem Pends.map {us : List Terminal} (f : α → β) (h : reply.Pends ls l fun _ => us) :
    (reply.map f).Pends ls l fun _ => us := by
  cases reply <;> exact h

/-- What comes after a report that speaks for the lexeme. -/
theorem Notes.pends {c : Cursor} {r : Report} (h : reply.Notes c r) (hr : r.Heard ls l)
    (hc : c.Among ls) : reply.Pends ls l Q :=
  .of_heard (hr.noted hc h.noted)

theorem before_map (tail : List Lexeme) (f : α → β) :
    (reply.map f).before tail = (reply.before tail).map f := by
  cases reply <;> rfl

end Reply

section Loop

variable {α : Type} {ls more : List Lexeme} {l : Lexeme} {ts us : List Terminal}
  {Q : Option α → List Terminal} {step step' : Cursor → Report → Reply (Option α)}

/-- A loop that starts where `l` has been looked for in vain. -/
theorem matchLoop_pends (hreaches : ∀ c r v d r', step c r = .done v d r' → c.Reaches d)
    (hnotes : ∀ c r, (step c r).Notes c r)
    (hstep : ∀ c r, c.Among ls → r.furthest ≤ ls.length → c.Ended → l.Among ts →
      (step c r).Pends ls l Q)
    (hstop : Q none ⊆ us)
    (hidle : (∀ v, Q (some v) ⊆ us) ∨
      ∀ c r v d r', step c r = .done (some v) d r' → d.rest.length < c.rest.length)
    {c : Cursor} {r : Report} (hc : c.Among ls) (hr : r.furthest ≤ ls.length) (hend : c.Ended)
    (hl : l.Among ts) : (matchLoop step c r).Pends ls l fun _ => us := by
  fun_induction matchLoop step c r with
  | case1 c r r' hs =>
    have hpends := hstep c r hc hr hend hl
    rwa [hs] at hpends
  | case2 c r d r' hs =>
    have hpends := hstep c r hc hr hend hl
    rw [hs] at hpends
    exact hpends.imp_right (And.imp_right fun hl => hl.mono hstop)
  | case3 c r v d r' hs hlt ih =>
    have hpends := hstep c r hc hr hend hl
    have hnoted := hnotes c r
    rw [hs] at hpends hnoted
    have hd : d.Among ls := hc.trans (hreaches c r _ d r' hs)
    rcases hpends with hheard | ⟨hdend, -⟩
    · exact Reply.Pends.map _ ((matchLoop_notes hreaches hnotes d r').pends hheard hd)
    · exact Reply.Pends.map _ (ih hd (hnoted.furthest_le hc hr) hdend)
  | case4 c r v d r' hs hlt =>
    have hpends := hstep c r hc hr hend hl
    rw [hs] at hpends
    rcases hpends with hheard | ⟨-, hl⟩
    · exact .inl hheard
    · rcases hidle with hidle | hidle
      · exact .inr ⟨hend, hl.mono (hidle v)⟩
      · exact absurd (hidle c r v d r' hs) hlt

/-- A loop and the same loop among more lexemes. -/
theorem matchLoop_pends_or_eq (hreaches : ∀ c r v d r', step c r = .done v d r' → c.Reaches d)
    (hnotes : ∀ c r, (step c r).Notes c r)
    (htogether : ∀ c r, c.Among ls → r.furthest ≤ ls.length → (step c r).Pends ls l Q ∨
      step' (c.before (l :: more)) r = (step c r).before (l :: more))
    (hstep : ∀ c r, c.Among ls → r.furthest ≤ ls.length → c.Ended → l.Among ts →
      (step c r).Pends ls l Q)
    (hagain : ∀ v, Q (some v) ⊆ ts) (hstop : Q none ⊆ us)
    (hidle : (∀ v, Q (some v) ⊆ us) ∨
      ∀ c r v d r', step c r = .done (some v) d r' → d.rest.length < c.rest.length)
    {c : Cursor} {r : Report} (hc : c.Among ls) (hr : r.furthest ≤ ls.length) :
    ((matchLoop step c r).Pends ls l fun _ => us) ∨
      matchLoop step' (c.before (l :: more)) r = (matchLoop step c r).before (l :: more) := by
  fun_induction matchLoop step c r with
  | case1 c r r' hs =>
    have hboth := htogether c r hc hr
    rw [hs] at hboth
    refine hboth.imp id fun hsame => ?_
    rw [matchLoop, hsame]
    rfl
  | case2 c r d r' hs =>
    have hboth := htogether c r hc hr
    rw [hs] at hboth
    refine hboth.imp (fun h => h.imp_right (And.imp_right fun hl => hl.mono hstop)) fun hsame => ?_
    rw [matchLoop, hsame]
    rfl
  | case3 c r v d r' hs hlt ih =>
    have hboth := htogether c r hc hr
    have hnoted := hnotes c r
    rw [hs] at hboth hnoted
    have hd : d.Among ls := hc.trans (hreaches c r _ d r' hs)
    have hr' := hnoted.furthest_le hc hr
    rcases hboth with (hheard | ⟨hdend, hl⟩) | hsame
    · exact .inl (.map _ ((matchLoop_notes hreaches hnotes d r').pends hheard hd))
    · exact .inl (.map _
        (matchLoop_pends hreaches hnotes hstep hstop hidle hd hr' hdend (hl.mono (hagain v))))
    · refine (ih hd hr').imp (.map _) fun hrest => ?_
      rw [matchLoop, hsame]
      dsimp only [Reply.before]
      rw [if_pos (by simpa using hlt), hrest]
      exact (Reply.before_map _ _).symm
  | case4 c r v d r' hs hlt =>
    have hboth := htogether c r hc hr
    rw [hs] at hboth
    rcases hboth with (hheard | ⟨hdend, hl⟩) | hsame
    · exact .inl (.inl hheard)
    · obtain rfl := (hreaches c r _ d r' hs).eq_of_not_shorter hlt
      rcases hidle with hidle | hidle
      · exact .inl (.inr ⟨hdend, hl.mono (hidle v)⟩)
      · exact absurd (hidle _ r v _ r' hs) hlt
    · right
      rw [matchLoop, hsame]
      dsimp only [Reply.before]
      rw [if_neg (by simpa using hlt)]

end Loop

namespace Production

variable {ls more : List Lexeme} {l : Lexeme} {callee callee' : Callee}

/-- Where `l` has been looked for in vain, an exhaustive production notes this, or else goes on to
look for it in vain. -/
theorem Exhaustive.pends (hreaches : callee.Reaches) (hnotes : callee.Notes) {α : Type}
    {ts : List Terminal} {Q : α → List Terminal} {p : Production α} (h : Exhaustive ts Q p)
    {c : Cursor} {r : Report} (hc : c.Among ls) (hr : r.furthest ≤ ls.length) (hend : c.Ended)
    (hl : l.Among ts) : (p.matchWith callee c r).Pends ls l Q := by
  induction h generalizing c r with
  | pure h => exact .inr ⟨hend, hl.mono h⟩
  | @bind _ _ ts Q R p k _ _ ihp ihk =>
    have hfirst := ihp hc hr hend hl
    have hnoted := p.matchWith_notes hreaches hnotes c r
    simp only [matchWith]
    cases hm : p.matchWith callee c r with
    | failed s => rwa [hm] at hfirst
    | done v d s =>
      rw [hm] at hfirst hnoted
      have hd : d.Among ls := hc.trans (matchWith_reaches hreaches p hm)
      rcases hfirst with hheard | ⟨hdend, hl⟩
      · exact ((k v).matchWith_notes hreaches hnotes d s).pends hheard hd
      · exact ihk v hd (hnoted.furthest_le hc hr) hdend hl
  | sees t =>
    simp only [matchWith, hend.take? t]
    exact .inr ⟨hend, hl.mono (List.subset_cons_self _ _)⟩
  | take t =>
    simp only [matchWith, hend.take? t]
    exact .inr ⟨hend, hl.mono (List.subset_cons_self _ _)⟩
  | comment =>
    have hreach {v d} (h : c.comment? = some (v, d)) := Cursor.reaches_of_comment? h
    simp only [matchWith]
    cases hf : c.comment? with
    | none => exact .inr ⟨hend, hl⟩
    | some found => exact .inr ⟨hend.reaches (hreach hf), hl⟩
  | trailing =>
    have hreach {v d} (h : c.trailing? = some (v, d)) := Cursor.reaches_of_trailing? h
    simp only [matchWith]
    cases hf : c.trailing? with
    | none => exact .inr ⟨hend, hl⟩
    | some found => exact .inr ⟨hend.reaches (hreach hf), hl⟩
  | @fail _ ts Q e answered =>
    obtain ⟨t, ht, hread⟩ := hl
    simp only [matchWith]
    rw [hend.significant_index hc]
    exact Report.heard_note hr (Expectation.admits_of_answers (answered t ht) hread)
  | @orElse _ ts Q p q _ _ ihp ihq =>
    have hfirst := ihp hc hr hend hl
    simp only [matchWith]
    cases hm : p.matchWith callee c r with
    | done v d s => rwa [hm] at hfirst
    | failed s =>
      rw [hm] at hfirst
      exact (q.matchWith_notes hreaches hnotes c s).pends hfirst hc
  | @loop _ ts us Q p _ _ hstop hidle ih =>
    exact matchLoop_pends (fun _ _ _ _ _ => matchWith_reaches hreaches p)
      (p.matchWith_notes hreaches hnotes) (fun _ _ hc hr hend hl => ih hc hr hend hl) hstop
      (hidle.imp id fun h c r v d r' => h callee c r v d r' hreaches) hc hr hend hl
  | call n =>
    obtain ⟨t, ht, -⟩ := hl
    cases ht
  | weaken _ hbefore hafter ih => exact (ih hc hr hend (hl.mono hbefore)).mono hafter

/-- An exhaustive production is matched alike among more lexemes, unless it looks in vain for the
first of them. -/
theorem Exhaustive.pends_or_eq (hl : l.token.isComment = false) (hreaches : callee.Reaches)
    (hnotes : callee.Notes)
    (hcallee : ∀ n c r, c.Among ls → r.furthest ≤ ls.length →
      ((callee n c r).Pends ls l fun _ => []) ∨
        callee' n (c.before (l :: more)) r = (callee n c r).before (l :: more))
    {α : Type} {ts : List Terminal} {Q : α → List Terminal} {p : Production α}
    (h : Exhaustive ts Q p) {c : Cursor} {r : Report} (hc : c.Among ls)
    (hr : r.furthest ≤ ls.length) : (p.matchWith callee c r).Pends ls l Q ∨
      p.matchWith callee' (c.before (l :: more)) r =
        (p.matchWith callee c r).before (l :: more) := by
  induction h generalizing c r with
  | pure => exact .inr rfl
  | @bind _ _ ts Q R p k _ hk ihp ihk =>
    have hfirst := ihp hc hr
    have hnoted := p.matchWith_notes hreaches hnotes c r
    simp only [matchWith]
    cases hm : p.matchWith callee c r with
    | failed s =>
      rw [hm] at hfirst
      exact hfirst.imp id fun hsame => by rw [hsame]; rfl
    | done v d s =>
      rw [hm] at hfirst hnoted
      have hd : d.Among ls := hc.trans (matchWith_reaches hreaches p hm)
      have hs := hnoted.furthest_le hc hr
      rcases hfirst with (hheard | ⟨hdend, hl⟩) | hsame
      · exact .inl (((k v).matchWith_notes hreaches hnotes d s).pends hheard hd)
      · exact .inl ((hk v).pends hreaches hnotes hd hs hdend hl)
      · rw [hsame]
        exact ihk v hd hs
  | sees t =>
    simp only [matchWith]
    rcases c.take?_before t hl more with ⟨hend, hread⟩ | hsame
    · rw [hend.take? t]
      exact .inl (.inr ⟨hend, t, List.mem_cons_self, hread⟩)
    · rw [hsame, Option.isSome_map]
      exact .inr rfl
  | take t =>
    simp only [matchWith]
    rcases c.take?_before t hl more with ⟨hend, hread⟩ | hsame
    · rw [hend.take? t]
      exact .inl (.inr ⟨hend, t, List.mem_cons_self, hread⟩)
    · rw [hsame]
      cases c.take? t <;> exact .inr rfl
  | comment =>
    simp only [matchWith, c.comment?_before hl]
    cases c.comment? <;> exact .inr rfl
  | trailing =>
    simp only [matchWith, c.trailing?_before hl]
    cases c.trailing? <;> exact .inr rfl
  | fail =>
    simp only [matchWith, c.significant_index_before hl]
    exact .inr rfl
  | @orElse _ ts Q p q _ _ ihp ihq =>
    have hfirst := ihp hc hr
    have hnoted := p.matchWith_notes hreaches hnotes c r
    simp only [matchWith]
    cases hm : p.matchWith callee c r with
    | done v d s =>
      rw [hm] at hfirst
      exact hfirst.imp id fun hsame => by rw [hsame]; rfl
    | failed s =>
      rw [hm] at hfirst hnoted
      rcases hfirst with hheard | hsame
      · exact .inl ((q.matchWith_notes hreaches hnotes c s).pends hheard hc)
      · rw [hsame]
        exact ihq hc (Report.Noted.furthest_le (Report.Missed.noted hnoted) hc hr)
  | @loop _ ts us Q p hp hagain hstop hidle ih =>
    exact matchLoop_pends_or_eq (fun _ _ _ _ _ => matchWith_reaches hreaches p)
      (p.matchWith_notes hreaches hnotes) (fun _ _ hc hr => ih hc hr)
      (fun _ _ hc hr hend hl => hp.pends hreaches hnotes hc hr hend hl) hagain hstop
      (hidle.imp id fun h c r v d r' => h callee c r v d r' hreaches) hc hr
  | call n => exact hcallee n c r hc hr
  | weaken _ _ hafter ih => exact (ih hc hr).imp (·.mono hafter) id

end Production

end ProtoSchema
