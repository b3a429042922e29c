import ProtoSchema.Proofs.Comments.Passage
import ProtoSchema.Proofs.Furthest

/-
  What productions yield. Neither the report so far nor the number of lexemes that have been passed
  decides anything, so what a production gives and which lexemes it leaves are a function of the
  lexemes before it (`Production.yield`). This function has one equation for each rule of
  productions.
-/

namespace ProtoSchema

/-! ## Lexemes that stand next -/

/-- The first token, behind any comments. -/
def firstToken? (ls : List Lexeme) : Option Lexeme := ls.find? (!·.token.isComment)

/-- What the first token contributes as a `t`, and the lexemes after it. -/
def Terminal.take? (t : Terminal) : List Lexeme → Option (t.Result × List Lexeme)
  | [] => none
  | l :: ls => if l.token.isComment then t.take? ls else (t.read? l).map (·, ls)

/-- What the first lexeme is, if it is what is looked for, and the lexemes after it. -/
def takeHead? {α : Type} (what : Lexeme → Option α) : List Lexeme → Option (α × List Lexeme)
  | [] => none
  | l :: ls => (what l).map (·, ls)

/-- What may be left out: where it is, nothing is passed. -/
def orStay {α : Type} (found : Option (α × List Lexeme)) (ls : List Lexeme) :
    Option α × List Lexeme :=
  match found with
  | some (v, rest) => (some v, rest)
  | none => (none, ls)

/-- What is found where `more` stands behind the lexemes. -/
def followedBy {α : Type} (more : List Lexeme) (found : Option (α × List Lexeme)) :
    Option (α × List Lexeme) :=
  found.map fun next => (next.1, next.2 ++ more)

@[simp] theorem followedBy_none {α : Type} (more : List Lexeme) :
    followedBy more (none : Option (α × List Lexeme)) = none := rfl

@[simp] theorem followedBy_some {α : Type} (more : List Lexeme) (v : α) (rest : List Lexeme) :
    followedBy more (some (v, rest)) = some (v, rest ++ more) := rfl

theorem firstToken?_of_comment {l : Lexeme} (h : l.token.isComment = true) (ls : List Lexeme) :
    firstToken? (l :: ls) = firstToken? ls := by
  simp [firstToken?, h]

theorem firstToken?_of_token {l : Lexeme} (h : l.token.isComment = false) (ls : List Lexeme) :
    firstToken? (l :: ls) = some l := by
  simp [firstToken?, h]

theorem firstToken?_append {ls : List Lexeme} {l : Lexeme} (h : firstToken? ls = some l)
    (more : List Lexeme) : firstToken? (ls ++ more) = some l := by
  rw [firstToken?] at h ⊢
  rw [List.find?_append, h]
  rfl

theorem takeHead?_append {α : Type} (what : Lexeme → Option α) {ls : List Lexeme} (h : ls ≠ [])
    (more : List Lexeme) :
    takeHead? what (ls ++ more) = followedBy more (takeHead? what ls) := by
  cases ls with
  | nil => exact absurd rfl h
  | cons l ls =>
    rw [List.cons_append, takeHead?, takeHead?]
    cases what l <;> rfl

theorem takeHead?_eq_some {α : Type} {what : Lexeme → Option α} {ls rest : List Lexeme} {v : α}
    (h : takeHead? what ls = some (v, rest)) : ∃ l, ls = l :: rest ∧ what l = some v := by
  cases ls with
  | nil => cases h
  | cons l ls =>
    obtain ⟨w, hw, heq⟩ := Option.map_eq_some_iff.1 h
    cases heq
    exact ⟨l, rfl, hw⟩

namespace Terminal

theorem take?_of_comment (t : Terminal) {l : Lexeme} (h : l.token.isComment = true)
    (ls : List Lexeme) : t.take? (l :: ls) = t.take? ls := by
  rw [take?, if_pos h]

theorem take?_of_token (t : Terminal) {l : Lexeme} (h : l.token.isComment = false)
    (ls : List Lexeme) : t.take? (l :: ls) = (t.read? l).map (·, ls) := by
  rw [take?, h]
  rfl

theorem take?_append (t : Terminal) {ls : List Lexeme} {l : Lexeme} (h : firstToken? ls = some l)
    (more : List Lexeme) : t.take? (ls ++ more) = followedBy more (t.take? ls) := by
  induction ls with
  | nil => cases h
  | cons m ls ih =>
    rw [List.cons_append]
    cases hm : m.token.isComment with
    | true =>
      rw [firstToken?_of_comment hm] at h
      rw [take?_of_comment t hm, take?_of_comment t hm, ih h]
    | false =>
      rw [take?_of_token t hm, take?_of_token t hm]
      cases t.read? m <;> rfl

theorem take?_eq_some {t : Terminal} {ls rest : List Lexeme} {v : t.Result} :
    t.take? ls = some (v, rest) ↔ ∃ cs l, (∀ c ∈ cs, c.token.isComment = true) ∧
      ls = cs ++ l :: rest ∧ l.token.isComment = false ∧ t.read? l = some v := by
  constructor
  · intro h
    induction ls with
    | nil => cases h
    | cons m ls ih =>
      cases hm : m.token.isComment with
      | true =>
        rw [take?_of_comment t hm] at h
        obtain ⟨cs, l, hcs, rfl, hl⟩ := ih h
        exact ⟨m :: cs, l, List.forall_mem_cons.2 ⟨hm, hcs⟩, rfl, hl⟩
      | false =>
        rw [take?_of_token t hm] at h
        obtain ⟨w, hw, heq⟩ := Option.map_eq_some_iff.1 h
        cases heq
        exact ⟨[], m, nofun, rfl, hm, hw⟩
  · rintro ⟨cs, l, hcs, rfl, hl, hread⟩
    induction cs with
    | nil => rw [List.nil_append, take?_of_token t hl, hread]; rfl
    | cons c cs ih =>
      obtain ⟨hc, hcs⟩ := List.forall_mem_cons.1 hcs
      rw [List.cons_append, take?_of_comment t hc, ih hcs]

end Terminal

namespace Cursor

theorem comment?_cons {i : Nat} {l : Lexeme} {rest : List Lexeme} :
    comment? ⟨i, l :: rest⟩ = l.comment?.map (·, ⟨i + 1, rest⟩) := by
  obtain ⟨token, spelling, span⟩ := l
  cases token <;> rfl

theorem trailing?_cons {i : Nat} {l : Lexeme} {rest : List Lexeme} :
    trailing? ⟨i, l :: rest⟩ = l.trailing?.map (·, ⟨i + 1, rest⟩) := by
  obtain ⟨token, spelling, span⟩ := l
  cases token with
  | lineComment text trailing => cases trailing <;> rfl
  | _ => rfl

/-- What is found at a place, with the lexemes after it. -/
def found {α : Type} (next : Option (α × Cursor)) : Option (α × List Lexeme) :=
  next.map fun v => (v.1, v.2.rest)

theorem found_take? (c : Cursor) (t : Terminal) : found (c.take? t) = t.take? c.rest := by
  obtain ⟨i, rest⟩ := c
  induction rest generalizing i with
  | nil => rfl
  | cons l rest ih =>
    cases hl : l.token.isComment with
    | true =>
      rw [take?, significant_of_comment hl, t.take?_of_comment hl]
      exact ih (i + 1)
    | false =>
      rw [take?, significant_of_token hl, t.take?_of_token hl]
      dsimp only
      cases t.read? l <;> rfl

theorem found_comment? (c : Cursor) : found c.comment? = takeHead? Lexeme.comment? c.rest := by
  obtain ⟨i, rest⟩ := c
  cases rest with
  | nil => rfl
  | cons l rest =>
    rw [comment?_cons, takeHead?]
    cases l.comment? <;> rfl

theorem found_trailing? (c : Cursor) : found c.trailing? = takeHead? Lexeme.trailing? c.rest := by
  obtain ⟨i, rest⟩ := c
  cases rest with
  | nil => rfl
  | cons l rest =>
    rw [trailing?_cons, takeHead?]
    cases l.trailing? <;> rfl

end Cursor

/-! ## Neither places nor reports decide anything -/

namespace Reply

variable {α β : Type}

/-- What a reply gives and the lexemes that it leaves. -/
def yield : Reply α → Option (α × List Lexeme)
  | done v d _ => some (v, d.rest)
  | failed _ => none

theorem yield_eq_some {reply : Reply α} {v : α} {rest : List Lexeme} :
    reply.yield = some (v, rest) ↔ ∃ d r, reply = done v d r ∧ d.rest = rest := by
  cases reply <;> simp [yield]

theorem yield_eq_none {reply : Reply α} : reply.yield = none ↔ ∃ r, reply = failed r := by
  cases reply <;> simp [yield]

theorem yield_map (f : α → β) (reply : Reply α) :
    (reply.map f).yield = reply.yield.map fun found => (f found.1, found.2) := by
  cases reply <;> rfl

theorem yield_optional (next : Option (α × Cursor)) (c : Cursor) (r : Report) :
    (optional next c r).yield = some (orStay (Cursor.found next) c.rest) := by
  cases next <;> rfl

end Reply

/-- A way to match nested constructs that looks only at the lexemes. -/
def Callee.Blind (callee : Callee) : Prop :=
  ∀ n c d r s, c.rest = d.rest → (callee n c r).yield = (callee n d s).yield

theorem matchLoop_yield {α : Type} {step : Cursor → Report → Reply (Option α)}
    (hstep : ∀ c d r s, c.rest = d.rest → (step c r).yield = (step d s).yield) {c d : Cursor}
    (h : c.rest = d.rest) (r s : Report) :
    (matchLoop step c r).yield = (matchLoop step d s).yield := by
  induction hk : c.rest.length using Nat.strongRecOn generalizing c d r s with
  | ind k ih =>
    have hyield := hstep c d r s h
    rw [matchLoop, matchLoop]
    cases hs : step c r with
    | failed r' =>
      rw [hs] at hyield
      obtain ⟨s', hs'⟩ := Reply.yield_eq_none.1 hyield.symm
      rw [hs']
      rfl
    | done v e r' =>
      rw [hs] at hyield
      obtain ⟨e', s', hs', hrest⟩ := Reply.yield_eq_some.1 hyield.symm
      rw [hs']
      cases v with
      | none => exact congrArg (fun rest => some ([], rest)) hrest.symm
      | some v =>
        dsimp only
        rw [hrest, ← h]
        split
        · next hlt => rw [Reply.yield_map, Reply.yield_map, ih _ (hk ▸ hlt) hrest.symm r' s' rfl]
        · exact congrArg (fun rest => some ([], rest)) h

theorem Production.matchWith_yield {callee : Callee} (hc : callee.Blind) {α : Type}
    (p : Production α) {c d : Cursor} (h : c.rest = d.rest) (r s : Report) :
    (p.matchWith callee c r).yield = (p.matchWith callee d s).yield := by
  induction p generalizing c d r s with
  | pure v => exact congrArg (fun rest => some (v, rest)) h
  | bind p k ihp ihk =>
    have hp := ihp h r s
    simp only [matchWith]
    cases hm : p.matchWith callee c r with
    | failed r' =>
      rw [hm] at hp
      obtain ⟨s', hm'⟩ := Reply.yield_eq_none.1 hp.symm
      rw [hm']
      rfl
    | done v e r' =>
      rw [hm] at hp
      obtain ⟨e', s', hm', hrest⟩ := Reply.yield_eq_some.1 hp.symm
      rw [hm']
      exact ihk v hrest.symm r' s'
  | sees t =>
    have htake : (c.take? t).isSome = (d.take? t).isSome := by
      rw [← Option.isSome_map, ← Option.isSome_map (x := d.take? t)]
      exact congrArg Option.isSome
        ((c.found_take? t).trans ((congrArg t.take? h).trans (d.found_take? t).symm))
    simp only [matchWith, Reply.yield, htake, h]
  | take t => rw [matchWith, matchWith, Reply.yield_optional, Reply.yield_optional,
      Cursor.found_take?, Cursor.found_take?, h]
  | comment => rw [matchWith, matchWith, Reply.yield_optional, Reply.yield_optional,
      Cursor.found_comment?, Cursor.found_comment?, h]
  | trailing => rw [matchWith, matchWith, Reply.yield_optional, Reply.yield_optional,
      Cursor.found_trailing?, Cursor.found_trailing?, h]
  | fail e => rfl
  | orElse p q ihp ihq =>
    have hp := ihp h r s
    simp only [matchWith]
    cases hm : p.matchWith callee c r with
    | failed r' =>
      rw [hm] at hp
      obtain ⟨s', hm'⟩ := Reply.yield_eq_none.1 hp.symm
      rw [hm']
      exact ihq h r' s'
    | done v e r' =>
      rw [hm] at hp
      obtain ⟨e', s', hm', -⟩ := Reply.yield_eq_some.1 hp.symm
      rw [hm'] at hp ⊢
      exact hp
  | loop p ih => exact matchLoop_yield (fun _ _ r s h => ih h r s) h r s
  | call n => exact hc n c d r s h

/-- Nested constructs are matched by looking only at the lexemes. -/
theorem Nonterminal.matches_blind : Callee.Blind Nonterminal.matches := by
  intro n c d r s h
  induction hk : c.rest.length using Nat.strongRecOn generalizing n c d r s with
  | ind k ih =>
    rw [Nonterminal.matches, Nonterminal.matches, ← h]
    refine Production.matchWith_yield (fun m e e' t t' he => ?_) _ h r s
    rw [← he]
    split
    · next hlt => exact ih _ (hk ▸ hlt) m e e' t t' he rfl
    · rfl

namespace Production

variable {α β : Type}

/-- What a production gives before the given lexemes, and which of them it leaves. -/
def yield (p : Production α) (ls : List Lexeme) : Option (α × List Lexeme) :=
  (p.run (.start ls) .start).yield

theorem yield_run (p : Production α) (c : Cursor) (r : Report) :
    (p.run c r).yield = p.yield c.rest :=
  matchWith_yield Nonterminal.matches_blind p (c := c) (d := .start c.rest) rfl r .start

theorem yield_of_done {p : Production α} {c d : Cursor} {r r' : Report} {v : α}
    (h : p.run c r = .done v d r') : p.yield c.rest = some (v, d.rest) := by
  rw [← yield_run p c r, h]
  rfl

/-- All of the lexemes are matched if none of them is left. -/
theorem matchAll_eq_ok {p : Production α} {ls : List Lexeme} {v : α} :
    p.matchAll ls = .ok v ↔ p.yield ls = some (v, []) := by
  unfold matchAll yield
  cases p.run (.start ls) .start with
  | failed r => simp [Reply.yield]
  | done w d r => cases hd : d.rest <;> simp [Reply.yield, hd]

/-- A production leaves the last of the lexemes, if any. -/
theorem suffix_of_yield {p : Production α} {ls rest : List Lexeme} {v : α}
    (h : p.yield ls = some (v, rest)) : rest <:+ ls := by
  obtain ⟨d, r, hm, rfl⟩ := Reply.yield_eq_some.1 h
  obtain ⟨passed, hpassed, -⟩ := run_reaches p hm
  exact ⟨passed, hpassed.symm⟩

theorem Passes.shorter {p : Production α} (h : p.Passes) {ls rest : List Lexeme} {v : α}
    (hv : p.yield ls = some (v, rest)) : rest.length < ls.length := by
  obtain ⟨d, r, hm, rfl⟩ := Reply.yield_eq_some.1 hv
  exact h _ _ _ _ _ hm

/-! ## The equations -/

@[simp] theorem yield_pure (v : α) (ls : List Lexeme) :
    (Pure.pure v : Production α).yield ls = some (v, ls) := rfl

@[simp] theorem yield_fail (e : Expectation) (ls : List Lexeme) :
    (fail e : Production α).yield ls = none := rfl

@[simp] theorem yield_sees (t : Terminal) (ls : List Lexeme) :
    (sees t).yield ls = some ((t.take? ls).isSome, ls) := by
  rw [← show _ = t.take? ls from Cursor.found_take? (.start ls) t, Cursor.found, Option.isSome_map]
  rfl

@[simp] theorem yield_take (t : Terminal) (ls : List Lexeme) :
    (take t).yield ls = some (orStay (t.take? ls) ls) := by
  rw [yield, run, matchWith, Reply.yield_optional, Cursor.found_take?]
  rfl

@[simp] theorem yield_comment (ls : List Lexeme) :
    comment.yield ls = some (orStay (takeHead? Lexeme.comment? ls) ls) := by
  rw [yield, run, matchWith, Reply.yield_optional, Cursor.found_comment?]
  rfl

@[simp] theorem yield_trailing (ls : List Lexeme) :
    trailing.yield ls = some (orStay (takeHead? Lexeme.trailing? ls) ls) := by
  rw [yield, run, matchWith, Reply.yield_optional, Cursor.found_trailing?]
  rfl

theorem yield_bind (p : Production α) (k : α → Production β) (ls : List Lexeme) :
    (p >>= k).yield ls = (p.yield ls).bind fun found => (k found.1).yield found.2 := by
  rw [yield, run, matchWith_bind]
  cases hm : p.matchWith Nonterminal.matches (.start ls) .start with
  | failed r => rw [yield, run, hm]; rfl
  | done v d r =>
    rw [yield, run, hm]
    exact yield_run (k v) d r

theorem yield_orElse (p q : Production α) (ls : List Lexeme) :
    (p <|> q).yield ls = (p.yield ls).or (q.yield ls) := by
  change (matchWith Nonterminal.matches (.orElse p q) _ _).yield = _
  rw [matchWith]
  cases hm : p.matchWith Nonterminal.matches (.start ls) .start with
  | failed r =>
    rw [yield, run, hm]
    exact yield_run q (.start ls) r
  | done v d r => rw [yield, run, hm]; rfl

/-- What a loop gives after a step. -/
theorem yield_loop (p : Production (Option α)) (ls : List Lexeme) :
    (loop p).yield ls = (p.yield ls).bind fun
      | (none, rest) => some ([], rest)
      | (some v, rest) =>
        if rest.length < ls.length then
          ((loop p).yield rest).map fun found => (v :: found.1, found.2)
        else some ([], ls) := by
  change (matchLoop (p.matchWith Nonterminal.matches) (.start ls) .start).yield = _
  rw [matchLoop]
  cases hm : p.matchWith Nonterminal.matches (.start ls) .start with
  | failed r => rw [yield, run, hm]; rfl
  | done v d r =>
    rw [show p.yield ls = some (v, d.rest) from yield_of_done (r := .start) hm]
    cases v with
    | none => rfl
    | some v =>
      change Reply.yield (if d.rest.length < ls.length then _ else _) =
        if d.rest.length < ls.length then _ else _
      split
      · rw [Reply.yield_map]
        exact congrArg _ (yield_run (loop p) d r)
      · rfl

/-- A nested construct yields what its production yields. -/
theorem yield_call (n : Nonterminal) (ls : List Lexeme) :
    (call n).yield ls = n.production.yield ls := by
  change (n.matches (.start ls) .start).yield = _
  rw [n.matches_eq_run]
  rfl

/-- A lexeme that has to stand next. -/
theorem yield_takeOr (t : Terminal) (e : Expectation) (ls : List Lexeme) :
    (takeOr t e).yield ls = t.take? ls := by
  rw [takeOr, yield_bind, yield_take]
  cases t.take? ls <;> rfl

theorem yield_takeOr_append (t : Terminal) (e : Expectation) {ls : List Lexeme} {l : Lexeme}
    (h : firstToken? ls = some l) (more : List Lexeme) :
    (takeOr t e).yield (ls ++ more) = followedBy more ((takeOr t e).yield ls) := by
  rw [yield_takeOr, yield_takeOr, t.take?_append h]

theorem yield_takeOr_eq_some {t : Terminal} {e : Expectation} {ls rest : List Lexeme}
    {v : t.Result} : (takeOr t e).yield ls = some (v, rest) ↔
      ∃ cs l, (∀ c ∈ cs, c.token.isComment = true) ∧ ls = cs ++ l :: rest ∧
        l.token.isComment = false ∧ t.read? l = some v := by
  rw [yield_takeOr, Terminal.take?_eq_some]

theorem yield_punct_eq_some {p : Punct} {ls rest : List Lexeme} {s : Span} :
    (punct p).yield ls = some (s, rest) ↔ ∃ cs l, (∀ c ∈ cs, c.token.isComment = true) ∧
      ls = cs ++ l :: rest ∧ l.token = .punct p ∧ l.span = s := by
  refine yield_takeOr_eq_some.trans (exists_congr fun cs => exists_congr fun l =>
    and_congr_right fun _ => and_congr_right fun _ => ?_)
  exact ⟨fun h => Terminal.read?_punct.1 h.2, fun h => ⟨by rw [h.1]; rfl, Terminal.read?_punct.2 h⟩⟩

theorem yield_bind_eq_some {p : Production α} {k : α → Production β} {ls rest : List Lexeme}
    {v : β} : (p >>= k).yield ls = some (v, rest) ↔
      ∃ a between, p.yield ls = some (a, between) ∧ (k a).yield between = some (v, rest) := by
  rw [yield_bind, Option.bind_eq_some_iff]
  exact ⟨fun ⟨found, hp, hk⟩ => ⟨found.1, found.2, hp, hk⟩, fun ⟨a, m, hp, hk⟩ => ⟨(a, m), hp, hk⟩⟩

end Production

end ProtoSchema
