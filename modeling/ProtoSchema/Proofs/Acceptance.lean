import ProtoSchema.Proofs.Furthest
import ProtoSchema.Proofs.Rendering

/-
  What productions accept. `Reads` and `Refuses` say of a production what it does on lexemes that
  show given symbols, whatever the report and the place; there is one rule for each way in which the
  grammar combines productions. Choice is ordered, so a rule for a later alternative asks that the
  earlier ones refuse.
-/

namespace ProtoSchema

/-! ## Symbols and classes of lexemes -/

/-- Whether the lexemes that show a symbol belong to the class. -/
def Terminal.fits (t : Terminal) (s : Symbol) : Bool :=
  match t, s with
  | .punct p, .punct q => q = p
  | .keyword k, .word w => w = k.text
  | .word, .word _ => true
  | .name, .word w => spellsName w
  | .integer, .int _ => true
  | .string, .string _ => true
  | .literal, .int _ => true
  | .literal, .float _ => true
  | .literal, .word w => !spellsName w
  | _, _ => false

/-- Whether the class fits the first of the symbols. -/
def Terminal.fitsFirst (t : Terminal) : List Symbol → Bool
  | [] => false
  | s :: _ => t.fits s

namespace Lexeme.Shows

variable {l : Lexeme}

theorem not_comment {s : Symbol} (h : l.Shows s) : l.token.isComment = false := by
  cases s with
  | word w => obtain ⟨-, before, h⟩ := h; rw [h]; rfl
  | int n => rw [show l.token = .int n from h]; rfl
  | float x => rw [show l.token = .float x from h]; rfl
  | string s => rw [show l.token = .string s from h]; rfl
  | punct p => rw [show l.token = .punct p from h]; rfl

end Lexeme.Shows

theorem Keyword.spellsName_text (k : Keyword) : spellsName k.text := by
  cases k with
  | scalar type => cases type <;> decide
  | _ => decide

theorem Keyword.text_ne_empty (k : Keyword) : k.text ≠ "" := by
  cases k with
  | scalar type => cases type <;> decide
  | _ => decide

theorem Keyword.text_inj {k k' : Keyword} : k.text = k'.text ↔ k = k' := by
  refine ⟨fun h => ?_, congrArg _⟩
  have hfound := ofText?_text k
  rw [h, ofText?_text] at hfound
  exact (Option.some.inj hfound).symm

namespace Terminal

/-- A word of any reading counts as a keyword exactly if it is spelled so. -/
theorem isKeyword_ofSpelling (k : Keyword) (before : Option Char) (w : String) :
    isKeyword k (Word.ofSpelling before w.toList) = decide (w = k.text) := by
  have hk := k.spellsName_text
  have hne (h : spellsName w = false) : decide (w = k.text) = false := by
    refine decide_eq_false fun heq => ?_
    rw [heq, hk] at h
    cases h
  rcases Word.ofSpelling_cases before w with ⟨b, hb, hw⟩ | ⟨hn, -, hw⟩ | ⟨-, hw | ⟨k', rfl, hw⟩⟩
  · rw [hw, hne (by simp [spellsName, hb])]
    rfl
  · rw [hw, hne (by simp [spellsName, hn])]
    rfl
  · rw [hw]
    rfl
  · rw [hw, isKeyword, Bool.eq_iff_iff, beq_iff_eq, decide_eq_true_iff, Keyword.text_inj]

theorem isName_ofSpelling (before : Option Char) (w : String) :
    isName (Word.ofSpelling before w.toList) = spellsName w := by
  rcases Word.ofSpelling_cases before w with ⟨b, hb, hw⟩ | ⟨hn, -, hw⟩ | ⟨hs, hw | ⟨k, -, hw⟩⟩
  · rw [hw]
    simp [isName, spellsName, hb]
  · rw [hw]
    simp [isName, spellsName, hn]
  · rw [hw, hs]
    rfl
  · rw [hw, hs]
    rfl

theorem isSome_literal?_ofSpelling (before : Option Char) (w : String) :
    (literal? (.word (Word.ofSpelling before w.toList))).isSome = !spellsName w := by
  rw [← isName_ofSpelling before w]
  cases Word.ofSpelling before w.toList <;> rfl

/-- A lexeme that shows a symbol belongs to the classes that fit the symbol. -/
theorem isSome_read? {t : Terminal} {l : Lexeme} {s : Symbol} (h : l.Shows s) :
    (t.read? l).isSome = t.fits s := by
  cases s with
  | word w =>
    obtain ⟨-, before, htoken⟩ := h
    unfold read?
    rw [htoken]
    cases t with
    | keyword k =>
      have hk := isKeyword_ofSpelling k before w
      dsimp only [fits]
      rw [← hk]
      cases isKeyword k (Word.ofSpelling before w.toList) <;> rfl
    | name =>
      have hn := isName_ofSpelling before w
      dsimp only [fits]
      rw [← hn]
      cases isName (Word.ofSpelling before w.toList) <;> rfl
    | literal => exact isSome_literal?_ofSpelling before w
    | _ => rfl
  | int n =>
    unfold read?
    rw [show l.token = .int n from h]
    cases t <;> rfl
  | float x =>
    unfold read?
    rw [show l.token = .float x from h]
    cases t <;> rfl
  | string text =>
    unfold read?
    rw [show l.token = .string text from h]
    cases t <;> rfl
  | punct p =>
    unfold read?
    rw [show l.token = .punct p from h]
    cases t with
    | punct q =>
      dsimp only [fits]
      by_cases hp : p = q
      · rw [if_pos hp, decide_eq_true hp]
        rfl
      · rw [if_neg hp, decide_eq_false hp]
        rfl
    | _ => rfl

end Terminal

/-! ## Reading and refusing -/

/-- The lexemes show the symbols, one each. -/
abbrev Shows (ls : List Lexeme) (xs : List Symbol) : Prop := List.Forall₂ Lexeme.Shows ls xs

theorem Lexeme.shows_of_symbol? {l : Lexeme} {s : Symbol} (hread : l.WellRead)
    (h : l.symbol? = some s) : l.Shows s := by
  unfold symbol? at h
  split at h
  · next w htoken =>
    cases h
    obtain ⟨-, before, hw⟩ := hread w htoken
    exact ⟨rfl, before, hw ▸ htoken⟩
  · next n htoken => cases h; exact htoken
  · next x htoken => cases h; exact htoken
  · next text htoken => cases h; exact htoken
  · next p htoken => cases h; exact htoken
  · cases h
  · cases h

/-- The lexemes of a source show its symbols, if no comment is among them. -/
theorem shows_symbols {ls : List Lexeme} (hread : ∀ l ∈ ls, l.WellRead)
    (hbare : ∀ l ∈ ls, l.token.isComment = false) : Shows ls (symbols ls) := by
  induction ls with
  | nil => exact .nil
  | cons l ls ih =>
    have hothers := ih (fun l' hl' => hread l' (List.mem_cons_of_mem l hl'))
      fun l' hl' => hbare l' (List.mem_cons_of_mem l hl')
    cases hs : l.symbol? with
    | none =>
      have hcomment := Lexeme.symbol?_eq_none.1 hs
      rw [hbare l List.mem_cons_self] at hcomment
      cases hcomment
    | some s =>
      rw [symbols, List.filterMap_cons_some hs]
      exact .cons (Lexeme.shows_of_symbol? (hread l List.mem_cons_self) hs) hothers

theorem Cursor.significant_of_shows {c : Cursor} {xs : List Symbol} (h : Shows c.rest xs) :
    c.significant = c := by
  obtain ⟨i, rest⟩ := c
  cases h with
  | nil => rfl
  | cons hl _ => exact significant_of_token hl.not_comment

theorem Cursor.take?_of_shows {c : Cursor} {t : Terminal} {l : Lexeme} {rest : List Lexeme}
    {xs : List Symbol} (h : Shows c.rest xs) (hc : c.rest = l :: rest) :
    c.take? t = (t.read? l).map fun v => (v, ⟨c.index + 1, rest⟩) := by
  unfold take?
  rw [significant_of_shows h]
  obtain ⟨i, rest'⟩ := c
  obtain rfl : rest' = l :: rest := hc
  rfl

theorem Cursor.isSome_take?_of_shows {c : Cursor} {t : Terminal} {xs : List Symbol}
    (h : Shows c.rest xs) : (c.take? t).isSome = t.fitsFirst xs := by
  cases hc : c.rest with
  | nil =>
    rw [hc] at h
    cases h
    unfold take?
    rw [significant_of_shows (hc ▸ .nil : Shows c.rest [])]
    obtain ⟨i, rest⟩ := c
    obtain rfl : rest = [] := hc
    rfl
  | cons l rest =>
    rw [take?_of_shows h hc]
    rw [hc] at h
    cases h with
    | cons hl _ =>
      rw [Option.isSome_map]
      exact Terminal.isSome_read? hl

theorem Cursor.comment?_of_shows {c : Cursor} {xs : List Symbol} (h : Shows c.rest xs) :
    c.comment? = none := by
  cases hc : c.comment? with
  | none => rfl
  | some found =>
    exfalso
    unfold comment? at hc
    split at hc
    · next heq => rw [heq] at h; cases h with | cons hl _ => cases hl.not_comment
    · next heq => rw [heq] at h; cases h with | cons hl _ => cases hl.not_comment
    · cases hc

theorem Cursor.trailing?_of_shows {c : Cursor} {xs : List Symbol} (h : Shows c.rest xs) :
    c.trailing? = none := by
  cases hc : c.trailing? with
  | none => rfl
  | some found =>
    exfalso
    unfold trailing? at hc
    split at hc
    · next heq => rw [heq] at h; cases h with | cons hl _ => cases hl.not_comment
    · cases hc

namespace Production

variable {α β : Type}

/-- On lexemes that show `xs` the production gives a value with the property `P`, and leaves lexemes
that show `ys`. -/
def Reads (p : Production α) (xs : List Symbol) (P : α → Prop) (ys : List Symbol) : Prop :=
  ∀ c r, Shows c.rest xs → ∃ v d r', p.run c r = .done v d r' ∧ P v ∧ Shows d.rest ys

/-- On lexemes that show `xs` the production does not match. -/
def Refuses (p : Production α) (xs : List Symbol) : Prop :=
  ∀ c r, Shows c.rest xs → ∃ r', p.run c r = .failed r'

variable {xs ys zs : List Symbol} {P : α → Prop}

/-! ### Rules -/

theorem Reads.pure {v : α} (h : P v) : Reads (Pure.pure v) xs P xs :=
  fun c r hc => ⟨v, c, r, rfl, h, hc⟩

theorem Reads.mono {p : Production α} {Q : α → Prop} (h : Reads p xs P ys)
    (hle : ∀ v, P v → Q v) : Reads p xs Q ys := by
  intro c r hc
  obtain ⟨v, d, r', hm, hv, hd⟩ := h c r hc
  exact ⟨v, d, r', hm, hle v hv, hd⟩

theorem Reads.bind {p : Production α} {k : α → Production β} {Q : β → Prop}
    (hp : Reads p xs P ys) (hk : ∀ v, P v → Reads (k v) ys Q zs) : Reads (p >>= k) xs Q zs := by
  intro c r hc
  obtain ⟨v, d, r', hm, hv, hd⟩ := hp c r hc
  obtain ⟨w, e, s, hm', hw, he⟩ := hk v hv d r' hd
  refine ⟨w, e, s, ?_, hw, he⟩
  rw [run] at hm hm' ⊢
  rw [matchWith_bind, hm]
  exact hm'

/-- A production that gives a known value, and then another one that goes on with it. -/
theorem Reads.then {p : Production α} {k : α → Production β} {v : α} {Q : β → Prop}
    (hp : Reads p xs (· = v) ys) (hk : Reads (k v) ys Q zs) : Reads (p >>= k) xs Q zs :=
  hp.bind fun _ h => h ▸ hk

theorem Refuses.bind {p : Production α} (h : p.Refuses xs) (k : α → Production β) :
    Refuses (p >>= k) xs := by
  intro c r hc
  obtain ⟨r', hm⟩ := h c r hc
  refine ⟨r', ?_⟩
  rw [run] at hm ⊢
  rw [matchWith_bind, hm]

/-- A production that matches, and then one that does not. -/
theorem Reads.refuses {p : Production α} {k : α → Production β} (hp : Reads p xs P ys)
    (hk : ∀ v, P v → Refuses (k v) ys) : Refuses (p >>= k) xs := by
  intro c r hc
  obtain ⟨v, d, r', hm, hv, hd⟩ := hp c r hc
  obtain ⟨s, hm'⟩ := hk v hv d r' hd
  refine ⟨s, ?_⟩
  rw [run] at hm hm' ⊢
  rw [matchWith_bind, hm]
  exact hm'

/-- A production with what it gives made into something else, such as one kind of declaration. -/
theorem Reads.map {p : Production α} {v : α} (h : Reads p xs (· = v) ys) (f : α → β) :
    Reads (do return f (← p)) xs (· = f v) ys :=
  h.then (.pure rfl)

theorem Refuses.map {p : Production α} (h : p.Refuses xs) (f : α → β) :
    Refuses (do return f (← p)) xs :=
  h.bind _

theorem Refuses.fail (e : Expectation) : Refuses (Production.fail e : Production α) xs :=
  fun c r _ => ⟨r.note c.significant.index e, rfl⟩

theorem run_orElse (p q : Production α) (c : Cursor) (r : Report) :
    (p <|> q).run c r =
      match p.run c r with
      | .done v d r' => .done v d r'
      | .failed r' => q.run c r' := by
  change (Production.orElse p q).matchWith _ c r = _
  rw [matchWith, run]
  cases p.matchWith Nonterminal.matches c r <;> rfl

theorem Reads.orElse {p : Production α} (h : Reads p xs P ys) (q : Production α) :
    Reads (p <|> q) xs P ys := by
  intro c r hc
  obtain ⟨v, d, r', hm, hv, hd⟩ := h c r hc
  refine ⟨v, d, r', ?_, hv, hd⟩
  rw [run_orElse, hm]

/-- A later alternative, where the first one is refused. -/
theorem Reads.orElse_right {p q : Production α} (hp : p.Refuses xs) (hq : Reads q xs P ys) :
    Reads (p <|> q) xs P ys := by
  intro c r hc
  obtain ⟨s, hs⟩ := hp c r hc
  obtain ⟨v, d, r', hm, hv, hd⟩ := hq c s hc
  refine ⟨v, d, r', ?_, hv, hd⟩
  rw [run_orElse, hs]
  exact hm

theorem Refuses.orElse {p q : Production α} (hp : p.Refuses xs) (hq : q.Refuses xs) :
    Refuses (p <|> q) xs := by
  intro c r hc
  obtain ⟨s, hs⟩ := hp c r hc
  obtain ⟨s', hs'⟩ := hq c s hc
  refine ⟨s', ?_⟩
  rw [run_orElse, hs]
  exact hs'

theorem run_loop (p : Production (Option α)) (c : Cursor) (r : Report) :
    (loop p).run c r = matchLoop p.run c r := rfl

theorem Reads.loop_nil {p : Production (Option α)} (h : Reads p xs (· = none) xs) :
    Reads (loop p) xs (· = []) xs := by
  intro c r hc
  obtain ⟨_, d, r', hm, rfl, hd⟩ := h c r hc
  refine ⟨[], d, r', ?_, rfl, hd⟩
  rw [run_loop, matchLoop, hm]

theorem Reads.loop_cons {p : Production (Option α)} {Q : List α → Prop}
    (h : Reads p xs (fun v => ∃ w, v = some w ∧ P w) ys) (hlength : ys.length < xs.length)
    (hloop : Reads (loop p) ys Q zs) :
    Reads (loop p) xs (fun vs => ∃ w ws, vs = w :: ws ∧ P w ∧ Q ws) zs := by
  intro c r hc
  obtain ⟨_, d, r', hm, ⟨w, rfl, hw⟩, hd⟩ := h c r hc
  obtain ⟨ws, e, s, hm', hws, he⟩ := hloop d r' hd
  refine ⟨w :: ws, e, s, ?_, ⟨w, ws, rfl, hw, hws⟩, he⟩
  have hshorter : d.rest.length < c.rest.length := by
    rw [hc.length_eq, hd.length_eq]
    exact hlength
  rw [run_loop] at hm' ⊢
  rw [matchLoop, hm]
  dsimp only
  rw [if_pos hshorter, hm']
  rfl

theorem Reads.call {n : Nonterminal} {Q : n.Result → Prop} (h : Reads n.production xs Q ys) :
    Reads (call n) xs Q ys := by
  intro c r hc
  obtain ⟨v, d, r', hm, hv⟩ := h c r hc
  refine ⟨v, d, r', ?_, hv⟩
  rw [run, matchWith, Nonterminal.matches_eq_run]
  exact hm

theorem Refuses.call {n : Nonterminal} (h : Refuses n.production xs) : Refuses (call n) xs := by
  intro c r hc
  obtain ⟨r', hm⟩ := h c r hc
  refine ⟨r', ?_⟩
  rw [run, matchWith, Nonterminal.matches_eq_run]
  exact hm

/-! ### Single lexemes -/

theorem reads_comments : Reads comments xs (· = []) xs := by
  refine .loop_nil fun c r hc => ⟨none, c, r, ?_, rfl, hc⟩
  rw [run, matchWith, Cursor.comment?_of_shows hc]
  rfl

theorem reads_comment : Reads comment xs (· = none) xs := by
  intro c r hc
  refine ⟨none, c, r, ?_, rfl, hc⟩
  rw [run, matchWith, Cursor.comment?_of_shows hc]
  rfl

theorem reads_trailing : Reads trailing xs (· = none) xs := by
  intro c r hc
  refine ⟨none, c, r, ?_, rfl, hc⟩
  rw [run, matchWith, Cursor.trailing?_of_shows hc]
  rfl

theorem reads_sees (t : Terminal) : Reads (sees t) xs (· = t.fitsFirst xs) xs :=
  fun c r hc => ⟨_, c, r, rfl, Cursor.isSome_take?_of_shows hc, hc⟩

theorem reads_take_none {t : Terminal} (h : t.fitsFirst xs = false) :
    Reads (take t) xs (· = none) xs := by
  intro c r hc
  have hnone : c.take? t = none := by
    rw [← Option.not_isSome_iff_eq_none, Cursor.isSome_take?_of_shows hc, h]
    exact Bool.false_ne_true
  refine ⟨none, c, r, ?_, rfl, hc⟩
  rw [run, matchWith, hnone]
  rfl

theorem reads_take {t : Terminal} {s : Symbol} {Q : t.Result → Prop}
    (h : ∀ l : Lexeme, l.Shows s → ∃ v, t.read? l = some v ∧ Q v) :
    Reads (take t) (s :: xs) (fun v => ∃ w, v = some w ∧ Q w) xs := by
  intro c r hc
  cases hrest : c.rest with
  | nil => rw [hrest] at hc; cases hc
  | cons l rest =>
    have htake := Cursor.take?_of_shows (t := t) hc hrest
    rw [hrest] at hc
    cases hc with
    | cons hl hxs =>
      obtain ⟨v, hv, hQ⟩ := h l hl
      refine ⟨some v, ⟨c.index + 1, rest⟩, r, ?_, ⟨v, rfl, hQ⟩, hxs⟩
      rw [run, matchWith, htake, hv]
      rfl

theorem reads_takeOr {t : Terminal} {e : Expectation} {s : Symbol} {Q : t.Result → Prop}
    (h : ∀ l : Lexeme, l.Shows s → ∃ v, t.read? l = some v ∧ Q v) :
    Reads (takeOr t e) (s :: xs) Q xs := by
  refine (reads_take h).bind ?_
  rintro _ ⟨w, rfl, hw⟩
  exact .pure hw

theorem refuses_takeOr {t : Terminal} {e : Expectation} (h : t.fitsFirst xs = false) :
    Refuses (takeOr t e) xs := by
  refine (reads_take_none h).refuses ?_
  rintro _ rfl
  exact .fail e

theorem reads_fits {t : Terminal} {s : Symbol} (h : t.fits s = true) :
    ∀ l : Lexeme, l.Shows s → ∃ v, t.read? l = some v ∧ True := by
  intro l hl
  rw [← Terminal.isSome_read? hl] at h
  obtain ⟨v, hv⟩ := Option.isSome_iff_exists.1 h
  exact ⟨v, hv, trivial⟩

theorem reads_punct (p : Punct) : Reads (punct p) (.punct p :: xs) (fun _ => True) xs :=
  reads_takeOr (reads_fits (by simp [Terminal.fits]))

theorem reads_keyword (k : Keyword) : Reads (keyword k) (.word k.text :: xs) (fun _ => True) xs :=
  reads_takeOr (reads_fits (by simp [Terminal.fits]))

theorem reads_word (w : String) (e : Expectation) :
    Reads (takeOr .word e) (.word w :: xs) (· = w) xs := by
  refine reads_takeOr fun l hl => ?_
  obtain ⟨hspelling, before, htoken⟩ := hl
  exact ⟨w, Terminal.read?_word.2 ⟨_, htoken, hspelling⟩, rfl⟩

theorem reads_number (n : Int) (e : Expectation) :
    Reads (takeOr .integer e) (.int n :: xs) (· = n) xs :=
  reads_takeOr fun _ hl => ⟨n, Terminal.read?_integer.2 hl, rfl⟩

theorem reads_text (s : String) (e : Expectation) :
    Reads (takeOr .string e) (.string s :: xs) (· = s) xs :=
  reads_takeOr fun _ hl => ⟨s, Terminal.read?_string.2 hl, rfl⟩

theorem reads_ident (w : String) : Reads ident (.word w :: xs) (· = w) xs := reads_word w _

theorem reads_integer (n : Int) : Reads integer (.int n :: xs) (· = n) xs := reads_number n _

/-- A mark that has to stand next. -/
theorem Reads.afterPunct {p : Punct} {q : Production α} (hq : Reads q xs P ys) :
    Reads (punct p >>= fun _ => q) (.punct p :: xs) P ys :=
  (reads_punct p).bind fun _ _ => hq

/-- A keyword that has to stand next. -/
theorem Reads.afterKeyword {k : Keyword} {q : Production α} (hq : Reads q xs P ys) :
    Reads (keyword k >>= fun _ => q) (.word k.text :: xs) P ys :=
  (reads_keyword k).bind fun _ _ => hq

theorem Refuses.afterKeyword {k : Keyword} {q : Production α} (hq : Refuses q xs) :
    Refuses (keyword k >>= fun _ => q) (.word k.text :: xs) :=
  (reads_keyword k).refuses fun _ _ => hq

theorem reads_skip {t : Terminal} {s : Symbol} (h : t.fits s = true) :
    Reads (skip t) (s :: xs) (· = true) xs := by
  refine (reads_take (reads_fits h)).bind ?_
  rintro _ ⟨w, rfl, -⟩
  exact .pure rfl

theorem reads_skip_none {t : Terminal} (h : t.fitsFirst xs = false) :
    Reads (skip t) xs (· = false) xs := by
  refine (reads_take_none h).bind ?_
  rintro _ rfl
  exact .pure rfl

theorem reads_endStatement (leading : List Comment) :
    Reads (endStatement leading) (.punct .semicolon :: xs) (· = leading) xs := by
  refine .afterPunct (reads_trailing.then (.pure ?_))
  exact List.append_nil leading

/-! ### Sequences -/

/-- A loop reads items one after the other, each with a step that gives it; what follows a step has
to be `next`. -/
theorem reads_loop {p : Production (Option α)} {render : α → List Symbol}
    {N : List Symbol → Prop} {items : List α}
    (hstep : ∀ a ∈ items, ∀ rest, N rest → Reads p (render a ++ rest) (· = some a) rest)
    (hrender : ∀ a ∈ items, render a ≠ []) (hnext : ∀ a ∈ items, ∀ rest, N (render a ++ rest))
    (hend : N xs) (hnone : Reads p xs (· = none) xs) :
    Reads (loop p) (items.flatMap render ++ xs) (· = items) xs := by
  induction items with
  | nil => exact .loop_nil hnone
  | cons a items ih =>
    have hrest : N (items.flatMap render ++ xs) := by
      cases items with
      | nil => exact hend
      | cons b items =>
        rw [List.flatMap_cons, List.append_assoc]
        exact hnext b (by simp) _
    have hloop := ih (fun b hb => hstep b (List.mem_cons_of_mem a hb))
      (fun b hb => hrender b (List.mem_cons_of_mem a hb))
      (fun b hb => hnext b (List.mem_cons_of_mem a hb))
    have hfirst : Reads p (render a ++ (items.flatMap render ++ xs))
        (fun v => ∃ w, v = some w ∧ w = a) (items.flatMap render ++ xs) :=
      (hstep a List.mem_cons_self _ hrest).mono fun v hv => ⟨a, hv, rfl⟩
    rw [List.flatMap_cons, List.append_assoc]
    refine (hfirst.loop_cons ?_ hloop).mono ?_
    · have hpos : 0 < (render a).length := List.length_pos_of_ne_nil (hrender a List.mem_cons_self)
      simp only [List.length_append]
      omega
    · rintro _ ⟨_, _, rfl, rfl, rfl⟩
      rfl

/-- Items with a separator between any two. -/
theorem reads_separated {item : Production α} {separator : Punct} {render : α → List Symbol}
    {N : List Symbol → Prop} {items : List α} (hne : items ≠ [])
    (hitem : ∀ a ∈ items, ∀ rest, N rest → Reads item (render a ++ rest) (· = a) rest)
    (hseparator : ∀ rest, N (.punct separator :: rest)) (hend : N xs)
    (hfits : (Terminal.punct separator).fitsFirst xs = false) :
    Reads (separated (.punct separator) item) (Symbol.separated separator render items ++ xs)
      (· = items) xs := by
  cases items with
  | nil => exact absurd rfl hne
  | cons a items =>
    have hothers : Reads (loop do
        if ← skip (.punct separator) then return some (← item) else return none)
        (items.flatMap (fun b => .punct separator :: render b) ++ xs) (· = items) xs := by
      refine reads_loop (N := N) (fun b hb rest hrest => ?_) (fun _ _ => List.cons_ne_nil _ _)
        (fun _ _ _ => hseparator _) hend ((reads_skip_none hfits).then (.pure rfl))
      refine (reads_skip (by simp [Terminal.fits])).then ?_
      exact (hitem b (List.mem_cons_of_mem a hb) rest hrest).then (.pure rfl)
    rw [Symbol.separated, List.append_assoc]
    refine (hitem a List.mem_cons_self _ ?_).then (hothers.then (.pure rfl))
    cases items with
    | nil => exact hend
    | cons b items => exact hseparator _

/-! ### Bodies -/

theorem reads_bodyItem {decl : Production α} {a : α} (h : Reads decl xs (· = a) ys) :
    Reads (bodyItem decl) xs (· = some (.decl a)) ys := by
  refine Reads.orElse ?_ _
  exact h.then (.pure rfl)

/-- A body is over where neither a declaration nor a semicolon stands next. -/
theorem reads_bodyItem_none {decl : Production α} (h : decl.Refuses xs)
    (hsemicolon : (Terminal.punct .semicolon).fitsFirst xs = false) :
    Reads (bodyItem decl) xs (· = none) xs := by
  refine .orElse_right (h.bind _) (.orElse_right (Refuses.bind ?_ _) (.pure rfl))
  refine reads_comment.refuses ?_
  rintro _ rfl
  exact (refuses_takeOr hsemicolon).bind _

/-- The declarations of a body, one right after the other. -/
theorem reads_items {decl : Production α} {render : α → List Symbol} {items : List α}
    (hdecl : ∀ a ∈ items, ∀ rest, Reads decl (render a ++ rest) (· = a) rest)
    (hrender : ∀ a ∈ items, render a ≠ []) (hend : decl.Refuses xs)
    (hsemicolon : (Terminal.punct .semicolon).fitsFirst xs = false) :
    Reads (loop (bodyItem decl)) (items.flatMap render ++ xs) (· = items.map .decl) xs := by
  let renderItem (i : BodyItem α) : List Symbol := (i.decl?.map render).getD []
  have hflat : items.flatMap render = (items.map BodyItem.decl).flatMap renderItem := by
    rw [List.flatMap_map]
    rfl
  rw [hflat]
  refine reads_loop (N := fun _ => True) (fun i hi rest _ => ?_) (fun i hi => ?_)
    (fun _ _ _ => trivial) trivial (reads_bodyItem_none hend hsemicolon)
  · obtain ⟨a, ha, rfl⟩ := List.mem_map.1 hi
    exact reads_bodyItem (hdecl a ha rest)
  · obtain ⟨a, ha, rfl⟩ := List.mem_map.1 hi
    exact hrender a ha

theorem ofItems_map_decl (opening : List Comment) (items : List α) :
    Body.ofItems opening (items.map BodyItem.decl) = ⟨items, opening⟩ := by
  have hdecls : (items.map BodyItem.decl).filterMap BodyItem.decl? = items := by
    rw [List.filterMap_map]
    exact List.filterMap_some
  have hcomments : (items.map BodyItem.decl).filterMap BodyItem.comment? = [] := by
    rw [List.filterMap_map]
    exact List.filterMap_eq_nil_iff.2 fun _ _ => rfl
  rw [Body.ofItems, hdecls, hcomments, List.append_nil]

/-- A body with its declarations in braces. -/
theorem reads_body {decl : Production α} {render : α → List Symbol} {items : List α}
    (hdecl : ∀ a ∈ items, ∀ rest, Reads decl (render a ++ rest) (· = a) rest)
    (hrender : ∀ a ∈ items, render a ≠ [])
    (hend : ∀ rest, decl.Refuses (.punct .rightBrace :: rest)) (leading : List Comment) :
    Reads (body leading decl) (Symbol.braces (items.flatMap render) ++ xs) (· = ⟨items, leading⟩)
      xs := by
  have hitems := reads_items hdecl hrender (hend xs) rfl
  have hbraces : Reads (braces (bodyItem decl)) (Symbol.braces (items.flatMap render) ++ xs)
      (· = ⟨items, []⟩) xs := by
    rw [Symbol.braces, List.cons_append, List.append_assoc]
    refine .afterPunct (reads_trailing.then (hitems.then (.afterPunct (.pure ?_))))
    exact ofItems_map_decl [] items
  refine hbraces.then (reads_trailing.then (.pure ?_))
  simp

/-- A declaration that is a keyword, a name and a body. -/
theorem reads_named {k : Keyword} {decl : Production α} {node : String → Body α → β}
    {render : α → List Symbol} {items : List α} (w : String)
    (hdecl : ∀ a ∈ items, ∀ rest, Reads decl (render a ++ rest) (· = a) rest)
    (hrender : ∀ a ∈ items, render a ≠ [])
    (hend : ∀ rest, decl.Refuses (.punct .rightBrace :: rest)) :
    Reads (do
      let leading ← comments
      let _ ← keyword k
      let name ← ident
      let inner ← body leading decl
      return node name inner)
      (.word k.text :: .word w :: (Symbol.braces (items.flatMap render) ++ xs))
      (· = node w ⟨items, []⟩) xs := by
  refine reads_comments.then (.afterKeyword ((reads_ident w).then ?_))
  exact (reads_body hdecl hrender hend []).then (.pure rfl)

end Production

end ProtoSchema
