import Mathlib.Data.List.Forall2
import ProtoSchema.Proofs.Checked.Scan
import ProtoSchema.Proofs.Locality

/-
  Matching by places in the list of lexemes. A place is the number of lexemes before it; the lexeme
  there is looked up when it is passed, and the text of a name is cut out of the source: both may
  fail, and so may a step that is given by an `Option`. `Mirrors`: a program and a production that
  do the same at every place, so that no step of the program fails.
-/

namespace ProtoSchema.Checked

/-- A source together with its lexemes. -/
structure Input where
  source : List Char
  lexemes : List Lexeme

/-- Every lexeme is found in the source at its span, as it is spelled. -/
def Input.WellPlaced (i : Input) : Prop :=
  ∀ l ∈ i.lexemes, slice? i.source l.span = some l.spelling.toList

/-! ## Lexemes by their places -/

/-- The value of a literal token; no other token is to be given. -/
def literal? : Token → Option Value
  | .int value => some (.int value)
  | .float value => some (.float value)
  | .string value => some (.string value)
  | .word (.bool value) => some (.bool value)
  | .word .null => some .null
  | .word w => some (.ident w.text)
  | .punct _ | .lineComment _ _ | .blockComment _ => none

/-- The value of an integer token. -/
def integerValue? : Token → Option Int
  | .int value => some value
  | _ => none

/-- The value of a string token. -/
def stringValue? : Token → Option String
  | .string value => some value
  | _ => none

/-- Whether a token belongs to the class. -/
def accepts : Terminal → Token → Bool
  | .punct p, .punct found => found == p
  | .keyword k, .word w => Terminal.isKeyword k w
  | .word, .word _ => true
  | .name, .word w => Terminal.isName w
  | .integer, .int _ => true
  | .string, .string _ => true
  | .literal, .int _ | .literal, .float _ => true
  | .literal, .word (.bool _) | .literal, .word .null => true
  | _, _ => false

namespace Input

variable (i : Input)

/-- What a token of the class contributes; it stands at `s`. -/
def value? (token : Token) (s : Span) : (t : Terminal) → Option t.Result
  | .punct _ => some s
  | .keyword _ => some s
  | .word => (slice? i.source s).map String.ofList
  | .name => (slice? i.source s).map String.ofList
  | .integer => integerValue? token
  | .string => stringValue? token
  | .literal => literal? token

/-- The place of the next lexeme that is no comment. -/
def lookahead (place : Nat) : Nat :=
  place + ((i.lexemes.drop place).takeWhile (·.token.isComment)).length

/-- The token that stands next, if there is one. -/
def peek (place : Nat) : Option Token := i.lexemes[i.lookahead place]?.map (·.token)

/-- Passes the token that stands next, which has to be there. -/
def bump? (place : Nat) : Option (Span × Nat) := do
  let l ← i.lexemes[i.lookahead place]?
  return (l.span, i.lookahead place + 1)

/-- What the next token contributes as a `t`, and the place after it, if it is one. -/
def take? (t : Terminal) (place : Nat) : Option (Option t.Result × Nat) :=
  match i.peek place with
  | some token =>
    if accepts t token then do
      let (s, next) ← i.bump? place
      return (some (← i.value? token s t), next)
    else some (none, place)
  | none => some (none, place)

/-- The comment that stands at a place, and the place after it. -/
def comment (place : Nat) : Option Comment × Nat :=
  match i.lexemes[place]? with
  | some ⟨.lineComment text _, _, _⟩ => (some ⟨text⟩, place + 1)
  | some ⟨.blockComment text, _, _⟩ => (some ⟨text⟩, place + 1)
  | _ => (none, place)

/-- The line comment that stands at a place, if it is trailing, and the place after it. -/
def trailing (place : Nat) : Option Comment × Nat :=
  match i.lexemes[place]? with
  | some ⟨.lineComment text true, _, _⟩ => (some ⟨text⟩, place + 1)
  | _ => (none, place)

end Input

/-! ## Programs -/

/-- A rule for matching lexemes, with two steps that productions do not have: `refuse` does not
match and notes nothing, and `demand x` fails altogether if `x` is nothing. -/
inductive Program : Type → Type 1 where
  | pure {α : Type} (value : α) : Program α
  | bind {α β : Type} (p : Program α) (k : α → Program β) : Program β
  | sees (t : Terminal) : Program Bool
  | take (t : Terminal) : Program (Option t.Result)
  | comment : Program (Option Comment)
  | trailing : Program (Option Comment)
  | fail {α : Type} (e : Expectation) : Program α
  | refuse {α : Type} : Program α
  | orElse {α : Type} (p q : Program α) : Program α
  | loop {α : Type} (p : Program (Option α)) : Program (List α)
  | call (n : Nonterminal) : Program n.Result
  | demand {α : Type} (x : Option α) : Program α

instance : Monad Program where
  pure := Program.pure
  bind := Program.bind

/-- The outcome of a program: its value and the place after it, or no match. -/
inductive Outcome (α : Type) where
  | done (value : α) (place : Nat) (report : Report)
  | failed (report : Report)

/-- The outcome with its value changed. -/
def Outcome.map {α β : Type} (f : α → β) : Outcome α → Outcome β
  | done value place report => done (f value) place report
  | failed report => failed report

/-- Takes a step again and again until it gives nothing or stays where it is. -/
def repeat? {α : Type} (step : Nat → Report → Option (Outcome (Option α))) (limit place : Nat)
    (r : Report) : Option (Outcome (List α)) := do
  match ← step place r with
  | .failed r' => return .failed r'
  | .done none place' r' => return .done [] place' r'
  | .done (some value) place' r' =>
    if place < place' then
      if place' ≤ limit then return (← repeat? step limit place' r').map (value :: ·) else none
    else return .done [] place r'
termination_by limit - place

namespace Program

/-- Runs a program from a place, given a way to run nested constructs. -/
def run? (i : Input) (callee? : (n : Nonterminal) → Nat → Report → Option (Outcome n.Result))
    {α : Type} : Program α → Nat → Report → Option (Outcome α)
  | pure value, place, r => some (.done value place r)
  | bind p k, place, r => do
    match ← p.run? i callee? place r with
    | .done value place' r' => (k value).run? i callee? place' r'
    | .failed r' => return .failed r'
  | sees t, place, r => some (.done ((i.peek place).any (accepts t)) place r)
  | take t, place, r => do
    let (value, place') ← i.take? t place
    return .done value place' r
  | comment, place, r => some (.done (i.comment place).1 (i.comment place).2 r)
  | trailing, place, r => some (.done (i.trailing place).1 (i.trailing place).2 r)
  | fail e, place, r => some (.failed (r.note (i.lookahead place) e))
  | refuse, _, r => some (.failed r)
  | orElse p q, place, r => do
    match ← p.run? i callee? place r with
    | .done value place' r' => return .done value place' r'
    | .failed r' => q.run? i callee? place r'
  | loop p, place, r => repeat? (p.run? i callee?) i.lexemes.length place r
  | call n, place, r => callee? n place r
  | demand x, place, r => x.map (.done · place r)

/-- The program that does what a production says. -/
def lift {α : Type} : Production α → Program α
  | .pure value => pure value
  | .bind p k => bind (lift p) fun a => lift (k a)
  | .sees t => sees t
  | .take t => take t
  | .comment => comment
  | .trailing => trailing
  | .fail e => fail e
  | .orElse p q => orElse (lift p) (lift q)
  | .loop p => loop (lift p)
  | .call n => call n

-- The equations of the definition are made here, once, for all the proofs that open it.
attribute [local simp] run?

end Program

/-! ## What stands next -/

theorem accepts_eq (t : Terminal) (l : Lexeme) : accepts t l.token = (t.read? l).isSome := by
  obtain ⟨token, spelling, s⟩ := l
  unfold accepts Terminal.read?
  cases t <;> cases token <;> try rfl
  · next p found =>
    change (found == p) = (if found = p then some s else none).isSome
    by_cases h : found = p <;> simp [h]
  · next k w =>
    change Terminal.isKeyword k w = (if Terminal.isKeyword k w then some s else none).isSome
    cases Terminal.isKeyword k w <;> rfl
  · next w =>
    change Terminal.isName w = (if Terminal.isName w then some spelling else none).isSome
    cases Terminal.isName w <;> rfl
  · next w => cases w <;> rfl

theorem value?_of_read? {i : Input} {t : Terminal} {l : Lexeme} {v : t.Result}
    (hslice : slice? i.source l.span = some l.spelling.toList) (h : t.read? l = some v) :
    i.value? l.token l.span t = some v := by
  have hspelling : (slice? i.source l.span).map String.ofList = some l.spelling := by
    rw [hslice, Option.map_some, String.ofList_toList]
  cases t with
  | punct p => rw [Input.value?, (Terminal.read?_punct.1 h).2]
  | keyword k =>
    obtain ⟨_, -, -, hspan⟩ := Terminal.read?_keyword.1 h
    rw [Input.value?, hspan]
  | word =>
    obtain ⟨_, -, hv⟩ := Terminal.read?_word.1 h
    exact hv ▸ hspelling
  | name =>
    obtain ⟨_, -, -, hv⟩ := Terminal.read?_name.1 h
    exact hv ▸ hspelling
  | integer =>
    rw [Terminal.read?_integer.1 h]
    rfl
  | string =>
    rw [Terminal.read?_string.1 h]
    rfl
  | literal =>
    have hv := Terminal.read?_literal.1 h
    unfold Terminal.literal? at hv
    split at hv
    · next heq => rw [heq]; exact hv
    · next heq => rw [heq]; exact hv
    · next heq => rw [heq]; exact hv
    · next heq => rw [heq]; exact hv
    · cases hv

section

variable {i : Input} {c : Cursor}

theorem drop_index (hc : c.Among i.lexemes) : i.lexemes.drop c.index = c.rest := by
  obtain ⟨passed, hrest, hindex⟩ := hc
  rw [show i.lexemes = passed ++ c.rest from hrest]
  exact List.drop_left' (by rw [hindex]; exact (Nat.zero_add _).symm)

theorem lookahead_eq (hc : c.Among i.lexemes) : i.lookahead c.index = c.significant.index := by
  rw [Input.lookahead, drop_index hc]
  rfl

theorem lexeme_eq (hc : c.Among i.lexemes) :
    i.lexemes[i.lookahead c.index]? = c.significant.rest.head? := by
  rw [lookahead_eq hc]
  exact Cursor.Among.getElem? (hc.trans c.reaches_significant)

theorem mem_of_significant (hc : c.Among i.lexemes) {l : Lexeme} {rest : List Lexeme}
    (h : c.significant.rest = l :: rest) : l ∈ i.lexemes := by
  have hl := lexeme_eq hc
  rw [h, List.head?_cons] at hl
  exact List.mem_of_getElem? hl

theorem sees_eq (hc : c.Among i.lexemes) (t : Terminal) :
    (i.peek c.index).any (accepts t) = (c.take? t).isSome := by
  rw [Input.peek, lexeme_eq hc, Cursor.take?]
  cases h : c.significant with
  | mk index rest =>
    cases rest with
    | nil => rfl
    | cons l rest =>
      simp only [List.head?_cons, Option.map_some, Option.any_some, accepts_eq, Option.isSome_map]

theorem take?_eq (hi : i.WellPlaced) (hc : c.Among i.lexemes) (t : Terminal) :
    i.take? t c.index = some (match c.take? t with
      | some (v, d) => (some v, d.index)
      | none => (none, c.index)) := by
  have hlexeme := lexeme_eq hc
  have hmem : ∀ l rest, c.significant.rest = l :: rest → l ∈ i.lexemes :=
    fun _ _ => mem_of_significant hc
  rw [Input.take?, Input.peek, Input.bump?, hlexeme, lookahead_eq hc, Cursor.take?]
  cases h : c.significant with
  | mk index rest =>
    cases rest with
    | nil => rfl
    | cons l rest =>
      simp only [List.head?_cons, Option.map_some, accepts_eq]
      cases hread : t.read? l with
      | none => rfl
      | some v =>
        have hv := value?_of_read? (hi l (hmem l rest (by rw [h]))) hread
        simp only [Option.isSome_some, if_true, Option.bind_eq_bind, Option.bind_some]
        change (i.value? l.token l.span t).bind _ = _
        rw [hv]
        rfl

theorem comment_eq (hc : c.Among i.lexemes) : i.comment c.index = match c.comment? with
    | some (v, d) => (some v, d.index)
    | none => (none, c.index) := by
  rw [Input.comment, hc.getElem?, Cursor.comment?]
  cases c.rest with
  | nil => rfl
  | cons l rest =>
    obtain ⟨token, spelling, s⟩ := l
    cases token <;> rfl

theorem trailing_eq (hc : c.Among i.lexemes) : i.trailing c.index = match c.trailing? with
    | some (v, d) => (some v, d.index)
    | none => (none, c.index) := by
  rw [Input.trailing, hc.getElem?, Cursor.trailing?]
  cases c.rest with
  | nil => rfl
  | cons l rest =>
    obtain ⟨token, spelling, s⟩ := l
    cases token with
    | lineComment text trailing => cases trailing <;> rfl
    | _ => rfl

end

/-! ## Programs and productions -/

/-- An outcome that says what a reply says, with a related value. -/
inductive Agrees {α β : Type} (R : α → β → Prop) : Reply α → Option (Outcome β) → Prop where
  | done {v : α} {w : β} {d : Cursor} {r : Report} (h : R v w) :
    Agrees R (.done v d r) (some (.done w d.index r))
  | failed {r : Report} : Agrees R (.failed r) (some (.failed r))

/-- Two ways to match nested constructs that agree wherever fewer than `bound` lexemes are left. -/
structure Callees (i : Input) (bound : Nat) (callee : Callee)
    (callee? : (n : Nonterminal) → Nat → Report → Option (Outcome n.Result)) : Prop where
  reaches : callee.Reaches
  agrees : ∀ n c r, c.Among i.lexemes → c.rest.length < bound →
    Agrees Eq (callee n c r) (callee? n c.index r)

/-- The program does what the production does wherever fewer than `start` lexemes are left, provided
that nested constructs are matched alike where fewer than `bound` are. -/
def Mirrors (i : Input) (bound start : Nat) {α β : Type} (R : α → β → Prop) (p : Production α)
    (q : Program β) : Prop :=
  ∀ callee callee?, Callees i bound callee callee? → ∀ c r, c.Among i.lexemes →
    c.rest.length < start → Agrees R (p.matchWith callee c r) (q.run? i callee? c.index r)

namespace Mirrors

variable {i : Input} {bound start : Nat} {α β γ δ : Type}

theorem pure {R : α → β → Prop} {v : α} {w : β} (h : R v w) :
    Mirrors i bound start R (.pure v) (.pure w) :=
  fun _ _ _ _ _ _ _ => .done h

/-- One step after another. The second one starts after the first, so where that one passes
something, fewer lexemes are left. -/
theorem bindWith {later : Nat} {R : α → β → Prop} {S : γ → δ → Prop} {p : Production α}
    {q : Program β} {k : α → Production γ} {l : β → Program δ}
    (hlater : ∀ callee c d r r' v, callee.Reaches → p.matchWith callee c r = .done v d r' →
      c.rest.length < start → d.rest.length < later)
    (hp : Mirrors i bound start R p q)
    (hk : ∀ v w, R v w → Mirrors i bound later S (k v) (l w)) :
    Mirrors i bound start S (p >>= k) (q >>= l) := by
  intro callee callee? hcallees c r hc hlt
  have h := hp callee callee? hcallees c r hc hlt
  change Agrees S ((Production.bind p k).matchWith callee c r)
    ((Program.bind q l).run? i callee? c.index r)
  rw [Program.run?]
  cases hm : p.matchWith callee c r with
  | failed r' =>
    rw [hm] at h
    rw [Production.matchWith, hm]
    generalize q.run? i callee? c.index r = outcome at h
    cases h
    exact .failed
  | done v d r' =>
    rw [hm] at h
    rw [Production.matchWith, hm]
    generalize q.run? i callee? c.index r = outcome at h
    cases h with | done hR =>
    have hreaches := Production.matchWith_reaches hcallees.reaches p hm
    exact hk _ _ hR callee callee? hcallees d r' (hc.trans hreaches)
      (hlater _ _ _ _ _ _ hcallees.reaches hm hlt)

theorem bind {R : α → β → Prop} {S : γ → δ → Prop} {p : Production α} {q : Program β}
    {k : α → Production γ} {l : β → Program δ} (hp : Mirrors i bound start R p q)
    (hk : ∀ v w, R v w → Mirrors i bound start S (k v) (l w)) :
    Mirrors i bound start S (p >>= k) (q >>= l) :=
  bindWith (fun _ _ _ _ _ _ hr hm hlt =>
    Nat.lt_of_le_of_lt (Production.matchWith_reaches hr p hm).length_le hlt) hp hk

/-- After a step that passes a lexeme, nested constructs are matched alike. -/
theorem bindConsuming {R : α → β → Prop} {S : γ → δ → Prop} {p : Production α} {q : Program β}
    {k : α → Production γ} {l : β → Program δ} (hp : Mirrors i bound (bound + 1) R p q)
    (hconsumes : p.Consumes) (hk : ∀ v w, R v w → Mirrors i bound bound S (k v) (l w)) :
    Mirrors i bound (bound + 1) S (p >>= k) (q >>= l) :=
  bindWith (fun _ _ _ _ _ _ hr hm hlt =>
    Nat.lt_of_lt_of_le (hconsumes _ _ _ _ _ _ hr hm) (Nat.lt_succ_iff.1 hlt)) hp hk

theorem mono {R S : α → β → Prop} {p : Production α} {q : Program β}
    (hp : Mirrors i bound start R p q) (h : ∀ v w, R v w → S v w) :
    Mirrors i bound start S p q := by
  intro callee callee? hcallees c r hc hlt
  have hagrees := hp callee callee? hcallees c r hc hlt
  generalize p.matchWith callee c r = reply at *
  generalize q.run? i callee? c.index r = outcome at *
  cases hagrees with
  | done hR => exact .done (h _ _ hR)
  | failed => exact .failed

theorem orElse {R : α → β → Prop} {p p' : Production α} {q q' : Program β}
    (h : Mirrors i bound start R p q) (h' : Mirrors i bound start R p' q') :
    Mirrors i bound start R (.orElse p p') (.orElse q q') := by
  intro callee callee? hcallees c r hc hlt
  have hp := h callee callee? hcallees c r hc hlt
  rw [Production.matchWith, Program.run?]
  generalize p.matchWith callee c r = reply at hp
  generalize q.run? i callee? c.index r = outcome at hp
  cases hp with
  | done hR => exact .done hR
  | failed => exact h' callee callee? hcallees c _ hc hlt

theorem loop {R : α → β → Prop} {p : Production (Option α)} {q : Program (Option β)}
    (h : Mirrors i bound start (Option.Rel R) p q) :
    Mirrors i bound start (List.Forall₂ R) (.loop p) (.loop q) := by
  intro callee callee? hcallees c r hc hlt
  rw [Production.matchWith, Program.run?]
  induction hn : c.rest.length using Nat.strongRecOn generalizing c r with | ind n ih
  have hp := h callee callee? hcallees c r hc hlt
  rw [matchLoop, repeat?]
  cases hm : p.matchWith callee c r with
  | failed r' =>
    rw [hm] at hp
    generalize q.run? i callee? c.index r = outcome at hp
    cases hp
    exact .failed
  | done v d r' =>
    rw [hm] at hp
    generalize q.run? i callee? c.index r = outcome at hp
    have hreaches := Production.matchWith_reaches hcallees.reaches p hm
    have hd : d.Among i.lexemes := hc.trans hreaches
    cases hp with | done hR =>
    cases hR with
    | none => exact .done .nil
    | some hR =>
      simp only [Option.bind_eq_bind, Option.bind_some, hreaches.shorter_iff]
      split
      · next hindex =>
        have hshorter := hreaches.shorter_iff.2 hindex
        have hloop := ih _ (hn ▸ hshorter) d r' hd (by omega) rfl
        rw [if_pos hd.index_le]
        generalize matchLoop (p.matchWith callee) d r' = reply at hloop
        generalize repeat? (q.run? i callee?) i.lexemes.length d.index r' = outcome at hloop
        cases hloop with
        | done hvs => exact .done (.cons hR hvs)
        | failed => exact .failed
      · exact .done .nil

theorem take (hi : i.WellPlaced) (t : Terminal) :
    Mirrors i bound start Eq (.take t) (.take t) := by
  intro callee callee? _ c r hc _
  rw [Production.matchWith, Program.run?, take?_eq hi hc]
  cases c.take? t <;> exact .done rfl

theorem comment : Mirrors i bound start Eq .comment .comment := by
  intro callee callee? _ c r hc _
  rw [Production.matchWith, Program.run?, comment_eq hc]
  cases c.comment? <;> exact .done rfl

theorem trailing : Mirrors i bound start Eq .trailing .trailing := by
  intro callee callee? _ c r hc _
  rw [Production.matchWith, Program.run?, trailing_eq hc]
  cases c.trailing? <;> exact .done rfl

theorem fail {R : α → β → Prop} (e : Expectation) :
    Mirrors i bound start R (.fail e) (.fail e) := by
  intro callee callee? _ c r hc _
  rw [Production.matchWith, Program.run?, lookahead_eq hc]
  exact .failed

theorem sees (t : Terminal) : Mirrors i bound start Eq (.sees t) (.sees t) := by
  intro callee callee? _ c r hc _
  rw [Production.matchWith, Program.run?, sees_eq hc]
  exact .done rfl

theorem call (n : Nonterminal) : Mirrors i bound bound Eq (.call n) (.call n) :=
  fun _ _ hcallees c r hc hlt => hcallees.agrees n c r hc hlt

theorem loopSame {p : Production (Option α)} {q : Program (Option α)}
    (h : Mirrors i bound start Eq p q) : Mirrors i bound start Eq (.loop p) (.loop q) := by
  refine mono (.loop (R := Eq) (h.mono ?_)) ?_
  · rintro v _ rfl
    cases v with
    | none => exact .none
    | some v => exact .some rfl
  · intro vs ws h
    exact List.forall₂_eq_eq_eq ▸ h

/-- The program of a production mirrors it. -/
theorem lift (hi : i.WellPlaced) (p : Production α) : Mirrors i bound bound Eq p (.lift p) := by
  induction p with
  | pure v => exact .pure rfl
  | bind p k ihp ihk =>
    refine .bind ihp ?_
    rintro v _ rfl
    exact ihk v
  | sees t => exact .sees t
  | take t => exact .take hi t
  | comment => exact .comment
  | trailing => exact .trailing
  | fail e => exact .fail e
  | orElse p q ihp ihq => exact .orElse ihp ihq
  | loop p ih => exact .loopSame ih
  | call n => exact .call n

/-- The comments that stand next refer to no nested construct. -/
theorem comments : Mirrors i bound start Eq Production.comments (.lift .comments) :=
  .loopSame .comment

/-- Nor does a single lexeme. -/
theorem takeOr (hi : i.WellPlaced) (t : Terminal) (e : Expectation) :
    Mirrors i bound start Eq (Production.takeOr t e) (.lift (.takeOr t e)) := by
  refine .bind (.take hi t) ?_
  rintro v _ rfl
  cases v with
  | none => exact .fail e
  | some v => exact .pure rfl

end Mirrors

end ProtoSchema.Checked
