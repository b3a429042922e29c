import ProtoSchema.Proofs.Neighbours.Statements
import ProtoSchema.Proofs.Notation.Inner

/-
  Variations of a file. Two lists of lexemes are variations of each other if they are the same but
  for stray semicolons where a statement may begin, and for values in braces that are read as the
  same value (`Varies`). A production that goes on alike on all of them is said to track them; inner
  productions do within a statement (`Takes.tracks`).
-/

namespace ProtoSchema

/-! ## What may vary -/

/-- A place among the lexemes: within a statement, where a statement may begin, or where a value
stands next. -/
inductive Spot where
  | inside
  | boundary
  | value
  deriving DecidableEq

/-- The place behind a token. -/
def Spot.behind : Token → Spot
  | .punct .semicolon | .punct .leftBrace | .punct .rightBrace => boundary
  | .punct .equals => value
  | _ => inside

/-- Lexemes without comments that are the same from a place on, but for stray semicolons between
statements and for values in braces: these are read as the same value, or both cannot be read. -/
inductive Varies : Spot → List Lexeme → List Lexeme → Prop
  | nil : Varies .inside [] []
  | token {l : Lexeme} {ls ls' : List Lexeme} (noComment : l.token.isComment = false)
      (rest : Varies (.behind l.token) ls ls') : Varies .inside (l :: ls) (l :: ls')
  | statement {ls ls' : List Lexeme} (rest : Varies .inside ls ls') : Varies .boundary ls ls'
  | strayLeft {l : Lexeme} {ls ls' : List Lexeme} (token : l.token = .punct .semicolon)
      (rest : Varies .boundary ls ls') : Varies .boundary (l :: ls) ls'
  | strayRight {l : Lexeme} {ls ls' : List Lexeme} (token : l.token = .punct .semicolon)
      (rest : Varies .boundary ls ls') : Varies .boundary ls (l :: ls')
  | constant {ls ls' : List Lexeme} (noBrace : ∀ l ∈ ls.head?, l.token ≠ .punct .leftBrace)
      (rest : Varies .inside ls ls') : Varies .value ls ls'
  | aggregate {l l' : Lexeme} {ls ls' rest rest' : List Lexeme} {a : Aggregate}
      (token : l.token = .punct .leftBrace) (token' : l'.token = .punct .leftBrace)
      (yield : Production.aggregate.yield (l :: ls) = some (a, rest))
      (yield' : Production.aggregate.yield (l' :: ls') = some (a, rest'))
      (rest : Varies .inside rest rest') : Varies .value (l :: ls) (l' :: ls')
  | unread {l l' : Lexeme} {ls ls' : List Lexeme} (token : l.token = .punct .leftBrace)
      (token' : l'.token = .punct .leftBrace)
      (yield : Production.aggregate.yield (l :: ls) = none)
      (yield' : Production.aggregate.yield (l' :: ls') = none) : Varies .value (l :: ls) (l' :: ls')

namespace Varies

variable {s : Spot} {ls ls' : List Lexeme}

theorem head_not_comment (h : Varies s ls ls') :
    (∀ l ∈ ls.head?, l.token.isComment = false) ∧ ∀ l ∈ ls'.head?, l.token.isComment = false := by
  have hpunct {l : Lexeme} {p : Punct} (h : l.token = .punct p) : l.token.isComment = false := by
    rw [h]
    rfl
  induction h with
  | nil => exact ⟨nofun, nofun⟩
  | token noComment =>
    exact ⟨fun _ hl => Option.some.inj hl ▸ noComment, fun _ hl => Option.some.inj hl ▸ noComment⟩
  | statement _ ih => exact ih
  | strayLeft token _ ih => exact ⟨fun _ hl => Option.some.inj hl ▸ hpunct token, ih.2⟩
  | strayRight token _ ih => exact ⟨ih.1, fun _ hl => Option.some.inj hl ▸ hpunct token⟩
  | constant _ _ ih => exact ih
  | aggregate token token' =>
    exact ⟨fun _ hl => Option.some.inj hl ▸ hpunct token,
      fun _ hl => Option.some.inj hl ▸ hpunct token'⟩
  | unread token token' =>
    exact ⟨fun _ hl => Option.some.inj hl ▸ hpunct token,
      fun _ hl => Option.some.inj hl ▸ hpunct token'⟩

end Varies

/-- Two results with the same value that leave lexemes which are related by `R`. -/
inductive SameBut {α : Type} (R : List Lexeme → List Lexeme → Prop) :
    Option (α × List Lexeme) → Option (α × List Lexeme) → Prop
  | neither : SameBut R none none
  | both (v : α) {rest rest' : List Lexeme} (h : R rest rest') :
      SameBut R (some (v, rest)) (some (v, rest'))

namespace SameBut

variable {α : Type} {R S : List Lexeme → List Lexeme → Prop}
  {found found' others others' : Option (α × List Lexeme)}

theorem mono (h : SameBut R found found') (hle : ∀ rest rest', R rest rest' → S rest rest') :
    SameBut S found found' := by
  cases h with
  | neither => exact .neither
  | both v h => exact .both v (hle _ _ h)

theorem or (h : SameBut R found found') (h' : SameBut R others others') :
    SameBut R (found.or others) (found'.or others') := by
  cases h with
  | neither => exact h'
  | both v h => exact .both v h

theorem bind {β : Type} {k k' : α × List Lexeme → Option (β × List Lexeme)}
    (h : SameBut R found found')
    (hk : ∀ v rest rest', found = some (v, rest) → found' = some (v, rest') → R rest rest' →
      SameBut S (k (v, rest)) (k' (v, rest'))) : SameBut S (found.bind k) (found'.bind k') := by
  cases h with
  | neither => exact .neither
  | both v h => exact hk v _ _ rfl rfl h

theorem map {β : Type} (f : α → β) (h : SameBut R found found') :
    SameBut R (found.map fun v => (f v.1, v.2)) (found'.map fun v => (f v.1, v.2)) := by
  cases h with
  | neither => exact .neither
  | both v h => exact .both (f v) h

end SameBut

namespace Production

variable {α β γ : Type} {bound : Nat} {s t u : Spot}

/-! ## Productions that go on alike -/

/-- A production that goes on alike on variations from the place `s` on, and leaves variations from
the place `t` on, where both together have fewer than `bound` lexemes. -/
def Tracks (bound : Nat) (s t : Spot) (p : Production α) : Prop :=
  ∀ ls ls', ls.length + ls'.length < bound → Varies s ls ls' →
    SameBut (Varies t) (p.yield ls) (p.yield ls')

theorem tracks_pure (v : α) : Tracks bound s s (Pure.pure v : Production α) :=
  fun _ _ _ h => .both v h

theorem Tracks.then {p : Production α} {k : α → Production β} (hp : p.Tracks bound s t)
    (hk : ∀ a, (k a).Tracks bound t u) : Tracks bound s u (p >>= k) := by
  intro ls ls' hlength h
  rw [yield_bind, yield_bind]
  refine (hp ls ls' hlength h).bind fun a rest rest' hv hv' hrest => ?_
  have hle := (suffix_of_yield hv).length_le
  have hle' := (suffix_of_yield hv').length_le
  exact hk a rest rest' (by omega) hrest

/-- A production, and then a function of what it gives. -/
theorem Tracks.giving {p : Production α} (h : p.Tracks bound s t) (f : α → β) :
    Tracks bound s t (do return f (← p)) :=
  h.then fun _ => tracks_pure _

theorem Tracks.orElse {p q : Production α} (hp : p.Tracks bound s t) (hq : q.Tracks bound s t) :
    Tracks bound s t (p <|> q) := by
  intro ls ls' hlength h
  rw [yield_orElse, yield_orElse]
  exact (hp ls ls' hlength h).or (hq ls ls' hlength h)

/-! ### Comments -/

/-- Where a token or nothing stands next, no comment does. -/
theorem takeHead?_eq_none {what : Lexeme → Option Comment} {ls : List Lexeme}
    (hwhat : ∀ l c, what l = some c → l.token.isComment = true)
    (h : ∀ l ∈ ls.head?, l.token.isComment = false) : takeHead? what ls = none := by
  refine Option.eq_none_iff_forall_ne_some.2 fun ⟨c, rest⟩ hfound => ?_
  obtain ⟨l, rfl, hl⟩ := takeHead?_eq_some hfound
  have hcomment := hwhat l _ hl
  rw [h l rfl] at hcomment
  cases hcomment

theorem yield_comment_of_token {ls : List Lexeme} (h : ∀ l ∈ ls.head?, l.token.isComment = false) :
    comment.yield ls = some (none, ls) := by
  rw [yield_comment, takeHead?_eq_none (fun _ _ => Lexeme.isComment_of_comment?) h]
  rfl

theorem yield_trailing_of_token {ls : List Lexeme}
    (h : ∀ l ∈ ls.head?, l.token.isComment = false) : trailing.yield ls = some (none, ls) := by
  rw [yield_trailing, takeHead?_eq_none (fun _ _ hc => Lexeme.isComment_of_comment?
    (Lexeme.comment?_of_trailing? hc)) h]
  rfl

theorem tracks_trailing : Tracks bound s s trailing := by
  intro ls ls' _ h
  rw [yield_trailing_of_token h.head_not_comment.1, yield_trailing_of_token h.head_not_comment.2]
  exact .both none h

/-! ### Inner productions -/

theorem behind_of_inner {l : Lexeme} {t : Terminal} {v : t.Result} (h : t.Inner)
    (hread : t.read? l = some v) : Spot.behind l.token = .inside := by
  obtain ⟨hsemicolon, hleft, hright, hequals⟩ := h
  have hne {p : Punct} (hp : t ≠ .punct p) : l.token ≠ .punct p := Terminal.token_ne_punct hread hp
  unfold Spot.behind
  split
  · next h => exact absurd h (hne hsemicolon)
  · next h => exact absurd h (hne hleft)
  · next h => exact absurd h (hne hright)
  · next h => exact absurd h (hne hequals)
  · rfl

/-- Lexemes `rest` and `rest'` that vary within a statement, behind as many of `ls` as of `ls'`. -/
def InStep (ls ls' rest rest' : List Lexeme) : Prop :=
  Varies .inside rest rest' ∧ ls.length + rest'.length = ls'.length + rest.length

theorem InStep.refl {ls ls' : List Lexeme} (h : Varies .inside ls ls') : InStep ls ls' ls ls' :=
  ⟨h, Nat.add_comm _ _⟩

theorem InStep.trans {ls ls' ms ms' rest rest' : List Lexeme} (h : InStep ls ls' ms ms')
    (h' : InStep ms ms' rest rest') : InStep ls ls' rest rest' :=
  ⟨h'.1, by have := h.2; have := h'.2; omega⟩

/-- An inner class is looked for with the same result. -/
theorem inStep_take? {t : Terminal} (ht : t.Inner) {ls ls' : List Lexeme}
    (h : Varies .inside ls ls') : SameBut (InStep ls ls') (t.take? ls) (t.take? ls') := by
  cases h with
  | nil => exact .neither
  | @token l ls ls' noComment rest =>
    rw [t.take?_of_token noComment, t.take?_of_token noComment]
    cases hread : t.read? l with
    | none => exact .neither
    | some v =>
      rw [behind_of_inner ht hread] at rest
      refine .both v ⟨rest, ?_⟩
      simp only [List.length_cons]
      omega

/-- Any class is looked for with the same result. -/
theorem isSome_take?_of_varies (t : Terminal) {ls ls' : List Lexeme} (h : Varies .inside ls ls') :
    (t.take? ls).isSome = (t.take? ls').isSome := by
  cases h with
  | nil => rfl
  | token noComment rest =>
    rw [t.take?_of_token noComment, t.take?_of_token noComment, Option.isSome_map,
      Option.isSome_map]

theorem inStep_orStay {found found' : Option (α × List Lexeme)} {ls ls' : List Lexeme}
    (h : Varies .inside ls ls') (hfound : SameBut (InStep ls ls') found found') :
    SameBut (InStep ls ls') (some (orStay found ls)) (some (orStay found' ls')) := by
  cases hfound with
  | neither => exact .both none (.refl h)
  | both v hrest => exact .both (some v) hrest

/-- An inner production goes on alike within a statement, and by as many lexemes. -/
theorem Takes.inStep {p : Production α} (h : p.Inner) {ls ls' : List Lexeme}
    (hvaries : Varies .inside ls ls') :
    SameBut (InStep ls ls') (p.yield ls) (p.yield ls') := by
  induction p generalizing ls ls' with
  | pure v => exact .both v (.refl hvaries)
  | bind p k ihp ihk =>
    change SameBut _ ((p >>= k).yield ls) ((p >>= k).yield ls')
    rw [yield_bind, yield_bind]
    exact (ihp h.1 hvaries).bind fun a rest rest' _ _ hrest =>
      (ihk a (h.2 a) hrest.1).mono fun _ _ => hrest.trans
  | sees t =>
    rw [yield_sees, yield_sees, isSome_take?_of_varies t hvaries]
    exact .both _ (.refl hvaries)
  | take t =>
    rw [yield_take, yield_take]
    exact inStep_orStay hvaries (inStep_take? h hvaries)
  | comment =>
    rw [yield_comment_of_token hvaries.head_not_comment.1,
      yield_comment_of_token hvaries.head_not_comment.2]
    exact .both none (.refl hvaries)
  | trailing =>
    rw [yield_trailing_of_token hvaries.head_not_comment.1,
      yield_trailing_of_token hvaries.head_not_comment.2]
    exact .both none (.refl hvaries)
  | fail e => exact .neither
  | orElse p q ihp ihq =>
    change SameBut _ ((p <|> q).yield ls) ((p <|> q).yield ls')
    rw [yield_orElse, yield_orElse]
    exact (ihp h.1 hvaries).or (ihq h.2 hvaries)
  | loop p ih =>
    induction hn : ls.length using Nat.strongRecOn generalizing ls ls' with
    | ind n ihn =>
      rw [yield_loop, yield_loop]
      refine (ih h hvaries).bind fun v rest rest' hv hv' hrest => ?_
      have hlength := hrest.2
      cases v with
      | none => exact .both [] hrest
      | some v =>
        dsimp only
        by_cases hlt : rest.length < ls.length
        · rw [if_pos hlt, if_pos (by omega)]
          exact ((ihn _ (hn ▸ hlt) hrest.1 rfl).mono fun _ _ => hrest.trans).map (v :: ·)
        · rw [if_neg hlt, if_neg (by omega)]
          exact .both [] (.refl hvaries)
  | call n => exact h.elim

theorem Takes.tracks {p : Production α} (h : p.Inner) : p.Tracks bound .inside .inside :=
  fun _ _ _ hvaries => (h.inStep hvaries).mono fun _ _ => And.left

end Production

end ProtoSchema
