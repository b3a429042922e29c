import ProtoSchema.Proofs.Yield

/-
  Bodies as a whole. A production passes the braces of a body only together, so while a body is
  matched nothing is seen of what stands behind the brace that closes it, not even by alternatives
  that come to nothing (`yield_braces`). There is one lemma for each rule of productions and one for
  each construct with a body; what has none is `Flat`. As in the definition of matching, a nested
  construct is treated where fewer lexemes are left than before the construct around it.
-/

namespace ProtoSchema

/-! ## Balanced braces -/

/-- Lexemes up to the brace that closes the body around them. -/
inductive Closed : List Lexeme → Prop
  | brace {l : Lexeme} (token : l.token = .punct .rightBrace) : Closed [l]
  | other {l : Lexeme} {ls : List Lexeme} (notLeft : l.token ≠ .punct .leftBrace)
      (notRight : l.token ≠ .punct .rightBrace) (rest : Closed ls) : Closed (l :: ls)
  | body {l : Lexeme} {inner ls : List Lexeme} (token : l.token = .punct .leftBrace)
      (closing : Closed inner) (rest : Closed ls) : Closed (l :: (inner ++ ls))

/-- Lexemes that close the bodies which they open, and no others. -/
def Balanced (ls : List Lexeme) : Prop := ∀ rest, Closed rest → Closed (ls ++ rest)

theorem not_brace_of_comment {l : Lexeme} (h : l.token.isComment = true) (p : Punct) :
    l.token ≠ .punct p := by
  intro hl
  rw [hl] at h
  cases h

theorem Terminal.token_ne_punct {t : Terminal} {l : Lexeme} {v : t.Result} {p : Punct}
    (h : t.read? l = some v) (ht : t ≠ .punct p) : l.token ≠ .punct p := by
  intro hl
  unfold read? at h
  rw [hl] at h
  cases t with
  | punct q =>
    dsimp only at h
    split at h
    · next heq => exact ht (congrArg punct heq.symm)
    · cases h
  | _ => cases h

theorem Balanced.nil : Balanced [] := fun _ h => h

theorem Balanced.append {xs ys : List Lexeme} (hx : Balanced xs) (hy : Balanced ys) :
    Balanced (xs ++ ys) := by
  intro rest h
  rw [List.append_assoc]
  exact hx _ (hy rest h)

theorem Balanced.other {l : Lexeme} (hleft : l.token ≠ .punct .leftBrace)
    (hright : l.token ≠ .punct .rightBrace) : Balanced [l] :=
  fun _ h => .other hleft hright h

theorem Balanced.comments {cs : List Lexeme} (h : ∀ c ∈ cs, c.token.isComment = true) :
    Balanced cs := by
  induction cs with
  | nil => exact .nil
  | cons c cs ih =>
    obtain ⟨hc, hcs⟩ := List.forall_mem_cons.1 h
    exact (Balanced.other (not_brace_of_comment hc _) (not_brace_of_comment hc _)).append (ih hcs)

theorem Balanced.body {l : Lexeme} {inner : List Lexeme} (hl : l.token = .punct .leftBrace)
    (h : Closed inner) : Balanced (l :: inner) :=
  fun _ hrest => .body hl h hrest

namespace Closed

theorem tail {l : Lexeme} {ls : List Lexeme} (h : Closed (l :: ls))
    (hleft : l.token ≠ .punct .leftBrace) (hright : l.token ≠ .punct .rightBrace) : Closed ls := by
  cases h with
  | brace token => exact absurd token hright
  | other _ _ rest => exact rest
  | body token => exact absurd token hleft

theorem of_comments {cs ls : List Lexeme} (h : Closed (cs ++ ls))
    (hcs : ∀ c ∈ cs, c.token.isComment = true) : Closed ls := by
  induction cs with
  | nil => exact h
  | cons c cs ih =>
    obtain ⟨hc, hcs⟩ := List.forall_mem_cons.1 hcs
    exact ih (h.tail (not_brace_of_comment hc _) (not_brace_of_comment hc _)) hcs

theorem nil_of_rightBrace {l : Lexeme} {ls : List Lexeme} (h : Closed (l :: ls))
    (hl : l.token = .punct .rightBrace) : ls = [] := by
  cases h with
  | brace => rfl
  | other _ notRight => exact absurd hl notRight
  | body token => rw [hl] at token; cases token

theorem of_leftBrace {l : Lexeme} {ls : List Lexeme} (h : Closed (l :: ls))
    (hl : l.token = .punct .leftBrace) :
    ∃ inner rest, ls = inner ++ rest ∧ Closed inner ∧ Closed rest := by
  cases h with
  | brace token => rw [hl] at token; cases token
  | other notLeft => exact absurd hl notLeft
  | body _ closing rest => exact ⟨_, _, rfl, closing, rest⟩

theorem ne_nil {ls : List Lexeme} (h : Closed ls) : ls ≠ [] := by
  cases h <;> exact List.cons_ne_nil _ _

theorem firstToken? {ls : List Lexeme} (h : Closed ls) :
    ∃ l, ProtoSchema.firstToken? ls = some l := by
  induction h with
  | brace token => exact ⟨_, firstToken?_of_token (by rw [token]; rfl) _⟩
  | @other l ls _ _ _ ih =>
    cases hl : l.token.isComment with
    | true => rwa [firstToken?_of_comment hl]
    | false => exact ⟨l, firstToken?_of_token hl ls⟩
  | body token => exact ⟨_, firstToken?_of_token (by rw [token]; rfl) _⟩

end Closed

/-- The lexemes `rest` are what is left of `ls` behind some tokens, comments and whole bodies. -/
structure Whole (ls rest : List Lexeme) : Prop where
  balanced : ∃ passed, ls = passed ++ rest ∧ Balanced passed
  closed : Closed ls → Closed rest

namespace Whole

theorem refl (ls : List Lexeme) : Whole ls ls := ⟨⟨[], rfl, .nil⟩, id⟩

theorem trans {xs ys zs : List Lexeme} (h : Whole xs ys) (h' : Whole ys zs) : Whole xs zs := by
  obtain ⟨a, ha, hbalanced⟩ := h.balanced
  obtain ⟨b, hb, hbalanced'⟩ := h'.balanced
  have happend : xs = a ++ b ++ zs := by rw [ha, hb, List.append_assoc]
  exact ⟨⟨a ++ b, happend, hbalanced.append hbalanced'⟩,
    fun hclosed => h'.closed (h.closed hclosed)⟩

theorem length_le {xs ys : List Lexeme} (h : Whole xs ys) : ys.length ≤ xs.length := by
  obtain ⟨a, rfl, -⟩ := h.balanced
  rw [List.length_append]
  omega

theorem other {l : Lexeme} {ls : List Lexeme} (hleft : l.token ≠ .punct .leftBrace)
    (hright : l.token ≠ .punct .rightBrace) : Whole (l :: ls) ls :=
  ⟨⟨[l], rfl, .other hleft hright⟩, fun h => h.tail hleft hright⟩

theorem comment {l : Lexeme} {ls : List Lexeme} (h : l.token.isComment = true) :
    Whole (l :: ls) ls :=
  .other (not_brace_of_comment h _) (not_brace_of_comment h _)

theorem comments {cs ls : List Lexeme} (h : ∀ c ∈ cs, c.token.isComment = true) :
    Whole (cs ++ ls) ls :=
  ⟨⟨cs, rfl, .comments h⟩, fun hclosed => hclosed.of_comments h⟩

end Whole

namespace Production

variable {α β γ : Type} {choices : Bool} {bound : Nat}

/-! ## Productions that pass whole bodies -/

/-- With the lexemes `ls` before it, a production passes whole bodies only; and within a body, what
stands behind it is not seen. -/
structure NestsAt (p : Production α) (ls : List Lexeme) : Prop where
  whole : ∀ v rest, p.yield ls = some (v, rest) → Whole ls rest
  sealed : Closed ls → ∀ more, p.yield (ls ++ more) = followedBy more (p.yield ls)

/-- A production that passes whole bodies only where fewer than `bound` lexemes are left. -/
def Nests (bound : Nat) (p : Production α) : Prop := ∀ ls, ls.length < bound → p.NestsAt ls

theorem Nests.mono {p : Production α} (h : p.Nests bound) {n : Nat} (hn : n ≤ bound) : p.Nests n :=
  fun ls hls => h ls (Nat.lt_of_lt_of_le hls hn)

theorem nests_pure (v : α) : Nests bound (Pure.pure v : Production α) := by
  refine fun ls _ => ⟨fun w rest h => ?_, fun _ more => rfl⟩
  cases h
  exact .refl ls

theorem nests_fail (e : Expectation) : Nests bound (fail e : Production α) :=
  fun _ _ => ⟨nofun, fun _ _ => rfl⟩

theorem NestsAt.bind {p : Production α} {k : α → Production β} {ls : List Lexeme}
    (hp : p.NestsAt ls) (hk : ∀ a rest, p.yield ls = some (a, rest) → (k a).NestsAt rest) :
    NestsAt (p >>= k) ls := by
  refine ⟨fun v rest h => ?_, fun hclosed more => ?_⟩
  · obtain ⟨a, between, ha, hv⟩ := yield_bind_eq_some.1 h
    exact (hp.whole a between ha).trans ((hk a between ha).whole v rest hv)
  · rw [yield_bind, yield_bind, hp.sealed hclosed more]
    cases ha : p.yield ls with
    | none => rfl
    | some found =>
      have hbetween := (hp.whole found.1 found.2 ha).closed hclosed
      exact (hk found.1 found.2 ha).sealed hbetween more

theorem Nests.bind {p : Production α} {k : α → Production β} (hp : p.Nests bound)
    (hk : ∀ a, (k a).Nests bound) : Nests bound (p >>= k) := fun ls hls =>
  (hp ls hls).bind fun a rest h => hk a rest
    (Nat.lt_of_le_of_lt (suffix_of_yield h).length_le hls)

theorem Nests.giving {p : Production α} (h : p.Nests bound) (f : α → β) :
    Nests bound (do return f (← p)) :=
  h.bind fun _ => nests_pure _

theorem Nests.orElse {p q : Production α} (hp : p.Nests bound) (hq : q.Nests bound) :
    Nests bound (p <|> q) := by
  refine fun ls hls => ⟨fun v rest h => ?_, fun hclosed more => ?_⟩
  · rw [yield_orElse] at h
    rcases Option.or_eq_some_iff.1 h with h | ⟨-, h⟩
    · exact (hp ls hls).whole v rest h
    · exact (hq ls hls).whole v rest h
  · rw [yield_orElse, yield_orElse, (hp ls hls).sealed hclosed, (hq ls hls).sealed hclosed]
    cases p.yield ls <;> rfl

theorem Nests.loop {p : Production (Option α)} (hp : p.Nests bound) : Nests bound (loop p) := by
  intro ls hls
  induction hn : ls.length using Nat.strongRecOn generalizing ls with
  | ind n ih =>
    refine ⟨fun vs rest h => ?_, fun hclosed more => ?_⟩
    · rw [yield_loop] at h
      obtain ⟨⟨v, between⟩, hv, h⟩ := Option.bind_eq_some_iff.1 h
      have hwhole := (hp ls hls).whole v between hv
      cases v with
      | none => cases h; exact hwhole
      | some v =>
        dsimp only at h
        split at h
        · next hlt =>
          obtain ⟨found, hfound, heq⟩ := Option.map_eq_some_iff.1 h
          cases heq
          exact hwhole.trans ((ih _ (hn ▸ hlt) between (hlt.trans hls) rfl).whole _ _ hfound)
        · cases h
          exact .refl ls
    · rw [yield_loop, yield_loop, (hp ls hls).sealed hclosed more]
      cases hv : p.yield ls with
      | none => rfl
      | some found =>
        obtain ⟨v, between⟩ := found
        have hwhole := (hp ls hls).whole v between hv
        cases v with
        | none => rfl
        | some v =>
          simp only [followedBy_some, Option.bind_some, List.length_append,
            Nat.add_lt_add_iff_right]
          split
          · next hlt =>
            rw [(ih _ (hn ▸ hlt) between (hlt.trans hls) rfl).sealed (hwhole.closed hclosed) more]
            cases (Production.loop p).yield between <;> rfl
          · rfl

/-! ## Productions without a body of their own -/

/-- A production that takes no brace. It has alternatives only if `choices`. -/
def Flat (choices : Bool) : {α : Type} → Production α → Prop
  | _, .pure _ | _, .sees _ | _, .comment | _, .trailing | _, .fail _ | _, .call _ => True
  | _, .take t => t ≠ .punct .leftBrace ∧ t ≠ .punct .rightBrace
  | _, .bind p k => p.Flat choices ∧ ∀ a, (k a).Flat choices
  | _, .orElse p q => choices = true ∧ p.Flat choices ∧ q.Flat choices
  | _, .loop p => p.Flat choices

theorem whole_orStay {found : Option (α × List Lexeme)} {ls : List Lexeme}
    (h : ∀ v rest, found = some (v, rest) → Whole ls rest) : Whole ls (orStay found ls).2 := by
  cases found with
  | none => exact .refl ls
  | some next => exact h next.1 next.2 rfl

theorem orStay_followedBy (found : Option (α × List Lexeme)) (ls more : List Lexeme) :
    some (orStay (followedBy more found) (ls ++ more)) =
      followedBy more (some (orStay found ls)) := by
  cases found <;> rfl

theorem whole_of_take? {t : Terminal} {ls rest : List Lexeme} {v : t.Result}
    (hleft : t ≠ .punct .leftBrace) (hright : t ≠ .punct .rightBrace)
    (h : t.take? ls = some (v, rest)) : Whole ls rest := by
  obtain ⟨cs, l, hcs, rfl, -, hread⟩ := Terminal.take?_eq_some.1 h
  have hother : Whole (l :: rest) rest :=
    .other (Terminal.token_ne_punct hread hleft) (Terminal.token_ne_punct hread hright)
  exact (Whole.comments hcs).trans hother

theorem whole_of_takeHead? {what : Lexeme → Option Comment} {ls rest : List Lexeme} {v : Comment}
    (hwhat : ∀ l c, what l = some c → l.token.isComment = true)
    (h : takeHead? what ls = some (v, rest)) : Whole ls rest := by
  obtain ⟨l, rfl, hl⟩ := takeHead?_eq_some h
  exact .comment (hwhat l v hl)

/-- Where the next lexeme may be left out, bodies are passed as a whole. -/
theorem nestsAt_optional {p : Production (Option α)} {find : List Lexeme → Option (α × List Lexeme)}
    (hp : ∀ ls, p.yield ls = some (orStay (find ls) ls))
    (hwhole : ∀ ls v rest, find ls = some (v, rest) → Whole ls rest)
    (happend : ∀ ls more, Closed ls → find (ls ++ more) = followedBy more (find ls))
    (ls : List Lexeme) : p.NestsAt ls := by
  refine ⟨fun v rest h => ?_, fun hclosed more => ?_⟩
  · rw [hp, Option.some.injEq] at h
    have hrest : (orStay (find ls) ls).2 = rest := congrArg Prod.snd h
    exact hrest ▸ whole_orStay (hwhole ls)
  · rw [hp, hp, happend ls more hclosed, orStay_followedBy]

theorem nests_take {t : Terminal} (hleft : t ≠ .punct .leftBrace)
    (hright : t ≠ .punct .rightBrace) : Nests bound (take t) := fun ls _ =>
  nestsAt_optional (yield_take t) (fun _ _ _ h => whole_of_take? hleft hright h)
    (fun _ more hclosed => t.take?_append hclosed.firstToken?.choose_spec more) ls

theorem nests_takeOr {t : Terminal} (e : Expectation) (hleft : t ≠ .punct .leftBrace)
    (hright : t ≠ .punct .rightBrace) : Nests bound (takeOr t e) := by
  refine (nests_take hleft hright).bind fun found => ?_
  cases found with
  | some v => exact nests_pure v
  | none => exact nests_fail e

theorem nests_comment : Nests bound comment := fun ls _ =>
  nestsAt_optional yield_comment
    (fun _ _ _ h => whole_of_takeHead? (fun _ _ hc => Lexeme.isComment_of_comment? hc) h)
    (fun _ more hclosed => takeHead?_append _ hclosed.ne_nil more) ls

theorem nests_trailing : Nests bound trailing := fun ls _ =>
  nestsAt_optional yield_trailing
    (fun _ _ _ h => whole_of_takeHead?
      (fun _ _ hc => Lexeme.isComment_of_comment? (Lexeme.comment?_of_trailing? hc)) h)
    (fun _ more hclosed => takeHead?_append _ hclosed.ne_nil more) ls

theorem nests_sees (t : Terminal) : Nests bound (sees t) := by
  refine fun ls _ => ⟨fun v rest h => ?_, fun hclosed more => ?_⟩
  · rw [yield_sees] at h
    cases h
    exact .refl ls
  · rw [yield_sees, yield_sees, t.take?_append hclosed.firstToken?.choose_spec more, followedBy,
      Option.isSome_map]
    rfl

theorem Flat.nests (hcall : ∀ n, Nests bound (call n)) {p : Production α} (h : p.Flat choices) :
    p.Nests bound := by
  induction p with
  | pure v => exact nests_pure v
  | bind p k ihp ihk => exact (ihp h.1).bind fun a => ihk a (h.2 a)
  | sees t => exact nests_sees t
  | take t => exact nests_take h.1 h.2
  | comment => exact nests_comment
  | trailing => exact nests_trailing
  | fail e => exact nests_fail e
  | orElse p q ihp ihq => exact (ihp h.2.1).orElse (ihq h.2.2)
  | loop p ih => exact (ih h).loop
  | call n => exact hcall n

end Production

end ProtoSchema
