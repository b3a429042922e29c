import ProtoSchema.Proofs.Comments.Passage
import ProtoSchema.Proofs.Neighbours.Bodies

/-
  Matches before other lexemes. A match carries over to lexemes with more behind them as long as
  nothing has been decided by the end of the lexemes: behind what is passed a token is left
  (`CarriesBefore`), or what is passed ends by itself, as a body does with its brace
  (`Concludes`). Alternatives are the exception, since one that came to nothing at the end of the
  lexemes may match before more of them; they are only treated within bodies, or where they start
  with different keywords.
-/

namespace ProtoSchema

open Passage

/-! ## Tokens that are left -/

/-- Lexemes that are not only comments. -/
def HasToken (ls : List Lexeme) : Prop := ∃ l ∈ ls, l.token.isComment = false

namespace HasToken

theorem firstToken? {ls : List Lexeme} (h : HasToken ls) :
    ∃ l, ProtoSchema.firstToken? ls = some l := by
  obtain ⟨l, hmem, hl⟩ := h
  exact Option.isSome_iff_exists.1 (List.find?_isSome.2 ⟨l, hmem, by simp [hl]⟩)

theorem of_suffix {ls rest : List Lexeme} (h : HasToken rest) (hsuffix : rest <:+ ls) :
    HasToken ls := by
  obtain ⟨l, hmem, hl⟩ := h
  exact ⟨l, hsuffix.subset hmem, hl⟩

theorem ne_nil {ls : List Lexeme} (h : HasToken ls) : ls ≠ [] := by
  obtain ⟨l, hmem, -⟩ := h
  exact List.ne_nil_of_mem hmem

end HasToken

theorem Passage.EndsOnToken.hasToken {ls : List Lexeme} (h : EndsOnToken ls) (hne : ls ≠ []) :
    HasToken ls :=
  ⟨ls.getLast hne, List.getLast_mem hne, h _ (List.getLast?_eq_getLast_of_ne_nil hne)⟩

theorem Passage.EndsOnToken.of_suffix {ls rest : List Lexeme} (h : EndsOnToken ls)
    (hsuffix : rest <:+ ls) : EndsOnToken rest := by
  obtain ⟨passed, rfl⟩ := hsuffix
  intro l hl
  refine h l ?_
  rw [List.getLast?_append, Option.mem_def.1 hl]
  rfl

namespace Production

variable {α β γ : Type} {more : List Lexeme}

/-! ## Matches that carry over -/

/-- A production that, where it matches, matches the same with `more` behind the lexemes. -/
def Carries (more : List Lexeme) (p : Production α) : Prop :=
  ∀ ls v rest, p.yield ls = some (v, rest) → p.yield (ls ++ more) = some (v, rest ++ more)

/-- A production that does so where a token is left behind the match. -/
def CarriesBefore (more : List Lexeme) (p : Production α) : Prop :=
  ∀ ls v rest, p.yield ls = some (v, rest) → HasToken rest →
    p.yield (ls ++ more) = some (v, rest ++ more)

/-- A production that starts before a token and settles for itself where it ends. -/
structure Concludes (more : List Lexeme) (p : Production α) : Prop where
  token : ∀ ls v rest, p.yield ls = some (v, rest) → HasToken ls
  carries : p.Carries more

theorem Carries.before {p : Production α} (h : p.Carries more) : p.CarriesBefore more :=
  fun ls v rest hv _ => h ls v rest hv

theorem carries_pure (v : α) : (Pure.pure v : Production α).Carries more := by
  intro ls w rest h
  cases h
  rfl

theorem Carries.bind {p : Production α} {k : α → Production β} (hp : p.Carries more)
    (hk : ∀ a, (k a).Carries more) : Carries more (p >>= k) := by
  intro ls v rest h
  obtain ⟨a, between, ha, hv⟩ := yield_bind_eq_some.1 h
  exact yield_bind_eq_some.2 ⟨a, _, hp ls a between ha, hk a between v rest hv⟩

theorem carries_trailing (hmore : ∀ l ∈ more.head?, l.trailing? = none) :
    trailing.Carries more := by
  intro ls v rest h
  rw [yield_trailing] at h ⊢
  cases ls with
  | nil =>
    cases h
    cases more with
    | nil => rfl
    | cons l more =>
      rw [List.nil_append, takeHead?, hmore l rfl]
      rfl
  | cons l ls => rw [takeHead?_append _ (List.cons_ne_nil l ls), orStay_followedBy, h]; rfl

theorem CarriesBefore.bind {p : Production α} {k : α → Production β} (hp : p.CarriesBefore more)
    (hk : ∀ a, (k a).CarriesBefore more) : CarriesBefore more (p >>= k) := by
  intro ls v rest h htoken
  obtain ⟨a, between, ha, hv⟩ := yield_bind_eq_some.1 h
  have hbetween := hp ls a between ha (htoken.of_suffix (suffix_of_yield hv))
  exact yield_bind_eq_some.2 ⟨a, _, hbetween, hk a between v rest hv htoken⟩

theorem CarriesBefore.loop {p : Production (Option α)} (hp : p.CarriesBefore more) :
    CarriesBefore more (loop p) := by
  intro ls vs rest h htoken
  induction hn : ls.length using Nat.strongRecOn generalizing ls vs with
  | ind n ih =>
    rw [yield_loop] at h ⊢
    obtain ⟨⟨v, between⟩, hv, h⟩ := Option.bind_eq_some_iff.1 h
    have hsuffix := suffix_of_yield hv
    cases v with
    | none =>
      cases h
      rw [hp ls none rest hv htoken]
      rfl
    | some v =>
      dsimp only at h
      split at h
      · next hlt =>
        obtain ⟨found, hfound, heq⟩ := Option.map_eq_some_iff.1 h
        cases heq
        have hstep := hp ls _ between hv (htoken.of_suffix (suffix_of_yield hfound))
        rw [hstep, Option.bind_some]
        dsimp only
        rw [List.length_append, List.length_append, if_pos (by omega),
          ih between.length (hn ▸ hlt) between found.1 hfound rfl]
        rfl
      · next hlt =>
        cases h
        obtain rfl : between = rest := hsuffix.eq_of_length_le (Nat.le_of_not_lt hlt)
        rw [hp between _ between hv htoken, Option.bind_some]
        dsimp only
        rw [if_neg (Nat.lt_irrefl _)]

theorem carriesBefore_optional {p : Production (Option α)}
    {find : List Lexeme → Option (α × List Lexeme)}
    (hp : ∀ ls, p.yield ls = some (orStay (find ls) ls))
    (happend : ∀ ls, HasToken ls → find (ls ++ more) = followedBy more (find ls)) :
    p.CarriesBefore more := by
  intro ls v rest h htoken
  have hls := htoken.of_suffix (suffix_of_yield h)
  rw [hp] at h ⊢
  rw [happend ls hls, orStay_followedBy, h]
  rfl

/-- What has no braces of its own and no alternatives carries over up to its last token. -/
theorem Flat.carriesBefore (hcall : ∀ n, (call n).CarriesBefore more) {p : Production α}
    (h : p.Flat false) : p.CarriesBefore more := by
  induction p with
  | pure v => exact (carries_pure v).before
  | bind p k ihp ihk => exact (ihp h.1).bind fun a => ihk a (h.2 a)
  | sees t =>
    intro ls v rest hv htoken
    rw [yield_sees] at hv ⊢
    cases hv
    rw [t.take?_append htoken.firstToken?.choose_spec, followedBy, Option.isSome_map]
  | take t =>
    exact carriesBefore_optional (yield_take t) fun ls htoken =>
      t.take?_append htoken.firstToken?.choose_spec more
  | comment =>
    exact carriesBefore_optional yield_comment fun ls htoken =>
      takeHead?_append _ htoken.ne_nil more
  | trailing =>
    exact carriesBefore_optional yield_trailing fun ls htoken =>
      takeHead?_append _ htoken.ne_nil more
  | fail e =>
    intro ls v rest hv
    cases hv
  | orElse p q => exact absurd h.1 Bool.false_ne_true
  | loop p ih => exact (ih h).loop
  | call n => exact hcall n

/-! ### Up to the last token -/

theorem Concludes.bind {p : Production α} {k : α → Production β} (hp : p.CarriesBefore more)
    (hk : ∀ a, (k a).Concludes more) : Concludes more (p >>= k) := by
  refine ⟨fun ls v rest h => ?_, fun ls v rest h => ?_⟩
  · obtain ⟨a, between, ha, hv⟩ := yield_bind_eq_some.1 h
    exact ((hk a).token between v rest hv).of_suffix (suffix_of_yield ha)
  · obtain ⟨a, between, ha, hv⟩ := yield_bind_eq_some.1 h
    have hbetween := hp ls a between ha ((hk a).token between v rest hv)
    exact yield_bind_eq_some.2 ⟨a, _, hbetween, (hk a).carries between v rest hv⟩

/-- Behind the last token. -/
theorem Concludes.then {p : Production α} {k : α → Production β} (hp : p.Concludes more)
    (hk : ∀ a, (k a).Carries more) : Concludes more (p >>= k) := by
  refine ⟨fun ls v rest h => ?_, hp.carries.bind hk⟩
  obtain ⟨a, between, ha, -⟩ := yield_bind_eq_some.1 h
  exact hp.token ls a between ha

theorem Concludes.giving {p : Production α} (h : p.Concludes more) (f : α → β) :
    Concludes more (do return f (← p)) :=
  h.then fun _ => carries_pure _

theorem concludes_takeOr (t : Terminal) (e : Expectation) : (takeOr t e).Concludes more := by
  have htoken (ls : List Lexeme) (v : t.Result) (rest : List Lexeme)
      (h : (takeOr t e).yield ls = some (v, rest)) : HasToken ls := by
    obtain ⟨cs, l, -, rfl, hl, -⟩ := yield_takeOr_eq_some.1 h
    exact ⟨l, by simp, hl⟩
  refine ⟨htoken, fun ls v rest h => ?_⟩
  rw [yield_takeOr_append t e (htoken ls v rest h).firstToken?.choose_spec, h]
  rfl

theorem concludes_braces {item : Production (Option (BodyItem α))}
    (h : ∀ n, item.Nests n) : (braces item).Concludes more := by
  refine ⟨fun ls v rest hv => ?_, fun ls v rest hv => ?_⟩
  · obtain ⟨cs, l, inner, -, hl, -, rfl⟩ := closed_of_yield_braces (h _) hv
    exact ⟨l, by simp, by rw [hl]; rfl⟩
  · obtain ⟨cs, l, inner, hcs, hl, hclosed, rfl⟩ := closed_of_yield_braces (h _) hv
    rw [yield_braces (h (inner.length + 1)) hcs hl hclosed (Nat.lt_succ_self _)] at hv
    obtain ⟨found, hfound, heq⟩ := Option.map_eq_some_iff.1 hv
    cases heq
    rw [List.append_assoc, List.cons_append, List.append_assoc,
      yield_braces (h (inner.length + 1)) hcs hl hclosed (Nat.lt_succ_self _), hfound]
    rfl

end Production

end ProtoSchema
