import ProtoSchema.Proofs.Neighbours.Bodies

/-
  The classes that a production takes. `Takes P` says of a production that it passes only lexemes of
  the classes in `P`. Most parts of a statement are inner: they pass no mark that ends a statement,
  opens or closes a body or stands before a value (`inner_*`).
-/

namespace ProtoSchema

namespace Production

variable {α β : Type} {P : Terminal → Prop} {calls : Nonterminal → Prop}

/-- A production that takes lexemes of the classes in `P` only. It refers to nested constructs of
the kinds in `calls` only. -/
def Takes (P : Terminal → Prop) (calls : Nonterminal → Prop) : {α : Type} → Production α → Prop
  | _, .pure _ | _, .sees _ | _, .comment | _, .trailing | _, .fail _ => True
  | _, .take t => P t
  | _, .bind p k => p.Takes P calls ∧ ∀ a, (k a).Takes P calls
  | _, .orElse p q => p.Takes P calls ∧ q.Takes P calls
  | _, .loop p => p.Takes P calls
  | _, .call n => calls n

@[simp] theorem takes_pure (v : α) : (Pure.pure v : Production α).Takes P calls := trivial

@[simp] theorem takes_fail (e : Expectation) : (fail e : Production α).Takes P calls := trivial

@[simp] theorem takes_sees (t : Terminal) : (sees t).Takes P calls := trivial

@[simp] theorem takes_comment : comment.Takes P calls := trivial

@[simp] theorem takes_trailing : trailing.Takes P calls := trivial

@[simp] theorem takes_call (n : Nonterminal) : (call n).Takes P calls ↔ calls n := .rfl

@[simp] theorem takes_take (t : Terminal) : (take t).Takes P calls ↔ P t := .rfl

@[simp] theorem takes_bind (p : Production α) (k : α → Production β) :
    (p >>= k).Takes P calls ↔ p.Takes P calls ∧ ∀ a, (k a).Takes P calls := .rfl

@[simp] theorem takes_orElse (p q : Production α) :
    (p <|> q).Takes P calls ↔ p.Takes P calls ∧ q.Takes P calls := .rfl

@[simp] theorem takes_loop (p : Production (Option α)) :
    (loop p).Takes P calls ↔ p.Takes P calls := .rfl

@[simp] theorem takes_ite (c : Prop) [Decidable c] (p q : Production α) :
    (if c then p else q).Takes P calls ↔ (c → p.Takes P calls) ∧ (¬c → q.Takes P calls) := by
  split <;> simp [*]

@[simp] theorem takes_takeOr (t : Terminal) (e : Expectation) :
    (takeOr t e).Takes P calls ↔ P t := by
  refine ⟨fun h => h.1, fun h => ⟨h, fun found => ?_⟩⟩
  cases found <;> trivial

@[simp] theorem takes_punct (p : Punct) : (punct p).Takes P calls ↔ P (.punct p) :=
  takes_takeOr _ _

@[simp] theorem takes_keyword (k : Keyword) : (keyword k).Takes P calls ↔ P (.keyword k) :=
  takes_takeOr _ _

@[simp] theorem takes_skip (t : Terminal) : (skip t).Takes P calls ↔ P t := by simp [skip]

theorem Takes.mono {Q : Terminal → Prop} {others : Nonterminal → Prop} {p : Production α}
    (h : p.Takes P calls) (hle : ∀ t, P t → Q t) (hcalls : ∀ n, calls n → others n) :
    p.Takes Q others := by
  induction p with
  | pure | sees | comment | trailing | fail => trivial
  | take t => exact hle t h
  | bind p k ihp ihk => exact ⟨ihp h.1, fun a => ihk a (h.2 a)⟩
  | orElse p q ihp ihq => exact ⟨ihp h.1, ihq h.2⟩
  | loop p ih => exact ih h
  | call n => exact hcalls n h

end Production

/-! ## What is passed -/

/-- A comment, or a lexeme of one of the classes in `P`. -/
def Lexeme.Within (P : Terminal → Prop) (l : Lexeme) : Prop :=
  l.token.isComment = true ∨ ∃ t, P t ∧ (t.read? l).isSome

/-- The lexemes of `ls` before `rest` are comments or of the classes in `P`. -/
def Confined (P : Terminal → Prop) (ls rest : List Lexeme) : Prop :=
  ∃ passed, ls = passed ++ rest ∧ ∀ l ∈ passed, l.Within P

namespace Confined

variable {P : Terminal → Prop} {xs ys zs : List Lexeme}

theorem refl (xs : List Lexeme) : Confined P xs xs := ⟨[], rfl, nofun⟩

theorem trans (h : Confined P xs ys) (h' : Confined P ys zs) : Confined P xs zs := by
  obtain ⟨as, rfl, has⟩ := h
  obtain ⟨bs, rfl, hbs⟩ := h'
  exact ⟨as ++ bs, (List.append_assoc _ _ _).symm, List.forall_mem_append.2 ⟨has, hbs⟩⟩

theorem length_le (h : Confined P xs ys) : ys.length ≤ xs.length := by
  obtain ⟨as, rfl, -⟩ := h
  rw [List.length_append]
  omega

theorem of_take? {t : Terminal} {v : t.Result} (ht : P t) (h : t.take? xs = some (v, ys)) :
    Confined P xs ys := by
  obtain ⟨cs, l, hcs, rfl, -, hread⟩ := Terminal.take?_eq_some.1 h
  refine ⟨cs ++ [l], by simp, List.forall_mem_append.2 ⟨fun c hc => .inl (hcs c hc), ?_⟩⟩
  exact List.forall_mem_singleton.2 (.inr ⟨t, ht, by rw [hread]; rfl⟩)

theorem of_takeHead? {what : Lexeme → Option Comment} {c : Comment}
    (hwhat : ∀ l c, what l = some c → l.token.isComment = true)
    (h : takeHead? what xs = some (c, ys)) : Confined P xs ys := by
  obtain ⟨l, rfl, hl⟩ := takeHead?_eq_some h
  exact ⟨[l], rfl, List.forall_mem_singleton.2 (.inl (hwhat l c hl))⟩

theorem of_orStay {α : Type} {found : Option (α × List Lexeme)} {v : Option α}
    (hfound : ∀ w zs, found = some (w, zs) → Confined P xs zs)
    (h : some (orStay found xs) = some (v, ys)) : Confined P xs ys := by
  cases found with
  | none =>
    cases h
    exact .refl xs
  | some next =>
    cases h
    exact hfound _ _ rfl

end Confined

namespace Production

/-- A production passes lexemes of the classes that it takes, if those that it refers to do. -/
theorem Takes.confined {p : Production α} (h : p.Takes P calls) {bound : Nat}
    (hcall : ∀ n, calls n → ∀ ls v rest, ls.length < bound →
      (call n).yield ls = some (v, rest) → Confined P ls rest)
    {ls rest : List Lexeme} {v : α} (hlength : ls.length < bound)
    (hv : p.yield ls = some (v, rest)) : Confined P ls rest := by
  induction p generalizing ls rest with
  | pure w =>
    cases hv
    exact .refl ls
  | bind p k ihp ihk =>
    obtain ⟨a, between, ha, hv⟩ := yield_bind_eq_some.1 hv
    have hfirst := ihp h.1 hlength ha
    exact hfirst.trans (ihk a (h.2 a) (Nat.lt_of_le_of_lt hfirst.length_le hlength) hv)
  | sees t =>
    rw [yield_sees] at hv
    cases hv
    exact .refl ls
  | take t =>
    rw [yield_take] at hv
    exact .of_orStay (fun _ _ => .of_take? h) hv
  | comment =>
    rw [yield_comment] at hv
    exact .of_orStay (fun _ _ => .of_takeHead? fun _ _ => Lexeme.isComment_of_comment?) hv
  | trailing =>
    rw [yield_trailing] at hv
    exact .of_orStay (fun _ _ => .of_takeHead? fun _ _ hc =>
      Lexeme.isComment_of_comment? (Lexeme.comment?_of_trailing? hc)) hv
  | fail e => cases hv
  | orElse p q ihp ihq =>
    rw [show (Production.orElse p q).yield ls = _ from yield_orElse p q ls] at hv
    rcases Option.or_eq_some_iff.1 hv with hv | ⟨-, hv⟩
    · exact ihp h.1 hlength hv
    · exact ihq h.2 hlength hv
  | loop p ih =>
    induction hn : ls.length using Nat.strongRecOn generalizing ls rest v with
    | ind n ihn =>
      rw [yield_loop] at hv
      obtain ⟨⟨found, between⟩, hfound, hv⟩ := Option.bind_eq_some_iff.1 hv
      have hfirst := ih h hlength hfound
      cases found with
      | none =>
        cases hv
        exact hfirst
      | some w =>
        dsimp only at hv
        split at hv
        · next hlt =>
          obtain ⟨⟨others, _⟩, hothers, heq⟩ := Option.map_eq_some_iff.1 hv
          cases heq
          exact hfirst.trans (ihn _ (hn ▸ hlt) (hlt.trans hlength) hothers rfl)
        · cases hv
          exact .refl ls
  | call n => exact hcall n h ls v rest hlength hv

end Production

/-! ## Inner productions -/

/-- A class that holds no mark which ends a statement, opens or closes a body, or stands before a
value. -/
def Terminal.Inner (t : Terminal) : Prop :=
  t ≠ .punct .semicolon ∧ t ≠ .punct .leftBrace ∧ t ≠ .punct .rightBrace ∧ t ≠ .punct .equals

namespace Production

/-- A production that takes inner classes only and refers to no nested construct. -/
abbrev Inner (p : Production α) : Prop := p.Takes Terminal.Inner fun _ => False

section Inner

@[simp] theorem inner_keyword (k : Keyword) : (Terminal.keyword k).Inner := by simp [Terminal.Inner]

@[simp] theorem inner_comments : comments.Inner := by simp [comments]

@[simp] theorem inner_ident : ident.Inner := (takes_takeOr _ _).2 (by simp [Terminal.Inner])

@[simp] theorem inner_integer : integer.Inner := (takes_takeOr _ _).2 (by simp [Terminal.Inner])

@[simp] theorem inner_string : string.Inner :=
  ⟨(takes_takeOr _ _).2 (by simp [Terminal.Inner]), fun _ =>
    ⟨(takes_take _).2 (by simp [Terminal.Inner]), fun _ => trivial⟩⟩

@[simp] theorem inner_fullIdent : fullIdent.Inner := by simp [fullIdent, separated, Terminal.Inner]

@[simp] theorem inner_typeName : typeName.Inner := by simp [typeName, Terminal.Inner]

@[simp] theorem inner_fieldType : fieldType.Inner := by simp [fieldType]

@[simp] theorem inner_word (e : Expectation) : @Inner String (takeOr .word e) :=
  (takes_takeOr _ _).2 (by simp [Terminal.Inner])

@[simp] theorem inner_optionNamePart : optionNamePart.Inner := by
  simp [optionNamePart, Terminal.Inner]

@[simp] theorem inner_optionName : optionName.Inner := by simp [optionName, Terminal.Inner]

@[simp] theorem inner_literal : @Inner Value (expect .literal) :=
  (takes_takeOr _ _).2 (by simp [Terminal.Inner])

@[simp] theorem inner_constant : constant.Inner := by simp [constant]

@[simp] theorem inner_modifier : modifier.Inner := by simp [modifier]

@[simp] theorem inner_number (e : Expectation) : @Inner Int (takeOr .integer e) :=
  (takes_takeOr _ _).2 (by simp [Terminal.Inner])

@[simp] theorem inner_rangeEnd : rangeEnd.Inner := by simp [rangeEnd, Terminal.Inner]

@[simp] theorem inner_numberRange : numberRange.Inner := by simp [numberRange]

@[simp] theorem inner_numberRanges : numberRanges.Inner := by
  simp [numberRanges, separated, Terminal.Inner]

@[simp] theorem inner_reservedItems : reservedItems.Inner := by
  simp [reservedItems, separated, Terminal.Inner]

@[simp] theorem inner_rpcTypeInParens : rpcTypeInParens.Inner := by
  simp [rpcTypeInParens, rpcType, Terminal.Inner]

@[simp] theorem inner_importModifier : importModifier.Inner := by simp [importModifier]

end Inner

/-! ## Aggregates -/

/-- An aggregate takes no equals sign. -/
theorem takes_aggregate : aggregate.Takes (· ≠ .punct .equals) (· = .aggregate) := by
  have hinner {α : Type} {p : Production α} (h : p.Inner) :
      p.Takes (· ≠ .punct .equals) (· = .aggregate) :=
    h.mono (fun _ ht => ht.2.2.2) nofun
  have hconstant := hinner inner_constant
  have htypeName := hinner inner_typeName
  have hkey := hinner (inner_word .identifierOrBracket)
  have hcomments := hinner inner_comments
  simp [aggregate, braces, aggregateItem, entry, entryKey, entryValues, entryEnd, valueList,
    optionValue, separated, hconstant, htypeName, hkey, hcomments]

/-- What an aggregate passes is within the classes that it takes, at any depth. -/
theorem confined_aggregate {ls rest : List Lexeme} {a : Aggregate}
    (h : aggregate.yield ls = some (a, rest)) : Confined (· ≠ .punct .equals) ls rest := by
  induction hn : ls.length using Nat.strongRecOn generalizing ls rest a with
  | ind n ih =>
    obtain ⟨inner, between, hinner, hend⟩ := yield_bind_eq_some.1 h
    rw [yield_pure] at hend
    cases hend
    obtain ⟨s, behind, hopening, hinside⟩ := yield_bind_eq_some.1 hinner
    have hfirst : Confined (· ≠ .punct .equals) ls behind :=
      .of_take? (t := .punct .leftBrace) (by simp) ((yield_takeOr _ _ _).symm.trans hopening)
    obtain ⟨cs, l, -, rfl, -, -⟩ := yield_punct_eq_some.1 hopening
    have hlength : behind.length < n := by
      rw [← hn, List.length_append, List.length_cons]
      omega
    refine hfirst.trans ((takes_aggregate.1.2 s).confined ?_ hlength hinside)
    rintro _ rfl xs b ys hxs hb
    exact ih xs.length hxs (yield_call .aggregate xs ▸ hb) rfl

/-- An aggregate ends before an equals sign. -/
theorem left_of_yield_aggregate {xs ys rest : List Lexeme} {l : Lexeme} {a : Aggregate}
    (hl : l.token = .punct .equals) (h : aggregate.yield (xs ++ l :: ys) = some (a, rest)) :
    ∃ passed left, xs = passed ++ left ∧ rest = left ++ l :: ys := by
  obtain ⟨passed, heq, hpassed⟩ := confined_aggregate h
  rcases List.append_eq_append_iff.1 heq with ⟨more, rfl, hmore⟩ | ⟨left, rfl, hleft⟩
  · cases more with
    | nil => exact ⟨xs, [], (List.append_nil xs).symm, hmore.symm⟩
    | cons m more =>
      cases hmore
      rcases hpassed l (by simp) with hcomment | ⟨t, ht, hread⟩
      · rw [hl] at hcomment
        cases hcomment
      · obtain ⟨v, hv⟩ := Option.isSome_iff_exists.1 hread
        exact absurd hl (Terminal.token_ne_punct hv ht)
  · exact ⟨passed, left, rfl, hleft⟩

/-- The closing brace decides where an aggregate ends, not what stands behind it. -/
theorem yield_aggregate_of_closed {cs inner : List Lexeme} {l : Lexeme}
    (hcs : ∀ c ∈ cs, c.token.isComment = true) (hl : l.token = .punct .leftBrace)
    (hclosed : Closed inner) (more : List Lexeme) :
    aggregate.yield (cs ++ l :: (inner ++ more)) =
      (aggregate.yield (cs ++ l :: inner)).map fun found => (found.1, more) := by
  have hitem : aggregateItem.Nests (inner.length + 1) := flat_aggregateItem.nests nests_call
  rw [aggregate, yield_bind, yield_bind,
    yield_braces hitem hcs hl hclosed (Nat.lt_succ_self _) more]
  cases (braces aggregateItem).yield (cs ++ l :: inner) <;> rfl

/-- Whether an aggregate stands before an equals sign does not depend on what stands behind it. -/
theorem yield_aggregate_before {xs ys rest : List Lexeme} {e : Lexeme} {a : Aggregate}
    (he : e.token = .punct .equals) (h : aggregate.yield (xs ++ e :: ys) = some (a, rest)) :
    ∃ left, left.length < xs.length ∧ left <:+ xs ∧ rest = left ++ e :: ys ∧
      ∀ zs, aggregate.yield (xs ++ e :: zs) = some (a, left ++ e :: zs) := by
  obtain ⟨passed, left, rfl, rfl⟩ := left_of_yield_aggregate he h
  obtain ⟨body, between, hbody, hend⟩ := yield_bind_eq_some.1 h
  rw [yield_pure, Option.some.injEq, Prod.mk.injEq] at hend
  obtain ⟨-, rfl⟩ := hend
  obtain ⟨cs, l, inner, hcs, hl, hclosed, heq⟩ :=
    closed_of_yield_braces (flat_aggregateItem.nests nests_call) hbody
  have hpassed : passed = cs ++ l :: inner := by
    rw [List.append_assoc, ← List.cons_append, ← List.append_assoc cs] at heq
    exact List.append_cancel_right heq
  subst hpassed
  have hclosing (more : List Lexeme) : aggregate.yield (cs ++ l :: inner ++ more) =
      (aggregate.yield (cs ++ l :: inner)).map fun found => (found.1, more) := by
    rw [List.append_assoc, List.cons_append]
    exact yield_aggregate_of_closed hcs hl hclosed more
  rw [List.append_assoc, hclosing] at h
  obtain ⟨found, hfound, heq⟩ := Option.map_eq_some_iff.1 h
  cases heq
  refine ⟨left, ?_, List.suffix_append _ _, rfl, fun zs => ?_⟩
  · simp only [List.length_append, List.length_cons]
    omega
  · rw [List.append_assoc, hclosing, hfound]
    rfl

end Production

end ProtoSchema
