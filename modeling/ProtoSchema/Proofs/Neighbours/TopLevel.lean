import ProtoSchema.Proofs.Neighbours.Concatenation
import ProtoSchema.Proofs.Notation.Inner

/-
  Package statements at the top level. They are found without the grammar, by a scan that only
  counts braces (`topLevelPackages`); where the grammar matches, these are the package statements of
  the file (`topLevelPackages_of_yield`). So a second package is reported exactly where the grammar
  matches and the scan finds two (`parse_packages`).
-/

namespace ProtoSchema

/-! ## The scan -/

/-- What a symbol of a name spells. -/
def Symbol.spelled : Symbol → String
  | .word w => w
  | .punct p => String.singleton p.char
  | .int _ | .float _ | .string _ => ""

/-- The name that lexemes spell, without the comments among them. -/
def spelledName (ls : List Lexeme) : String := String.join ((symbols ls).map Symbol.spelled)

/-- A package statement: the name, and the place from the word `package` to the semicolon. -/
structure PackageStatement where
  name : String
  span : Span
  deriving DecidableEq

namespace PackageStatement

/-- The package statement that starts with `first`, before the lexemes `ls`. It goes up to the first
semicolon, if there is one. -/
def starting? (first : Lexeme) (ls : List Lexeme) : Option PackageStatement :=
  (ls.find? (·.token = .punct .semicolon)).map fun last =>
    ⟨spelledName (ls.takeWhile (·.token ≠ .punct .semicolon)), ⟨first.span.start, last.span.stop⟩⟩

/-- The statement with a package and its place. -/
def ofPackage (found : Package × Span) : PackageStatement := ⟨found.1.name, found.2⟩

end PackageStatement

/-- The package statements outside of all braces, in order. Before the lexemes `depth` braces are
open; a statement may start there only if `fresh`, as behind a semicolon or a brace. -/
def topLevelPackages (depth : Nat) (fresh : Bool) : List Lexeme → List PackageStatement
  | [] => []
  | l :: ls =>
    if l.token.isComment then topLevelPackages depth fresh ls
    else if l.token = .punct .leftBrace then topLevelPackages (depth + 1) true ls
    else if l.token = .punct .rightBrace then topLevelPackages (depth - 1) true ls
    else if l.token = .punct .semicolon then topLevelPackages depth true ls
    else if fresh ∧ depth = 0 ∧ ((Terminal.keyword .packageKw).read? l).isSome then
      (PackageStatement.starting? l ls).toList ++ topLevelPackages depth false ls
    else topLevelPackages depth false ls

section Scan

variable {depth : Nat} {fresh : Bool} {l : Lexeme} {ls : List Lexeme}

theorem topLevelPackages_comment (hl : l.token.isComment = true) :
    topLevelPackages depth fresh (l :: ls) = topLevelPackages depth fresh ls := by
  rw [topLevelPackages, if_pos hl]

theorem topLevelPackages_leftBrace (hl : l.token = .punct .leftBrace) :
    topLevelPackages depth fresh (l :: ls) = topLevelPackages (depth + 1) true ls := by
  simp [topLevelPackages, hl, Token.isComment]

theorem topLevelPackages_rightBrace (hl : l.token = .punct .rightBrace) :
    topLevelPackages depth fresh (l :: ls) = topLevelPackages (depth - 1) true ls := by
  simp [topLevelPackages, hl, Token.isComment]

theorem topLevelPackages_semicolon (hl : l.token = .punct .semicolon) :
    topLevelPackages depth fresh (l :: ls) = topLevelPackages depth true ls := by
  simp [topLevelPackages, hl, Token.isComment]

/-- A word, a number, a string or another mark. -/
theorem topLevelPackages_token (hcomment : l.token.isComment = false)
    (hleft : l.token ≠ .punct .leftBrace) (hright : l.token ≠ .punct .rightBrace)
    (hsemicolon : l.token ≠ .punct .semicolon) :
    topLevelPackages depth fresh (l :: ls) =
      (if fresh ∧ depth = 0 ∧ ((Terminal.keyword .packageKw).read? l).isSome then
        (PackageStatement.starting? l ls).toList else []) ++ topLevelPackages depth false ls := by
  rw [topLevelPackages, if_neg (by simp [hcomment]), if_neg hleft, if_neg hright, if_neg hsemicolon]
  split <;> simp

theorem topLevelPackages_comments {cs : List Lexeme}
    (hcs : ∀ c ∈ cs, c.token.isComment = true) (ls : List Lexeme) :
    topLevelPackages depth fresh (cs ++ ls) = topLevelPackages depth fresh ls := by
  induction cs with
  | nil => rfl
  | cons c cs ih =>
    obtain ⟨hc, hcs⟩ := List.forall_mem_cons.1 hcs
    rw [List.cons_append, topLevelPackages_comment hc, ih hcs]

/-- Nothing is found in a body: only the brace that closes it counts. -/
theorem topLevelPackages_closed {inner : List Lexeme} (h : Closed inner) (depth : Nat)
    (fresh : Bool) (rest : List Lexeme) :
    topLevelPackages (depth + 1) fresh (inner ++ rest) = topLevelPackages depth true rest := by
  induction h generalizing depth fresh rest with
  | brace token => exact topLevelPackages_rightBrace token
  | @other l ls notLeft notRight _ ih =>
    rw [List.cons_append]
    cases hcomment : l.token.isComment with
    | true => rw [topLevelPackages_comment hcomment, ih]
    | false =>
      by_cases hsemicolon : l.token = .punct .semicolon
      · rw [topLevelPackages_semicolon hsemicolon, ih]
      · rw [topLevelPackages_token hcomment notLeft notRight hsemicolon, if_neg (by simp),
          List.nil_append, ih]
  | @body l inner ls token _ _ ihInner ih =>
    rw [List.cons_append, List.append_assoc, topLevelPackages_leftBrace token, ihInner, ih]

/-- Within a statement the scan passes over inner lexemes. -/
theorem topLevelPackages_confined {ls rest : List Lexeme} (h : Confined Terminal.Inner ls rest) :
    topLevelPackages depth false ls = topLevelPackages depth false rest := by
  obtain ⟨passed, rfl, hpassed⟩ := h
  induction passed with
  | nil => rfl
  | cons l passed ih =>
    obtain ⟨hl, hpassed⟩ := List.forall_mem_cons.1 hpassed
    rw [List.cons_append]
    rcases hl with hcomment | ⟨t, ⟨hsemicolon, hleft, hright, -⟩, hread⟩
    · rw [topLevelPackages_comment hcomment, ih hpassed]
    · obtain ⟨v, hv⟩ := Option.isSome_iff_exists.1 hread
      have hne {p : Punct} (hp : t ≠ .punct p) : l.token ≠ .punct p := Terminal.token_ne_punct hv hp
      cases hcomment : l.token.isComment with
      | true => rw [topLevelPackages_comment hcomment, ih hpassed]
      | false =>
        rw [topLevelPackages_token hcomment (hne hleft) (hne hright) (hne hsemicolon),
          if_neg (by simp), List.nil_append, ih hpassed]

/-- Each statement that is found starts with one of the lexemes. -/
theorem start_of_mem_topLevelPackages {s : PackageStatement}
    (h : s ∈ topLevelPackages depth fresh ls) : ∃ l ∈ ls, s.span.start = l.span.start := by
  fun_induction topLevelPackages depth fresh ls with
  | case1 => cases h
  | case6 depth fresh l ls _ _ _ _ _ ih =>
    rcases List.mem_append.1 h with h | h
    · obtain ⟨last, -, rfl⟩ := Option.map_eq_some_iff.1 (Option.mem_toList.1 h)
      exact ⟨l, List.mem_cons_self, rfl⟩
    · obtain ⟨m, hm, hs⟩ := ih h
      exact ⟨m, List.mem_cons_of_mem l hm, hs⟩
  | case2 depth fresh l ls _ ih | case3 depth fresh l ls _ _ ih | case4 depth fresh l ls _ _ _ ih
  | case5 depth fresh l ls _ _ _ _ ih | case7 depth fresh l ls _ _ _ _ _ ih =>
    obtain ⟨m, hm, hs⟩ := ih h
    exact ⟨m, List.mem_cons_of_mem l hm, hs⟩

end Scan

namespace Production

variable {α β γ : Type} {fresh fresh' fresh'' : Bool}

/-! ## What is no package statement -/

/-- No package statement starts in what the production passes at the top level; the scan goes from
`fresh` to `fresh'`. -/
def Bypasses (fresh fresh' : Bool) (p : Production α) : Prop :=
  ∀ ls v rest, p.yield ls = some (v, rest) →
    topLevelPackages 0 fresh ls = topLevelPackages 0 fresh' rest

theorem bypasses_pure (v : α) : Bypasses fresh fresh (Pure.pure v : Production α) := by
  intro ls w rest h
  cases h
  rfl

theorem Bypasses.then {p : Production α} {k : α → Production β} (hp : p.Bypasses fresh fresh')
    (hk : ∀ a, (k a).Bypasses fresh' fresh'') : Bypasses fresh fresh'' (p >>= k) := by
  intro ls v rest h
  obtain ⟨a, between, ha, hv⟩ := yield_bind_eq_some.1 h
  exact (hp ls a between ha).trans (hk a between v rest hv)

theorem Bypasses.giving {p : Production α} (h : p.Bypasses fresh fresh') (f : α → β) :
    Bypasses fresh fresh' (do return f (← p)) :=
  h.then fun _ => bypasses_pure _

theorem Takes.bypasses {p : Production α} (h : p.Inner) : p.Bypasses false false :=
  fun ls _ _ hv => topLevelPackages_confined
    (h.confined (fun _ hcall => hcall.elim) (Nat.lt_succ_self ls.length) hv)

theorem bypasses_comments : comments.Bypasses fresh fresh := by
  intro ls v rest h
  obtain ⟨cs, hcs, rfl⟩ := comments_of_yield_comments h
  exact topLevelPackages_comments hcs rest

theorem bypasses_trailing : trailing.Bypasses fresh fresh := by
  intro ls v rest h
  rw [yield_trailing] at h
  cases hfound : takeHead? Lexeme.trailing? ls with
  | none =>
    rw [hfound] at h
    cases h
    rfl
  | some found =>
    rw [hfound] at h
    cases h
    obtain ⟨l, rfl, hl⟩ := takeHead?_eq_some hfound
    exact topLevelPackages_comment
      (Lexeme.isComment_of_comment? (Lexeme.comment?_of_trailing? hl))

theorem bypasses_keyword {k : Keyword} (hk : k ≠ .packageKw) :
    (keyword k).Bypasses fresh false := by
  intro ls v rest h
  obtain ⟨cs, l, hcs, rfl, hl, hread⟩ := yield_takeOr_eq_some.1 h
  have hpackage : (Terminal.keyword .packageKw).read? l = none := by
    refine Option.eq_none_iff_forall_ne_some.2 fun s hs => hk ?_
    obtain ⟨w, hw, hkey, -⟩ := Terminal.read?_keyword.1 hread
    obtain ⟨w', hw', hkey', -⟩ := Terminal.read?_keyword.1 hs
    cases hw.symm.trans hw'
    exact Terminal.isKeyword_inj hkey hkey'
  have hne (p : Punct) : l.token ≠ .punct p := Terminal.token_ne_punct hread (by simp)
  rw [topLevelPackages_comments hcs, topLevelPackages_token hl (hne _) (hne _) (hne _),
    if_neg (by simp [hpackage]), List.nil_append]

theorem bypasses_equals : (punct .equals).Bypasses false false := by
  intro ls v rest h
  obtain ⟨cs, l, hcs, rfl, hl, -⟩ := yield_punct_eq_some.1 h
  rw [topLevelPackages_comments hcs, topLevelPackages_token (by rw [hl]; rfl) (by simp [hl])
    (by simp [hl]) (by simp [hl]), if_neg (by simp), List.nil_append]

theorem bypasses_semicolon : (punct .semicolon).Bypasses fresh true := by
  intro ls v rest h
  obtain ⟨cs, l, hcs, rfl, hl, -⟩ := yield_punct_eq_some.1 h
  rw [topLevelPackages_comments hcs, topLevelPackages_semicolon hl]

theorem bypasses_endStatement (leading : List Comment) :
    (endStatement leading).Bypasses fresh true :=
  bypasses_semicolon.then fun _ => bypasses_trailing.giving _

theorem bypasses_braces {item : Production (Option (BodyItem α))} (h : ∀ n, item.Nests n) :
    (braces item).Bypasses fresh true := by
  intro ls v rest hv
  obtain ⟨cs, l, inner, hcs, hl, hinner, rfl⟩ := closed_of_yield_braces (h _) hv
  rw [topLevelPackages_comments hcs, topLevelPackages_leftBrace hl, topLevelPackages_closed hinner]

/-- A keyword other than `package`, an inner head and a body. -/
theorem bypasses_headed {k : Keyword} (hk : k ≠ .packageKw) {head : Production β}
    (hhead : head.Inner) {decl : Production α} (hdecl : ∀ n, decl.Nests n)
    (node : β → Body α → γ) : Bypasses fresh true (do
      let leading ← comments
      let _ ← keyword k
      let name ← head
      let inner ← body leading decl
      return node name inner) :=
  bypasses_comments.then fun _ => (bypasses_keyword hk).then fun _ =>
    (Takes.bypasses hhead).then fun _ => Bypasses.giving
      ((bypasses_braces fun n => nests_bodyItem (hdecl n)).then fun _ =>
        bypasses_trailing.giving _) _

theorem bypasses_importDecl : importDecl.Bypasses fresh true :=
  bypasses_comments.then fun _ => (bypasses_keyword (by simp)).then fun _ =>
    (Takes.bypasses inner_importModifier).then fun _ => (Takes.bypasses inner_string).then fun _ =>
      (bypasses_endStatement _).giving _

theorem bypasses_aggregate : (call .aggregate).Bypasses fresh true := by
  have haggregate : aggregate.Bypasses fresh true :=
    (bypasses_braces fun _ => flat_aggregateItem.nests nests_call).giving _
  exact fun ls v rest h => haggregate ls v rest (yield_call .aggregate ls ▸ h)

/-- A value of an option ends with a brace or not, so only the semicolon behind it tells that a
statement may start. -/
theorem exists_bypasses_optionValue {ls rest : List Lexeme} {v : Value}
    (h : optionValue.yield ls = some (v, rest)) :
    ∃ fresh, topLevelPackages 0 false ls = topLevelPackages 0 fresh rest := by
  obtain ⟨seen, between, hseen, h⟩ := yield_bind_eq_some.1 h
  rw [yield_sees, Option.some.injEq, Prod.mk.injEq] at hseen
  obtain ⟨-, rfl⟩ := hseen
  cases seen with
  | true => exact ⟨true, bypasses_aggregate.giving Value.aggregate ls v rest h⟩
  | false => exact ⟨false, Takes.bypasses inner_constant ls v rest h⟩

theorem bypasses_optionDecl : optionDecl.Bypasses fresh true := by
  refine bypasses_comments.then fun _ => (bypasses_keyword (by simp)).then fun _ => ?_
  refine (Takes.bypasses inner_optionName).then fun _ => bypasses_equals.then fun _ => ?_
  intro ls v rest h
  obtain ⟨value, between, hvalue, h⟩ := yield_bind_eq_some.1 h
  obtain ⟨behind, hbehind⟩ := exists_bypasses_optionValue hvalue
  have hend : topLevelPackages 0 behind between = topLevelPackages 0 true rest :=
    (bypasses_semicolon.then fun _ => bypasses_trailing.then fun _ => bypasses_pure _) _ v rest h
  exact hbehind.trans hend

theorem bypasses_message : (call .message).Bypasses fresh true := by
  have hmessage : message.Bypasses fresh true :=
    bypasses_headed (by simp) inner_ident (fun _ => nests_messageItem nests_call) _
  exact fun ls v rest h => hmessage ls v rest (yield_call .message ls ▸ h)

theorem bypasses_enum : enum.Bypasses fresh true :=
  bypasses_headed (by simp) inner_ident (fun _ => flat_enumItem.nests nests_call) _

theorem bypasses_service : service.Bypasses fresh true :=
  bypasses_headed (by simp) inner_ident (fun _ => nests_serviceItem nests_call) _

theorem bypasses_extend : extend.Bypasses fresh true :=
  bypasses_headed (by simp) inner_typeName
    (fun _ => (show field.Flat true from flat_field).nests nests_call) _

theorem bypasses_syntaxDecl : syntaxDecl.Bypasses fresh true :=
  bypasses_comments.then fun _ => (bypasses_keyword (by simp)).then fun _ =>
    bypasses_equals.then fun _ => (Takes.bypasses inner_string).then fun _ =>
      (bypasses_endStatement _).giving _

end Production

/-! ## Package statements -/

theorem Lexeme.Within.ne_semicolon {l : Lexeme} (h : l.Within Terminal.Inner) :
    l.token ≠ .punct .semicolon := by
  rcases h with hcomment | ⟨t, ht, hread⟩
  · exact not_brace_of_comment hcomment _
  · obtain ⟨v, hv⟩ := Option.isSome_iff_exists.1 hread
    exact Terminal.token_ne_punct hv ht.1

/-- A name has words and dots only. -/
theorem within_of_name {ls : List Lexeme} (hw : ∀ l ∈ ls, l.WellRead) {name : String}
    (h : symbols ls ∈ Phrase.name name) : ∀ l ∈ ls, l.Within Terminal.Inner := by
  have hsymbols : ∀ s ∈ symbols ls, (∃ w, s = .word w) ∨ s = .punct .dot := by
    obtain ⟨parts, -, hparts⟩ := h
    generalize symbols ls = xs at hparts
    induction hparts with
    | last only => grind [Phrase.word, Phrase.mem_of]
    | cons first others ih => grind [Phrase.word, Phrase.mem_of]
  intro l hl
  cases hs : l.symbol? with
  | none => exact .inl (Lexeme.symbol?_eq_none.1 hs)
  | some s =>
    have hread (t : Terminal) : (t.read? l).isSome = t.fits s :=
      Terminal.isSome_read? (Lexeme.shows_of_symbol? (hw l hl) hs)
    rcases hsymbols s (List.mem_filterMap.2 ⟨l, hl, hs⟩) with ⟨w, rfl⟩ | rfl
    · exact .inr ⟨.word, by simp [Terminal.Inner], hread _⟩
    · exact .inr ⟨.punct .dot, by simp [Terminal.Inner], hread _⟩

theorem spelledName_of_name {ls : List Lexeme} {name : String}
    (h : symbols ls ∈ Phrase.name name) : spelledName ls = name := by
  obtain ⟨parts, rfl, hparts⟩ := h
  rw [spelledName]
  generalize symbols ls = xs at hparts
  induction hparts with
  | last only =>
    obtain ⟨-, rfl⟩ := only
    simp [Symbol.spelled]
  | @cons w ws xs ys first others ih =>
    obtain ⟨-, rfl⟩ := first
    have hne : ws ≠ [] := by cases others <;> simp
    rw [String.intercalate_cons_of_ne_nil hne, ← ih]
    simp [Symbol.spelled, String.append_assoc, Punct.char]

namespace Production

/-- The scan finds what the production passes at the top level: nothing, or one package
statement. -/
def Scanned (p : Production FileItem) : Prop :=
  ∀ ls v rest, (∀ l ∈ ls, l.WellRead) → p.yield ls = some (v, rest) →
    topLevelPackages 0 true ls =
        v.package?.toList.map PackageStatement.ofPackage ++ topLevelPackages 0 true rest ∧
      ∃ passed, ls = passed ++ rest ∧
        ∀ found ∈ v.package?, ∃ last ∈ passed, found.2.stop = last.span.stop

theorem Scanned.orElse {p q : Production FileItem} (hp : p.Scanned) (hq : q.Scanned) :
    Scanned (p <|> q) := by
  intro ls v rest hw h
  rw [yield_orElse] at h
  rcases Option.or_eq_some_iff.1 h with h | ⟨-, h⟩
  · exact hp ls v rest hw h
  · exact hq ls v rest hw h

/-- A statement other than a package statement. -/
theorem Bypasses.scanned {p : Production α} (h : p.Bypasses true true) {f : α → FileItem}
    (hf : ∀ v, (f v).package? = none) : Scanned (do return f (← p)) := by
  intro ls v rest _ hv
  obtain ⟨passed, hpassed⟩ := suffix_of_yield hv
  rw [NoPackage.giving p hf ls v rest hv]
  exact ⟨h.giving f ls v rest hv, passed, hpassed.symm, nofun⟩

theorem scanned_packageDecl : packageDecl.Scanned := by
  intro ls v rest hw h
  obtain ⟨cs, first, words, last, behind, p, found, hcs, rfl, hcomment, ⟨w, hfirst, hk⟩, hname,
    hlast, htrailing, rfl⟩ := parts_of_yield_packageDecl hw h
  have hread : (Terminal.keyword .packageKw).read? first = some first.span :=
    Terminal.read?_keyword.2 ⟨w, hfirst, hk, rfl⟩
  have hne (p : Punct) : first.token ≠ .punct p := Terminal.token_ne_punct hread (by simp)
  have hwithin := within_of_name (fun l hl => hw l (by simp [hl])) hname
  have hwords : ∀ l ∈ words, l.token ≠ .punct .semicolon := fun l hl =>
    (hwithin l hl).ne_semicolon
  have hstarting : PackageStatement.starting? first (words ++ last :: behind) =
      some ⟨p.name, ⟨first.span.start, last.span.stop⟩⟩ := by
    rw [PackageStatement.starting?, List.find?_append, List.find?_eq_none.2 (by simpa using hwords),
      List.takeWhile_append_of_pos (by simpa using hwords)]
    simp [hlast, spelledName_of_name hname]
  constructor
  · rw [topLevelPackages_comments hcs, topLevelPackages_token hcomment (hne _) (hne _) (hne _),
      if_pos ⟨rfl, rfl, by rw [hread]; rfl⟩, hstarting,
      topLevelPackages_confined ⟨words, rfl, hwithin⟩, topLevelPackages_semicolon hlast,
      bypasses_trailing behind found rest htrailing]
    rfl
  · obtain ⟨passed, rfl⟩ := suffix_of_yield htrailing
    refine ⟨cs ++ first :: (words ++ last :: passed), by simp, fun found hfound => ?_⟩
    cases hfound
    exact ⟨last, by simp, rfl⟩

theorem scanned_fileItem : fileItem.Scanned := by
  refine .orElse (bypasses_importDecl.scanned fun _ => rfl) (.orElse scanned_packageDecl ?_)
  refine .orElse (bypasses_optionDecl.scanned fun _ => rfl) ?_
  refine .orElse (bypasses_message.scanned fun _ => rfl) ?_
  refine .orElse (bypasses_enum.scanned fun _ => rfl) ?_
  refine .orElse (bypasses_service.scanned fun _ => rfl) ?_
  exact bypasses_extend.scanned fun _ => rfl

end Production

/-! ## Files -/

/-- Places one after the other. -/
def InOrder (found : List PackageStatement) : Prop :=
  found.Pairwise fun a b => a.span.stop ≤ b.span.start

namespace Production

/-- What stands behind the first statement comes after it. -/
theorem inOrder_append {own : Option (Package × Span)} {passed rest : List Lexeme}
    {others : List PackageStatement}
    (hspans : (passed ++ rest).Pairwise fun a b => a.span.stop ≤ b.span.start)
    (hown : ∀ found ∈ own, ∃ last ∈ passed, found.2.stop = last.span.stop)
    (hothers : ∀ s ∈ others, ∃ l ∈ rest, s.span.start = l.span.start) (h : InOrder others) :
    InOrder (own.toList.map PackageStatement.ofPackage ++ others) := by
  cases own with
  | none => exact h
  | some found =>
    obtain ⟨last, hlast, hstop⟩ := hown found rfl
    refine List.Pairwise.cons (fun s hs => ?_) h
    obtain ⟨l, hl, hstart⟩ := hothers s hs
    rw [hstart, PackageStatement.ofPackage, hstop]
    exact (List.pairwise_append.1 hspans).2.2 last hlast l hl

/-- Where no item stands, none is passed. -/
theorem eq_of_yield_bodyItem {decl : Production α} {ls rest : List Lexeme}
    (h : (bodyItem decl).yield ls = some (none, rest)) : rest = ls := by
  rw [yield_bodyItem] at h
  grind

/-- A step through the statements of a file. -/
theorem scanned_bodyItem {ls rest : List Lexeme} {item : BodyItem FileItem}
    (hw : ∀ l ∈ ls, l.WellRead) (h : (bodyItem fileItem).yield ls = some (some item, rest)) :
    topLevelPackages 0 true ls =
        (item.decl?.bind FileItem.package?).toList.map PackageStatement.ofPackage ++
          topLevelPackages 0 true rest ∧
      ∃ passed, ls = passed ++ rest ∧ ∀ found ∈ item.decl?.bind FileItem.package?,
        ∃ last ∈ passed, found.2.stop = last.span.stop := by
  obtain ⟨passed, hpassed⟩ := suffix_of_yield h
  rw [yield_bodyItem] at h
  cases hdecl : fileItem.yield ls with
  | some found =>
    rw [hdecl] at h
    cases h
    exact scanned_fileItem ls _ _ hw hdecl
  | none =>
    rw [hdecl] at h
    dsimp only at h
    split at h
    · next c between hcomment =>
      cases h
      obtain ⟨l, rfl, hl⟩ := takeHead?_eq_some hcomment
      exact ⟨topLevelPackages_comment (Lexeme.isComment_of_comment? hl), passed, hpassed.symm,
        nofun⟩
    · split at h
      · next s between hsemicolon =>
        cases h
        exact ⟨bypasses_semicolon ls s _ hsemicolon, passed, hpassed.symm, nofun⟩
      · cases h

/-- The scan finds the package statements among the statements of a file, one after the other. -/
theorem topLevelPackages_of_items {ls rest : List Lexeme} {items : List (BodyItem FileItem)}
    (hw : ∀ l ∈ ls, l.WellRead) (h : (loop (bodyItem fileItem)).yield ls = some (items, rest)) :
    topLevelPackages 0 true ls =
        ((items.filterMap BodyItem.decl?).filterMap FileItem.package?).map
          PackageStatement.ofPackage ++ topLevelPackages 0 true rest ∧
      ((ls.Pairwise fun a b => a.span.stop ≤ b.span.start) →
        InOrder (topLevelPackages 0 true rest) → InOrder (topLevelPackages 0 true ls)) := by
  induction hn : ls.length using Nat.strongRecOn generalizing ls items with
  | ind n ih =>
    rw [yield_loop] at h
    obtain ⟨⟨item, between⟩, hitem, h⟩ := Option.bind_eq_some_iff.1 h
    cases item with
    | none =>
      cases h
      rw [eq_of_yield_bodyItem hitem]
      exact ⟨rfl, fun _ hlast => hlast⟩
    | some item =>
      obtain ⟨hfound, passed, rfl, hown⟩ := scanned_bodyItem hw hitem
      dsimp only at h
      split at h
      · next hlt =>
        obtain ⟨⟨others, _⟩, hothers, heq⟩ := Option.map_eq_some_iff.1 h
        cases heq
        obtain ⟨hrest, horder⟩ := ih between.length (hn ▸ hlt) (fun l hl => hw l (by simp [hl]))
          hothers rfl
        constructor
        · rw [hfound, hrest, ← List.append_assoc, ← List.map_append]
          cases hdecl : item.decl? with
          | none => simp [hdecl]
          | some v => cases hpackage : v.package? <;> simp [hdecl, hpackage]
        · intro hspans hlast
          rw [hfound]
          exact inOrder_append hspans hown (fun s hs => start_of_mem_topLevelPackages hs)
            (horder (List.pairwise_append.1 hspans).2.1 hlast)
      · cases h
        exact ⟨rfl, fun _ hlast => hlast⟩

theorem topLevelPackages_of_file {ls : List Lexeme} (hw : ∀ l ∈ ls, l.WellRead)
    (hspans : ls.Pairwise fun a b => a.span.stop ≤ b.span.start) {version : SyntaxDecl}
    {inner : Body FileItem} (h : file.yield ls = some ((version, inner), [])) :
    topLevelPackages 0 true ls =
        (inner.decls.filterMap FileItem.package?).map PackageStatement.ofPackage ∧
      InOrder (topLevelPackages 0 true ls) := by
  obtain ⟨_, between, hversion, h⟩ := yield_bind_eq_some.1 h
  obtain ⟨items, _, hitems, h⟩ := yield_bind_eq_some.1 h
  cases h
  have hsuffix := suffix_of_yield hversion
  obtain ⟨hfound, horder⟩ := topLevelPackages_of_items (fun l hl => hw l (hsuffix.subset hl)) hitems
  rw [bypasses_syntaxDecl ls _ between hversion]
  refine ⟨hfound.trans (List.append_nil _), horder (hspans.sublist hsuffix.sublist) .nil⟩

end Production

/-- Whether a token, or the end of the source, stands where others were expected. -/
def Fault.isUnexpected : Fault → Bool
  | .unexpectedToken _ _ _ | .unexpectedEnd _ _ => true
  | _ => false

theorem Report.isUnexpected_fault (r : Report) (ls : List Lexeme) (size : Nat) :
    (r.fault ls size).isUnexpected = true := by
  unfold fault
  dsimp only
  split <;> rfl

/-- Whether the grammar of files matches all of the lexemes. -/
def File.Matches (ls : List Lexeme) : Prop := ∃ v, Production.file.matchAll ls = .ok v

instance (ls : List Lexeme) : Decidable (File.Matches ls) :=
  match h : Production.file.matchAll ls with
  | .ok v => isTrue ⟨v, h⟩
  | .error _ => isFalse fun ⟨_, hv⟩ => nomatch h.symm.trans hv

section Outcomes

variable {source : String} {ls : List Lexeme}

theorem packages_of_tokenize (h : tokenize source.toList = .ok ls) {version : SyntaxDecl}
    {inner : Body FileItem} (hm : Production.file.matchAll ls = .ok (version, inner)) :
    topLevelPackages 0 true ls =
        (inner.decls.filterMap FileItem.package?).map PackageStatement.ofPackage ∧
      InOrder (topLevelPackages 0 true ls) := by
  have htile := (pieces_tile source.toList).2
  rw [h] at htile
  exact Production.topLevelPackages_of_file (wellRead_of_tokenize h) htile.2.2
    (Production.matchAll_eq_ok.1 hm)

/-- The outcomes for a source that is too large, for one that the grammar does not match, and for
one that it matches: there the number of package statements decides. -/
theorem parse_cases (h : tokenize source.toList = .ok ls) :
    (¬byteLength source.toList ≤ maxSourceSize ∧
        ∃ e, parse source = .error e ∧ e.primary = .sourceTooLarge) ∨
      (¬File.Matches ls ∧ ∃ e, parse source = .error e ∧ e.primary.isUnexpected = true) ∨
      (File.Matches ls ∧ ∃ f, parse source = .ok f ∧
        (topLevelPackages 0 true ls).map PackageStatement.name =
          (f.package.map Package.name).toList) ∨
      byteLength source.toList ≤ maxSourceSize ∧ File.Matches ls ∧
        ∃ a b others e, topLevelPackages 0 true ls = a :: b :: others ∧
          parse source = .error e ∧ e.primary = .duplicatePackage a.span b.span := by
  rw [(parse_of_tokenize h).1, parsed, File.ofLexemes]
  by_cases hsmall : byteLength source.toList ≤ maxSourceSize
  · rw [if_neg (Nat.not_lt.2 hsmall)]
    cases hm : Production.file.matchAll ls with
    | error r =>
      refine .inr (.inl ⟨fun ⟨_, hv⟩ => ?_, _, rfl, r.isUnexpected_fault ls _⟩)
      cases hm.symm.trans hv
    | ok v =>
      obtain ⟨version, inner⟩ := v
      rw [(packages_of_tokenize h hm).1]
      dsimp only
      rw [File.ofItems]
      cases inner.decls.filterMap FileItem.package? with
      | nil => exact .inr (.inr (.inl ⟨⟨_, hm⟩, _, rfl, rfl⟩))
      | cons p others =>
        cases others with
        | nil => exact .inr (.inr (.inl ⟨⟨_, hm⟩, _, rfl, rfl⟩))
        | cons q others =>
          exact .inr (.inr (.inr ⟨hsmall, ⟨_, hm⟩, _, _, _, _, rfl, rfl, rfl⟩))
  · rw [if_pos (Nat.not_le.1 hsmall)]
    exact .inl ⟨hsmall, _, rfl, rfl⟩

theorem inOrder_of_matches (h : tokenize source.toList = .ok ls) (hmatches : File.Matches ls) :
    InOrder (topLevelPackages 0 true ls) := by
  obtain ⟨⟨version, inner⟩, hm⟩ := hmatches
  exact (packages_of_tokenize h hm).2

end Outcomes

/-- A second package is reported exactly for a source that the grammar of files matches and that has
two package statements at the top level: with the places of the first two of them, one after the
other. A source that the grammar does not match has a token, or its end, reported as unexpected. In
a source that is read there is at most one package statement, and it is the package of the file. -/
theorem parse_packages {source : String} {ls : List Lexeme}
    (h : tokenize source.toList = .ok ls) :
    (∀ first second,
      (∃ e, parse source = .error e ∧ e.primary = .duplicatePackage first second) ↔
        byteLength source.toList ≤ maxSourceSize ∧ File.Matches ls ∧
          ∃ a b others, topLevelPackages 0 true ls = a :: b :: others ∧
            a.span = first ∧ b.span = second) ∧
      (File.Matches ls → InOrder (topLevelPackages 0 true ls)) ∧
      (byteLength source.toList ≤ maxSourceSize → ¬File.Matches ls →
        ∃ e, parse source = .error e ∧ e.primary.isUnexpected = true) ∧
      ∀ f, parse source = .ok f →
        (topLevelPackages 0 true ls).map PackageStatement.name =
          (f.package.map Package.name).toList := by
  refine ⟨fun first second => ⟨?_, ?_⟩, fun hmatches => inOrder_of_matches h hmatches,
    fun hsmall hmatches => ?_, fun f hf => ?_⟩
  · rintro ⟨e, he, hprimary⟩
    rcases parse_cases h with ⟨-, e', he', hother⟩ | ⟨-, e', he', hother⟩ | ⟨-, f, hf, -⟩ |
      ⟨hsmall, hmatches, a, b, others, e', hfound, he', hother⟩
    · cases he.symm.trans he'
      cases hprimary.symm.trans hother
    · cases he.symm.trans he'
      rw [hprimary] at hother
      cases hother
    · cases he.symm.trans hf
    · cases he.symm.trans he'
      cases hprimary.symm.trans hother
      exact ⟨hsmall, hmatches, a, b, others, hfound, rfl, rfl⟩
  · rintro ⟨hsmall, hmatches, a, b, others, hfound, rfl, rfl⟩
    rcases parse_cases h with ⟨hlarge, -⟩ | ⟨hunmatched, -⟩ | ⟨-, f, -, hnames⟩ |
      ⟨-, -, c, d, more, e, hfound', he, hprimary⟩
    · exact absurd hsmall hlarge
    · exact absurd hmatches hunmatched
    · rw [hfound] at hnames
      cases hpackage : f.package <;> simp [hpackage] at hnames
    · cases hfound.symm.trans hfound'
      exact ⟨e, he, hprimary⟩
  · rcases parse_cases h with ⟨hlarge, -⟩ | ⟨-, herror⟩ | ⟨hmatched, -⟩ | ⟨-, hmatched, -⟩
    · exact absurd hsmall hlarge
    · exact herror
    · exact absurd hmatched hmatches
    · exact absurd hmatched hmatches
  · rcases parse_cases h with ⟨-, e, he, -⟩ | ⟨-, e, he, -⟩ | ⟨-, g, hg, hnames⟩ |
      ⟨-, -, a, b, others, e, -, he, -⟩
    · cases hf.symm.trans he
    · cases hf.symm.trans he
    · cases hf.symm.trans hg
      exact hnames
    · cases hf.symm.trans he

/-- A second package behind a message, in which the word `package` is the type of a field, and a
comment. -/
theorem parse_packages_second : ∃ e,
    parse "syntax = 'a'; package p.q; message M \x7b package x = 1; \x7d /* c */ package r;" =
      .error e ∧ e.primary = .duplicatePackage ⟨14, 26⟩ ⟨64, 74⟩ := by
  have hs : tokenize
      "syntax = 'a'; package p.q; message M \x7b package x = 1; \x7d /* c */ package r;".toList =
        .ok [⟨.word (.keyword .syntaxKw), "syntax", ⟨0, 6⟩⟩, ⟨.punct .equals, "=", ⟨7, 8⟩⟩,
          ⟨.string "a", "'a'", ⟨9, 12⟩⟩, ⟨.punct .semicolon, ";", ⟨12, 13⟩⟩,
          ⟨.word (.keyword .packageKw), "package", ⟨14, 21⟩⟩, ⟨.word (.ident "p"), "p", ⟨22, 23⟩⟩,
          ⟨.punct .dot, ".", ⟨23, 24⟩⟩, ⟨.word (.ident "q"), "q", ⟨24, 25⟩⟩,
          ⟨.punct .semicolon, ";", ⟨25, 26⟩⟩, ⟨.word (.keyword .messageKw), "message", ⟨27, 34⟩⟩,
          ⟨.word (.ident "M"), "M", ⟨35, 36⟩⟩, ⟨.punct .leftBrace, "\x7b", ⟨37, 38⟩⟩,
          ⟨.word (.keyword .packageKw), "package", ⟨39, 46⟩⟩, ⟨.word (.ident "x"), "x", ⟨47, 48⟩⟩,
          ⟨.punct .equals, "=", ⟨49, 50⟩⟩, ⟨.int 1, "1", ⟨51, 52⟩⟩,
          ⟨.punct .semicolon, ";", ⟨52, 53⟩⟩, ⟨.punct .rightBrace, "\x7d", ⟨54, 55⟩⟩,
          ⟨.blockComment "c", "/* c */", ⟨56, 63⟩⟩,
          ⟨.word (.keyword .packageKw), "package", ⟨64, 71⟩⟩, ⟨.word (.ident "r"), "r", ⟨72, 73⟩⟩,
          ⟨.punct .semicolon, ";", ⟨73, 74⟩⟩] := by
    decide +kernel
  refine ((parse_packages hs).1 _ _).2 ⟨by decide +kernel, by decide +kernel, ⟨"p.q", ⟨14, 26⟩⟩,
    ⟨"r", ⟨64, 74⟩⟩, [], by decide +kernel, rfl, rfl⟩

end ProtoSchema
