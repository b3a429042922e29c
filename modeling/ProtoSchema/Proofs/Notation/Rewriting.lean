import ProtoSchema.Proofs.Notation.Aggregates
import ProtoSchema.Proofs.Notation.Strays

/-
  Notations of aggregates. A value in braces may be written in many ways: with other separators or
  none behind its entries, with or without the colon before a brace, with a list of values or with
  one entry for each of them, and with a string in several parts. A rewriting changes one of these
  at any depth (`Aggregate.Rewrites`), and both sides are ways to write the same value
  (`Aggregate.Rewrites.yields`). So the lexemes make up the same file, whatever rewritings are
  combined (`ofLexemes_rewritten`).
-/

namespace ProtoSchema

/-! ## Rewritings -/

/-- Values in square brackets, with commas between them. -/
def bracketed (values : List (List Symbol)) : List Symbol :=
  .punct .leftBracket :: (List.intercalate [.punct .comma] values ++ [.punct .rightBracket])

/-- Entries with the key `ks`, one for each of the values, and each with any separator or none. -/
def SpreadOut (ks : List Symbol) : List (List Symbol) → List Symbol → Prop :=
  Series fun value xs => ∃ es ∈ Phrase.entryEnd, xs = ks ++ .punct .colon :: value ++ es

mutual

/-- One rewriting within the value of an entry. -/
inductive Value.Rewrites : List Symbol → List Symbol → Prop
  | text {parts parts' : List String} (hne : parts ≠ []) (hne' : parts' ≠ [])
      (same : String.join parts = String.join parts') :
      Value.Rewrites (parts.map .string) (parts'.map .string)
  | aggregate {xs ys} (h : Aggregate.Rewrites xs ys) : Value.Rewrites xs ys

/-- One rewriting within an aggregate, between any entries. -/
inductive Aggregate.Rewrites : List Symbol → List Symbol → Prop
  | entry {before behind us vs xs ys} (hbefore : Series Aggregate.EntryYields before us)
      (h : Aggregate.EntryRewrites xs ys) (hbehind : Series Aggregate.EntryYields behind vs) :
      Aggregate.Rewrites (.punct .leftBrace :: (us ++ (xs ++ vs) ++ [.punct .rightBrace]))
        (.punct .leftBrace :: (us ++ (ys ++ vs) ++ [.punct .rightBrace]))

/-- One rewriting of an entry, which may become several entries or none. -/
inductive Aggregate.EntryRewrites : List Symbol → List Symbol → Prop
  | separator {key ks values xs es es'} (hkey : ks ∈ Phrase.entryKey key)
      (hvalues : Aggregate.ValuesYield values xs) (hend : es ∈ Phrase.entryEnd)
      (hend' : es' ∈ Phrase.entryEnd) :
      Aggregate.EntryRewrites (ks ++ xs ++ es) (ks ++ xs ++ es')
  | colon {key ks a xs es} (hkey : ks ∈ Phrase.entryKey key) (ha : Aggregate.Yields a xs)
      (hend : es ∈ Phrase.entryEnd) :
      Aggregate.EntryRewrites (ks ++ xs ++ es) (ks ++ .punct .colon :: xs ++ es)
  | list {key ks values es ys} (hkey : ks ∈ Phrase.entryKey key)
      (hvalues : ∀ xs ∈ values, ∃ v : Value, v.Yields xs) (hend : es ∈ Phrase.entryEnd)
      (hspread : SpreadOut ks values ys) :
      Aggregate.EntryRewrites (ks ++ .punct .colon :: bracketed values ++ es) ys
  | value {key ks xs ys es} (hkey : ks ∈ Phrase.entryKey key) (h : Value.Rewrites xs ys)
      (hend : es ∈ Phrase.entryEnd) :
      Aggregate.EntryRewrites (ks ++ .punct .colon :: xs ++ es) (ks ++ .punct .colon :: ys ++ es)
  | bare {key ks xs ys es} (hkey : ks ∈ Phrase.entryKey key) (h : Aggregate.Rewrites xs ys)
      (hend : es ∈ Phrase.entryEnd) :
      Aggregate.EntryRewrites (ks ++ xs ++ es) (ks ++ ys ++ es)
  | element {key ks before behind xs ys es} (hkey : ks ∈ Phrase.entryKey key)
      (hbefore : ∀ us ∈ before, ∃ v : Value, v.Yields us) (h : Value.Rewrites xs ys)
      (hbehind : ∀ us ∈ behind, ∃ v : Value, v.Yields us) (hend : es ∈ Phrase.entryEnd) :
      Aggregate.EntryRewrites (ks ++ .punct .colon :: bracketed (before ++ xs :: behind) ++ es)
        (ks ++ .punct .colon :: bracketed (before ++ ys :: behind) ++ es)

end

/-! ## Both sides are the same value -/

section Sequences

variable {α : Type} {R : α → List Symbol → Prop}

theorem Series.single {a : α} {xs : List Symbol} (h : R a xs) : Series R [a] xs := by
  rw [← List.append_nil xs]
  exact .cons h .nil

theorem Series.append {as bs : List α} {xs ys : List Symbol} (h : Series R as xs)
    (h' : Series R bs ys) : Series R (as ++ bs) (xs ++ ys) := by
  induction h with
  | nil => exact h'
  | cons first _ ih =>
    rw [List.append_assoc, List.cons_append]
    exact .cons first ih

theorem separated_intercalate {items : List α} {words : List (List Symbol)}
    (h : List.Forall₂ R items words) (hne : words ≠ []) :
    Separated .comma R items (List.intercalate [.punct .comma] words) := by
  induction h with
  | nil => exact absurd rfl hne
  | @cons a w items words first others ih =>
    cases others with
    | nil =>
      rw [List.intercalate_singleton]
      exact .last first
    | cons second others =>
      rw [List.intercalate_cons_cons, List.append_assoc]
      exact .cons first (ih (List.cons_ne_nil _ _))

theorem exists_forall₂ {words : List (List Symbol)} (h : ∀ w ∈ words, ∃ a, R a w) :
    ∃ items, List.Forall₂ R items words := by
  induction words with
  | nil => exact ⟨[], .nil⟩
  | cons w words ih =>
    obtain ⟨⟨a, ha⟩, hwords⟩ := List.forall_mem_cons.1 h
    obtain ⟨items, hitems⟩ := ih hwords
    exact ⟨a :: items, .cons ha hitems⟩

end Sequences

namespace Aggregate

variable {key : String} {ks xs ys es : List Symbol}

/-- An entry makes one setting of each of its values. -/
theorem EntryYields.of_values {values : List Value} (hkey : ks ∈ Phrase.entryKey key)
    (hvalues : ValuesYield values xs) (hend : es ∈ Phrase.entryEnd) :
    EntryYields (values.map fun v => ⟨key, v, []⟩) (ks ++ xs ++ es) := by
  refine .intro ?_ ?_ hkey hvalues hend
  · simp
  · simp [Function.comp_def]

theorem valuesYield_bracketed {values : List Value} {words : List (List Symbol)}
    (h : List.Forall₂ Value.Yields values words) :
    ValuesYield values (.punct .colon :: bracketed words) := by
  cases h with
  | nil => exact .empty
  | cons first others =>
    exact .many (separated_intercalate (.cons first others) (List.cons_ne_nil _ _))

/-- Entries with the same key make one setting of each of the values. -/
theorem series_of_spreadOut (hkey : ks ∈ Phrase.entryKey key) {values : List Value}
    {words : List (List Symbol)} (h : List.Forall₂ Value.Yields values words)
    (hspread : SpreadOut ks words ys) :
    Series EntryYields (values.map fun v => [⟨key, v, []⟩]) ys := by
  induction h generalizing ys with
  | nil =>
    cases hspread
    exact .nil
  | cons first _ ih =>
    cases hspread with
    | cons hentry hothers =>
      obtain ⟨es, hend, rfl⟩ := hentry
      exact .cons (.of_values hkey (.one first) hend) (ih hothers)

end Aggregate

mutual

/-- Both sides of a rewriting are ways to write the same value. -/
theorem Value.Rewrites.yields {xs ys : List Symbol} :
    Value.Rewrites xs ys → ∃ v : Value, v.Yields xs ∧ v.Yields ys
  | .text hne hne' same =>
    ⟨.string (String.join _), .constant ⟨_, hne, rfl, rfl⟩, .constant ⟨_, hne', same, rfl⟩⟩
  | .aggregate h =>
    let ⟨a, hxs, hys⟩ := h.yields
    ⟨.aggregate a, .aggregate hxs, .aggregate hys⟩

/-- Both sides of a rewriting are ways to write the same aggregate. -/
theorem Aggregate.Rewrites.yields {xs ys : List Symbol} :
    Aggregate.Rewrites xs ys → ∃ a : Aggregate, a.Yields xs ∧ a.Yields ys
  | @Aggregate.Rewrites.entry before behind us vs xs ys hbefore h hbehind => by
    obtain ⟨entries, entries', hxs, hys, hsame⟩ := h.yields
    refine ⟨⟨(before ++ (entries ++ behind)).flatten, []⟩,
      .intro rfl (hbefore.append (hxs.append hbehind)),
      .intro ?_ (hbefore.append (hys.append hbehind))⟩
    simp only [List.flatten_append, hsame]

/-- Both sides of a rewriting are ways to write entries with the same settings. -/
theorem Aggregate.EntryRewrites.yields {xs ys : List Symbol} :
    Aggregate.EntryRewrites xs ys → ∃ entries entries', Series Aggregate.EntryYields entries xs ∧
      Series Aggregate.EntryYields entries' ys ∧ entries.flatten = entries'.flatten
  | .separator hkey hvalues hend hend' =>
    ⟨_, _, .single (.of_values hkey hvalues hend), .single (.of_values hkey hvalues hend'), rfl⟩
  | .colon hkey ha hend =>
    ⟨_, _, .single (.of_values hkey (.bare ha) hend),
      .single (.of_values hkey (.one (.aggregate ha)) hend), rfl⟩
  | .list hkey hvalues hend hspread => by
    obtain ⟨values, hvalues⟩ := exists_forall₂ hvalues
    refine ⟨_, _, .single (.of_values hkey (Aggregate.valuesYield_bracketed hvalues) hend),
      Aggregate.series_of_spreadOut hkey hvalues hspread, ?_⟩
    rw [List.flatten_singleton, ← List.flatMap_def]
    exact List.map_eq_flatMap
  | .value hkey h hend =>
    let ⟨_, hxs, hys⟩ := h.yields
    ⟨_, _, .single (.of_values hkey (.one hxs) hend), .single (.of_values hkey (.one hys) hend),
      rfl⟩
  | .bare hkey h hend =>
    let ⟨_, hxs, hys⟩ := h.yields
    ⟨_, _, .single (.of_values hkey (.bare hxs) hend), .single (.of_values hkey (.bare hys) hend),
      rfl⟩
  | .element hkey hbefore h hbehind hend => by
    obtain ⟨v, hxs, hys⟩ := h.yields
    obtain ⟨before, hbefore⟩ := exists_forall₂ hbefore
    obtain ⟨behind, hbehind⟩ := exists_forall₂ hbehind
    have hvalues {us : List Symbol} (hus : v.Yields us) :=
      Aggregate.valuesYield_bracketed (List.rel_append hbefore (.cons hus hbehind))
    exact ⟨_, _, .single (.of_values hkey (hvalues hxs) hend),
      .single (.of_values hkey (hvalues hys) hend), rfl⟩

end

/-! ## Lexemes around an aggregate -/

namespace Varies

/-- Lexemes are a variation of themselves. -/
theorem refl {ls : List Lexeme} (h : ∀ l ∈ ls, l.token.isComment = false) (s : Spot) :
    Varies s ls ls := by
  induction hn : ls.length using Nat.strongRecOn generalizing ls s with
  | ind n ih =>
    cases ls with
    | nil => exact .empty s
    | cons l ls =>
      obtain ⟨hl, hls⟩ := List.forall_mem_cons.1 h
      by_cases hvalue : s = .value ∧ l.token = .punct .leftBrace
      · obtain ⟨rfl, hbrace⟩ := hvalue
        cases hyield : Production.aggregate.yield (l :: ls) with
        | none => exact .unread hbrace hbrace hyield hyield
        | some found =>
          obtain ⟨a, rest⟩ := found
          have hsuffix := Production.suffix_of_yield hyield
          have hlt : rest.length < (l :: ls).length :=
            (Production.consumes_braces _).bind_left _ |>.passes.shorter hyield
          refine .aggregate hbrace hbrace hyield hyield (ih rest.length (hn ▸ hlt) ?_ _ rfl)
          exact fun m hm => h m (hsuffix.subset hm)
      · exact .of_kept hl (fun hs hbrace => hvalue ⟨hs, hbrace⟩)
          (ih ls.length (by rw [← hn]; exact Nat.lt_succ_self _) hls _ rfl)

end Varies

namespace Production

/-- A production that reads symbols gives their value, and leaves the lexemes behind them. -/
theorem Reads.yield {α : Type} {p : Production α} {xs zs : List Symbol} {v : α}
    (h : Reads p (xs ++ zs) (· = v) zs) {ls rest : List Lexeme} (hls : Shows ls xs)
    (hrest : Shows rest zs) : p.yield (ls ++ rest) = some (v, rest) := by
  obtain ⟨_, d, r, hrun, rfl, hd⟩ := h (.start (ls ++ rest)) .start (List.rel_append hls hrest)
  have hyield := yield_of_done hrun
  have hsuffix : d.rest <:+ ls ++ rest := suffix_of_yield hyield
  have heq : d.rest = rest :=
    (List.suffix_of_suffix_length_le hsuffix (List.suffix_append ls rest)
      (by rw [hd.length_eq, hrest.length_eq])).eq_of_length (by rw [hd.length_eq, hrest.length_eq])
  exact heq ▸ hyield

end Production

namespace Varies

/-- Two ways to write the same aggregate, with the same lexemes behind, are a variation. -/
theorem of_reads {a : Aggregate} {xs ys zs : List Symbol} (hxs : a.Yields xs) (hys : a.Yields ys)
    {bs bs' cs : List Lexeme} (hbs : Shows bs xs) (hbs' : Shows bs' ys) (hcs : Shows cs zs)
    (huncommented : ∀ l ∈ cs, l.token.isComment = false) :
    Varies .value (bs ++ cs) (bs' ++ cs) := by
  have hyield := (Production.reads_aggregate_of hxs).yield hbs hcs
  have hyield' := (Production.reads_aggregate_of hys).yield hbs' hcs
  cases hxs with
  | intro _ _ =>
    cases hys with
    | intro _ _ =>
      cases hbs with
      | cons hbrace _ =>
        cases hbs' with
        | cons hbrace' _ => exact .aggregate hbrace hbrace' hyield hyield' (.refl huncommented _)

/-- Lexemes that vary behind an equals sign vary from any place before it on. -/
theorem of_before {e : Lexeme} (he : e.token = .punct .equals) {ls ls' : List Lexeme}
    (h : Varies .value ls ls') {before : List Lexeme}
    (hbefore : ∀ l ∈ before, l.token.isComment = false) (s : Spot) :
    Varies s (before ++ e :: ls) (before ++ e :: ls') := by
  induction hn : before.length using Nat.strongRecOn generalizing before s with
  | ind n ih =>
    cases before with
    | nil => exact .of_kept (by rw [he]; rfl) (fun _ => by simp [he]) (by rw [he]; exact h)
    | cons l before =>
      obtain ⟨hl, hbehind⟩ := List.forall_mem_cons.1 hbefore
      by_cases hvalue : s = .value ∧ l.token = .punct .leftBrace
      · obtain ⟨rfl, hbrace⟩ := hvalue
        cases hyield : Production.aggregate.yield (l :: before ++ e :: ls) with
        | none =>
          refine .unread hbrace hbrace hyield (Option.eq_none_iff_forall_ne_some.2 ?_)
          intro found hsome
          change Production.aggregate.yield (l :: before ++ e :: ls') = _ at hsome
          obtain ⟨left, -, -, -, hsame⟩ := Production.yield_aggregate_before he hsome
          cases hyield.symm.trans (hsame ls)
        | some found =>
          obtain ⟨a, rest⟩ := found
          obtain ⟨left, hlt, hsuffix, rfl, hsame⟩ := Production.yield_aggregate_before he hyield
          refine .aggregate hbrace hbrace hyield (hsame ls') (ih left.length (hn ▸ hlt) ?_ _ rfl)
          exact fun m hm => hbefore m (hsuffix.subset hm)
      · exact .of_kept hl (fun hs hbrace => hvalue ⟨hs, hbrace⟩)
          (ih before.length (by rw [← hn]; exact Nat.lt_succ_self _) hbehind _ rfl)

end Varies

/-! ## The same symbols -/

theorem Lexeme.Shows.sameText {l l' : Lexeme} {s : Symbol} (h : l.Shows s) (h' : l'.Shows s) :
    l.SameText l' := by
  cases s with
  | word w =>
    obtain ⟨hspelling, before, htoken⟩ := h
    obtain ⟨hspelling', before', htoken'⟩ := h'
    exact .word htoken htoken' (hspelling.trans hspelling'.symm)
  | int n =>
    have htoken : l.token = .int n := h
    exact .other (by simp [htoken]) (htoken.trans (Eq.symm h'))
  | float x =>
    have htoken : l.token = .float x := h
    exact .other (by simp [htoken]) (htoken.trans (Eq.symm h'))
  | string text =>
    have htoken : l.token = .string text := h
    exact .other (by simp [htoken]) (htoken.trans (Eq.symm h'))
  | punct p =>
    have htoken : l.token = .punct p := h
    exact .other (by simp [htoken]) (htoken.trans (Eq.symm h'))

theorem Shows.sameText {ls ls' : List Lexeme} {xs : List Symbol} (h : Shows ls xs)
    (h' : Shows ls' xs) : List.Forall₂ Lexeme.SameText ls ls' := by
  induction h generalizing ls' with
  | nil =>
    cases h'
    exact .nil
  | cons first _ ih =>
    cases h' with
    | cons first' others' => exact .cons (first.sameText first') (ih others')

/-! ## Rewritten lexemes -/

/-- Lexemes without comments, as a source may have them. -/
def Uncommented (ls : List Lexeme) : Prop := ∀ l ∈ ls, l.WellRead ∧ l.token.isComment = false

theorem Uncommented.shows {ls : List Lexeme} (h : Uncommented ls) : Shows ls (symbols ls) :=
  shows_symbols (fun l hl => (h l hl).1) fun l hl => (h l hl).2

/-- The second list has the symbols of the first one, with one rewriting within an aggregate that
stands behind an equals sign. -/
structure Rewritten (ls ls' : List Lexeme) : Prop where
  uncommented : Uncommented ls
  uncommented' : Uncommented ls'
  rewrites : ∃ before xs ys behind, symbols ls = before ++ .punct .equals :: (xs ++ behind) ∧
    symbols ls' = before ++ .punct .equals :: (ys ++ behind) ∧ Aggregate.Rewrites xs ys

/-- Lexemes that show two phrases are lexemes of the first one and lexemes of the second one. -/
theorem Shows.split {ls : List Lexeme} {xs ys : List Symbol} (h : Shows ls (xs ++ ys)) :
    ∃ as bs, ls = as ++ bs ∧ Shows as xs ∧ Shows bs ys := by
  refine ⟨ls.take xs.length, ls.drop xs.length, (List.take_append_drop _ _).symm, ?_, ?_⟩
  · exact List.forall₂_take_append ls xs ys h
  · exact List.forall₂_drop_append ls xs ys h

/-- Lexemes that show symbols before an aggregate, an equals sign, the aggregate and what stands
behind it. -/
theorem exists_parts {ls : List Lexeme} {before xs behind : List Symbol}
    (h : Shows ls (before ++ .punct .equals :: (xs ++ behind))) :
    ∃ as e bs cs, ls = as ++ e :: (bs ++ cs) ∧ Shows as before ∧ e.token = .punct .equals ∧
      Shows bs xs ∧ Shows cs behind := by
  obtain ⟨as, es, rfl, has, hes⟩ := h.split
  cases hes with
  | @cons e es _ _ he hbehind =>
    obtain ⟨bs, cs, rfl, hbs, hcs⟩ := Shows.split hbehind
    exact ⟨as, e, bs, cs, rfl, has, he, hbs, hcs⟩

namespace File

/-- One rewriting of the lexemes leaves the file as it is. -/
theorem ofLexemes_of_rewritten {ls ls' : List Lexeme} (h : Rewritten ls ls') (m n : Nat)
    (f : File) : ofLexemes ls m = .ok f ↔ ofLexemes ls' n = .ok f := by
  obtain ⟨before, xs, ys, behind, hls, hls', hrewrites⟩ := h.rewrites
  obtain ⟨a, hxs, hys⟩ := hrewrites.yields
  obtain ⟨as, e, bs, cs, rfl, has, he, hbs, hcs⟩ := exists_parts (hls ▸ h.uncommented.shows)
  obtain ⟨as', e', bs', cs', rfl, has', he', hbs', hcs'⟩ :=
    exists_parts (hls' ▸ h.uncommented'.shows)
  have hcomment (l : Lexeme) (hl : l ∈ as ++ e :: (bs ++ cs)) := (h.uncommented l hl).2
  -- The first list with the aggregate of the second one stands between both.
  have hvaries : Varies .inside (as ++ e :: (bs ++ cs)) (as ++ e :: (bs' ++ cs)) := by
    refine .of_before he ?_ (fun l hl => hcomment l (by simp [hl])) .inside
    exact .of_reads hxs hys hbs hbs' hcs fun l hl => hcomment l (by simp [hl])
  have hwell (l : Lexeme) (hl : l ∈ as ++ e :: (bs' ++ cs)) : l.WellRead := by
    simp only [List.mem_append, List.mem_cons] at hl
    rcases hl with hl | hl | hl | hl
    · exact (h.uncommented l (by simp [hl])).1
    · exact (h.uncommented l (by simp [hl])).1
    · exact (h.uncommented' l (by simp [hl])).1
    · exact (h.uncommented l (by simp [hl])).1
  have hsame : List.Forall₂ Lexeme.SameText (as ++ e :: (bs' ++ cs))
      (as' ++ e' :: (bs' ++ cs')) :=
    List.rel_append (has.sameText has')
      (.cons (.other (by simp [he]) (he.trans he'.symm))
        (List.rel_append (hbs'.sameText hbs') (hcs.sameText hcs')))
  rw [ofLexemes_of_varies hvaries m n f]
  have houtcome := ofLexemes_sameText hwell (fun l hl => (h.uncommented' l hl).1) hsame n n
  generalize ofLexemes (as ++ e :: (bs' ++ cs)) n = x,
    ofLexemes (as' ++ e' :: (bs' ++ cs')) n = y at houtcome
  cases houtcome <;> simp

/-- Notations of aggregates are interchangeable: whatever rewritings are combined, the lexemes make
up the same file. -/
theorem ofLexemes_rewritten {ls ls' : List Lexeme} (h : Relation.EqvGen Rewritten ls ls')
    (m n : Nat) (f : File) : ofLexemes ls m = .ok f ↔ ofLexemes ls' n = .ok f := by
  induction h generalizing m n with
  | rel _ _ h => exact ofLexemes_of_rewritten h m n f
  | refl ls =>
    unfold ofLexemes
    cases Production.file.matchAll ls <;> simp
  | symm _ _ _ ih => exact (ih n m).symm
  | trans _ _ _ _ _ ih ih' => exact (ih m m).trans (ih' m n)

/-- A list that becomes two entries, within an aggregate in the aggregate of an option. -/
theorem ofLexemes_rewritten_list : ∃ ls ls' f,
    tokenize "syntax = 'a'; option o = \x7b m \x7b k: [1, 'b'], \x7d \x7d;".toList = .ok ls ∧
      tokenize "syntax = 'a'; option o = \x7b m \x7b k: 1 k: 'b'; \x7d \x7d;".toList = .ok ls' ∧
      ofLexemes ls 0 = .ok f ∧ ofLexemes ls' 0 = .ok f := by
  have hs : tokenize "syntax = 'a'; option o = \x7b m \x7b k: [1, 'b'], \x7d \x7d;".toList = .ok
      [⟨.word (.keyword .syntaxKw), "syntax", ⟨0, 6⟩⟩, ⟨.punct .equals, "=", ⟨7, 8⟩⟩,
        ⟨.string "a", "'a'", ⟨9, 12⟩⟩, ⟨.punct .semicolon, ";", ⟨12, 13⟩⟩,
        ⟨.word (.keyword .optionKw), "option", ⟨14, 20⟩⟩, ⟨.word (.ident "o"), "o", ⟨21, 22⟩⟩,
        ⟨.punct .equals, "=", ⟨23, 24⟩⟩, ⟨.punct .leftBrace, "\x7b", ⟨25, 26⟩⟩,
        ⟨.word (.ident "m"), "m", ⟨27, 28⟩⟩, ⟨.punct .leftBrace, "\x7b", ⟨29, 30⟩⟩,
        ⟨.word (.ident "k"), "k", ⟨31, 32⟩⟩, ⟨.punct .colon, ":", ⟨32, 33⟩⟩,
        ⟨.punct .leftBracket, "[", ⟨34, 35⟩⟩, ⟨.int 1, "1", ⟨35, 36⟩⟩,
        ⟨.punct .comma, ",", ⟨36, 37⟩⟩, ⟨.string "b", "'b'", ⟨38, 41⟩⟩,
        ⟨.punct .rightBracket, "]", ⟨41, 42⟩⟩, ⟨.punct .comma, ",", ⟨42, 43⟩⟩,
        ⟨.punct .rightBrace, "\x7d", ⟨44, 45⟩⟩, ⟨.punct .rightBrace, "\x7d", ⟨46, 47⟩⟩,
        ⟨.punct .semicolon, ";", ⟨47, 48⟩⟩] := by
    decide +kernel
  have ht : tokenize "syntax = 'a'; option o = \x7b m \x7b k: 1 k: 'b'; \x7d \x7d;".toList = .ok
      [⟨.word (.keyword .syntaxKw), "syntax", ⟨0, 6⟩⟩, ⟨.punct .equals, "=", ⟨7, 8⟩⟩,
        ⟨.string "a", "'a'", ⟨9, 12⟩⟩, ⟨.punct .semicolon, ";", ⟨12, 13⟩⟩,
        ⟨.word (.keyword .optionKw), "option", ⟨14, 20⟩⟩, ⟨.word (.ident "o"), "o", ⟨21, 22⟩⟩,
        ⟨.punct .equals, "=", ⟨23, 24⟩⟩, ⟨.punct .leftBrace, "\x7b", ⟨25, 26⟩⟩,
        ⟨.word (.ident "m"), "m", ⟨27, 28⟩⟩, ⟨.punct .leftBrace, "\x7b", ⟨29, 30⟩⟩,
        ⟨.word (.ident "k"), "k", ⟨31, 32⟩⟩, ⟨.punct .colon, ":", ⟨32, 33⟩⟩,
        ⟨.int 1, "1", ⟨34, 35⟩⟩, ⟨.word (.ident "k"), "k", ⟨36, 37⟩⟩,
        ⟨.punct .colon, ":", ⟨37, 38⟩⟩, ⟨.string "b", "'b'", ⟨39, 42⟩⟩,
        ⟨.punct .semicolon, ";", ⟨42, 43⟩⟩, ⟨.punct .rightBrace, "\x7d", ⟨44, 45⟩⟩,
        ⟨.punct .rightBrace, "\x7d", ⟨46, 47⟩⟩, ⟨.punct .semicolon, ";", ⟨47, 48⟩⟩] := by
    decide +kernel
  have hk : [.word "k"] ∈ Phrase.entryKey "k" := .inl ⟨by decide, rfl⟩
  have hm : [.word "m"] ∈ Phrase.entryKey "m" := .inl ⟨by decide, rfl⟩
  have hvalues : ∀ xs ∈ [[.int 1], [.string "b"]], ∃ v : Value, v.Yields xs := by
    simp only [List.forall_mem_cons]
    exact ⟨⟨.int 1, .constant rfl⟩,
      ⟨.string "b", .constant ⟨["b"], List.cons_ne_nil _ _, by decide, rfl⟩⟩, nofun⟩
  have hspread : SpreadOut [.word "k"] [[.int 1], [.string "b"]]
      ([.word "k", .punct .colon, .int 1] ++ ([.word "k", .punct .colon, .string "b",
        .punct .semicolon] ++ [])) :=
    .cons ⟨[], .inl (.inl rfl), rfl⟩ (.cons ⟨_, .inr rfl, rfl⟩ .nil)
  have hlist := Aggregate.EntryRewrites.list hk hvalues (.inl (.inr rfl)) hspread
  have hentry := Aggregate.EntryRewrites.bare hm (.entry .nil hlist .nil) (.inl (.inl rfl))
  let o : OptionDecl := .ofValue "o"
    (.aggregate ⟨[⟨"m", .aggregate ⟨[⟨"k", .int 1, []⟩, ⟨"k", .string "b", []⟩], []⟩, []⟩], []⟩) []
  let f : File := ⟨⟨"a", []⟩, none, [], [o], [], [], []⟩
  refine ⟨_, _, f, hs, ht, by decide +kernel, ?_⟩
  refine (ofLexemes_rewritten (.rel _ _ ⟨fun l hl => ⟨wellRead_of_tokenize hs l hl, ?_⟩,
    fun l hl => ⟨wellRead_of_tokenize ht l hl, ?_⟩, ?_⟩) 0 0 f).1 (by decide +kernel)
  · revert l
    decide +kernel
  · revert l
    decide +kernel
  · exact ⟨[.word "syntax", .punct .equals, .string "a", .punct .semicolon, .word "option",
      .word "o"], _, _, [.punct .semicolon], rfl, rfl, .entry .nil hentry .nil⟩

end File

end ProtoSchema
