import Mathlib.Data.List.Nodup
import ProtoSchema.Proofs.Checked.Scan
import ProtoSchema.Proofs.Classification
import ProtoSchema.Proofs.Yield

/-
  What a syntax error blames. A match changes the report only by notes, each made at a token that
  comes next after the start or further on (`Report.Noted`), and where it fails it has made one
  (`Report.Missed`). So a file is never rejected without an expectation, the lexeme blamed is never
  a comment, and since a match goes onward none of the statements that were read are blamed
  (`parse_blames`).
-/

namespace ProtoSchema

open Production

/-! ## Notes -/

namespace Report

/-- The report is `r` with notes added, each at the token that comes next after `c` or after some
place further on. -/
inductive Noted (c : Cursor) (r : Report) : Report → Prop
  | refl : Noted c r r
  | note {s : Report} {d : Cursor} (h : Noted c r s) (hd : c.Reaches d) (e : Expectation) :
      Noted c r (s.note d.significant.index e)

/-- The report is `r` with at least one note added, and all of them as in `Noted`. -/
inductive Missed (c : Cursor) (r : Report) : Report → Prop
  | note {s : Report} {d : Cursor} (h : Noted c r s) (hd : c.Reaches d) (e : Expectation) :
      Missed c r (s.note d.significant.index e)

variable {c d : Cursor} {r s t : Report}

theorem Missed.noted (h : r.Missed c s) : r.Noted c s := by
  cases h with
  | note h hd e => exact .note h hd e

theorem Noted.trans (h : r.Noted c s) (hd : c.Reaches d) (h' : s.Noted d t) : r.Noted c t := by
  induction h' with
  | refl => exact h
  | note _ hreach e ih => exact .note ih (hd.trans hreach) e

theorem Noted.missed (h : r.Noted c s) (hd : c.Reaches d) (h' : s.Missed d t) :
    r.Missed c t := by
  cases h' with
  | note h' hreach e => exact .note (h.trans hd h') (hd.trans hreach) e

/-! ### What notes make of an empty report -/

theorem nodup_note (h : r.expected.Nodup) (i : Nat) (e : Expectation) :
    (r.note i e).expected.Nodup := by
  unfold note
  split
  · exact List.nodup_singleton e
  · split
    · exact h
    · next hskip =>
      exact List.nodup_append.2 ⟨h, List.nodup_singleton e, fun a ha b hb hab =>
        hskip (.inr (List.mem_singleton.1 hb ▸ hab ▸ ha))⟩

/-- After a note something is expected, provided that nothing was only at the place zero. -/
theorem note_expected_ne_nil (h : r.expected = [] → r.furthest = 0) (i : Nat) (e : Expectation) :
    (r.note i e).expected ≠ [] := by
  unfold note
  split
  · exact List.cons_ne_nil _ _
  · split
    · next hskip =>
      intro hnil
      rcases hskip with hlt | hmem
      · exact absurd (h hnil) (Nat.ne_of_gt (Nat.zero_lt_of_lt hlt))
      · exact absurd hnil (List.ne_nil_of_mem hmem)
    · exact List.append_ne_nil_of_right_ne_nil _ (List.cons_ne_nil _ _)

theorem Noted.nodup (h : start.Noted c r) : r.expected.Nodup := by
  induction h with
  | refl => exact List.nodup_nil
  | note _ _ e ih => exact nodup_note ih _ e

theorem Noted.furthest_eq_zero (h : start.Noted c r) : r.expected = [] → r.furthest = 0 := by
  induction h with
  | refl => exact fun _ => rfl
  | note _ _ e ih => exact fun hnil => absurd hnil (note_expected_ne_nil ih _ e)

theorem Missed.expected_ne_nil (h : start.Missed c r) : r.expected ≠ [] := by
  cases h with
  | note h _ e => exact note_expected_ne_nil h.furthest_eq_zero _ e

/-- The furthest place noted is that of a token that comes next after some place. -/
theorem furthest_note_eq {i : Nat} (h : r.furthest = 0 ∨ ∃ d, c.Reaches d ∧
      r.furthest = d.significant.index) (hd : c.Reaches d) (hi : i = d.significant.index)
    (e : Expectation) : ∃ d, c.Reaches d ∧ (r.note i e).furthest = d.significant.index := by
  rw [furthest_note]
  rcases Nat.le_total r.furthest i with hle | hle
  · exact ⟨d, hd, by rw [Nat.max_eq_right hle, hi]⟩
  · rw [Nat.max_eq_left hle]
    rcases h with hzero | hplace
    · exact ⟨d, hd, by omega⟩
    · exact hplace

theorem Noted.place (h : start.Noted c r) :
    r.furthest = 0 ∨ ∃ d, c.Reaches d ∧ r.furthest = d.significant.index := by
  induction h with
  | refl => exact .inl rfl
  | note _ hd e ih => exact .inr (furthest_note_eq ih hd rfl e)

theorem Missed.place (h : start.Missed c r) :
    ∃ d, c.Reaches d ∧ r.furthest = d.significant.index := by
  cases h with
  | note h hd e => exact furthest_note_eq h.place hd rfl e

end Report

/-! ## Matching only makes notes -/

namespace Reply

variable {α β : Type} {c : Cursor} {r : Report}

/-- A reply from `c` with the report `r` that adds notes to it, and at least one if nothing
matched. -/
def Notes (c : Cursor) (r : Report) : Reply α → Prop
  | done _ _ r' => r.Noted c r'
  | failed r' => r.Missed c r'

theorem Notes.noted {reply : Reply α} (h : reply.Notes c r) : r.Noted c reply.report := by
  cases reply with
  | done v d r' => exact h
  | failed r' => exact Report.Missed.noted h

theorem Notes.after {reply : Reply α} {d : Cursor} {s : Report} (h : r.Noted c s)
    (hd : c.Reaches d) (h' : reply.Notes d s) : reply.Notes c r := by
  cases reply with
  | done v e s' => exact h.trans hd h'
  | failed s' => exact h.missed hd h'

theorem notes_map {f : α → β} {reply : Reply α} (h : reply.Notes c r) :
    (reply.map f).Notes c r := by
  cases reply <;> exact h

theorem notes_optional (found : Option (α × Cursor)) (c : Cursor) (r : Report) :
    (optional found c r).Notes c r := by
  cases found <;> exact .refl

end Reply

/-- A way to match nested constructs that only makes notes. -/
def Callee.Notes (callee : Callee) : Prop :=
  callee.Always fun _ c r reply => reply.Notes c r

theorem matchLoop_notes {α : Type} {step : Cursor → Report → Reply (Option α)}
    (hreaches : ∀ c r v d r', step c r = .done v d r' → c.Reaches d)
    (hstep : ∀ c r, (step c r).Notes c r) (c : Cursor) (r : Report) :
    (matchLoop step c r).Notes c r := by
  fun_induction matchLoop step c r with
  | case1 c r r' hs =>
    have hnotes := hstep c r
    rwa [hs] at hnotes
  | case2 c r d r' hs =>
    have hnotes := hstep c r
    rwa [hs] at hnotes
  | case3 c r v d r' hs hlt ih =>
    have hnotes := hstep c r
    rw [hs] at hnotes
    exact Reply.notes_map (.after hnotes (hreaches c r _ d r' hs) ih)
  | case4 c r v d r' hs hlt =>
    have hnotes := hstep c r
    rwa [hs] at hnotes

namespace Production

theorem matchWith_notes {callee : Callee} (hreaches : callee.Reaches) (hcallee : callee.Notes)
    {α : Type} (p : Production α) (c : Cursor) (r : Report) :
    (p.matchWith callee c r).Notes c r := by
  induction p generalizing c r with
  | pure v => exact .refl
  | bind p k ihp ihk =>
    have hp := ihp c r
    simp only [matchWith]
    cases hm : p.matchWith callee c r with
    | failed r' => rwa [hm] at hp
    | done v d r' =>
      rw [hm] at hp
      exact .after hp (matchWith_reaches hreaches p hm) (ihk v d r')
  | sees t => exact .refl
  | take t => exact Reply.notes_optional _ c r
  | comment => exact Reply.notes_optional _ c r
  | trailing => exact Reply.notes_optional _ c r
  | fail e => exact .note .refl (.refl c) e
  | orElse p q ihp ihq =>
    have hp := ihp c r
    simp only [matchWith]
    cases hm : p.matchWith callee c r with
    | done v d r' => rwa [hm] at hp
    | failed r' =>
      rw [hm] at hp
      exact .after (Report.Missed.noted hp) (.refl c) (ihq c r')
  | loop p ih => exact matchLoop_notes (fun _ _ _ _ _ => matchWith_reaches hreaches p) ih c r
  | call n => exact hcallee n c r

end Production

/-- Nested constructs are matched making only notes. -/
theorem Nonterminal.matches_notes : Callee.Notes Nonterminal.matches := by
  refine Nonterminal.matches_induct
    (fun _ c r => .failed (r.note c.significant.index .identifier)) (fun _ _ _ _ _ _ h => nomatch h)
    (fun _ c _ => .note .refl (.refl c) _) ?_
  intro callee hreaches hcallee n c r
  exact Production.matchWith_notes hreaches hcallee _ c r

theorem Production.run_notes {α : Type} (p : Production α) (c : Cursor) (r : Report) :
    (p.run c r).Notes c r :=
  matchWith_notes Nonterminal.matches_reaches Nonterminal.matches_notes p c r

/-! ## Where a file ends something is missing -/

theorem matchLoop_missed {α : Type} {step : Cursor → Report → Reply (Option α)}
    (hreaches : ∀ c r v d r', step c r = .done v d r' → c.Reaches d)
    (hnotes : ∀ c r, (step c r).Notes c r)
    (hnone : ∀ c r d r', step c r = .done none d r' → r.Missed c r')
    (hsome : ∀ c r v d r', step c r = .done (some v) d r' → d.rest.length < c.rest.length)
    (c : Cursor) (r : Report) : r.Missed c (matchLoop step c r).report := by
  fun_induction matchLoop step c r with
  | case1 c r r' hs =>
    have hfailed := hnotes c r
    rwa [hs] at hfailed
  | case2 c r d r' hs => exact hnone c r d r' hs
  | case3 c r v d r' hs hlt ih =>
    have hnoted := hnotes c r
    rw [hs] at hnoted
    rw [Reply.report_map]
    exact hnoted.missed (hreaches c r _ d r' hs) ih
  | case4 c r v d r' hs hlt => exact absurd (hsome c r v d r' hs) hlt

namespace Production

/-- Where there is no further item, neither a declaration nor a semicolon was found. -/
theorem missed_of_bodyItem {α : Type} {decl : Production α} {c d : Cursor} {r r' : Report}
    (hm : (bodyItem decl).run c r = .done none d r') : r.Missed c r' := by
  rcases bodyItem_cases hm with ⟨w, hv, -⟩ | ⟨i, s, hv, -⟩ | ⟨-, -, s, hdecl, hstray⟩
  · cases hv
  · cases hv
  · have hfirst := decl.run_notes c r
    have hsecond := (commentOrStray (α := α)).run_notes c s
    rw [hdecl] at hfirst
    rw [hstray] at hsecond
    exact (Report.Missed.noted hfirst).missed (.refl c) hsecond

/-- However much of a file is read, something is missing where the reading ends. -/
theorem file_missed (c : Cursor) (r : Report) : r.Missed c (file.run c r).report := by
  have hversion := syntaxDecl.run_notes c r
  cases hm : syntaxDecl.run c r with
  | failed s =>
    rw [hm] at hversion
    rw [run] at hm
    rw [run, file, matchWith_bind, hm]
    exact hversion
  | done version d s =>
    rw [hm] at hversion
    rw [run_file hm, Reply.report_map]
    refine Report.Noted.missed hversion (run_reaches _ hm) ?_
    exact matchLoop_missed (fun _ _ _ _ _ => run_reaches _) (bodyItem fileItem).run_notes
      (fun _ _ _ _ => missed_of_bodyItem) (fun _ _ _ _ _ => shorter_of_bodyItem) d s

end Production

/-! ## Statements that have been read -/

namespace File

/-- The lexemes that are left of `ls` when the version statement has been read, and then any number
of statements, comments and stray semicolons. -/
inductive Accepted (ls : List Lexeme) : List Lexeme → Prop
  | version {v : SyntaxDecl} {rest : List Lexeme} (h : syntaxDecl.yield ls = some (v, rest)) :
      Accepted ls rest
  | item {v : BodyItem FileItem} {mid rest : List Lexeme} (before : Accepted ls mid)
      (h : (bodyItem fileItem).yield mid = some (some v, rest)) : Accepted ls rest

variable {ls rest : List Lexeme} {index : Nat} {expected : List Expectation}

/-- The reading of a file passes through the place behind each statement that it accepts, and ends
where it does from there on. -/
theorem Accepted.passed (h : Accepted ls rest) : ∃ d r, d.rest = rest ∧ Cursor.Among ls d ∧
    (file.run (.start ls) .start).place = ((loop (bodyItem fileItem)).run d r).place := by
  induction h with
  | version h =>
    obtain ⟨d, r, hm, hrest⟩ := Reply.yield_eq_some.1 h
    exact ⟨d, r, hrest, run_reaches _ hm, by rw [run_file hm, Reply.place_map]⟩
  | @item v mid rest _ h ih =>
    obtain ⟨d, r, rfl, hd, hplace⟩ := ih
    obtain ⟨e, s, hm, hrest⟩ := Reply.yield_eq_some.1 ((yield_run _ d r).trans h)
    refine ⟨e, s, hrest, hd.trans (run_reaches _ hm), hplace.trans ?_⟩
    change (matchLoop ((bodyItem fileItem).run) d r).place =
      (matchLoop ((bodyItem fileItem).run) e s).place
    rw [matchLoop, hm]
    dsimp only
    rw [if_pos (shorter_of_bodyItem hm), Reply.place_map]

/-- No lexeme of a statement that was read is blamed. -/
theorem RejectedAt.accepted (h : RejectedAt ls index expected) (hrest : Accepted ls rest) :
    ∃ passed, ls = passed ++ rest ∧ passed.length ≤ index := by
  obtain ⟨d, r, rfl, ⟨passed, hpassed, hindex⟩, hplace⟩ := hrest.passed
  refine ⟨passed, hpassed, ?_⟩
  have hend := h.within.1.place_le
  have honward := ((loop (bodyItem fileItem)).run_onward d r).place_le
  have hle := d.index_le_significant
  rw [hplace] at hend
  rw [hindex] at hle
  omega

theorem RejectedAt.missed (h : RejectedAt ls index expected) :
    Report.start.Missed (.start ls) ⟨index, expected⟩ := by
  rw [← h.within.2]
  exact file_missed _ _

end File

/-- The next token after a place is no comment. -/
theorem Cursor.significant_isComment {c : Cursor} {l : Lexeme}
    (h : c.significant.rest.head? = some l) : l.token.isComment = false := by
  obtain ⟨i, rest⟩ := c
  induction rest generalizing i with
  | nil => cases h
  | cons m rest ih =>
    cases hm : m.token.isComment with
    | true => exact ih _ (significant_of_comment hm ▸ h)
    | false =>
      rw [significant_of_token hm] at h
      cases h
      exact hm

theorem File.RejectedAt.not_comment {ls : List Lexeme} {index : Nat} {expected : List Expectation}
    (h : RejectedAt ls index expected) {l : Lexeme} (hl : ls[index]? = some l) :
    l.token.isComment = false := by
  obtain ⟨d, hd, hindex⟩ := h.missed.place
  have hamong : Cursor.Among ls d.significant := hd.trans d.reaches_significant
  refine Cursor.significant_isComment (c := d) ?_
  rw [← hamong.getElem?, ← hl]
  exact congrArg (ls[·]?) hindex.symm

/-! ## The words of a report -/

namespace Expectation

/-- Every expectation. -/
def all : List Expectation :=
  Punct.all.map punct ++ Keyword.all.map keyword ++ [identifier, identifierOrParen,
    identifierOrBracket, constant, integer, integerOrMax, stringLiteral, bodyOrSemicolon]

theorem mem_all (e : Expectation) : e ∈ all := by
  cases e with
  | punct p => simp [all, Punct.mem_all]
  | keyword k => simp [all, Keyword.mem_all]
  | _ => simp [all]

theorem nodup_texts : (all.map text).Nodup := by decide +kernel

/-- Different expectations are reported in different words. -/
theorem text_injective : Function.Injective text := fun e e' =>
  List.inj_on_of_nodup_map nodup_texts (mem_all e) (mem_all e')

/-- The words for a declaration are not those for an expectation, nor do they start with them. -/
theorem not_prefix_fallback (e : Expectation) :
    ¬ e.text.toList <+: (alternatives []).toList := by
  have hall : ∀ e ∈ all, ¬ e.text.toList <+: (alternatives []).toList := by decide +kernel
  exact hall e (mem_all e)

end Expectation

/-- A phrase starts with its first alternative. -/
theorem prefix_alternatives (first : String) (others : List String) :
    first.toList <+: (alternatives (first :: others)).toList := by
  match others with
  | [] => exact List.prefix_refl _
  | [other] =>
    rw [alternatives, String.toList_append, String.toList_append, List.append_assoc]
    exact List.prefix_append _ _
  | other :: another :: more =>
    rw [alternatives, String.toList_append, String.toList_append, List.append_assoc]
    · exact List.prefix_append _ _
    · exact nofun
    · exact nofun

theorem alternatives_text_ne {expected : List Expectation} (h : expected ≠ []) :
    alternatives (expected.map Expectation.text) ≠ alternatives [] := by
  cases expected with
  | nil => exact absurd rfl h
  | cons e others =>
    intro heq
    exact e.not_prefix_fallback (heq ▸ prefix_alternatives e.text _)

/-! ## Syntax errors -/

/-- Whether the tokens stopped making up a file at one of them or at the end of the source. -/
inductive Fault.IsSyntaxError : Fault → Prop
  | unexpectedToken (expected : List String) (found : String) (span : Span) :
      IsSyntaxError (.unexpectedToken expected found span)
  | unexpectedEnd (expected : List String) (span : Span) :
      IsSyntaxError (.unexpectedEnd expected span)

/-- How a failure reports that the lexemes `ls` of a source are rejected at the place `index`. It is
the only fault and has a position. Something is expected, nothing twice, so the phrase for it is not
the one for nothing at all. The place is no comment and within no statement that was read. A lexeme
that stands there is found in the source as it is quoted; the end of the source is blamed, as the
empty part behind it, if no token stands there or further on. -/
structure Failure.Blames (failure : Failure) (source : List Char) (ls : List Lexeme)
    (index : Nat) : Prop where
  alone : failure.related = []
  position : failure.position.isSome
  expects : failure.primary.expected ≠ []
  distinct : failure.primary.expected.Nodup
  phrase : alternatives failure.primary.expected ≠ "a valid declaration"
  token : ∀ l, ls[index]? = some l → l.token.isComment = false
  accepted : ∀ rest, File.Accepted ls rest → ∃ passed, ls = passed ++ rest ∧ passed.length ≤ index
  found : ∀ expected found span, failure.primary = .unexpectedToken expected found span →
    ∃ l, ls[index]? = some l ∧ span = l.span ∧ Checked.slice? source span = some found.toList
  atEnd : (∃ expected span, failure.primary = .unexpectedEnd expected span) ↔
    ∀ l ∈ ls.drop index, l.token.isComment = true
  endSpan : ∀ expected span, failure.primary = .unexpectedEnd expected span →
    span = ⟨byteLength source, byteLength source⟩

namespace Report

/-- The fault that a report makes of the lexeme at its place. -/
theorem fault_of_lexeme {r : Report} {ls : List Lexeme} {l : Lexeme} (h : ls[r.furthest]? = some l)
    (size : Nat) : r.fault ls size =
      .unexpectedToken (r.expected.map Expectation.text) l.spelling l.span := by
  rw [fault, h]

/-- The fault that a report makes of the end of a source. -/
theorem fault_of_end {r : Report} {ls : List Lexeme} (h : ls[r.furthest]? = none) (size : Nat) :
    r.fault ls size = .unexpectedEnd (r.expected.map Expectation.text) ⟨size, size⟩ := by
  rw [fault, h]

theorem expected_fault (r : Report) (ls : List Lexeme) (size : Nat) :
    (r.fault ls size).expected = r.expected.map Expectation.text := by
  unfold fault
  split <;> rfl

theorem span?_fault (r : Report) (ls : List Lexeme) (size : Nat) :
    (r.fault ls size).span?.isSome := by
  unfold fault
  split <;> rfl

end Report

namespace File

variable {index : Nat} {expected : List Expectation}

/-- A rejected file is rejected at its end if no token stands at the place of the report or further
on. -/
theorem RejectedAt.atEnd {ls : List Lexeme} (h : RejectedAt ls index expected) (size : Nat) :
    (∃ texts span, Report.fault ⟨index, expected⟩ ls size = .unexpectedEnd texts span) ↔
      ∀ l ∈ ls.drop index, l.token.isComment = true := by
  cases hl : ls[index]? with
  | none =>
    rw [List.drop_eq_nil_of_le (List.getElem?_eq_none_iff.1 hl), Report.fault_of_end hl]
    exact ⟨fun _ => nofun, fun _ => ⟨_, _, rfl⟩⟩
  | some l =>
    rw [Report.fault_of_lexeme hl]
    have hmem : l ∈ ls.drop index := by
      rw [List.drop_eq_getElem?_toList_append, hl]
      exact List.mem_cons_self
    refine ⟨fun ⟨_, _, hend⟩ => (nomatch hend), fun hcomments => ?_⟩
    cases (h.not_comment hl).symm.trans (hcomments l hmem)

theorem RejectedAt.blames {source : List Char} {ls : List Lexeme}
    (hls : ls = lexemes (pieces source)) (h : RejectedAt ls index expected) :
    (Failure.ofFaults source (Report.fault ⟨index, expected⟩ ls (byteLength source)) []).Blames
      source ls index := by
  have hnonempty := h.missed.expected_ne_nil
  have htexts := Report.expected_fault ⟨index, expected⟩ ls (byteLength source)
  refine ⟨rfl, ?_, ?_, ?_, ?_, fun _ => h.not_comment, fun _ => h.accepted, ?_, h.atEnd _, ?_⟩
  · exact Option.isSome_map.trans (Report.span?_fault _ _ _)
  · exact fun hnil => hnonempty (List.map_eq_nil_iff.1 (htexts.symm.trans hnil))
  · exact htexts ▸ h.missed.noted.nodup.map Expectation.text_injective
  · exact htexts ▸ alternatives_text_ne hnonempty
  · intro texts found span heq
    cases hl : ls[index]? with
    | none => cases (Report.fault_of_end (r := ⟨index, expected⟩) hl _).symm.trans heq
    | some l =>
      cases (Report.fault_of_lexeme (r := ⟨index, expected⟩) hl _).symm.trans heq
      exact ⟨l, rfl, rfl, Checked.slice?_of_mem_lexemes (hls ▸ List.mem_of_getElem? hl)⟩
  · intro texts span heq
    cases hl : ls[index]? with
    | none =>
      cases (Report.fault_of_end (r := ⟨index, expected⟩) hl _).symm.trans heq
      rfl
    | some l => cases (Report.fault_of_lexeme (r := ⟨index, expected⟩) hl _).symm.trans heq

/-- Tokens that make up no file are rejected at some place, or they name two packages. -/
theorem ofLexemes_eq_error {ls : List Lexeme} {size : Nat} {fault : Fault}
    (h : ofLexemes ls size = .error fault) (hkind : fault.IsSyntaxError) :
    ∃ index expected, RejectedAt ls index expected ∧
      fault = Report.fault ⟨index, expected⟩ ls size := by
  unfold ofLexemes at h
  cases hm : file.matchAll ls with
  | error r =>
    rw [hm] at h
    cases h
    exact ⟨r.furthest, r.expected, hm, rfl⟩
  | ok found =>
    rw [hm] at h
    dsimp only at h
    unfold ofItems at h
    split at h
    · cases h
    · cases h
    · cases h
      cases hkind

end File

/-- Every syntax error of a source whose characters form tokens is well-formed and blames nothing
that was read: it is the report on a place where the tokens are rejected. -/
theorem parse_blames {source : String} {ls : List Lexeme} {failure : Failure}
    (htokens : tokenize source.toList = .ok ls) (hparse : parse source = .error failure)
    (hkind : failure.primary.IsSyntaxError) :
    ∃ index expected, File.RejectedAt ls index expected ∧
      failure.primary.expected = expected.map Expectation.text ∧
      failure.Blames source.toList ls index := by
  obtain ⟨hparsed, hls⟩ := parse_of_tokenize htokens
  rw [hparsed] at hparse
  unfold parsed at hparse
  split at hparse
  · cases hparse
    cases hkind
  · cases hfile : File.ofLexemes ls (byteLength source.toList) with
    | ok f => rw [hfile] at hparse; cases hparse
    | error fault =>
      rw [hfile] at hparse
      cases hparse
      obtain ⟨index, expected, hrejected, rfl⟩ := File.ofLexemes_eq_error hfile hkind
      exact ⟨index, expected, hrejected, Report.expected_fault _ _ _, hrejected.blames hls⟩

/-- A semicolon behind a comment, in the place of the name of a package. -/
theorem parse_blames_unnamed_package : ∃ ls failure,
    tokenize "syntax = 'a'; // b\npackage /* c */;".toList = .ok ls ∧
      parse "syntax = 'a'; // b\npackage /* c */;" = .error failure ∧
      failure.primary = .unexpectedToken ["an identifier"] ";" ⟨34, 35⟩ ∧
      ∃ index expected, File.RejectedAt ls index expected ∧
        failure.primary.expected = expected.map Expectation.text ∧
        failure.Blames "syntax = 'a'; // b\npackage /* c */;".toList ls index := by
  have htokens : tokenize "syntax = 'a'; // b\npackage /* c */;".toList = .ok
      [⟨.word (.keyword .syntaxKw), "syntax", ⟨0, 6⟩⟩, ⟨.punct .equals, "=", ⟨7, 8⟩⟩,
        ⟨.string "a", "'a'", ⟨9, 12⟩⟩, ⟨.punct .semicolon, ";", ⟨12, 13⟩⟩,
        ⟨.lineComment "b" true, "// b", ⟨14, 18⟩⟩,
        ⟨.word (.keyword .packageKw), "package", ⟨19, 26⟩⟩,
        ⟨.blockComment "c", "/* c */", ⟨27, 34⟩⟩, ⟨.punct .semicolon, ";", ⟨34, 35⟩⟩] := by
    decide +kernel
  have hparse : parse "syntax = 'a'; // b\npackage /* c */;" =
      .error ⟨.unexpectedToken ["an identifier"] ";" ⟨34, 35⟩, [], some ⟨2, 16⟩, none⟩ := by
    decide +kernel
  exact ⟨_, _, htokens, hparse, rfl, parse_blames htokens hparse (.unexpectedToken _ _ _)⟩

end ProtoSchema
