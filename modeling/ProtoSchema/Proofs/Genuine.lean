import ProtoSchema.Proofs.Locality

/-
  What is reported would have helped. Every expectation of a report has been looked for in vain at
  the place of the report (`Report.Honest`), and all files that are rejected at a place after the
  same lexemes have one report. So a file in which an expected lexeme stands at this place is not
  rejected there: `expectation_genuine`.
-/

namespace ProtoSchema

/-- A report whose place is among the lexemes, or at their end, and which expects nothing that
stands there. -/
structure Report.Honest (ls : List Lexeme) (r : Report) : Prop where
  bound : r.furthest ≤ ls.length
  missing : ∀ l, ls[r.furthest]? = some l → ∀ e ∈ r.expected, ¬ e.Describes l

namespace Report

theorem honest_start (ls : List Lexeme) : start.Honest ls :=
  ⟨Nat.zero_le _, fun _ _ _ he => nomatch he⟩

theorem Honest.note {ls : List Lexeme} {r : Report} {i : Nat} {e : Expectation}
    (h : r.Honest ls) (hi : i ≤ ls.length) (he : ∀ l, ls[i]? = some l → ¬ e.Describes l) :
    (r.note i e).Honest ls := by
  unfold Report.note
  split
  · refine ⟨hi, fun l hl e' he' => ?_⟩
    rw [List.mem_singleton.1 he']
    exact he l hl
  · split
    · exact h
    · next hlt hskip =>
      refine ⟨h.bound, fun l hl e' he' => ?_⟩
      rcases List.mem_append.1 he' with hold | hnew
      · exact h.missing l hl e' hold
      · rw [List.mem_singleton.1 hnew]
        have heq : r.furthest = i := by
          have hge : ¬ i < r.furthest := fun hlt' => hskip (.inl hlt')
          omega
        exact he l (heq ▸ hl)

end Report

/-- A reply whose report is honest and, if it is a match, whose value and end have a property. -/
def Reply.Keeps {α : Type} (ls : List Lexeme) (P : α → Cursor → Prop) : Reply α → Prop
  | done v d r => r.Honest ls ∧ P v d
  | failed r => r.Honest ls

theorem Reply.Keeps.report {α : Type} {ls : List Lexeme} {P : α → Cursor → Prop} {reply : Reply α}
    (h : reply.Keeps ls P) : reply.report.Honest ls := by
  cases reply with
  | done v d r => exact h.1
  | failed r => exact h

theorem Reply.Keeps.mono {α : Type} {ls : List Lexeme} {P R : α → Cursor → Prop}
    {reply : Reply α} (h : reply.Keeps ls P) (hle : ∀ v d, P v d → R v d) : reply.Keeps ls R := by
  cases reply with
  | done v d r => exact ⟨h.1, hle v d h.2⟩
  | failed r => exact h

/-- A way to match nested constructs among the lexemes that keeps reports honest. -/
def Callee.Honest (ls : List Lexeme) (callee : Callee) : Prop :=
  ∀ n c r, Cursor.Among ls c → r.Honest ls → (callee n c r).Keeps ls fun _ _ => True

theorem matchLoop_keeps {α : Type} {ls : List Lexeme} {S : α → α → Prop}
    {step : Cursor → Report → Reply (Option α)}
    (hreaches : ∀ c r v d r', step c r = .done v d r' → c.Reaches d)
    (hstep : ∀ c r, Cursor.Among ls c → r.Honest ls →
      (step c r).Keeps ls fun v _ => ∃ w, Option.Rel S v w)
    {c : Cursor} {r : Report} (hc : Cursor.Among ls c) (hr : r.Honest ls) :
    (matchLoop step c r).Keeps ls fun vs _ => ∃ ws, List.Forall₂ S vs ws := by
  fun_induction matchLoop step c r with
  | case1 c r r' hs =>
    have hkeeps := hstep c r hc hr
    rw [hs] at hkeeps
    exact hkeeps
  | case2 c r d r' hs =>
    have hkeeps := hstep c r hc hr
    rw [hs] at hkeeps
    exact ⟨hkeeps.1, [], .nil⟩
  | case3 c r v d r' hs hlt ih =>
    have hkeeps := hstep c r hc hr
    rw [hs] at hkeeps
    obtain ⟨hreport, _, hrel⟩ := hkeeps
    have hrest := ih (hc.trans (hreaches c r _ d r' hs)) hreport
    cases hrel with
    | @some _ w hvw =>
      cases hm : matchLoop step d r' with
      | failed s => rwa [hm] at hrest
      | done vs e s =>
        rw [hm] at hrest
        obtain ⟨hs, ws, hws⟩ := hrest
        exact ⟨hs, w :: ws, .cons hvw hws⟩
  | case4 c r v d r' hs hlt =>
    have hkeeps := hstep c r hc hr
    rw [hs] at hkeeps
    exact ⟨hkeeps.1, [], .nil⟩

namespace Production

/-- No lexeme of the classes stands next. -/
def Missing (ts : List Terminal) (c : Cursor) : Prop := ∀ t ∈ ts, c.take? t = none

theorem missing_nil (c : Cursor) : Missing [] c := fun _ ht => nomatch ht

theorem Missing.cons {t : Terminal} {ts : List Terminal} {c : Cursor} (ht : c.take? t = none)
    (h : Missing ts c) : Missing (t :: ts) c := by
  intro t' ht'
  rcases List.mem_cons.1 ht' with rfl | ht'
  · exact ht
  · exact h t' ht'

/-- Where all classes are missing that make up an expectation, nothing stands that it means. -/
theorem Missing.not_describes {ts : List Terminal} {c : Cursor} {e : Expectation} {l : Lexeme}
    (h : Missing ts c) (he : e.CoveredBy ts) (hl : c.significant.rest.head? = some l) :
    ¬ e.Describes l := by
  intro hdescribes
  obtain ⟨t, ht, hread⟩ := he l hdescribes
  obtain ⟨v, hv⟩ := Option.isSome_iff_exists.1 hread
  obtain ⟨rest, hrest⟩ := List.head?_eq_some_iff.1 hl
  have hsome : c.take? t = some (v, ⟨c.significant.index + 1, rest⟩) :=
    Cursor.take?_eq_some.2 ⟨l, hrest, hv, rfl⟩
  rw [h t ht] at hsome
  cases hsome

/-- Productions of the grammar keep reports honest, since they expect only what they have looked for
in vain. -/
theorem Alike.keeps {ls : List Lexeme} {callee : Callee} (hc : callee.Reaches)
    (hcallee : callee.Honest ls) {α : Type} {ts : List Terminal}
    {Q : α → α → List Terminal → Prop} {p p' : Production α} (h : Alike Eq ts Q p p')
    {c : Cursor} {r : Report} (hamong : Cursor.Among ls c) (hts : Missing ts c)
    (hr : r.Honest ls) :
    (p.matchWith callee c r).Keeps ls fun v d => ∃ w us, Q v w us ∧ Missing us d := by
  induction h generalizing c r with
  | @pure _ ts Q v w hvw => exact ⟨hr, w, ts, hvw, hts⟩
  | @bind _ _ ts Q R p p' k k' _ _ ihp ihk =>
    have hfirst := ihp hamong hts hr
    simp only [matchWith]
    cases hm : p.matchWith callee c r with
    | failed s => rwa [hm] at hfirst
    | done v d s =>
      rw [hm] at hfirst
      obtain ⟨hs, w, us, hvw, hus⟩ := hfirst
      exact ihk v w us hvw (hamong.trans (matchWith_reaches hc p hm)) hus hs
  | @sees _ ts Q t k k' hstarts _ _ ihtrue ihfalse =>
    simp only [matchWith]
    cases hs : c.take? t with
    | some found => exact ihtrue hamong (missing_nil c) hr
    | none => exact ihfalse hamong (.cons hs hts) hr
  | @take ts t Q hfound hmissing =>
    simp only [matchWith]
    cases hs : c.take? t with
    | some found => exact ⟨hr, some found.1, [], hfound _ _ (.refl Eq.refl _), missing_nil _⟩
    | none => exact ⟨hr, none, t :: ts, hmissing, .cons hs hts⟩
  | @comment ts Q hfound hmissing =>
    simp only [matchWith]
    cases hs : c.comment? with
    | some found => exact ⟨hr, some found.1, [], hfound _, missing_nil _⟩
    | none => exact ⟨hr, none, ts, hmissing, hts⟩
  | @trailing ts Q hfound hmissing =>
    simp only [matchWith]
    cases hs : c.trailing? with
    | some found => exact ⟨hr, some found.1, [], hfound _, missing_nil _⟩
    | none => exact ⟨hr, none, ts, hmissing, hts⟩
  | @fail _ ts Q e covered =>
    have hs : Cursor.Among ls c.significant := hamong.trans c.reaches_significant
    exact hr.note hs.index_le fun l hl => hts.not_describes covered (hs.getElem? ▸ hl)
  | @orElse _ ts Q p p' q q' _ _ ihp ihq =>
    have hfirst := ihp hamong hts hr
    simp only [matchWith]
    cases hm : p.matchWith callee c r with
    | failed s =>
      rw [hm] at hfirst
      exact ihq hamong hts hfirst
    | done v d s => rwa [hm] at hfirst
  | @loop _ ts P S Q p p' _ hsame hall ih =>
    have hloop : (matchLoop (p.matchWith callee) c r).Keeps ls
        fun vs _ => ∃ ws, List.Forall₂ S vs ws := by
      refine matchLoop_keeps (fun _ _ _ _ _ h => matchWith_reaches hc p h) ?_ hamong hr
      intro d s hd hs
      refine (ih hd (missing_nil d) hs).mono ?_
      rintro v e ⟨w, us, hvw, -⟩
      exact ⟨w, hsame v w us hvw⟩
    refine hloop.mono ?_
    rintro vs d ⟨ws, hws⟩
    exact ⟨ws, [], hall vs ws hws, missing_nil d⟩
  | @call ts n Q hsame =>
    exact (hcallee n c r hamong hr).mono fun v d _ => ⟨v, [], hsame v, missing_nil d⟩

end Production

/-- Nested constructs keep reports honest. -/
theorem Nonterminal.matches_honest (ls : List Lexeme) : Callee.Honest ls Nonterminal.matches := by
  intro n c r
  revert n c r
  refine Nonterminal.matches_induct (P := fun n c r reply => Cursor.Among ls c → r.Honest ls →
    reply.Keeps ls fun _ _ => True) (fun _ _ r => .failed r) (fun _ _ _ _ _ _ h => nomatch h)
    (fun _ _ _ _ hr => hr) ?_
  intro callee hreaches halways n c r hamong hr
  exact ((Production.steady_production n Eq []).keeps hreaches halways hamong
    (Production.missing_nil c) hr).mono fun _ _ _ => trivial

namespace File

variable {ls : List Lexeme} {index : Nat} {expected : List Expectation}

/-- Nothing that a rejected file is said to miss stands where it is rejected. -/
theorem RejectedAt.honest (h : RejectedAt ls index expected) :
    Report.Honest ls ⟨index, expected⟩ := by
  have hkeeps := (Production.alike_file []).keeps Nonterminal.matches_reaches
    (Nonterminal.matches_honest ls) (Cursor.among_start ls) (Production.missing_nil _)
    (Report.honest_start ls)
  rw [← h.within.2]
  exact hkeeps.report

theorem agree_take (index : Nat) (ls : List Lexeme) : Agree Eq index ls (ls.take index) := by
  refine ⟨fun i l hi hl => ⟨l, ?_, .refl Eq.refl l⟩, fun i l hi hl => ⟨l, ?_, .refl Eq.refl l⟩⟩
  · rw [List.getElem?_take_of_lt hi]
    exact hl
  · have hlength := (List.getElem?_eq_some_iff.1 hl).1
    rw [List.length_take] at hlength
    rwa [List.getElem?_take_of_lt (by omega)] at hl

/-- The report on a rejected file is that on the lexemes before the place where it is rejected. -/
theorem RejectedAt.report_take (h : RejectedAt ls index expected) :
    (Production.file.run (.start (ls.take index)) .start).report = ⟨index, expected⟩ := by
  rw [(h.follows (agree_take index ls)).report_eq]
  exact h.within.2

/-- An expected lexeme helps: if it stands in the place of the one that was blamed, or at the end of
the file if this came too early, the file is not rejected there, nor before, whatever follows. -/
theorem expectation_genuine (h : RejectedAt ls index expected) {e : Expectation}
    (he : e ∈ expected) {l : Lexeme} (hl : e.Describes l) (more : List Lexeme) :
    FaultlessBefore (index + 1) (ls.take index ++ l :: more) := by
  have hbound : index ≤ ls.length := h.honest.bound
  have hlength : (ls.take index).length = index := by
    rw [List.length_take]
    omega
  refine faultlessBefore_of fun i others h' => Nat.succ_le_of_lt (Nat.lt_of_not_le fun hle => ?_)
  rcases Nat.lt_or_eq_of_le hle with hlt | rfl
  · -- Before the new lexeme the two files are the same.
    have hsame : ∀ j ≤ i, Option.Rel Lexeme.Similar (ls.take index ++ l :: more)[j]? ls[j]? := by
      intro j hj
      rw [List.getElem?_append_left (by omega), List.getElem?_take_of_lt (by omega),
        List.getElem?_eq_getElem (by omega)]
      exact .some (.refl _)
    obtain ⟨rfl, -⟩ := h.unique (h'.of_agree (.of_rel hsame) (by omega))
    omega
  · have htake := h'.report_take
    rw [List.take_left' hlength, h.report_take] at htake
    obtain rfl : expected = others := congrArg Report.expected htake
    have hnext : (ls.take i ++ l :: more)[i]? = some l := by
      rw [List.getElem?_append_right (by omega), hlength, Nat.sub_self]
      rfl
    exact h'.honest.missing l hnext e he hl

/-- An equals sign in the place of a semicolon that was blamed. -/
theorem expectation_genuine_equals :
    RejectedAt [⟨.word (.keyword .syntaxKw), "syntax", ⟨0, 6⟩⟩, ⟨.punct .semicolon, ";", ⟨6, 7⟩⟩] 1
      [.punct .equals] ∧
    ∀ more, FaultlessBefore 2 (⟨.word (.keyword .syntaxKw), "syntax", ⟨0, 6⟩⟩ ::
      ⟨.punct .equals, "=", ⟨6, 7⟩⟩ :: more) := by
  have hrejected : RejectedAt [⟨.word (.keyword .syntaxKw), "syntax", ⟨0, 6⟩⟩,
      ⟨.punct .semicolon, ";", ⟨6, 7⟩⟩] 1 [.punct .equals] := by
    unfold RejectedAt
    decide +kernel
  exact ⟨hrejected, expectation_genuine hrejected (List.mem_singleton.2 rfl)
    (show Expectation.Describes (.punct .equals) _ from rfl)⟩

end File

end ProtoSchema
