import Mathlib.Data.List.Basic
import ProtoSchema.Proofs.Blame
import ProtoSchema.Proofs.Courses.Termination

/-
  What a report stands for. The report after a match is that before it with a note for each lexeme
  that was missing on the way, those of abandoned alternatives among them. So it names the furthest
  of all these places, and what was missing there, each once and in order; and the report before a
  match decides neither what is matched nor what is missing (`run_misses`).
-/

namespace ProtoSchema

open Production

variable {α : Type}

/-! ## What notes add up to -/

/-- What is missing at the lexeme `index`, each once, in the order in which it is missed first. -/
def Miss.textsAt (misses : List Miss) (index : Nat) : List String :=
  ((misses.filter (·.index = index)).map (·.expected.text)).eraseDups

namespace Report

variable (r : Report) (misses : List Miss) (m : Miss)

/-- The words of a report. -/
def texts (r : Report) : List String := r.expected.map Expectation.text

theorem noteAll_concat :
    r.noteAll (misses ++ [m]) = (r.noteAll misses).note m.index m.expected :=
  r.noteAll_append misses [m]

/-- The place of a report is the furthest of all that are noted. -/
theorem furthest_noteAll :
    (r.noteAll misses).furthest = (misses.map Miss.index).foldl max r.furthest := by
  induction misses generalizing r with
  | nil => rfl
  | cons m misses ih =>
    rw [List.map_cons, List.foldl_cons, ← furthest_note r m.index m.expected]
    exact ih _

theorem le_furthest_noteAll : r.furthest ≤ (r.noteAll misses).furthest := by
  induction misses generalizing r with
  | nil => exact Nat.le_refl _
  | cons m misses ih =>
    have hnote := r.furthest_note m.index m.expected
    have hle := ih (r.note m.index m.expected)
    rw [hnote] at hle
    exact Nat.le_trans (Nat.le_max_left _ _) hle

theorem index_le_furthest_noteAll : ∀ m ∈ misses, m.index ≤ (r.noteAll misses).furthest := by
  induction misses using List.reverseRecOn with
  | nil => exact nofun
  | append_singleton misses m ih =>
    rw [noteAll_concat, furthest_note]
    refine List.forall_mem_append.2 ⟨fun m' hm' => ?_, List.forall_mem_singleton.2 ?_⟩
    · exact Nat.le_trans (ih m' hm') (Nat.le_max_left _ _)
    · exact Nat.le_max_right _ _

end Report

theorem eraseDups_concat (texts : List String) (text : String) :
    (texts ++ [text]).eraseDups =
      if text ∈ texts then texts.eraseDups else texts.eraseDups ++ [text] := by
  rw [List.eraseDups_append]
  split
  · next hmem => simp [List.removeAll, hmem]
  · next hnew => simp [List.removeAll, hnew, List.eraseDups_cons]

namespace Miss

theorem textsAt_concat_of_ne {misses : List Miss} {m : Miss} {index : Nat}
    (h : m.index ≠ index) : textsAt (misses ++ [m]) index = textsAt misses index := by
  simp [textsAt, h]

theorem textsAt_concat (misses : List Miss) (m : Miss) :
    textsAt (misses ++ [m]) m.index = if m.expected.text ∈ textsAt misses m.index
      then textsAt misses m.index else textsAt misses m.index ++ [m.expected.text] := by
  have hlast : [m].filter (fun m' => decide (m'.index = m.index)) = [m] := by simp
  rw [textsAt, List.filter_append, hlast, List.map_append, List.map_singleton, eraseDups_concat,
    textsAt]
  simp only [List.mem_eraseDups]

theorem textsAt_eq_nil {misses : List Miss} {index : Nat} (h : ∀ m ∈ misses, m.index < index) :
    textsAt misses index = [] := by
  have hnone : misses.filter (fun m => decide (m.index = index)) = [] := by
    rw [List.filter_eq_nil_iff]
    intro m hm
    have hlt := h m hm
    simp only [decide_eq_true_eq]
    omega
  rw [textsAt, hnone]
  rfl

end Miss

namespace Report

theorem texts_note (r : Report) (i : Nat) (e : Expectation) :
    (r.note i e).texts = if r.furthest < i then [e.text]
      else if i < r.furthest ∨ e.text ∈ r.texts then r.texts else r.texts ++ [e.text] := by
  have hmem : e.text ∈ r.texts ↔ e ∈ r.expected :=
    List.mem_map_of_injective Expectation.text_injective
  simp only [hmem, note]
  split
  · rfl
  · split
    · rfl
    · exact List.map_append

/-- What a report names is what is missing at its place. If this was the place before, it goes on
with what is new there. -/
theorem texts_noteAll (r : Report) (misses : List Miss) :
    (r.noteAll misses).texts =
      if r.furthest < (r.noteAll misses).furthest
      then Miss.textsAt misses (r.noteAll misses).furthest
      else r.texts ++ (Miss.textsAt misses (r.noteAll misses).furthest).filter (· ∉ r.texts) := by
  induction misses using List.reverseRecOn with
  | nil => exact ((if_neg (Nat.lt_irrefl _)).trans (List.append_nil _)).symm
  | append_singleton misses m ih =>
    have hle := r.le_furthest_noteAll misses
    rw [noteAll_concat, texts_note, furthest_note]
    generalize hs : r.noteAll misses = s at ih hle
    rcases Nat.lt_trichotomy m.index s.furthest with hlt | heq | hgt
    · -- The note is made before the place of the report and changes nothing.
      rw [if_neg (by omega), if_pos (.inl hlt), Nat.max_eq_left (by omega),
        Miss.textsAt_concat_of_ne (by omega)]
      exact ih
    · -- The note is made at the place of the report, and counts if it says something new.
      rw [if_neg (by omega), Nat.max_eq_left (by omega), ← heq, Miss.textsAt_concat]
      rw [← heq] at ih
      by_cases hfurther : r.furthest < m.index
      · rw [if_pos hfurther] at ih ⊢
        simp only [ih, Nat.lt_irrefl, false_or]
      · rw [if_neg hfurther] at ih ⊢
        have hmem : m.expected.text ∈ s.texts ↔
            m.expected.text ∈ r.texts ∨ m.expected.text ∈ Miss.textsAt misses m.index := by
          rw [ih, List.mem_append, List.mem_filter, decide_eq_true_eq]
          tauto
        simp only [Nat.lt_irrefl, false_or, hmem]
        by_cases hnew : m.expected.text ∈ Miss.textsAt misses m.index
        · rw [if_pos hnew, if_pos (.inr hnew), ih]
        · rw [if_neg hnew, List.filter_append, ← List.append_assoc, ← ih]
          by_cases hold : m.expected.text ∈ r.texts
          · rw [if_pos (.inl hold)]
            simp [hold]
          · rw [if_neg (not_or.2 ⟨hold, hnew⟩)]
            simp [hold]
    · -- The note is made further on than all the others.
      have hnone : Miss.textsAt misses m.index = [] := Miss.textsAt_eq_nil fun m' hm' => by
        have hm := r.index_le_furthest_noteAll misses m' hm'
        rw [hs] at hm
        omega
      rw [if_pos hgt, Nat.max_eq_right (by omega), if_pos (by omega), Miss.textsAt_concat, hnone]
      rfl

end Report

/-! ## What a match does to the report -/

/-- A match of a rule has a course that does not depend on the report before it: what is given, the
place where the match ends and the misses on the way. The report after the match names the furthest
of its place and those of the misses. If this is further on than its place was, it names what is
missing there, each once and in the order in which it was missed first, and otherwise it goes on
with what is new. What an abandoned alternative misses is not taken back. -/
theorem run_misses {p : Production α} (hp : p.Rule) {c : Cursor} {budget : Nat}
    (hbudget : c.rest.length < budget) :
    (∃ course, p.course? budget c = some course ∧ ∀ r, p.run c r = course.reply r ∧
      (p.run c r).report.furthest = (course.misses.map Miss.index).foldl max r.furthest ∧
      (p.run c r).report.texts =
        if r.furthest < (p.run c r).report.furthest
        then Miss.textsAt course.misses (p.run c r).report.furthest
        else r.texts ++
          (Miss.textsAt course.misses (p.run c r).report.furthest).filter (· ∉ r.texts)) ∧
    ∀ {β : Type} {q q' : Production β} {first course : Course β},
      q.course? budget c = some first → (q <|> q').course? budget c = some course →
      first.misses <+: course.misses := by
  constructor
  · obtain ⟨course, hcourse, hforetells⟩ := hp.advances.foretells_course? hbudget
    refine ⟨course, hcourse, fun r => ⟨hforetells.reply_eq r, ?_⟩⟩
    have hreport : (p.run c r).report = r.noteAll course.misses := by
      rw [hforetells.reply_eq, Course.reply]
      cases course.value <;> rfl
    rw [hreport]
    exact ⟨r.furthest_noteAll _, r.texts_noteAll _⟩
  · intro β q q' first course hfirst hcourse
    rcases course?_orElse hcourse with ⟨-, hcourse⟩ | ⟨first', second, hfirst', -, -, rfl⟩
    · obtain rfl := Option.some.inj (hfirst.symm.trans hcourse)
      exact List.prefix_refl _
    · obtain rfl := Option.some.inj (hfirst.symm.trans hfirst')
      exact List.prefix_append _ _

/-- Where neither numbers nor names stand, both are missing, and a report for the same place goes on
with them. -/
theorem run_misses_reserved : ∃ (tokens : List Lexeme) (course : Course ReservedItems),
    tokens.map (·.spelling) = [";"] ∧ tokens.length < 2 ∧
    reservedItems.course? 2 (.start tokens) = some course ∧
    course.misses = [⟨0, .integer⟩, ⟨0, .stringLiteral⟩] ∧
    (reservedItems.run (.start tokens) ⟨0, [.constant, .integer]⟩).report.texts =
      ["a constant", "an integer", "a string literal"] := by
  let tokens : List Lexeme := [⟨.punct .semicolon, ";", ⟨0, 1⟩⟩]
  have hbudget : (Cursor.start tokens).rest.length < 2 := by decide
  obtain ⟨⟨course, hcourse, hrun⟩, -⟩ := run_misses (.inl .reservedItems) hbudget
  obtain ⟨-, hfurthest, htexts⟩ := hrun ⟨0, [.constant, .integer]⟩
  have hmisses : (reservedItems.course? 2 (.start tokens)).map Course.misses =
      some [⟨0, .integer⟩, ⟨0, .stringLiteral⟩] := by decide +kernel
  rw [hcourse, Option.map_some, Option.some.injEq] at hmisses
  rw [hmisses] at hfurthest htexts
  rw [hfurthest] at htexts
  exact ⟨tokens, course, by decide, hbudget, hcourse, hmisses, htexts.trans (by decide +kernel)⟩

end ProtoSchema
