import ProtoSchema.Token.Pattern

/-
  The pattern that reaches furthest. A pattern whose match is longer than all others is the one that
  a token is read by (`longest?_of_lt`), and only patterns that may start with the first character
  of a text match any of it (`length_of_not_starts`).
-/

namespace ProtoSchema.Pattern

theorem mem_all (p : Pattern) : p ∈ all := by
  cases p with
  | punct p => exact List.mem_append_right _ (List.mem_map_of_mem (Punct.mem_all p))
  | _ => decide

theorem longestOf_of_lt {text : List Char} {p : Pattern} {patterns : List Pattern}
    (hp : p ∈ patterns) (hlt : ∀ q, q ≠ p → q.length text < p.length text)
    (hpos : 0 < p.length text) : longestOf text patterns = some (p, p.length text) := by
  induction patterns with
  | nil => cases hp
  | cons q patterns ih =>
    rw [longestOf]
    by_cases hq : q = p
    · subst hq
      cases hbest : longestOf text patterns with
      | none => exact if_pos hpos
      | some best =>
        obtain ⟨r, n⟩ := best
        obtain ⟨-, rfl, -, -⟩ := longestOf_eq_some hbest
        refine if_pos ?_
        by_cases hr : r = q
        · subst hr
          exact Nat.le_refl _
        · exact Nat.le_of_lt (hlt r hr)
    · rw [ih (List.mem_of_ne_of_mem (Ne.symm hq) hp)]
      exact if_neg (Nat.not_le.2 (hlt q hq))

/-- The pattern that matches more than any other. -/
theorem longest?_of_lt {text : List Char} {p : Pattern} {n : Nat} (hn : p.length text = n)
    (hpos : 0 < n) (hlt : ∀ q, q ≠ p → q.length text < n) : longest? text = some (p, n) := by
  subst hn
  exact longestOf_of_lt p.mem_all hlt hpos

/-- Whether a match of the pattern may start with the character. -/
def starts : Pattern → Char → Bool
  | word, c => isWordStart c
  | integer, c => c == '-' || c.isDigit
  | hexInteger, c => c == '-' || c == '0'
  | float, c => c == '-' || c.isDigit || c == '.'
  | quote, c => c == '"' || c == '\''
  | lineComment, c | blockOpening, c => c == '/'
  | punct p, c => c == p.char

theorem signLength_of_ne {c : Char} (hc : c ≠ '-') (text : List Char) :
    signLength (c :: text) = 0 := by
  simp [signLength, hc]

theorem runLength_of_neg {p : Char → Bool} {c : Char} (hc : p c = false) (text : List Char) :
    runLength p (c :: text) = 0 := by
  rw [runLength, List.takeWhile_cons_of_neg (by simp [hc])]
  rfl

/-- A pattern matches nothing of a text that it may not start with. -/
theorem length_of_not_starts {p : Pattern} {c : Char} (h : p.starts c = false)
    (text : List Char) : p.length (c :: text) = 0 := by
  cases p with
  | word => exact if_neg (Bool.eq_false_iff.1 h)
  | integer =>
    simp only [starts, Bool.or_eq_false_iff, beq_eq_false_iff_ne] at h
    simp [length, integerLength, signLength_of_ne h.1, runLength_of_neg h.2]
  | hexInteger =>
    simp only [starts, Bool.or_eq_false_iff, beq_eq_false_iff_ne] at h
    simp [length, hexLength, signLength_of_ne h.1, hexMagnitudeLength, h.2]
  | float =>
    simp only [starts, Bool.or_eq_false_iff, beq_eq_false_iff_ne] at h
    simp [length, floatLength, signLength_of_ne h.1.1, runLength_of_neg h.1.2, fractionLength, h.2]
  | quote =>
    simp only [starts, Bool.or_eq_false_iff, beq_eq_false_iff_ne] at h
    exact if_neg (not_or.2 h)
  | lineComment =>
    rw [starts, beq_eq_false_iff_ne] at h
    simp [length, lineCommentLength, h]
  | blockOpening =>
    rw [starts, beq_eq_false_iff_ne] at h
    simp [length, blockOpeningLength, h]
  | punct p =>
    rw [starts, beq_eq_false_iff_ne] at h
    exact if_neg h

/-- The only pattern that may start with the first character of a text. -/
theorem longest?_of_starts {p : Pattern} {c : Char} (hothers : ∀ q, q.starts c = true → q = p)
    {text : List Char} {n : Nat} (hn : p.length (c :: text) = n) (hpos : 0 < n) :
    longest? (c :: text) = some (p, n) := by
  refine longest?_of_lt hn hpos fun q hq => ?_
  rw [length_of_not_starts (Bool.eq_false_iff.2 (mt (hothers q) hq))]
  exact hpos

end ProtoSchema.Pattern
