import Mathlib.Data.List.Basic
import ProtoSchema.Proofs.Checked.Literal

/-
  Layout behind a token. No escape, and no pattern but that of a line comment, goes on over a layout
  character, and none at all goes on over a newline. So before such a character a text is read as if
  it ended there (`longest?_layout`, `longest?_newline`, `escape_layout`).
-/

namespace ProtoSchema

variable {p : Char → Bool} {d : Char}

/-! ## Layout characters -/

theorem layout_cases (hd : isLayout d = true) :
    d = '\t' ∨ d = '\n' ∨ d = '\x0b' ∨ d = '\x0c' ∨ d = '\r' ∨ d = ' ' := by
  simpa [isLayout, or_assoc] using hd

theorem isWordChar_layout (hd : isLayout d = true) : isWordChar d = false := by
  rcases layout_cases hd with rfl | rfl | rfl | rfl | rfl | rfl <;> rfl

theorem isDigit_layout (hd : isLayout d = true) : d.isDigit = false := by
  rcases layout_cases hd with rfl | rfl | rfl | rfl | rfl | rfl <;> rfl

theorem isHexDigit_layout (hd : isLayout d = true) : isHexDigit d = false := by
  rcases layout_cases hd with rfl | rfl | rfl | rfl | rfl | rfl <;> rfl

theorem isOctalDigit_layout (hd : isLayout d = true) : isOctalDigit d = false := by
  rcases layout_cases hd with rfl | rfl | rfl | rfl | rfl | rfl <;> rfl

/-! ## Runs of characters -/

theorem takeWhile_stop (hp : p d = false) (a x : List Char) :
    (a ++ d :: x).takeWhile p = a.takeWhile p := by
  rw [List.takeWhile_append]
  split
  · next h =>
    rw [List.takeWhile_cons_of_neg (by rw [hp]; exact Bool.false_ne_true), List.append_nil]
    exact ((List.takeWhile_prefix p).eq_of_length h).symm
  · rfl

theorem take_takeWhile_stop (hp : p d = false) (k : Nat) (a x : List Char) :
    ((a ++ d :: x).take k).takeWhile p = (a.take k).takeWhile p := by
  rw [List.take_append]
  cases k - a.length with
  | zero => rw [List.take_zero, List.append_nil]
  | succ m => rw [List.take_succ_cons, takeWhile_stop hp]

theorem runLength_stop (hp : p d = false) (a x : List Char) :
    runLength p (a ++ d :: x) = runLength p a := by
  rw [runLength, takeWhile_stop hp, runLength]

/-! ## Patterns -/

theorem signLength_layout (hd : isLayout d = true) (a x : List Char) :
    signLength (a ++ d :: x) = signLength a := by
  cases a with
  | nil => rcases layout_cases hd with rfl | rfl | rfl | rfl | rfl | rfl <;> rfl
  | cons c a =>
    by_cases hc : c = '-'
    · rw [hc]
      rfl
    · simp [signLength, hc]

theorem signLength_le (a : List Char) : signLength a ≤ a.length := by
  unfold signLength
  split
  · exact Nat.succ_le_succ (Nat.zero_le _)
  · exact Nat.zero_le _

theorem wordLength_layout (hd : isLayout d = true) (a x : List Char) :
    wordLength (a ++ d :: x) = wordLength a := by
  cases a with
  | nil => rcases layout_cases hd with rfl | rfl | rfl | rfl | rfl | rfl <;> rfl
  | cons c a =>
    change (if isWordStart c then runLength isWordChar (a ++ d :: x) + 1 else 0) = _
    rw [runLength_stop (isWordChar_layout hd)]
    rfl

theorem integerLength_layout (hd : isLayout d = true) (a x : List Char) :
    integerLength (a ++ d :: x) = integerLength a := by
  unfold integerLength
  dsimp only
  rw [signLength_layout hd, List.drop_append_of_le_length (signLength_le a),
    runLength_stop (isDigit_layout hd)]

theorem hexMagnitudeLength_layout (hd : isLayout d = true) (a x : List Char) :
    hexMagnitudeLength (a ++ d :: x) = hexMagnitudeLength a := by
  match a with
  | [] =>
    cases x with
    | nil => rcases layout_cases hd with rfl | rfl | rfl | rfl | rfl | rfl <;> rfl
    | cons y x => rcases layout_cases hd with rfl | rfl | rfl | rfl | rfl | rfl <;> rfl
  | [c] =>
    by_cases hc : c = '0'
    · subst hc
      rcases layout_cases hd with rfl | rfl | rfl | rfl | rfl | rfl <;> rfl
    · simp [hexMagnitudeLength, hc]
  | c :: y :: a =>
    by_cases hc : c = '0'
    · rw [hc]
      simp only [List.cons_append, hexMagnitudeLength, runLength_stop (isHexDigit_layout hd)]
    · simp [hexMagnitudeLength, hc]

theorem hexLength_layout (hd : isLayout d = true) (a x : List Char) :
    hexLength (a ++ d :: x) = hexLength a := by
  unfold hexLength
  dsimp only
  rw [signLength_layout hd, List.drop_append_of_le_length (signLength_le a),
    hexMagnitudeLength_layout hd]

theorem exponentLength_layout (hd : isLayout d = true) (a x : List Char) :
    exponentLength (a ++ d :: x) = exponentLength a := by
  match a with
  | [] =>
    have he : ¬(d = 'e' ∨ d = 'E') := by
      rcases layout_cases hd with rfl | rfl | rfl | rfl | rfl | rfl <;> decide
    simp [exponentLength, he]
  | [e] =>
    have hsign : d ≠ '+' ∧ d ≠ '-' := by
      rcases layout_cases hd with rfl | rfl | rfl | rfl | rfl | rfl <;> decide
    simp [exponentLength, runLength, hsign.1, hsign.2, isDigit_layout hd]
  | e :: c :: a =>
    by_cases hc : c = '+' ∨ c = '-'
    · rcases hc with rfl | rfl <;>
        simp only [List.cons_append, exponentLength, List.drop_succ_cons, List.drop_zero,
          runLength_stop (isDigit_layout hd)]
    · rw [not_or] at hc
      have hrun : runLength Char.isDigit (c :: (a ++ d :: x)) = runLength Char.isDigit (c :: a) :=
        runLength_stop (isDigit_layout hd) (c :: a) x
      simp [exponentLength, hc.1, hc.2, hrun]

theorem fractionLength_layout (hd : isLayout d = true) (a x : List Char) :
    fractionLength (a ++ d :: x) = fractionLength a := by
  cases a with
  | nil => rcases layout_cases hd with rfl | rfl | rfl | rfl | rfl | rfl <;> rfl
  | cons c a =>
    by_cases hc : c = '.'
    · subst hc
      simp only [List.cons_append, fractionLength, runLength_stop (isDigit_layout hd),
        List.drop_append_of_le_length (runLength_le _ a), exponentLength_layout hd]
    · simp [fractionLength, hc]

theorem floatLength_layout (hd : isLayout d = true) (a x : List Char) :
    floatLength (a ++ d :: x) = floatLength a := by
  have hwhole := runLength_le Char.isDigit (a.drop (signLength a))
  have hsign := signLength_le a
  rw [List.length_drop] at hwhole
  unfold floatLength
  dsimp only
  rw [signLength_layout hd, List.drop_append_of_le_length hsign,
    runLength_stop (isDigit_layout hd), List.drop_append_of_le_length (by omega),
    fractionLength_layout hd]

theorem blockOpeningLength_layout (hd : isLayout d = true) (a x : List Char) :
    blockOpeningLength (a ++ d :: x) = blockOpeningLength a := by
  match a with
  | [] =>
    cases x with
    | nil => rcases layout_cases hd with rfl | rfl | rfl | rfl | rfl | rfl <;> rfl
    | cons y x => rcases layout_cases hd with rfl | rfl | rfl | rfl | rfl | rfl <;> rfl
  | [c] =>
    by_cases hc : c = '/'
    · subst hc
      rcases layout_cases hd with rfl | rfl | rfl | rfl | rfl | rfl <;> rfl
    · simp [blockOpeningLength, hc]
  | c :: y :: a =>
    by_cases hcd : c = '/' ∧ y = '*'
    · rw [hcd.1, hcd.2]
      rfl
    · simp only [List.cons_append, blockOpeningLength]
      split
      · next heq => cases heq; exact absurd ⟨rfl, rfl⟩ hcd
      · split
        · next heq => cases heq; exact absurd ⟨rfl, rfl⟩ hcd
        · rfl

theorem lineCommentLength_newline (a x : List Char) :
    lineCommentLength (a ++ '\n' :: x) = lineCommentLength a := by
  match a with
  | [] => rfl
  | [c] =>
    by_cases hc : c = '/'
    · rw [hc]
      rfl
    · simp [lineCommentLength, hc]
  | c :: d :: a =>
    by_cases hcd : c = '/' ∧ d = '/'
    · rw [hcd.1, hcd.2]
      simp only [List.cons_append, lineCommentLength,
        runLength_stop (p := (· != '\n')) (d := '\n') rfl]
    · simp only [List.cons_append, lineCommentLength]
      split
      · next heq => cases heq; exact absurd ⟨rfl, rfl⟩ hcd
      · split
        · next heq => cases heq; exact absurd ⟨rfl, rfl⟩ hcd
        · rfl

theorem lineCommentLength_of_no_slashes {a : List Char} (h : ¬['/', '/'] <+: a) :
    lineCommentLength a = 0 := by
  unfold lineCommentLength
  split
  · next text => exact absurd ⟨text, rfl⟩ h
  · rfl

theorem lineCommentLength_layout (hd : isLayout d = true) {a : List Char} (x : List Char)
    (h : ¬['/', '/'] <+: a) : lineCommentLength (a ++ d :: x) = lineCommentLength a := by
  have hslash : '/' ≠ d := by
    rintro rfl
    cases hd
  rw [lineCommentLength_of_no_slashes h, lineCommentLength_of_no_slashes]
  intro h'
  match a with
  | [] => exact hslash (List.cons_prefix_cons.1 h').1
  | [c] => exact hslash (List.cons_prefix_cons.1 (List.cons_prefix_cons.1 h').2).1
  | c :: e :: a =>
    obtain ⟨hc, h'⟩ := List.cons_prefix_cons.1 h'
    exact h (List.cons_prefix_cons.2 ⟨hc, List.cons_prefix_cons.2
      ⟨(List.cons_prefix_cons.1 h').1, List.nil_prefix⟩⟩)

theorem blockOpeningLength_of_no_opening {a : List Char} (h : ¬['/', '*'] <+: a) :
    blockOpeningLength a = 0 := by
  unfold blockOpeningLength
  split
  · next text => exact absurd ⟨text, rfl⟩ h
  · rfl

/-- What a pattern other than that of a line comment matches ends before the layout behind it. -/
theorem length_layout (hd : isLayout d = true) {p : Pattern} (hp : p ≠ .lineComment)
    (a x : List Char) : p.length (a ++ d :: x) = p.length a := by
  cases p with
  | word => exact wordLength_layout hd a x
  | integer => exact integerLength_layout hd a x
  | hexInteger => exact hexLength_layout hd a x
  | float => exact floatLength_layout hd a x
  | quote =>
    cases a with
    | nil => rcases layout_cases hd with rfl | rfl | rfl | rfl | rfl | rfl <;> rfl
    | cons c a => rfl
  | punct p =>
    cases a with
    | nil => rcases layout_cases hd with rfl | rfl | rfl | rfl | rfl | rfl <;> cases p <;> rfl
    | cons c a => rfl
  | lineComment => exact absurd rfl hp
  | blockOpening => exact blockOpeningLength_layout hd a x

theorem longestOf_congr {a b : List Char} {patterns : List Pattern}
    (h : ∀ p ∈ patterns, p.length a = p.length b) :
    Pattern.longestOf a patterns = Pattern.longestOf b patterns := by
  induction patterns with
  | nil => rfl
  | cons p patterns ih =>
    obtain ⟨hp, hothers⟩ := List.forall_mem_cons.1 h
    simp only [Pattern.longestOf, ih hothers, hp]

/-- A text that does not start with a line comment is read as if it ended before the layout. -/
theorem longest?_layout (hd : isLayout d = true) {a : List Char} (x : List Char)
    (ha : lineCommentLength (a ++ d :: x) = lineCommentLength a) :
    Pattern.longest? (a ++ d :: x) = Pattern.longest? a := by
  refine longestOf_congr fun p _ => ?_
  by_cases hp : p = .lineComment
  · rw [hp]
    exact ha
  · exact length_layout hd hp a x

theorem longest?_newline (a x : List Char) :
    Pattern.longest? (a ++ '\n' :: x) = Pattern.longest? a :=
  longest?_layout rfl x (lineCommentLength_newline a x)

/-! ## Escapes and strings -/

theorem escape_layout (hd : isLayout d = true) (a x : List Char) :
    Escape.read (a ++ d :: x) = Escape.read a := by
  cases a with
  | nil => rcases layout_cases hd with rfl | rfl | rfl | rfl | rfl | rfl <;> rfl
  | cons c a =>
    have hoctal : Escape.octalByte (c :: (a ++ d :: x)) = Escape.octalByte (c :: a) := by
      unfold Escape.octalByte
      dsimp only
      rw [← List.cons_append, take_takeWhile_stop (isOctalDigit_layout hd)]
    simp only [List.cons_append, Escape.read, Escape.hexByte, Escape.codePoint, hoctal,
      take_takeWhile_stop (isHexDigit_layout hd)]

/-- The characters of an escape stand before the end of the line. -/
theorem newline_notMem_escape {text : List Char} {n : Nat}
    (h : Checked.Spans (Escape.read text) n) : '\n' ∉ text.take n := by
  by_cases hmem : '\n' ∈ text
  · obtain ⟨a, x, rfl, ha⟩ := List.eq_append_cons_of_mem hmem
    rw [escape_layout rfl] at h
    obtain ⟨form, hform⟩ := Checked.EscapeForm.of?_of_spans h
    rw [List.take_append_of_le_length (Checked.EscapeForm.reads_of_of? hform).length_le]
    exact fun hn => ha (List.mem_of_mem_take hn)
  · exact fun hn => hmem (List.mem_of_mem_take hn)

end ProtoSchema
