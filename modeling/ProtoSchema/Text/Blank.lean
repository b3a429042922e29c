/-
  Blank characters and trimming. A character is blank when it has the Unicode property
  White_Space; core's `Char.isWhitespace` knows only four of those twenty-five.
-/

namespace ProtoSchema.Text

/-- The code points with the property White_Space, as inclusive ranges in increasing order. -/
def blankRanges : List (Nat × Nat) :=
  [(0x09, 0x0D), (0x20, 0x20), (0x85, 0x85), (0xA0, 0xA0), (0x1680, 0x1680),
   (0x2000, 0x200A), (0x2028, 0x2029), (0x202F, 0x202F), (0x205F, 0x205F), (0x3000, 0x3000)]

/-- Whether a number lies in one of the given inclusive ranges. -/
def inRanges (ranges : List (Nat × Nat)) (n : Nat) : Bool :=
  ranges.any fun (lo, hi) => lo ≤ n && n ≤ hi

/-- Whether a character is white space in the sense of Unicode. -/
def isBlank (c : Char) : Bool := inRanges blankRanges c.toNat

/-- The text without the longest run at its end whose characters all satisfy `p`. -/
def dropEndWhile (p : Char → Bool) (text : List Char) : List Char :=
  (text.reverse.dropWhile p).reverse

/-- The text without the blanks at its start. -/
def trimStart (text : List Char) : List Char := text.dropWhile isBlank

/-- The text without the blanks at either end. -/
def trim (text : List Char) : List Char := dropEndWhile isBlank (trimStart text)

/-- The lines of a text; a line ends at a newline, and the text after the last one is a line. -/
def lines : List Char → List (List Char)
  | [] => [[]]
  | c :: text =>
    if c = '\n' then [] :: lines text
    else match lines text with
      | [] => [[c]]
      | line :: others => (c :: line) :: others

/-- The lines put together again, a newline between any two. -/
def unlines : List (List Char) → List Char
  | [] => []
  | [line] => line
  | line :: others => line ++ '\n' :: unlines others

theorem lines_ne_nil (text : List Char) : lines text ≠ [] := by
  cases text with
  | nil => simp [lines]
  | cons c text =>
    rw [lines]
    split
    · simp
    · split <;> simp

/-- Splitting into lines loses nothing. -/
theorem unlines_lines (text : List Char) : unlines (lines text) = text := by
  induction text with
  | nil => rfl
  | cons c text ih =>
    have hne := lines_ne_nil text
    simp only [lines]
    split
    · next h =>
      cases hl : lines text with
      | nil => exact absurd hl hne
      | cons line others => rw [hl] at ih; simp [unlines, ih, h]
    · cases hl : lines text with
      | nil => exact absurd hl hne
      | cons line others =>
        rw [hl] at ih
        cases others with
        | nil => simpa [unlines] using ih
        | cons _ _ => simpa [unlines] using ih

end ProtoSchema.Text
