/-
  Runs of backslashes. The path of an import may be written with any number of backslashes where
  one is meant.
-/

namespace ProtoSchema.Text

/-- The text without the backslashes that another backslash follows, which leaves one of every
run. -/
def collapse : List Char → List Char
  | [] => []
  | c :: text =>
    if c = '\\' ∧ text.head? = some '\\' then collapse text else c :: collapse text

/-- A text with every run of backslashes made a single one. -/
def collapseBackslashes (text : String) : String := String.ofList (collapse text.toList)

/-- Collapsing keeps the first character. -/
theorem head?_collapse (text : List Char) : (collapse text).head? = text.head? := by
  induction text with
  | nil => rfl
  | cons c text ih =>
    rw [collapse]
    split
    · next h => rw [ih, h.1, h.2]; rfl
    · rfl

/-- What is collapsed stays as it is. -/
theorem collapse_collapse (text : List Char) : collapse (collapse text) = collapse text := by
  induction text with
  | nil => rfl
  | cons c text ih =>
    rw [collapse]
    split
    · exact ih
    · next h =>
      rw [collapse, head?_collapse, if_neg h, ih]

/-- Without two adjacent backslashes there is nothing to collapse. -/
theorem collapse_of_no_run {text : List Char} (h : ¬ ['\\', '\\'] <:+: text) :
    collapse text = text := by
  induction text with
  | nil => rfl
  | cons c text ih =>
    have htail : ¬ ['\\', '\\'] <:+: text := fun hrun => h (List.infix_cons hrun)
    have hpair : ¬ (c = '\\' ∧ text.head? = some '\\') := by
      rintro ⟨rfl, hhead⟩
      obtain ⟨others, rfl⟩ := List.head?_eq_some_iff.1 hhead
      exact h ⟨[], others, rfl⟩
    rw [collapse, if_neg hpair, ih htail]

end ProtoSchema.Text
