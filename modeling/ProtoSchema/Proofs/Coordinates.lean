import Mathlib
import ProtoSchema.Proofs.Checked.Parse

/-
  Lines and columns as coordinates. The line and the column of a place tell where it lies: behind
  all of the lines above it and behind the characters to its left (`ofOffset_liesAt`). Hence no two
  places of a source have the same coordinates, and of two places the later one comes later in the
  order of lines and columns (`ofOffset_coordinates`).
-/

namespace ProtoSchema.Text

namespace Position

/-- Whether a place comes before another one: on an earlier line, or further to the left on the same
line. -/
def Before (p q : Position) : Prop :=
  p.line < q.line ∨ p.line = q.line ∧ p.column < q.column

/-- The place lies at byte `offset` of the source. Of the source split at its newlines, `above` are
the lines above the place and `left` are the characters to the left of it on its own line; each line
above it takes one byte more than its characters, for the newline that ends it. -/
def LiesAt (source : List Char) (p : Position) (offset : Nat) : Prop :=
  ∃ above left right below, source.splitOn '\n' = above ++ (left ++ right) :: below ∧
    p.line = above.length + 1 ∧ p.column = left.length + 1 ∧
    (above.map fun line => byteLength line + 1).sum + byteLength left = offset

theorem before_or_eq_or_before (p q : Position) : p.Before q ∨ p = q ∨ q.Before p := by
  obtain ⟨line, column⟩ := p
  obtain ⟨line', column'⟩ := q
  simp only [Before, Position.mk.injEq]
  omega

end Position

/-! ## Splitting at newlines -/

theorem splitOn_newline_cons (text : List Char) :
    ('\n' :: text).splitOn '\n' = [] :: text.splitOn '\n' := by
  rw [List.splitOn_eq_splitOnP, List.splitOnP_cons_eq_if_modifyHead, if_pos (by decide)]
  rfl

theorem splitOn_cons_of_ne {c : Char} (hc : c ≠ '\n') (text : List Char) :
    (c :: text).splitOn '\n' = (text.splitOn '\n').modifyHead (c :: ·) := by
  rw [List.splitOn_eq_splitOnP, List.splitOnP_cons_eq_if_modifyHead, if_neg (by simpa using hc)]
  rfl

namespace Position

/-! ## Where a place lies -/

/-- What passing a text does to a place. Until the first newline the column goes on from where it
was, so the case of no line above is apart from the others. -/
theorem foldl_next_eq (p : Position) (text rest : List Char) :
    ∃ above left right below, (text ++ rest).splitOn '\n' = above ++ (left ++ right) :: below ∧
      (above.map fun line => byteLength line + 1).sum + byteLength left = byteLength text ∧
      text.foldl next p =
        ⟨p.line + above.length, (if above = [] then p.column else 1) + left.length⟩ := by
  induction text generalizing p with
  | nil =>
    obtain ⟨line, below, hlines⟩ := List.exists_cons_of_ne_nil (List.splitOn_ne_nil '\n' rest)
    exact ⟨[], [], line, below, hlines, rfl, rfl⟩
  | cons c text ih =>
    obtain ⟨above, left, right, below, hlines, hbytes, hplace⟩ := ih (p.next c)
    rw [List.cons_append, List.foldl_cons, hplace, byteLength_cons]
    unfold next
    by_cases hc : c = '\n'
    · -- The text behind the newline starts on a line of its own.
      refine ⟨[] :: above, left, right, below, ?_, ?_, ?_⟩
      · rw [hc, splitOn_newline_cons, hlines, List.cons_append]
      · have hsize : c.utf8Size = 1 := by rw [hc]; rfl
        simp only [List.map_cons, List.sum_cons, byteLength_nil]
        omega
      · rw [if_pos hc, List.length_cons, if_neg (List.cons_ne_nil _ _), ite_self]
        dsimp only
        rw [Nat.add_assoc, Nat.add_comm 1]
    · rw [if_neg hc, splitOn_cons_of_ne hc, hlines]
      cases above with
      | nil =>
        refine ⟨[], c :: left, right, below, rfl, ?_, ?_⟩
        · simp only [List.map_nil, List.sum_nil, byteLength_cons] at hbytes ⊢
          omega
        · rw [if_pos rfl, if_pos rfl, List.length_cons]
          dsimp only
          rw [Nat.add_assoc, Nat.add_comm 1]
      | cons line above =>
        refine ⟨(c :: line) :: above, left, right, below, rfl, ?_, ?_⟩
        · simp only [List.map_cons, List.sum_cons, byteLength_cons] at hbytes ⊢
          omega
        · rw [if_neg (List.cons_ne_nil _ _), if_neg (List.cons_ne_nil _ _)]
          rfl

/-- The line and column of an offset lie at this offset. -/
theorem ofOffset_liesAt {source : List Char} {offset : Nat}
    (h : Checked.Boundary source offset) : LiesAt source (ofOffset source offset) offset := by
  obtain ⟨before, rest, rfl, rfl⟩ := h
  obtain ⟨above, left, right, below, hlines, hbytes, hplace⟩ := foldl_next_eq first before rest
  rw [ofOffset_byteLength]
  unfold after
  rw [hplace, show first.column = 1 from rfl, ite_self]
  exact ⟨above, left, right, below, hlines, Nat.add_comm _ _, Nat.add_comm _ _, hbytes⟩

/-! ## The order of places -/

variable {source : List Char} {p q : Position} {a b : Nat}

/-- A place has one offset only. -/
theorem LiesAt.unique (ha : LiesAt source p a) (hb : LiesAt source p b) : a = b := by
  obtain ⟨above, left, right, below, hlines, hline, hcolumn, rfl⟩ := ha
  obtain ⟨above', left', right', below', hlines', hline', hcolumn', rfl⟩ := hb
  rw [hlines] at hlines'
  obtain ⟨rfl, hrest⟩ := List.append_inj hlines' (by omega)
  obtain ⟨rfl, -⟩ := List.append_inj (List.cons.inj hrest).1 (by omega)
  rfl

/-- A place that comes before another one lies at a smaller offset. -/
theorem LiesAt.lt_of_before (ha : LiesAt source p a) (hb : LiesAt source q b) (h : p.Before q) :
    a < b := by
  obtain ⟨above, left, right, below, hlines, hline, hcolumn, rfl⟩ := ha
  obtain ⟨above', left', right', below', hlines', hline', hcolumn', rfl⟩ := hb
  rw [hlines] at hlines'
  rcases h with h | ⟨heq, h⟩
  · -- The line of the first place is one of those above the second.
    obtain ⟨between, rfl, hrest⟩ : ∃ between, above' = above ++ between ∧
        (left ++ right) :: below = between ++ (left' ++ right') :: below' := by
      rcases List.append_eq_append_iff.1 hlines' with
        ⟨between, habove, hrest⟩ | ⟨between, habove, -⟩
      · exact ⟨between, habove, hrest⟩
      · have hlength := congrArg List.length habove
        rw [List.length_append] at hlength
        omega
    cases between with
    | nil =>
      rw [List.append_nil] at hline'
      omega
    | cons line between =>
      rw [← (List.cons.inj hrest).1, List.map_append, List.sum_append, List.map_cons,
        List.sum_cons, byteLength_append]
      omega
  · obtain ⟨rfl, hrest⟩ := List.append_inj hlines' (by omega)
    obtain ⟨between, rfl⟩ : left <+: left' := by
      refine List.prefix_of_prefix_length_le ⟨right, (List.cons.inj hrest).1⟩ ⟨right', rfl⟩ ?_
      omega
    have hne : between ≠ [] := by
      rintro rfl
      rw [List.append_nil] at hcolumn'
      omega
    have hpos := Checked.byteLength_pos hne
    rw [byteLength_append]
    omega

theorem LiesAt.lt_iff_before (ha : LiesAt source p a) (hb : LiesAt source q b) :
    a < b ↔ p.Before q := by
  constructor
  · intro hlt
    rcases before_or_eq_or_before p q with h | rfl | h
    · exact h
    · have heq := ha.unique hb
      omega
    · have hgt := hb.lt_of_before ha h
      omega
  · exact ha.lt_of_before hb

/-- Lines and columns are coordinates of the places between the characters of a source. The line is
found by counting newlines and the column by going back to the last of them, of which nothing fails;
together they tell where the place lies. Two places with the same coordinates are one, and
coordinates are in order if and only if the places are. -/
theorem ofOffset_coordinates (ha : Checked.Boundary source a) :
    Checked.position? source a = some (ofOffset source a) ∧
      LiesAt source (ofOffset source a) a ∧
      ∀ b, Checked.Boundary source b →
        (ofOffset source a = ofOffset source b → a = b) ∧
          (a < b ↔ (ofOffset source a).Before (ofOffset source b)) := by
  have hlies := ofOffset_liesAt ha
  refine ⟨Checked.position?_eq ha, hlies, fun b hb => ⟨fun heq => ?_, ?_⟩⟩
  · apply hlies.unique
    rw [heq]
    exact ofOffset_liesAt hb
  · exact hlies.lt_iff_before (ofOffset_liesAt hb)

/-- A place behind an empty line, with characters of one to three bytes before it, and the place at
which the empty line starts. -/
theorem ofOffset_coordinates_multibyte : ∃ source : List Char,
    source = "\u00e9\u000d\n\n\u65e5x".toList ∧ Checked.Boundary source 4 ∧
      Checked.Boundary source 8 ∧ LiesAt source ⟨2, 1⟩ 4 ∧ ofOffset source 8 = ⟨3, 2⟩ ∧
      Before ⟨2, 1⟩ ⟨3, 2⟩ := by
  have hfour : Checked.Boundary "\u00e9\u000d\n\n\u65e5x".toList 4 :=
    ⟨"\u00e9\u000d\n".toList, "\n\u65e5x".toList, by decide, by decide⟩
  have height : Checked.Boundary "\u00e9\u000d\n\n\u65e5x".toList 8 :=
    ⟨"\u00e9\u000d\n\n\u65e5".toList, ['x'], by decide, by decide⟩
  have hplace : ofOffset "\u00e9\u000d\n\n\u65e5x".toList 4 = ⟨2, 1⟩ := by decide
  have hplace' : ofOffset "\u00e9\u000d\n\n\u65e5x".toList 8 = ⟨3, 2⟩ := by decide
  obtain ⟨-, hlies, horder⟩ := ofOffset_coordinates hfour
  have hbefore := (horder 8 height).2.1 (by decide)
  rw [hplace] at hlies hbefore
  rw [hplace'] at hbefore
  exact ⟨_, rfl, hfour, height, hlies, hplace', hbefore⟩

end Position

end ProtoSchema.Text
