import ProtoSchema.Text.Position

/-
  Parts of a text by byte offsets. Cutting a text at a byte may fail: the byte has to lie within the
  text and between two characters. `slice?_eq_some`: what is between two places is there exactly
  when the text is put together of what stands before the first, what is between them and what
  stands after the second.
-/

namespace ProtoSchema.Checked

/-- The text without its first `n` bytes, if these are whole characters of it. -/
def dropBytes? : List Char → Nat → Option (List Char)
  | text, 0 => some text
  | [], _ + 1 => none
  | c :: text, n + 1 =>
    if c.utf8Size ≤ n + 1 then dropBytes? text (n + 1 - c.utf8Size) else none

/-- The first `n` bytes of a text, if these are whole characters of it. -/
def takeBytes? : List Char → Nat → Option (List Char)
  | _, 0 => some []
  | [], _ + 1 => none
  | c :: text, n + 1 =>
    if c.utf8Size ≤ n + 1 then (takeBytes? text (n + 1 - c.utf8Size)).map (c :: ·) else none

/-- The part of a text between two places, if both lie between characters of it and the second one
is not before the first. -/
def slice? (text : List Char) (s : Span) : Option (List Char) :=
  if s.start ≤ s.stop then (dropBytes? text s.start).bind (takeBytes? · s.length) else none

/-- The place `n` bytes after `place`, if both lie between characters of the text or at its ends. -/
def advance? (text : List Char) (place n : Nat) : Option Nat :=
  (dropBytes? text (place + n)).map fun _ => place + n

theorem dropBytes?_zero (text : List Char) : dropBytes? text 0 = some text := by
  cases text <;> rfl

theorem takeBytes?_zero (text : List Char) : takeBytes? text 0 = some [] := by
  cases text <;> rfl

theorem eq_nil_of_byteLength_eq_zero {text : List Char} (h : 0 = byteLength text) : text = [] := by
  cases text with
  | nil => rfl
  | cons c text =>
    have hpos := c.utf8Size_pos
    rw [byteLength_cons] at h
    omega

theorem dropBytes?_eq_some {text rest : List Char} {n : Nat} :
    dropBytes? text n = some rest ↔ ∃ before, text = before ++ rest ∧ n = byteLength before := by
  induction text generalizing n with
  | nil =>
    cases n with
    | zero =>
      constructor
      · intro h
        exact ⟨[], Option.some.inj h, rfl⟩
      · rintro ⟨before, htext, -⟩
        rw [(List.append_eq_nil_iff.1 htext.symm).2]
        rfl
    | succ n => simp [dropBytes?]
  | cons c text ih =>
    cases n with
    | zero =>
      rw [dropBytes?_zero]
      constructor
      · intro h
        exact ⟨[], Option.some.inj h, rfl⟩
      · rintro ⟨before, htext, hn⟩
        rw [eq_nil_of_byteLength_eq_zero hn] at htext
        rw [htext, List.nil_append]
    | succ n =>
      rw [dropBytes?]
      constructor
      · intro h
        split at h
        · obtain ⟨before, rfl, hn⟩ := ih.1 h
          exact ⟨c :: before, rfl, by rw [byteLength_cons]; omega⟩
        · cases h
      · rintro ⟨before, htext, hn⟩
        cases before with
        | nil => cases hn
        | cons d before =>
          obtain ⟨rfl, rfl⟩ := List.cons.inj htext
          rw [byteLength_cons] at hn
          rw [if_pos (by omega)]
          exact ih.2 ⟨before, rfl, by omega⟩

theorem takeBytes?_eq_some {text first : List Char} {n : Nat} :
    takeBytes? text n = some first ↔ ∃ rest, text = first ++ rest ∧ n = byteLength first := by
  induction text generalizing n first with
  | nil =>
    cases n with
    | zero => simp +contextual [takeBytes?, eq_comm]
    | succ n => simp +contextual [takeBytes?, eq_comm]
  | cons c text ih =>
    cases n with
    | zero =>
      rw [takeBytes?_zero]
      constructor
      · intro h
        cases h
        exact ⟨c :: text, rfl, rfl⟩
      · rintro ⟨rest, htext, hn⟩
        rw [eq_nil_of_byteLength_eq_zero hn]
    | succ n =>
      rw [takeBytes?]
      constructor
      · intro h
        split at h
        · obtain ⟨others, hothers, rfl⟩ := Option.map_eq_some_iff.1 h
          obtain ⟨rest, rfl, hn⟩ := ih.1 hothers
          exact ⟨rest, rfl, by rw [byteLength_cons]; omega⟩
        · cases h
      · rintro ⟨rest, htext, hn⟩
        cases first with
        | nil => cases hn
        | cons d first =>
          obtain ⟨rfl, rfl⟩ := List.cons.inj htext
          rw [byteLength_cons] at hn
          rw [if_pos (by omega), ih.2 ⟨rest, rfl, by omega⟩]
          rfl

/-- What lies between two places of a text, if there is such a part of it. -/
theorem slice?_eq_some {text part : List Char} {s : Span} :
    slice? text s = some part ↔ ∃ before after, text = before ++ part ++ after ∧
      s.start = byteLength before ∧ s.stop = byteLength before + byteLength part := by
  unfold slice?
  constructor
  · intro h
    split at h
    · next hle =>
      obtain ⟨rest, hrest, hpart⟩ := Option.bind_eq_some_iff.1 h
      obtain ⟨before, rfl, hstart⟩ := dropBytes?_eq_some.1 hrest
      obtain ⟨after, rfl, hlength⟩ := takeBytes?_eq_some.1 hpart
      refine ⟨before, after, (List.append_assoc ..).symm, hstart, ?_⟩
      rw [Span.length] at hlength
      omega
    · cases h
  · rintro ⟨before, after, rfl, hstart, hstop⟩
    have hdrop : dropBytes? (before ++ part ++ after) s.start = some (part ++ after) :=
      dropBytes?_eq_some.2 ⟨before, List.append_assoc .., hstart⟩
    rw [if_pos (by omega), hdrop]
    exact takeBytes?_eq_some.2 ⟨after, rfl, by rw [Span.length]; omega⟩

theorem dropBytes?_append (before rest : List Char) :
    dropBytes? (before ++ rest) (byteLength before) = some rest :=
  dropBytes?_eq_some.2 ⟨before, rfl, rfl⟩

theorem slice?_append (before part after : List Char) :
    slice? (before ++ (part ++ after)) ⟨byteLength before, byteLength before + byteLength part⟩ =
      some part :=
  slice?_eq_some.2 ⟨before, after, (List.append_assoc ..).symm, rfl, rfl⟩

/-- The part of a text before a place. -/
theorem slice?_start (before rest : List Char) :
    slice? (before ++ rest) ⟨0, byteLength before⟩ = some before :=
  slice?_eq_some.2 ⟨[], rest, rfl, rfl, by rw [byteLength_nil, Nat.zero_add]⟩

theorem advance?_append (before part after : List Char) :
    advance? (before ++ (part ++ after)) (byteLength before) (byteLength part) =
      some (byteLength before + byteLength part) := by
  rw [advance?, ← byteLength_append, ← List.append_assoc, dropBytes?_append]
  rfl

end ProtoSchema.Checked
