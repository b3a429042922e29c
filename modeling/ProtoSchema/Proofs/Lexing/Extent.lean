import ProtoSchema.Proofs.Checked.Parse
import ProtoSchema.Proofs.Lexing.Separation

/-
  How far tokens and faults extend. A token ends within the text that it is read from
  (`Reading.length_le`). A fault covers a part of the piece that it is found in, which is never
  empty and which, if the fault may be joined with others, holds no newline
  (`covers_of_mem_first`).
-/

namespace ProtoSchema

/-! ## How far a reading goes -/

theorem hexMagnitudeLength_le (text : List Char) : hexMagnitudeLength text ≤ text.length := by
  unfold hexMagnitudeLength
  split
  · next x text =>
    have hdigits := runLength_le isHexDigit text
    dsimp only
    split
    · rw [List.length_cons, List.length_cons]
      omega
    · exact Nat.zero_le _
  · exact Nat.zero_le _

theorem exponentLength_le (text : List Char) : exponentLength text ≤ text.length := by
  cases text with
  | nil => exact Nat.le_refl _
  | cons e text =>
    unfold exponentLength
    dsimp only
    split
    · next tail =>
      have hdigits := runLength_le Char.isDigit tail
      rw [List.drop_succ_cons, List.drop_zero, List.length_cons, List.length_cons]
      split <;> omega
    · next tail =>
      have hdigits := runLength_le Char.isDigit tail
      rw [List.drop_succ_cons, List.drop_zero, List.length_cons, List.length_cons]
      split <;> omega
    · have hdigits := runLength_le Char.isDigit text
      rw [List.drop_zero, List.length_cons]
      split <;> omega

theorem fractionLength_le (text : List Char) : fractionLength text ≤ text.length := by
  unfold fractionLength
  split
  · next text =>
    have hdigits := runLength_le Char.isDigit text
    have hexponent := exponentLength_le (text.drop (runLength Char.isDigit text))
    rw [List.length_drop] at hexponent
    dsimp only
    split
    · exact Nat.zero_le _
    · rw [List.length_cons]
      omega
  · exact Nat.zero_le _

/-- No pattern matches more than there is. -/
theorem Pattern.length_le (p : Pattern) (text : List Char) : p.length text ≤ text.length := by
  have hsign := signLength_le text
  cases p with
  | word =>
    cases text with
    | nil => exact Nat.le_refl _
    | cons c text =>
      have hrun := runLength_le isWordChar text
      simp only [length, wordLength, List.length_cons]
      split <;> omega
  | integer =>
    have hdigits := runLength_le Char.isDigit (text.drop (signLength text))
    rw [List.length_drop] at hdigits
    simp only [length, integerLength]
    split <;> omega
  | hexInteger =>
    have hmagnitude := hexMagnitudeLength_le (text.drop (signLength text))
    rw [List.length_drop] at hmagnitude
    simp only [length, hexLength]
    split <;> omega
  | float =>
    have hwhole := runLength_le Char.isDigit (text.drop (signLength text))
    have hfraction := fractionLength_le (text.drop (signLength text +
      runLength Char.isDigit (text.drop (signLength text))))
    rw [List.length_drop] at hwhole hfraction
    simp only [length, floatLength]
    split <;> omega
  | lineComment =>
    simp only [length, lineCommentLength]
    split
    · next text =>
      have hrun := runLength_le (· != '\n') text
      rw [List.length_cons, List.length_cons]
      omega
    · exact Nat.zero_le _
  | blockOpening =>
    simp only [length, blockOpeningLength]
    split
    · rw [List.length_cons, List.length_cons]
      omega
    · exact Nat.zero_le _
  | quote =>
    cases text with
    | nil => exact Nat.le_refl _
    | cons c text =>
      simp only [length, quoteLength, List.length_cons]
      split <;> omega
  | punct p =>
    cases text with
    | nil => exact Nat.le_refl _
    | cons c text =>
      simp only [length, punctLength, List.length_cons]
      split <;> omega

theorem Escape.length_le {text : List Char} {n : Nat} (h : Checked.Spans (Escape.read text) n) :
    n ≤ text.length := by
  obtain ⟨form, hform⟩ := Checked.EscapeForm.of?_of_spans h
  exact (Checked.EscapeForm.reads_of_of? hform).length_le

theorem StringBody.length_le (quote : Char) (opening offset : Nat) (text : List Char) :
    (read quote opening offset text).length ≤ text.length := by
  fun_induction read quote opening offset text with
  | case1 => exact Nat.le_refl _
  | case2 => exact Nat.succ_le_succ (Nat.zero_le _)
  | case3 => exact Nat.succ_le_succ (Nat.zero_le _)
  | case5 offset text bytes n hread _ _ _ ih =>
    have hn := Escape.length_le (.inl ⟨bytes, hread⟩)
    simp only [prepend, List.length_cons, List.length_drop] at ih ⊢
    omega
  | case6 offset text n hread _ _ _ ih =>
    have hn := Escape.length_le (.inr hread)
    simp only [prepend, List.length_cons, List.length_drop] at ih ⊢
    omega
  | case4 | case7 | case8 =>
    simp only [prepend, List.length_cons]
    omega

theorem blockLength_le {body : List Char} {n : Nat} (h : CommentText.blockLength? body = some n) :
    n + 2 ≤ body.length := by
  obtain ⟨inner, rest, rfl, rfl⟩ := Checked.append_of_blockLength? h
  simp

/-- No token passes the end of the text that it is read from. -/
theorem Reading.length_le (place : Place) {pattern : Pattern} {n : Nat} {c : Char}
    {rest : List Char} (h : Pattern.longest? (c :: rest) = some (pattern, n)) :
    (ofMatch place pattern n c rest).length ≤ (c :: rest).length := by
  obtain ⟨-, hn, hpos, -⟩ := Pattern.longestOf_eq_some h
  have hle := hn ▸ pattern.length_le (c :: rest)
  cases pattern with
  | integer | hexInteger =>
    rw [ofMatch, Checked.integer_length, List.length_take]
    omega
  | quote =>
    have hbody := StringBody.length_le c place.offset (place.offset + c.utf8Size) rest
    rw [ofMatch, string, List.length_cons]
    dsimp only
    split <;> exact Nat.succ_le_succ hbody
  | blockOpening =>
    have htwo : n = 2 := by
      simp only [Pattern.length, blockOpeningLength] at hn
      split at hn <;> omega
    rw [ofMatch, blockComment]
    split
    · next k hk =>
      have hk := blockLength_le hk
      rw [List.length_drop] at hk
      dsimp only
      omega
    · exact Nat.le_refl _
  | _ => exact hle

/-! ## Parts that faults cover -/

/-- Whether a fault may be joined with others of its kind. -/
def LexicalFault.joins (f : LexicalFault) : Bool := f.cause == .invalidToken || f.isStringPiece

/-- Of two faults that are joined, both may be. -/
theorem LexicalFault.joins_of_continues {f g : LexicalFault} (h : f.continues g = true) :
    f.joins = true ∧ g.joins = true := by
  simp only [continues, joins, Bool.and_eq_true, Bool.or_eq_true, beq_iff_eq] at h ⊢
  exact ⟨h.2.imp And.left And.left, h.2.imp And.right And.right⟩

/-- The fault covers a part of a text that starts at byte `offset`: some of its characters, none of
which is a newline if the fault may be joined with others. -/
def LexicalFault.Covers (f : LexicalFault) (offset : Nat) (text : List Char) : Prop :=
  ∃ before part after, text = before ++ part ++ after ∧ part ≠ [] ∧
    f.span = ⟨offset + byteLength before, offset + byteLength before + byteLength part⟩ ∧
    (f.joins = true → '\n' ∉ part)

namespace LexicalFault

variable {f : LexicalFault} {offset : Nat} {text : List Char}

theorem Covers.bounds (h : f.Covers offset text) :
    offset ≤ f.span.start ∧ f.span.start < f.span.stop ∧
      f.span.stop ≤ offset + byteLength text := by
  obtain ⟨before, part, after, rfl, hpart, hspan, -⟩ := h
  have hpos := Checked.byteLength_pos hpart
  rw [hspan, byteLength_append, byteLength_append]
  exact ⟨Nat.le_add_right _ _, Nat.lt_add_of_pos_right hpos, by dsimp only; omega⟩

/-- What covers a part of a text covers the same part of a longer one. -/
theorem Covers.within (h : f.Covers offset text) {start : Nat} (left right : List Char)
    (hoffset : offset = start + byteLength left) : f.Covers start (left ++ text ++ right) := by
  obtain ⟨before, part, after, rfl, hpart, hspan, hjoins⟩ := h
  refine ⟨left ++ before, part, after ++ right, ?_, hpart, ?_, hjoins⟩
  · simp only [List.append_assoc]
  · rw [hspan, hoffset, byteLength_append, Nat.add_assoc]

end LexicalFault

/-- What stands behind `passed`, up to `after`, is covered if the span says so. -/
theorem covers_behind {cause : LexicalCause} {opening offset : Nat} {passed part : List Char}
    (after : List Char) (hoffset : offset = opening + byteLength passed) (hpart : part ≠ [])
    (hnewline : '\n' ∉ part) : LexicalFault.Covers ⟨cause, ⟨offset, offset + byteLength part⟩⟩
      opening (passed ++ part ++ after) :=
  ⟨passed, part, after, rfl, hpart, by rw [hoffset], fun _ => hnewline⟩

/-! ## Faults of a string -/

/-- A literal that is not closed is covered from its opening quote. -/
theorem covers_unterminated {opening offset : Nat} {passed : List Char} (after : List Char)
    (hpassed : passed ≠ []) (hoffset : offset = opening + byteLength passed) :
    LexicalFault.Covers ⟨.unterminatedString, ⟨opening, offset⟩⟩ opening (passed ++ after) :=
  ⟨[], passed, after, rfl, hpassed, by rw [hoffset]; rfl, fun hj => nomatch hj⟩

theorem take_escape (c : Char) (text : List Char) (n k : Nat) :
    (c :: text).take (1 + n + k) = c :: text.take n ++ (text.drop n).take k := by
  rw [Nat.add_assoc, Nat.add_comm 1, List.take_succ_cons, List.take_add, List.cons_append]

/-- A fault in the body of a literal of which `passed` has been read, the opening quote included. -/
theorem covers_of_mem_read {quote : Char} {opening offset : Nat} {text : List Char}
    {f : LexicalFault} (h : f ∈ (StringBody.read quote opening offset text).faults)
    {passed : List Char} (hpassed : passed ≠ [])
    (hoffset : offset = opening + byteLength passed) :
    f.Covers opening (passed ++ text.take (StringBody.read quote opening offset text).length) := by
  fun_induction StringBody.read quote opening offset text generalizing passed with
  | case1 offset =>
    rw [List.mem_singleton.1 h]
    exact covers_unterminated [] hpassed hoffset
  | case2 => cases h
  | case3 offset text hq =>
    rw [List.mem_singleton.1 h]
    exact covers_unterminated ['\n'] hpassed hoffset
  | case4 offset text _ _ ih =>
    rw [StringBody.prepend, Nat.add_comm, List.take_succ_cons, List.append_cons]
    rcases List.mem_cons.1 h with rfl | h
    · exact covers_behind _ hoffset (List.cons_ne_nil _ _) (by decide)
    · exact ih h (by simp) (by rw [byteLength_append, ← Nat.add_assoc, ← hoffset]; rfl)
  | case5 offset text bytes n hread _ _ _ ih =>
    have hsize := Checked.byteLength_escape (.inl ⟨bytes, hread⟩)
    rw [StringBody.prepend, take_escape, ← List.append_assoc]
    refine ih h (by simp) ?_
    rw [byteLength_append, hsize, hoffset]
    omega
  | case6 offset text n hread _ _ _ ih =>
    have hsize := Checked.byteLength_escape (.inr hread)
    have hnewline := newline_notMem_escape (.inr hread)
    rw [StringBody.prepend, take_escape, ← List.append_assoc]
    rcases List.mem_cons.1 h with rfl | h
    · rw [Nat.add_assoc, ← hsize]
      exact covers_behind _ hoffset (List.cons_ne_nil _ _) (by simpa using hnewline)
    · refine ih h (by simp) ?_
      rw [byteLength_append, hsize, hoffset]
      omega
  | case7 offset text hread _ _ _ ih =>
    rw [StringBody.prepend, Nat.add_comm, List.take_succ_cons, List.append_cons]
    rcases List.mem_cons.1 h with rfl | h
    · exact covers_behind _ hoffset (List.cons_ne_nil _ _) (by decide)
    · exact ih h (by simp) (by rw [byteLength_append, ← Nat.add_assoc, ← hoffset]; rfl)
  | case8 offset c text _ _ _ _ ih =>
    rw [StringBody.prepend, Nat.add_comm, List.take_succ_cons, List.append_cons]
    exact ih h (by simp) (by rw [byteLength_append, ← Nat.add_assoc, ← hoffset]; rfl)

/-! ## Faults of a piece -/

/-- A text that is at fault as a whole. -/
theorem covers_whole {cause : LexicalCause} (place : Place) {text : List Char} (htext : text ≠ [])
    (hnewline : LexicalFault.joins ⟨cause, place.span text⟩ = true → '\n' ∉ text) :
    LexicalFault.Covers ⟨cause, place.span text⟩ place.offset text :=
  ⟨[], text, [], by simp, htext, rfl, hnewline⟩

/-- A number that does not fit is at fault as a whole. -/
theorem covers_of_mem_integer {place : Place} {base marker : Nat} {literal : List Char}
    {f : LexicalFault} (h : f ∈ (Reading.integer place base marker literal).faults)
    (hliteral : literal ≠ []) : f.Covers place.offset literal := by
  unfold Reading.integer at h
  dsimp only at h
  split at h
  · cases h
  · rw [List.mem_singleton.1 h]
    exact covers_whole place hliteral fun h => absurd h Bool.false_ne_true

/-- A fault covers a part of its piece. -/
theorem covers_of_mem_first {place : Place} {c : Char} {rest : List Char} {f : LexicalFault}
    (h : f ∈ (Piece.first place c rest).faults) :
    f.Covers place.offset (Piece.first place c rest).text := by
  have hne := (Piece.first_text place c rest).1
  unfold Piece.first at h hne ⊢
  by_cases hc : isLayout c = true
  · rw [if_pos hc] at h
    cases h
  rw [if_neg hc] at h hne ⊢
  cases hlongest : Pattern.longest? (c :: rest) with
  | none =>
    rw [hlongest] at h
    rw [List.mem_singleton.1 h]
    refine covers_whole place (List.cons_ne_nil c []) fun _ hn => ?_
    rw [← List.mem_singleton.1 hn] at hc
    exact hc (by decide)
  | some found =>
    obtain ⟨p, n⟩ := found
    rw [hlongest] at h hne
    dsimp only at h hne ⊢
    cases p with
    | integer =>
      rw [Reading.ofMatch, Checked.integer_length, Checked.take_length_take] at hne ⊢
      exact covers_of_mem_integer h hne
    | hexInteger =>
      rw [Reading.ofMatch, Checked.integer_length, Checked.take_length_take] at hne ⊢
      exact covers_of_mem_integer h hne
    | quote =>
      have hbody {g : LexicalFault}
          (hg : g ∈ (StringBody.read c place.offset (place.offset + c.utf8Size) rest).faults) :=
        covers_of_mem_read hg (List.cons_ne_nil c []) rfl
      rw [Reading.ofMatch, Reading.string] at h ⊢
      dsimp only at h ⊢
      split at h
      · exact hbody h
      · rcases List.mem_append.1 h with h | h
        · exact hbody h
        · rw [List.mem_singleton.1 h]
          exact covers_whole place (List.cons_ne_nil c _) fun h => absurd h Bool.false_ne_true
    | blockOpening =>
      rw [Reading.ofMatch, Reading.blockComment] at h ⊢
      split at h
      · cases h
      · rw [List.mem_singleton.1 h, List.take_length]
        exact covers_whole place (List.cons_ne_nil c rest) fun h => absurd h Bool.false_ne_true
    | _ => cases h

/-! ## Faults that are joined -/

namespace LexicalFault

/-- What holds of all faults, and of two that are joined if it holds of both, holds of the joined
faults. -/
theorem forall_mem_joinFrom {P : LexicalFault → Prop}
    (hextend : ∀ f g, P f → P g → f.continues g = true → P (f.extend g)) {f : LexicalFault}
    {faults : List LexicalFault} (hf : P f) (h : ∀ g ∈ faults, P g) :
    ∀ g ∈ joinFrom f faults, P g := by
  induction faults generalizing f with
  | nil => exact fun g hg => List.mem_singleton.1 hg ▸ hf
  | cons g faults ih =>
    have hg := h g List.mem_cons_self
    have hothers := fun k hk => h k (List.mem_cons_of_mem g hk)
    rw [joinFrom]
    split
    · next hcontinues => exact ih (hextend f g hf hg hcontinues) hothers
    · intro k hk
      rcases List.mem_cons.1 hk with rfl | hk
      · exact hf
      · exact ih hg hothers k hk

theorem forall_mem_join {P : LexicalFault → Prop}
    (hextend : ∀ f g, P f → P g → f.continues g = true → P (f.extend g))
    {faults : List LexicalFault} (h : ∀ g ∈ faults, P g) : ∀ g ∈ join faults, P g := by
  cases faults with
  | nil => exact fun g hg => nomatch hg
  | cons f faults =>
    exact forall_mem_joinFrom hextend (h f List.mem_cons_self)
      fun g hg => h g (List.mem_cons_of_mem f hg)

theorem join_eq_nil {faults : List LexicalFault} : join faults = [] ↔ faults = [] := by
  constructor
  swap
  · rintro rfl
    rfl
  intro h
  cases faults with
  | nil => rfl
  | cons f faults =>
    rw [join] at h
    induction faults generalizing f with
    | nil => cases h
    | cons g faults ih =>
      rw [joinFrom] at h
      split at h
      · cases ih (f.extend g) h
      · cases h

/-- Two texts with the same beginning, cut at the same byte. -/
theorem append_inj_of_byteLength {a b c d : List Char} (h : a ++ b = c ++ d)
    (hlength : byteLength a = byteLength c) : a = c := by
  rw [← Text.takeBytes_byteLength a b, h, hlength, Text.takeBytes_byteLength]

/-- Faults that are joined cover the parts of both. -/
theorem Covers.join {f g : LexicalFault} {text : List Char} (hf : f.Covers 0 text)
    (hg : g.Covers 0 text) (h : f.continues g = true) : (f.extend g).Covers 0 text := by
  obtain ⟨before, part, after, htext, hpart, hspan, hnewline⟩ := hf
  obtain ⟨before', part', after', htext', -, hspan', hnewline'⟩ := hg
  have hg := (joins_of_continues h).2
  rw [continues, Bool.and_eq_true, beq_iff_eq] at h
  obtain ⟨htouch, -⟩ := h
  have hbefore : before' = before ++ part := by
    refine append_inj_of_byteLength (b := part' ++ after') (d := after) ?_ ?_
    · rw [← htext, htext', List.append_assoc]
    · rw [hspan, hspan'] at htouch
      rw [byteLength_append]
      simpa using htouch.symm
  refine ⟨before, part ++ part', after', ?_, by simp [hpart], ?_, fun hjoins hn => ?_⟩
  · rw [htext', hbefore]
    simp only [List.append_assoc]
  · rw [LexicalFault.extend, hspan, hspan', hbefore, byteLength_append, byteLength_append]
    simp [Nat.add_assoc]
  · rcases List.mem_append.1 hn with hn | hn
    · exact hnewline hjoins hn
    · exact hnewline' hg hn

end LexicalFault

end ProtoSchema
