import Mathlib.Data.List.Basic
import ProtoSchema.Proofs.Checked.Scan

/-
  Trailing comments. A line comment that follows a punctuation token on the same line is trailing
  (`trailing_of_line_eq`), where lines are counted as people count them.
-/

namespace ProtoSchema

/-! ## Lines -/

namespace Text.Position

theorem line_foldl_next (p : Position) (text : List Char) :
    (text.foldl next p).line = p.line + text.count '\n' := by
  induction text generalizing p with
  | nil => rfl
  | cons c text ih =>
    rw [List.foldl_cons, ih, List.count_cons]
    unfold next
    by_cases hc : c = '\n'
    · simp [hc]
      omega
    · simp [hc]

theorem line_after_append (a b : List Char) :
    (after (a ++ b)).line = (after a).line + b.count '\n' := by
  rw [after, List.foldl_append, line_foldl_next]
  rfl

end Text.Position

/-- What stands on a line stays there up to its end. -/
theorem Place.midLine_after {p : Place} {text : List Char} (hp : p.midLine = true)
    (htext : '\n' ∉ text) : (p.after text).midLine = true := by
  induction text generalizing p with
  | nil => exact hp
  | cons c text ih =>
    rw [List.mem_cons, not_or] at htext
    refine ih ?_ htext.2
    simp [next, hp, Ne.symm htext.1]

theorem Place.midLine_next {p : Place} {c : Char} (hc : isLayout c = false) :
    (p.next c).midLine = true := by
  have hne : c ≠ '\n' := by
    rintro rfl
    exact absurd hc (by decide)
  simp [next, hc, hne]

/-! ## Pieces -/

namespace Piece

/-- The reading of a piece that is a lexeme. -/
theorem first_lexeme {place : Place} {c : Char} {rest : List Char} {l : Lexeme}
    (h : (first place c rest).lexeme? = some l) : isLayout c = false ∧ ∃ p n,
      Pattern.longest? (c :: rest) = some (p, n) ∧
      l.token = (Reading.ofMatch place p n c rest).token ∧
      (first place c rest).text = (c :: rest).take (Reading.ofMatch place p n c rest).length := by
  unfold first at h ⊢
  split at h
  · cases h
  · next hc =>
    rw [if_neg hc]
    split at h
    · next p n hn =>
      cases h
      exact ⟨by simpa using hc, p, n, hn, rfl, rfl⟩
    · cases h

theorem first_punct {place : Place} {c : Char} {rest : List Char} {l : Lexeme} {p : Punct}
    (h : (first place c rest).lexeme? = some l) (hl : l.token = .punct p) :
    isLayout c = false ∧ (first place c rest).text = [c] := by
  obtain ⟨hc, pattern, n, hn, htoken, htext⟩ := first_lexeme h
  refine ⟨hc, ?_⟩
  rw [hl] at htoken
  rw [htext]
  cases pattern with
  | punct q =>
    obtain ⟨-, hlength, hpos, -⟩ := Pattern.longestOf_eq_some hn
    have hle : n ≤ 1 := by
      rw [hlength]
      change (if c = q.char then 1 else 0) ≤ 1
      split <;> omega
    rw [show (Reading.ofMatch place (.punct q) n c rest).length = 1 from
      Nat.le_antisymm hle hpos]
    rfl
  | integer | hexInteger =>
    simp only [Reading.ofMatch, Reading.integer] at htoken
    split at htoken <;> cases htoken
  | quote =>
    simp only [Reading.ofMatch, Reading.string] at htoken
    split at htoken <;> cases htoken
  | blockOpening =>
    simp only [Reading.ofMatch, Reading.blockComment] at htoken
    split at htoken <;> cases htoken
  | _ => cases htoken

theorem first_lineComment {place : Place} {c : Char} {rest : List Char} {l : Lexeme}
    {text : String} {trailing : Bool} (h : (first place c rest).lexeme? = some l)
    (hl : l.token = .lineComment text trailing) : trailing = place.midLine := by
  obtain ⟨-, pattern, n, -, htoken, -⟩ := first_lexeme h
  rw [hl] at htoken
  cases pattern with
  | lineComment => cases htoken; rfl
  | integer | hexInteger =>
    simp only [Reading.ofMatch, Reading.integer] at htoken
    split at htoken <;> cases htoken
  | quote =>
    simp only [Reading.ofMatch, Reading.string] at htoken
    split at htoken <;> cases htoken
  | blockOpening =>
    simp only [Reading.ofMatch, Reading.blockComment] at htoken
    split at htoken <;> cases htoken
  | _ => cases htoken

theorem span_of_lexeme? {p : Piece} {l : Lexeme} (h : p.lexeme? = some l) : l.span = p.span := by
  unfold lexeme? at h
  split at h
  · cases h; rfl
  · cases h

end Piece

/-- Where the first piece behind a text lies. -/
theorem Piece.span_first (before : List Char) (c : Char) (rest : List Char) :
    (first (Place.start.after before) c rest).span = ⟨byteLength before,
      byteLength before + byteLength (first (Place.start.after before) c rest).text⟩ := by
  rw [Checked.first_span, Place.span, Place.after_offset, Place.start, Nat.zero_add]

/-- The lexemes before and behind a lexeme are those of the pieces before and behind it. -/
theorem exists_of_lexemes_eq_append {ps : List Piece} {before after : List Lexeme} {l : Lexeme}
    (h : lexemes ps = before ++ l :: after) : ∃ xs p ys,
      ps = xs ++ p :: ys ∧ lexemes xs = before ∧ p.lexeme? = some l ∧ lexemes ys = after := by
  obtain ⟨xs, others, rfl, rfl, hothers⟩ := List.filterMap_eq_append_iff.1 h
  obtain ⟨skipped, p, ys, rfl, hskipped, hp, rfl⟩ := List.filterMap_eq_cons_iff.1 hothers
  refine ⟨xs ++ skipped, p, ys, by rw [List.append_assoc], ?_, hp, rfl⟩
  rw [lexemes, List.filterMap_append, List.filterMap_eq_nil_iff.2 hskipped, List.append_nil]

/-- Each piece stands right behind those before it. -/
theorem piecesFrom_eq_append {place : Place} {text : List Char} {ps qs : List Piece} {q : Piece}
    (h : piecesFrom place text = ps ++ q :: qs) : ∃ c rest,
      text = ps.flatMap Piece.text ++ c :: rest ∧
      q = Piece.first (place.after (ps.flatMap Piece.text)) c rest := by
  induction ps generalizing place text with
  | nil =>
    cases text with
    | nil => rw [piecesFrom] at h; cases h
    | cons c rest =>
      rw [piecesFrom] at h
      exact ⟨c, rest, rfl, (List.cons.inj h).1.symm⟩
  | cons p ps ih =>
    cases text with
    | nil => rw [piecesFrom] at h; cases h
    | cons c rest =>
      rw [piecesFrom] at h
      obtain ⟨hp, h⟩ := List.cons.inj h
      obtain ⟨c', rest', htext, hq⟩ := ih h
      refine ⟨c', rest', ?_, ?_⟩
      · rw [List.flatMap_cons, List.append_assoc, ← htext, ← hp]
        exact (Piece.first_text_append place c rest).symm
      · rw [hq, List.flatMap_cons, Place.after_append, hp]

/-- A line comment is trailing if the lexeme before it is a punctuation token that ends on its
line. -/
theorem trailing_of_line_eq {source : List Char} {before after : List Lexeme} {m n : Lexeme}
    {p : Punct} {text : String} {trailing : Bool}
    (h : lexemes (pieces source) = before ++ m :: n :: after) (hm : m.token = .punct p)
    (hn : n.token = .lineComment text trailing)
    (hline : (Text.Position.ofOffset source m.span.stop).line =
      (Text.Position.ofOffset source n.span.start).line) : trailing = true := by
  obtain ⟨ps, q, rest, hpieces, -, hq, hrest⟩ := exists_of_lexemes_eq_append h
  have hnext : lexemes rest = [] ++ n :: after := hrest
  obtain ⟨between, r, others, rfl, -, hr, -⟩ := exists_of_lexemes_eq_append hnext
  obtain ⟨c, tail, hsource, hfirst⟩ := piecesFrom_eq_append hpieces
  rw [← List.cons_append, ← List.append_assoc] at hpieces
  obtain ⟨d, tail', hsource', hfirst'⟩ := piecesFrom_eq_append hpieces
  -- The source is `x`, the text of `m`, what is between the two lexemes, and the rest.
  generalize hx : ps.flatMap Piece.text = x at hsource hfirst
  rw [List.flatMap_append, List.flatMap_cons, hx, ← List.append_assoc] at hsource' hfirst'
  generalize between.flatMap Piece.text = w at hsource' hfirst'
  obtain ⟨hc, htext⟩ := Piece.first_punct (hfirst ▸ hq) hm
  have hstop : m.span.stop = byteLength (x ++ q.text) := by
    rw [Piece.span_of_lexeme? hq, hfirst, Piece.span_first, byteLength_append]
  have hstart : n.span.start = byteLength (x ++ q.text ++ w) := by
    rw [Piece.span_of_lexeme? hr, hfirst', Piece.span_first]
  have hw : '\n' ∉ w := by
    rw [hstop, hstart, hsource', List.append_assoc (x ++ q.text) w, Text.ofOffset_byteLength,
      ← List.append_assoc, Text.ofOffset_byteLength, Text.Position.line_after_append _ w] at hline
    exact List.count_eq_zero.1 (by omega)
  rw [Piece.first_lineComment (hfirst' ▸ hr) hn, Place.after_append]
  refine Place.midLine_after ?_ hw
  rw [Place.after_append, hfirst, htext]
  exact Place.midLine_next hc

end ProtoSchema
