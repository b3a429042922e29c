import Mathlib.Data.List.Basic
import ProtoSchema.Token.Scan

/-
  Texts that stand elsewhere. What a text is cut into depends on its place through the line that is
  under way and through the keywords that may follow; its offset only moves the spans
  (`piecesFrom_shift`).
-/

namespace ProtoSchema

/-! ## Moved by some bytes -/

/-- The span `n` bytes further on. -/
def Span.shift (n : Nat) (s : Span) : Span := ⟨s.start + n, s.stop + n⟩

/-- The lexeme `n` bytes further on. -/
def Lexeme.shift (n : Nat) (l : Lexeme) : Lexeme := { l with span := l.span.shift n }

/-- The fault `n` bytes further on. -/
def LexicalFault.shift (n : Nat) (f : LexicalFault) : LexicalFault := ⟨f.cause, f.span.shift n⟩

/-- The piece `n` bytes further on. -/
def Piece.shift (n : Nat) (p : Piece) : Piece :=
  { p with span := p.span.shift n, faults := p.faults.map (LexicalFault.shift n) }

/-- The body with its faults `n` bytes further on. -/
def StringBody.shift (n : Nat) (b : StringBody) : StringBody :=
  { b with faults := b.faults.map (LexicalFault.shift n) }

/-- The reading with its faults `n` bytes further on. -/
def Reading.shift (n : Nat) (r : Reading) : Reading :=
  { r with faults := r.faults.map (LexicalFault.shift n) }

@[simp] theorem Lexeme.shift_token (n : Nat) (l : Lexeme) : (l.shift n).token = l.token := rfl

@[simp] theorem Lexeme.shift_spelling (n : Nat) (l : Lexeme) :
    (l.shift n).spelling = l.spelling := rfl

@[simp] theorem Lexeme.shift_span (n : Nat) (l : Lexeme) : (l.shift n).span = l.span.shift n := rfl

theorem StringBody.shift_prepend (n k : Nat) (bytes : List UInt8) (faults : List LexicalFault)
    (b : StringBody) : (b.prepend k bytes faults).shift n =
      (b.shift n).prepend k bytes (faults.map (LexicalFault.shift n)) := by
  rw [prepend, shift, List.map_append]
  rfl

/-- `q` is like the place `p`, only `n` bytes further on: the same keywords may follow, and if
something stands before it on its line, so it does before `p`. -/
structure Place.Shifted (n : Nat) (p q : Place) : Prop where
  offset : q.offset = p.offset + n
  midLine : q.midLine = p.midLine
  follows : ∀ k : Keyword, k.follows q.before = k.follows p.before

namespace Place.Shifted

variable {n : Nat} {p q : Place}

theorem next (h : p.Shifted n q) (c : Char) : (p.next c).Shifted n (q.next c) where
  offset := by
    rw [Place.next, Place.next, h.offset]
    exact Nat.add_right_comm _ _ _
  midLine := by rw [Place.next, Place.next, h.midLine]
  follows _ := rfl

theorem after (h : p.Shifted n q) (text : List Char) : (p.after text).Shifted n (q.after text) := by
  induction text generalizing p q with
  | nil => exact h
  | cons c text ih => exact ih (h.next c)

theorem span (h : p.Shifted n q) (text : List Char) : q.span text = (p.span text).shift n := by
  rw [Place.span, Place.span, Span.shift, h.offset]
  exact congrArg (Span.mk _) (Nat.add_right_comm _ _ _)

theorem fault (h : p.Shifted n q) (cause : LexicalCause) (text : List Char) :
    (⟨cause, q.span text⟩ : LexicalFault) = LexicalFault.shift n ⟨cause, p.span text⟩ := by
  rw [h.span]
  rfl

theorem ofSpelling (h : p.Shifted n q) (spelling : List Char) :
    Word.ofSpelling q.before spelling = Word.ofSpelling p.before spelling := by
  simp only [Word.ofSpelling, h.follows]

end Place.Shifted

/-! ## Tokens elsewhere -/

theorem StringBody.read_shift (n : Nat) (quote : Char) (opening offset : Nat) (text : List Char) :
    read quote (opening + n) (offset + n) text = (read quote opening offset text).shift n := by
  fun_induction read quote opening offset text with
  | case1 => rw [read]; rfl
  | case2 => rw [read, if_pos rfl]; rfl
  | case3 offset text hq => rw [read, if_neg hq, if_pos rfl]; rfl
  | case4 offset text hq hn ih =>
    rw [read, if_neg hq, if_neg hn, if_pos rfl, Nat.add_right_comm, ih, shift_prepend]
    rfl
  | case5 offset text bytes k hread hq hn hz ih =>
    rw [read, if_neg hq, if_neg hn, if_neg hz, if_pos rfl, hread]
    dsimp only
    rw [Nat.add_right_comm offset n 1, Nat.add_right_comm (offset + 1) n k, ih, shift_prepend]
    rfl
  | case6 offset text k hread hq hn hz ih =>
    rw [read, if_neg hq, if_neg hn, if_neg hz, if_pos rfl, hread]
    dsimp only
    rw [Nat.add_right_comm offset n 1, Nat.add_right_comm (offset + 1) n k, ih, shift_prepend]
    rfl
  | case7 offset text hread hq hn hz ih =>
    rw [read, if_neg hq, if_neg hn, if_neg hz, if_pos rfl, hread]
    dsimp only
    rw [Nat.add_right_comm offset n 1, ih, shift_prepend]
    rfl
  | case8 offset c text hq hn hz hb ih =>
    rw [read, if_neg hq, if_neg hn, if_neg hz, if_neg hb, Nat.add_right_comm, ih, shift_prepend]
    rfl

namespace Reading

variable {n : Nat} {p q : Place}

theorem integer_shift (h : p.Shifted n q) (base marker : Nat) (literal : List Char) :
    integer q base marker literal = (integer p base marker literal).shift n := by
  unfold integer
  dsimp only
  split
  · rfl
  · rw [h.fault]
    rfl

theorem string_shift (h : p.Shifted n q) (quote : Char) (text : List Char) :
    string q quote text = (string p quote text).shift n := by
  unfold string
  rw [h.offset, Nat.add_right_comm, StringBody.read_shift]
  dsimp only [StringBody.shift]
  split
  · rfl
  · rw [h.fault, shift, List.map_append]
    rfl

theorem blockComment_shift (h : p.Shifted n q) (text : List Char) :
    blockComment q text = (blockComment p text).shift n := by
  unfold blockComment
  dsimp only
  split
  · rfl
  · rw [h.fault]
    rfl

theorem ofMatch_shift (h : p.Shifted n q) (pattern : Pattern) (k : Nat) (c : Char)
    (rest : List Char) : ofMatch q pattern k c rest = (ofMatch p pattern k c rest).shift n := by
  cases pattern with
  | word =>
    rw [ofMatch, ofMatch, h.ofSpelling]
    rfl
  | integer => exact integer_shift h 10 0 _
  | hexInteger => exact integer_shift h 16 2 _
  | quote => exact string_shift h c rest
  | lineComment =>
    rw [ofMatch, ofMatch, h.midLine]
    rfl
  | blockOpening => exact blockComment_shift h _
  | float | punct => rfl

end Reading

/-! ## Pieces elsewhere -/

theorem Piece.first_shift {n : Nat} {p q : Place} (h : p.Shifted n q) (c : Char)
    (rest : List Char) : first q c rest = (first p c rest).shift n := by
  unfold first
  split
  · dsimp only
    rw [h.span]
    rfl
  · split
    · next pattern k _ =>
      dsimp only
      rw [Reading.ofMatch_shift h, h.span]
      rfl
    · rw [h.fault, h.span]
      rfl

/-- A text is cut into the same pieces wherever it stands. -/
theorem piecesFrom_shift {n : Nat} {p q : Place} (h : p.Shifted n q) (text : List Char) :
    piecesFrom q text = (piecesFrom p text).map (Piece.shift n) := by
  fun_induction piecesFrom p text generalizing q with
  | case1 => rw [piecesFrom, List.map_nil]
  | case2 p c rest =>
    rename_i ih
    have hfirst := Piece.first_shift h c rest
    have htext : (Piece.first q c rest).text = (Piece.first p c rest).text := by rw [hfirst]; rfl
    rw [piecesFrom, htext, ih (h.after _), hfirst, List.map_cons]

theorem lexemes_shift (n : Nat) (ps : List Piece) :
    lexemes (ps.map (Piece.shift n)) = (lexemes ps).map (Lexeme.shift n) := by
  rw [lexemes, lexemes, List.filterMap_map, List.map_filterMap]
  congr 1
  funext p
  cases hcontent : p.content <;> simp [Piece.lexeme?, Piece.shift, hcontent, Lexeme.shift]

namespace LexicalFault

theorem continues_shift (n : Nat) (f g : LexicalFault) :
    (f.shift n).continues (g.shift n) = f.continues g := by
  have hstop : (f.span.stop + n == g.span.start + n) = (f.span.stop == g.span.start) := by
    simp
  exact congrArg (· && _) hstop

theorem joinFrom_shift (n : Nat) (f : LexicalFault) (fs : List LexicalFault) :
    joinFrom (f.shift n) (fs.map (shift n)) = (joinFrom f fs).map (shift n) := by
  induction fs generalizing f with
  | nil => rfl
  | cons g fs ih =>
    rw [List.map_cons, joinFrom, joinFrom, continues_shift]
    split
    · exact ih (f.extend g)
    · rw [ih g, List.map_cons]

theorem join_shift (n : Nat) (fs : List LexicalFault) :
    join (fs.map (shift n)) = (join fs).map (shift n) := by
  cases fs with
  | nil => rfl
  | cons f fs => exact joinFrom_shift n f fs

end LexicalFault

end ProtoSchema
