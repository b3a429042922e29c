import Mathlib.Data.List.Chain
import Mathlib.Data.List.DropRight
import ProtoSchema.Proofs.Lexing.CarriageReturns

/-
  Decorated block comments. Each line of such a comment stands behind an asterisk of its own, and
  further asterisks stand next to the delimiters; none of them are part of its text. The asterisks
  and slashes of the lines themselves are, and so are empty lines between others
  (`tokenize_decorated`).
-/

namespace ProtoSchema

/-! ## Trimming -/

namespace Text

theorem dropEndWhile_append {p : Char → Bool} {right : List Char} (h : ∀ c ∈ right, p c = true)
    (text : List Char) : dropEndWhile p (text ++ right) = dropEndWhile p text := by
  rw [dropEndWhile, List.reverse_append, List.dropWhile_append_of_pos (by simpa using h),
    dropEndWhile]

theorem dropEndWhile_eq_self {p : Char → Bool} {text : List Char} :
    dropEndWhile p text = text ↔ ∀ c ∈ text.getLast?, p c = false := by
  refine List.rdropWhile_eq_self_iff.trans ⟨fun h c hc => ?_, fun h hne => ?_⟩
  · obtain ⟨hne, rfl⟩ := List.mem_getLast?_eq_getLast hc
    exact Bool.not_eq_true _ ▸ h hne
  · rw [h _ (List.getLast?_eq_some_getLast hne)]
    exact Bool.false_ne_true

/-- A text is trimmed exactly if it has no blank at either end. -/
theorem trim_eq_self {text : List Char} : trim text = text ↔
    (∀ c ∈ text.head?, isBlank c = false) ∧ ∀ c ∈ text.getLast?, isBlank c = false := by
  have hstart : trimStart text = text ↔ ∀ c ∈ text.head?, isBlank c = false := by
    cases text with
    | nil => simp [trimStart]
    | cons c text => simp [trimStart, List.dropWhile_eq_self_iff]
  rw [← hstart, ← dropEndWhile_eq_self]
  refine ⟨fun h => ?_, fun h => by rw [trim, h.1, h.2]⟩
  -- Nothing is dropped at either end, as each end by itself could only make the text shorter.
  have hsuffix : trimStart text <:+ text := List.dropWhile_suffix _
  have hprefix : dropEndWhile isBlank (trimStart text) <+: trimStart text :=
    List.rdropWhile_prefix _ _
  have hlength : text.length ≤ (trimStart text).length := by
    rw [← congrArg List.length h]
    exact hprefix.length_le
  have heq : trimStart text = text := hsuffix.eq_of_length_le hlength
  exact ⟨heq, by rwa [trim, heq] at h⟩

/-- Blanks around a text are trimmed. -/
theorem trim_padded {left right : List Char} (hleft : ∀ c ∈ left, isBlank c = true)
    (hright : ∀ c ∈ right, isBlank c = true) (text : List Char) :
    trim (left ++ text ++ right) = trim text := by
  have hstart : trim (left ++ text) = trim text := by
    rw [trim, trimStart, List.dropWhile_append_of_pos hleft, trim, trimStart]
  rw [← hstart]
  induction right using List.reverseRecOn with
  | nil => rw [List.append_nil]
  | append_singleton right c ih =>
    rw [← List.append_assoc, trim_concat (hright c (by simp))]
    exact ih fun d hd => hright d (by simp [hd])

/-! ## Lines -/

theorem lines_append {line : List Char} (h : '\n' ∉ line) (rest : List Char) :
    lines (line ++ '\n' :: rest) = line :: lines rest := by
  induction line with
  | nil => rfl
  | cons c line ih =>
    rw [List.mem_cons, not_or] at h
    rw [List.cons_append, lines, if_neg (Ne.symm h.1), ih h.2]

theorem lines_of_notMem {line : List Char} (h : '\n' ∉ line) : lines line = [line] := by
  induction line with
  | nil => rfl
  | cons c line ih =>
    rw [List.mem_cons, not_or] at h
    rw [lines, if_neg (Ne.symm h.1), ih h.2]

theorem unlines_cons {ls : List (List Char)} (h : ls ≠ []) (line : List Char) :
    unlines (line :: ls) = line ++ '\n' :: unlines ls := by
  cases ls with
  | nil => exact absurd rfl h
  | cons second ls => rfl

theorem unlines_concat {ls : List (List Char)} (h : ls ≠ []) (line : List Char) :
    unlines (ls ++ [line]) = unlines ls ++ '\n' :: line := by
  induction ls with
  | nil => exact absurd rfl h
  | cons first ls ih =>
    cases ls with
    | nil => rfl
    | cons second ls =>
      have hne : second :: ls ≠ [] := List.cons_ne_nil _ _
      rw [List.cons_append, unlines_cons (by simp), ih hne, unlines_cons hne, List.append_assoc,
        List.cons_append]

/-- Lines that are put together are the lines of the text. -/
theorem lines_unlines {ls : List (List Char)} (hne : ls ≠ []) (h : ∀ line ∈ ls, '\n' ∉ line) :
    lines (unlines ls) = ls := by
  induction ls with
  | nil => exact absurd rfl hne
  | cons line ls ih =>
    obtain ⟨hline, hls⟩ := List.forall_mem_cons.1 h
    cases ls with
    | nil => exact lines_of_notMem hline
    | cons second ls =>
      rw [unlines_cons (List.cons_ne_nil _ _), lines_append hline,
        ih (List.cons_ne_nil _ _) hls]

theorem head?_unlines {line : List Char} (hne : line ≠ []) (ls : List (List Char)) :
    (unlines (line :: ls)).head? = line.head? := by
  cases ls with
  | nil => rfl
  | cons second ls =>
    rw [unlines_cons (List.cons_ne_nil _ _), List.head?_append_of_ne_nil _ hne]

theorem getLast?_unlines {line : List Char} (hne : line ≠ []) (ls : List (List Char)) :
    (unlines (ls ++ [line])).getLast? = line.getLast? := by
  cases ls with
  | nil => rfl
  | cons first ls =>
    rw [unlines_concat (List.cons_ne_nil _ _), List.getLast?_append_of_ne_nil _ (by simp),
      List.getLast?_cons_of_ne_nil hne]

end Text

/-! ## Comments without an end -/

namespace CommentText

/-- A text in which no block comment ends: no asterisk stands before a slash. -/
def Unclosed (text : List Char) : Prop := text.IsChain fun c d => ¬(c = '*' ∧ d = '/')

theorem unclosed_of_not_infix {text : List Char} (h : ¬['*', '/'] <:+: text) : Unclosed text := by
  refine List.isChain_iff_forall_rel_of_append_cons_cons.2 ?_
  rintro c d before rest rfl ⟨rfl, rfl⟩
  exact h ⟨before, rest, by simp⟩

theorem unclosed_of_no_asterisk {text : List Char} (h : '*' ∉ text) : Unclosed text := by
  refine unclosed_of_not_infix fun hinfix => h ?_
  exact hinfix.subset List.mem_cons_self

theorem Unclosed.append {a b : List Char} (ha : Unclosed a) (hb : Unclosed b)
    (h : '/' ∉ b.head?) : Unclosed (a ++ b) := by
  refine List.isChain_append.2 ⟨ha, hb, ?_⟩
  rintro c - d hd ⟨-, rfl⟩
  exact h hd

theorem Unclosed.cons {c : Char} {text : List Char} (h : Unclosed text) (hc : c ≠ '*') :
    Unclosed (c :: text) := by
  refine List.isChain_cons.2 ⟨?_, h⟩
  rintro d - ⟨rfl, -⟩
  exact hc rfl

theorem unclosed_replicate (n : Nat) : Unclosed (List.replicate n '*') :=
  List.isChain_replicate_of_rel n (by decide)

/-- A newline keeps what stands before it from what stands behind it. -/
theorem unclosed_unlines {ls : List (List Char)} (h : ∀ line ∈ ls, Unclosed line) :
    Unclosed (Text.unlines ls) := by
  induction ls with
  | nil => exact .nil
  | cons line ls ih =>
    obtain ⟨hline, hls⟩ := List.forall_mem_cons.1 h
    cases ls with
    | nil => exact hline
    | cons second ls =>
      rw [Text.unlines_cons (List.cons_ne_nil _ _)]
      exact hline.append ((ih hls).cons (by decide)) (by simp)

/-- Behind a text in which no comment ends, a comment ends at the delimiter. -/
theorem Unclosed.blockLength? {inner : List Char} (h : Unclosed inner) (rest : List Char) :
    blockLength? (inner ++ '*' :: '/' :: rest) = some inner.length := by
  induction inner with
  | nil => rfl
  | cons c inner ih =>
    obtain ⟨hc, hinner⟩ := List.isChain_cons.1 h
    rw [List.cons_append, blockLength?_cons, ih hinner]
    · rfl
    · rintro ⟨rfl, hhead⟩
      cases inner with
      | nil => cases hhead
      | cons d inner =>
        obtain rfl : d = '/' := Option.some.inj hhead
        exact hc _ rfl ⟨rfl, rfl⟩

end CommentText

/-! ## Decorated lines -/

/-- A line of a decorated comment: spaces and tabs, an asterisk, a space and the text. The text is
trimmed and does not end the comment. -/
structure DecoratedLine where
  indent : List Char
  text : List Char
  indented : ∀ c ∈ indent, c = ' ' ∨ c = '\t'
  oneLine : '\n' ∉ text
  unclosed : ¬['*', '/'] <:+: text
  trimmed : Text.trim text = text

/-- A decorated comment. Behind the opening delimiter there are further asterisks, then come the
lines, and last spaces and tabs and further asterisks before the closing delimiter. -/
structure DecoratedComment where
  opening : Nat
  lines : List DecoratedLine
  indent : List Char
  closing : Nat
  indented : ∀ c ∈ indent, c = ' ' ∨ c = '\t'

/-- The line as it is written. -/
def DecoratedLine.written (l : DecoratedLine) : List Char := l.indent ++ '*' :: ' ' :: l.text

namespace DecoratedComment

/-- The lines of the comment as they are written, those of the delimiters with them. -/
def inner (d : DecoratedComment) : List (List Char) :=
  List.replicate d.opening '*' ::
    (d.lines.map DecoratedLine.written ++ [d.indent ++ List.replicate d.closing '*'])

/-- The comment as it is written. -/
def written (d : DecoratedComment) : List Char :=
  '/' :: '*' :: (Text.unlines d.inner ++ ['*', '/'])

/-- The text of the comment. -/
def text (d : DecoratedComment) : List Char := Text.unlines (d.lines.map DecoratedLine.text)

end DecoratedComment

namespace DecoratedLine

variable {indent : List Char}

theorem newline_notMem_indent (h : ∀ c ∈ indent, c = ' ' ∨ c = '\t') : '\n' ∉ indent :=
  fun hmem => absurd (h _ hmem) (by decide)

theorem asterisk_notMem_indent (h : ∀ c ∈ indent, c = ' ' ∨ c = '\t') : '*' ∉ indent :=
  fun hmem => absurd (h _ hmem) (by decide)

theorem isBlank_of_indented (h : ∀ c ∈ indent, c = ' ' ∨ c = '\t') :
    ∀ c ∈ indent, Text.isBlank c = true := by
  intro c hc
  rcases h c hc with rfl | rfl <;> rfl

theorem newline_notMem_written (l : DecoratedLine) : '\n' ∉ l.written := by
  rw [written, List.mem_append, not_or]
  refine ⟨newline_notMem_indent l.indented, ?_⟩
  simpa using l.oneLine

theorem unclosed_written (l : DecoratedLine) : CommentText.Unclosed l.written := by
  have htext : CommentText.Unclosed (' ' :: l.text) :=
    (CommentText.unclosed_of_not_infix l.unclosed).cons (by decide)
  have hindent : CommentText.Unclosed l.indent :=
    CommentText.unclosed_of_no_asterisk (asterisk_notMem_indent l.indented)
  exact hindent.append ((CommentText.unclosed_replicate 1).append htext (by simp)) (by simp)

/-- Of a decorated line the text is left. Where that is empty, the space behind the asterisk is
trimmed from the end of the line, otherwise it is trimmed behind the asterisk. -/
theorem undecorated_written (l : DecoratedLine) : CommentText.undecorated l.written = l.text := by
  have hpad : Text.trim l.written = Text.trim ('*' :: ' ' :: l.text) := by
    have h := Text.trim_padded (isBlank_of_indented l.indented) (List.forall_mem_nil _)
      ('*' :: ' ' :: l.text)
    rwa [List.append_nil] at h
  obtain ⟨hhead, hlast⟩ := Text.trim_eq_self.1 l.trimmed
  have hstart : Text.trimStart (' ' :: l.text) = l.text := by
    cases htext : l.text with
    | nil => rfl
    | cons c text =>
      rw [htext] at hhead
      rw [Text.trimStart, List.dropWhile_cons_of_pos rfl,
        List.dropWhile_cons_of_neg (by simp [hhead c rfl])]
  rw [CommentText.undecorated, hpad]
  by_cases hne : l.text = []
  · rw [hne]
    rfl
  · have hself : Text.trim ('*' :: ' ' :: l.text) = '*' :: ' ' :: l.text := by
      refine Text.trim_eq_self.2 ⟨fun c hc => ?_, ?_⟩
      · obtain rfl : '*' = c := Option.some.inj hc
        rfl
      · rw [List.getLast?_cons_cons, List.getLast?_cons_of_ne_nil hne]
        exact hlast
    rw [hself]
    exact hstart

end DecoratedLine

/-! ## Decorated comments -/

namespace DecoratedComment

open Text CommentText

theorem unclosed_inner (d : DecoratedComment) : Unclosed (unlines d.inner) := by
  refine unclosed_unlines (List.forall_mem_cons.2 ⟨unclosed_replicate _, ?_⟩)
  refine List.forall_mem_append.2 ⟨List.forall_mem_map.2 fun l _ => l.unclosed_written, ?_⟩
  refine List.forall_mem_singleton.2 (Unclosed.append ?_ (unclosed_replicate _) ?_)
  · exact unclosed_of_no_asterisk (DecoratedLine.asterisk_notMem_indent d.indented)
  · cases d.closing with
    | zero => exact nofun
    | succ n => simp [List.replicate_succ]

/-- Asterisks next to the delimiters are on the lines of these. -/
theorem stripped_inner (d : DecoratedComment) :
    dropEndWhile (· == '*') ((unlines d.inner).dropWhile (· == '*')) =
      unlines ([] :: (d.lines.map DecoratedLine.written ++ [d.indent])) := by
  have hne : [] :: d.lines.map DecoratedLine.written ≠ [] := List.cons_ne_nil _ _
  have hopening : (unlines d.inner).dropWhile (· == '*') =
      unlines ([] :: d.lines.map DecoratedLine.written ++
        [d.indent ++ List.replicate d.closing '*']) := by
    rw [inner, unlines_cons (by simp), List.dropWhile_append_of_pos (by simp),
      List.dropWhile_cons_of_neg (by decide)]
    exact (unlines_cons (by simp) []).symm
  rw [hopening, unlines_concat hne, ← List.cons_append, ← List.append_assoc,
    dropEndWhile_append (by simp), ← List.cons_append, unlines_concat hne]
  refine dropEndWhile_eq_self.2 fun c hc => ?_
  rw [List.getLast?_append_of_ne_nil _ (List.cons_ne_nil _ _)] at hc
  rcases List.mem_cons.1 (List.mem_of_getLast? hc) with rfl | hc
  · rfl
  · rcases d.indented c hc with rfl | rfl <;> rfl

/-- Without the decoration the texts of the lines are left, with an empty line before them and one
behind them. -/
theorem bodyLines_stripped (d : DecoratedComment) :
    bodyLines ([] :: (d.lines.map DecoratedLine.written ++ [d.indent])) =
      [] :: (d.lines.map DecoratedLine.text ++ [[]]) := by
  have hindent : undecorated d.indent = [] := by
    have hblank := trim_padded (DecoratedLine.isBlank_of_indented d.indented)
      (List.forall_mem_nil _) []
    rw [List.append_nil, List.append_nil] at hblank
    rw [undecorated, hblank]
    rfl
  have hlines : (d.lines.map DecoratedLine.written).map undecorated =
      d.lines.map DecoratedLine.text := by
    rw [List.map_map]
    exact List.map_congr_left fun l _ => l.undecorated_written
  rw [bodyLines, List.map_append, hlines, List.map_singleton, hindent]
  rfl

/-- The text of a decorated comment is that of its lines, if it has no empty line at either end. -/
theorem ofBlock_inner (d : DecoratedComment) (hfirst : ∀ l ∈ d.lines.head?, l.text ≠ [])
    (hlast : ∀ l ∈ d.lines.getLast?, l.text ≠ []) : ofBlock (unlines d.inner) = d.text := by
  have hsplit : Text.lines (unlines ([] :: (d.lines.map DecoratedLine.written ++ [d.indent]))) =
      [] :: (d.lines.map DecoratedLine.written ++ [d.indent]) := by
    refine lines_unlines (List.cons_ne_nil _ _) (List.forall_mem_cons.2 ⟨List.not_mem_nil, ?_⟩)
    refine List.forall_mem_append.2 ⟨List.forall_mem_map.2 fun l _ => l.newline_notMem_written, ?_⟩
    exact List.forall_mem_singleton.2 (DecoratedLine.newline_notMem_indent d.indented)
  have htrimmed : trim d.text = d.text := by
    refine trim_eq_self.2 ⟨fun c hc => ?_, fun c hc => ?_⟩
    · rw [text] at hc
      cases hl : d.lines with
      | nil => rw [hl] at hc; cases hc
      | cons l ls =>
        rw [hl, List.map_cons, head?_unlines (hfirst l (by rw [hl]; rfl))] at hc
        exact (trim_eq_self.1 l.trimmed).1 c hc
    · rw [text] at hc
      rcases List.eq_nil_or_concat d.lines with hl | ⟨ls, l, hl⟩
      · rw [hl] at hc
        cases hc
      · rw [List.concat_eq_append] at hl
        rw [hl, List.map_append, List.map_singleton,
          getLast?_unlines (hlast l (by rw [hl, List.getLast?_concat]; rfl))] at hc
        exact (trim_eq_self.1 l.trimmed).2 c hc
  have hnewline : ∀ c ∈ ['\n'], isBlank c = true := List.forall_mem_singleton.2 rfl
  rw [ofBlock, stripped_inner, hsplit, bodyLines_stripped]
  cases hl : d.lines with
  | nil =>
    rw [text, hl]
    rfl
  | cons l ls =>
    rw [unlines_cons (by simp), unlines_concat (by simp), ← hl]
    exact (trim_padded hnewline hnewline d.text).trans htrimmed

end DecoratedComment

/-- A decorated block comment, alone in a source, is a comment with the texts of its lines. -/
theorem tokenize_decorated (d : DecoratedComment) (hfirst : ∀ l ∈ d.lines.head?, l.text ≠ [])
    (hlast : ∀ l ∈ d.lines.getLast?, l.text ≠ []) :
    tokenize d.written = .ok [⟨.blockComment (String.ofList d.text), String.ofList d.written,
      ⟨0, byteLength d.written⟩⟩] := by
  have hend : CommentText.blockLength? (Text.unlines d.inner ++ ['*', '/'] ++ []) =
      some (Text.unlines d.inner).length := by
    rw [List.append_nil]
    exact d.unclosed_inner.blockLength? []
  have hpieces : pieces d.written =
      [⟨.token (.blockComment (String.ofList d.text)), d.written,
        ⟨0, byteLength d.written⟩, []⟩] := by
    have hpiece := Piece.first_of_block .start hend
    rw [List.append_nil, d.ofBlock_inner hfirst hlast] at hpiece
    rw [pieces, DecoratedComment.written, piecesFrom, hpiece]
    dsimp only
    rw [List.drop_length, piecesFrom, Place.span]
    simp only [Place.start, Nat.zero_add]
  rw [tokenize_of_faults (by rw [hpieces]; rfl), hpieces]
  rfl

/-- The second line is empty, and the others have asterisks and slashes of their own next to the
decoration. -/
theorem tokenize_decorated_asterisks :
    tokenize "/***\n\t* * a\n  * \n* /b *\n **/".toList =
      .ok [⟨.blockComment "* a\n\n/b *", "/***\n\t* * a\n  * \n* /b *\n **/", ⟨0, 28⟩⟩] := by
  let first : DecoratedLine := ⟨['\t'], "* a".toList, by simp, by decide, by decide, by decide⟩
  let second : DecoratedLine := ⟨[' ', ' '], [], by simp, by decide, by decide, rfl⟩
  let third : DecoratedLine := ⟨[], "/b *".toList, by simp, by decide, by decide, by decide⟩
  let comment : DecoratedComment := ⟨2, [first, second, third], [' '], 1, by simp⟩
  have hwritten : comment.written = "/***\n\t* * a\n  * \n* /b *\n **/".toList := by decide
  have htext : comment.text = "* a\n\n/b *".toList := by decide
  have hsize : byteLength "/***\n\t* * a\n  * \n* /b *\n **/".toList = 28 := by decide
  have htokens := tokenize_decorated comment (by rintro _ ⟨⟩; decide) (by rintro _ ⟨⟩; decide)
  rw [hwritten, htext, String.ofList_toList, String.ofList_toList, hsize] at htokens
  exact htokens

end ProtoSchema
