import ProtoSchema.Proofs.Checked.Literal

/-
  Cutting a source into tokens by byte offsets. Each token is read from the place where its pattern
  matched, by slices of the source, and the end of a string or of a block comment is reached by
  moving on so many bytes; each of these steps may fail. `tokenize?_eq`: none of them does, and the
  tokens and the faults are those of `tokenize`.
-/

namespace ProtoSchema.Checked

/-! ## Words, numbers and comments -/

section

variable (source : List Char) (s : Span)

/-- The word at `s`. -/
def word? : Option Token := do
  let spelling ← slice? source s
  let before ← slice? source ⟨0, s.start⟩
  return .word (Word.ofSpelling before.getLast? spelling)

/-- The integer at `s`, whose digits come after the sign and `marker` more bytes; there has to be a
digit. -/
def integer? (base marker : Nat) : Option Reading := do
  let literal ← slice? source s
  let unsigned := literal.drop (signLength literal)
  let digits ← if marker < byteLength unsigned then dropBytes? unsigned marker else none
  let magnitude : Int := ofDigits base digits
  let value := if signLength literal = 1 then -magnitude else magnitude
  if fitsInt64 value then return ⟨.int value, s.stop, []⟩
  else return ⟨.int 0, s.stop, [⟨.integerOutOfRange, s⟩]⟩

/-- Whether something other than blanks stands after the last newline of a text. -/
def endsMidLine (text : List Char) : Bool :=
  (text.reverse.find? fun c => c == '\n' || !isLayout c).any (· != '\n')

/-- The line comment at `s`. -/
def lineComment? : Option Token := do
  let literal ← slice? source s
  let before ← slice? source ⟨0, s.start⟩
  return .lineComment (String.ofList (CommentText.ofLine literal)) (endsMidLine before)

/-- The block comment that is opened at `s`. -/
def blockComment? : Option Reading := do
  let remainder ← dropBytes? source s.stop
  match CommentText.blockLength? remainder with
  | some n =>
    let size := byteLength (remainder.take n)
    let body ← takeBytes? remainder size
    let stop ← advance? source s.stop (size + 2)
    return ⟨.blockComment (String.ofList (CommentText.ofBlock body)), stop, []⟩
  | none =>
    let stop ← advance? source s.stop (byteLength remainder)
    return ⟨.blockComment (String.ofList (CommentText.ofBlock remainder)), stop,
      [⟨.unterminatedComment, ⟨s.start, byteLength source⟩⟩]⟩

end

/-! ## Pieces -/

/-- The token at `s`, where the pattern matches the source. -/
def reading? (source : List Char) (s : Span) : Pattern → Option Reading
  | .word => return ⟨← word? source s, s.stop, []⟩
  | .integer => integer? source s 10 0
  | .hexInteger => integer? source s 16 2
  | .float => return ⟨.float (floatValue (← slice? source s)), s.stop, []⟩
  | .quote => string? source s
  | .punct p => return ⟨.punct p, s.stop, []⟩
  | .lineComment => return ⟨← lineComment? source s, s.stop, []⟩
  | .blockOpening => blockComment? source s

/-- The piece at byte `offset` of a source, of which the text `c :: rest` is left there. -/
def piece? (source : List Char) (offset : Nat) (c : Char) (rest : List Char) : Option Piece :=
  if isLayout c then do
    let s : Span := ⟨offset, offset + byteLength (c :: rest.takeWhile isLayout)⟩
    return ⟨.layout, ← slice? source s, s, []⟩
  else match Pattern.longest? (c :: rest) with
    | some (p, n) => do
      let reading ← reading? source ⟨offset, offset + byteLength ((c :: rest).take n)⟩ p
      let s : Span := ⟨offset, reading.stop⟩
      return ⟨.token reading.token, ← slice? source s, s, reading.faults⟩
    | none => do
      let s : Span := ⟨offset, offset + c.utf8Size⟩
      return ⟨.invalid, ← slice? source s, s, [⟨.invalidToken, s⟩]⟩

/-- The pieces of a source from byte `offset` on. A piece that does not end after its start would be
read again and again; no result is given then. -/
def piecesFrom? (source : List Char) (offset : Nat) : Option (List Piece) :=
  match _h : dropBytes? source offset with
  | none => none
  | some [] => some []
  | some (c :: rest) => do
    let p ← piece? source offset c rest
    if offset < p.span.stop then return p :: (← piecesFrom? source p.span.stop) else none
termination_by byteLength source - offset
decreasing_by
  obtain ⟨before, rfl, rfl⟩ := dropBytes?_eq_some.1 _h
  have hpos := c.utf8Size_pos
  rw [byteLength_append, byteLength_cons]
  omega

/-- The lexemes of a source, or everything that is wrong with its characters. -/
def tokenize? (source : List Char) : Option (Except (List LexicalFault) (List Lexeme)) := do
  let pieces ← piecesFrom? source 0
  match lexicalFaults pieces with
  | [] => return .ok (lexemes pieces)
  | faults => return .error faults

/-! ## What the text before a place tells -/

theorem endsMidLine_concat (text : List Char) (c : Char) :
    endsMidLine (text ++ [c]) = (c != '\n' && (endsMidLine text || !isLayout c)) := by
  have hnewline : isLayout '\n' = true := by decide
  unfold endsMidLine
  rw [List.reverse_append, List.reverse_singleton, List.singleton_append, List.find?_cons]
  cases hc : c == '\n' with
  | true => simp [hc, bne]
  | false =>
    cases hl : isLayout c with
    | true => simp [hc, bne]
    | false => simp [hc, bne]

/-- A place tells the last character before it, and whether the line has begun. -/
theorem after_start (text : List Char) :
    Place.start.after text = ⟨byteLength text, text.getLast?, endsMidLine text⟩ := by
  suffices h : ∀ reversed : List Char, Place.start.after reversed.reverse =
      ⟨byteLength reversed.reverse, reversed.reverse.getLast?, endsMidLine reversed.reverse⟩ by
    have := h text.reverse
    rwa [List.reverse_reverse] at this
  intro reversed
  induction reversed with
  | nil => rfl
  | cons c reversed ih =>
    rw [List.reverse_cons, Place.after_append, ih, endsMidLine_concat, byteLength_append,
      List.getLast?_concat]
    rfl

/-! ## Numbers -/

theorem signLength_take (text : List Char) {n : Nat} (h : 0 < n) :
    signLength (text.take n) = signLength text := by
  obtain ⟨m, rfl⟩ := Nat.exists_eq_add_one_of_ne_zero (Nat.pos_iff_ne_zero.1 h)
  cases text with
  | nil => rfl
  | cons c text => rw [List.take_succ_cons]; unfold signLength; split <;> simp_all

/-- The integer at a place is the one that the text there denotes, provided that its digits come
after the sign and the marker. -/
theorem integer?_eq {source literal digits : List Char} (place : Place) (base : Nat)
    (marker : List Char)
    (hslice : slice? source (place.span literal) = some literal)
    (hdigits : literal.drop (signLength literal) = marker ++ digits) (hne : digits ≠ [])
    (hmarker : byteLength marker = marker.length) :
    let r := ProtoSchema.Reading.integer place base marker.length literal
    integer? source (place.span literal) base marker.length =
      some ⟨r.token, place.offset + byteLength literal, r.faults⟩ := by
  have hpos : marker.length < byteLength (marker ++ digits) := by
    cases digits with
    | nil => exact absurd rfl hne
    | cons c digits =>
      have hc := c.utf8Size_pos
      rw [byteLength_append, hmarker, byteLength_cons]
      omega
  have hdrop : dropBytes? (marker ++ digits) marker.length = some digits :=
    hmarker ▸ dropBytes?_append marker digits
  have hvalue : integerValue base marker.length literal =
      if signLength literal = 1 then -(ofDigits base digits : Int) else ofDigits base digits := by
    rw [integerValue, ← List.drop_drop, hdigits, List.drop_left]
  simp only [integer?, hslice, hdigits, if_pos hpos, hdrop, ProtoSchema.Reading.integer, hvalue,
    Option.bind_eq_bind, Option.bind_some]
  generalize (if signLength literal = 1 then -(ofDigits base digits : Int)
    else ofDigits base digits) = value
  cases fitsInt64 value <;> rfl

/-- What an integer literal has after its sign is digits. -/
theorem drop_sign_of_integer {text : List Char} (h : 0 < integerLength text) :
    ∃ digits, digits ≠ [] ∧ (text.take (integerLength text)).drop
      (signLength (text.take (integerLength text))) = digits := by
  refine ⟨_, fun hnil => ?_, rfl⟩
  rw [signLength_take text h] at hnil
  have hlength := congrArg List.length hnil
  unfold integerLength at h hlength
  dsimp only at h hlength
  have hle := runLength_le Char.isDigit (text.drop (signLength text))
  split at h
  · omega
  · next hd =>
    rw [if_neg hd, List.length_drop, List.length_take, List.length_nil] at hlength
    rw [List.length_drop] at hle
    omega

theorem hexMagnitude_of_pos {text : List Char} (h : hexMagnitudeLength text ≠ 0) :
    ∃ x rest, text = '0' :: x :: rest ∧ (x = 'x' ∨ x = 'X') ∧ runLength isHexDigit rest ≠ 0 ∧
      hexMagnitudeLength text = runLength isHexDigit rest + 2 := by
  revert h
  fun_cases hexMagnitudeLength text with
  | case1 x rest digits hx => exact fun _ => ⟨x, rest, rfl, hx.1, hx.2, rfl⟩
  | case2 => exact fun h => absurd rfl h
  | case3 => exact fun h => absurd rfl h

/-- What a hexadecimal literal has after its sign is a marker of two characters and digits. -/
theorem drop_sign_of_hex {text : List Char} (h : 0 < hexLength text) :
    ∃ x digits, (x = 'x' ∨ x = 'X') ∧ digits ≠ [] ∧ (text.take (hexLength text)).drop
      (signLength (text.take (hexLength text))) = '0' :: x :: digits := by
  rw [signLength_take text h]
  unfold hexLength at h ⊢
  dsimp only at h ⊢
  split at h
  · omega
  · next hm =>
    obtain ⟨x, rest, hrest, hx, hdigits, hlength⟩ := hexMagnitude_of_pos hm
    rw [if_neg hm, List.drop_take, Nat.add_sub_cancel_left, hlength, hrest, List.take_succ_cons,
      List.take_succ_cons, ← takeWhile_eq_take]
    refine ⟨x, _, hx, fun hnil => hdigits ?_, rfl⟩
    rw [runLength, hnil, List.length_nil]

/-! ## Block comments -/

theorem append_of_blockLength? {text : List Char} {n : Nat}
    (h : CommentText.blockLength? text = some n) :
    ∃ inner rest, text = inner ++ ['*', '/'] ++ rest ∧ n = inner.length := by
  fun_induction CommentText.blockLength? text generalizing n with
  | case1 rest => cases h; exact ⟨[], rest, rfl, rfl⟩
  | case2 c text _ ih =>
    obtain ⟨m, hm, rfl⟩ := Option.map_eq_some_iff.1 h
    obtain ⟨inner, rest, rfl, rfl⟩ := ih hm
    exact ⟨c :: inner, rest, rfl, rfl⟩
  | case3 => cases h

/-- A block comment ends after the first `*/` that follows its opening, or with the source. -/
theorem blockComment?_eq (before body : List Char) {place : Place}
    (hplace : place.offset = byteLength before) :
    let r := ProtoSchema.Reading.blockComment place ('/' :: '*' :: body)
    blockComment? (before ++ '/' :: '*' :: body) ⟨byteLength before, byteLength before + 2⟩ =
      some ⟨r.token, byteLength before + byteLength (('/' :: '*' :: body).take r.length),
        r.faults⟩ := by
  have hopening : before ++ '/' :: '*' :: body = (before ++ ['/', '*']) ++ body := by simp
  have hstop : byteLength before + 2 = byteLength (before ++ ['/', '*']) := by
    rw [byteLength_append]; rfl
  have hdrop : dropBytes? (before ++ '/' :: '*' :: body) (byteLength before + 2) = some body := by
    rw [hstop, hopening, dropBytes?_append]
  have hadvance : ∀ part after, body = part ++ after →
      advance? (before ++ '/' :: '*' :: body) (byteLength before + 2) (byteLength part) =
        some (byteLength before + byteLength ('/' :: '*' :: part)) := by
    rintro part after rfl
    rw [hopening, hstop, advance?_append, byteLength_append, Nat.add_assoc, ← byteLength_append]
    rfl
  simp only [blockComment?, hdrop, Option.bind_eq_bind, Option.bind_some,
    ProtoSchema.Reading.blockComment, List.drop_succ_cons, List.drop_zero]
  cases hlength : CommentText.blockLength? body with
  | some n =>
    obtain ⟨inner, rest, hbody, rfl⟩ := append_of_blockLength? hlength
    have hinner : body.take inner.length = inner := by
      rw [hbody, List.append_assoc, List.take_left]
    have hwhole : body.take (inner.length + 2) = inner ++ ['*', '/'] := by
      rw [hbody]; exact List.take_left' List.length_append
    have hsize : byteLength inner + 2 = byteLength (inner ++ ['*', '/']) := by
      rw [byteLength_append]; rfl
    have htake : takeBytes? body (byteLength inner) = some inner :=
      takeBytes?_eq_some.2 ⟨['*', '/'] ++ rest, by rw [hbody, List.append_assoc], rfl⟩
    simp only [hinner, hsize, htake, hadvance _ rest hbody, Option.bind_some,
      List.take_succ_cons, hwhole]
    rfl
  | none =>
    have hspan : place.span ('/' :: '*' :: body) =
        ⟨byteLength before, byteLength (before ++ '/' :: '*' :: body)⟩ := by
      rw [Place.span, hplace, byteLength_append]
    simp only [hadvance body [] (List.append_nil _).symm, Option.bind_some, hspan, List.take_length]
    rfl

/-! ## Pieces -/

theorem take_length_take (n : Nat) (text : List Char) :
    text.take (text.take n).length = text.take n :=
  (List.prefix_iff_eq_take.1 (List.take_prefix n text)).symm

theorem integer_length (place : Place) (base marker : Nat) (literal : List Char) :
    (ProtoSchema.Reading.integer place base marker literal).length = literal.length := by
  rw [ProtoSchema.Reading.integer]
  split <;> rfl

/-- The token at a place is the one that the pattern reads there. -/
theorem reading?_eq (before : List Char) {c : Char} {rest : List Char} {p : Pattern}
    (hpos : 0 < p.length (c :: rest)) :
    let n := p.length (c :: rest)
    let r := ProtoSchema.Reading.ofMatch (Place.start.after before) p n c rest
    reading? (before ++ c :: rest)
        ⟨byteLength before, byteLength before + byteLength ((c :: rest).take n)⟩ p =
      some ⟨r.token, byteLength before + byteLength ((c :: rest).take r.length), r.faults⟩ := by
  have hslice : ∀ n, slice? (before ++ c :: rest)
      ⟨byteLength before, byteLength before + byteLength ((c :: rest).take n)⟩ =
        some ((c :: rest).take n) := by
    intro n
    have h := slice?_append before ((c :: rest).take n) ((c :: rest).drop n)
    rwa [List.take_append_drop] at h
  have hstart := slice?_start before (c :: rest)
  rw [after_start]
  cases p with
  | word =>
    simp only [reading?, word?, hslice, hstart, Option.bind_eq_bind, Option.bind_some]
    rfl
  | integer =>
    obtain ⟨digits, hne, hdigits⟩ := drop_sign_of_integer hpos
    have h := integer?_eq ⟨byteLength before, before.getLast?, endsMidLine before⟩ 10 []
      (hslice _) hdigits hne rfl
    intro n r
    have htake : (c :: rest).take r.length = (c :: rest).take n := by
      rw [show r.length = _ from integer_length .., take_length_take]
    rw [htake]
    exact h
  | hexInteger =>
    obtain ⟨x, digits, hx, hne, hdigits⟩ := drop_sign_of_hex hpos
    have h := integer?_eq ⟨byteLength before, before.getLast?, endsMidLine before⟩ 16 ['0', x]
      (hslice _) hdigits hne (by rcases hx with rfl | rfl <;> rfl)
    intro n r
    have htake : (c :: rest).take r.length = (c :: rest).take n := by
      rw [show r.length = _ from integer_length .., take_length_take]
    rw [htake]
    exact h
  | float =>
    simp only [reading?, hslice, Option.bind_eq_bind, Option.bind_some]
    rfl
  | quote =>
    obtain ⟨hquote, hn⟩ : (c = '"' ∨ c = '\'') ∧ Pattern.quote.length (c :: rest) = 1 := by
      by_cases hc : c = '"' ∨ c = '\''
      · exact ⟨hc, if_pos hc⟩
      · exact absurd hpos (by rw [Pattern.length, quoteLength, if_neg hc]; exact Nat.lt_irrefl 0)
    rw [hn]
    exact string?_eq before hquote rest rfl
  | punct p => rfl
  | lineComment =>
    simp only [reading?, lineComment?, hslice, hstart, Option.bind_eq_bind, Option.bind_some]
    rfl
  | blockOpening =>
    obtain ⟨body, hbody⟩ : ∃ body, c :: rest = '/' :: '*' :: body := by
      rw [Pattern.length, blockOpeningLength.eq_def] at hpos
      split at hpos
      · next body heq => exact ⟨body, heq⟩
      · cases hpos
    obtain ⟨rfl, rfl⟩ := List.cons.inj hbody
    exact blockComment?_eq before body rfl

/-- The piece at a place is the one that the text there starts with. -/
theorem piece?_eq (before : List Char) (c : Char) (rest : List Char) :
    piece? (before ++ c :: rest) (byteLength before) c rest =
      some (Piece.first (Place.start.after before) c rest) := by
  have hspan : ∀ text, (Place.start.after before).span text =
      ⟨byteLength before, byteLength before + byteLength text⟩ := by
    intro text
    rw [after_start]
    rfl
  have hslice : ∀ part, part <+: c :: rest → slice? (before ++ c :: rest)
      ⟨byteLength before, byteLength before + byteLength part⟩ = some part := by
    rintro part ⟨after, hafter⟩
    rw [← hafter]
    exact slice?_append before part after
  unfold piece? Piece.first
  split
  · simp only [hspan, hslice (c :: rest.takeWhile isLayout)
      (List.cons_prefix_cons.2 ⟨rfl, List.takeWhile_prefix _⟩), Option.bind_eq_bind,
      Option.bind_some]
    rfl
  · cases hlongest : Pattern.longest? (c :: rest) with
    | none =>
      have h := hslice [c] (List.cons_prefix_cons.2 ⟨rfl, List.nil_prefix⟩)
      rw [byteLength_cons, byteLength_nil, Nat.add_zero] at h
      simp only [hspan, h, byteLength_cons, byteLength_nil, Nat.add_zero, Option.bind_eq_bind,
        Option.bind_some]
      rfl
    | some found =>
      obtain ⟨p, n⟩ := found
      obtain ⟨-, rfl, hpos, -⟩ := Pattern.longestOf_eq_some hlongest
      simp only [reading?_eq before hpos, hspan, hslice _ (List.take_prefix _ _),
        Option.bind_eq_bind, Option.bind_some]
      rfl

/-- A piece lies where its text does. -/
theorem first_span (place : Place) (c : Char) (rest : List Char) :
    (Piece.first place c rest).span = place.span (Piece.first place c rest).text := by
  unfold Piece.first
  split
  · rfl
  · split <;> rfl

theorem byteLength_pos {text : List Char} (h : text ≠ []) : 0 < byteLength text := by
  rcases Nat.eq_zero_or_pos (byteLength text) with h0 | hpos
  · exact absurd (eq_nil_of_byteLength_eq_zero h0.symm) h
  · exact hpos

theorem piecesFrom?_end {source : List Char} {offset : Nat}
    (h : dropBytes? source offset = some []) : piecesFrom? source offset = some [] := by
  rw [piecesFrom?]
  split
  · next hdrop => cases h.symm.trans hdrop
  · rfl
  · next hdrop => cases h.symm.trans hdrop

theorem piecesFrom?_step {source rest : List Char} {offset : Nat} {c : Char} {p : Piece}
    (h : dropBytes? source offset = some (c :: rest)) (hp : piece? source offset c rest = some p)
    (hlt : offset < p.span.stop) :
    piecesFrom? source offset = (piecesFrom? source p.span.stop).map (p :: ·) := by
  rw [piecesFrom?]
  split
  · next hdrop => cases h.symm.trans hdrop
  · next hdrop => cases h.symm.trans hdrop
  · next hdrop =>
    cases h.symm.trans hdrop
    simp only [hp, Option.bind_eq_bind, Option.bind_some, if_pos hlt]
    cases piecesFrom? source p.span.stop <;> rfl

/-- The rest of a source is cut as its text is. -/
theorem piecesFrom?_eq (before text : List Char) :
    piecesFrom? (before ++ text) (byteLength before) =
      some (piecesFrom (Place.start.after before) text) := by
  induction hn : text.length using Nat.strongRecOn generalizing before text with | ind n ih
  have hdrop := dropBytes?_append before text
  cases text with
  | nil => rw [piecesFrom?_end hdrop, piecesFrom]
  | cons c rest =>
    have hp := piece?_eq before c rest
    rw [piecesFrom]
    obtain ⟨hne, hstarts⟩ := Piece.first_text (Place.start.after before) c rest
    have hspan := first_span (Place.start.after before) c rest
    generalize Piece.first (Place.start.after before) c rest = p at *
    have hstop : p.span.stop = byteLength (before ++ p.text) := by
      rw [hspan, Place.span, Place.after_offset, byteLength_append]
      change 0 + byteLength before + _ = _
      rw [Nat.zero_add]
    have hlt : byteLength before < p.span.stop := by
      have hpos := byteLength_pos hne
      rw [hstop, byteLength_append]
      omega
    have hrest : before ++ c :: rest = (before ++ p.text) ++ (c :: rest).drop p.text.length := by
      rw [List.append_assoc, List.prefix_iff_eq_append.1 hstarts]
    have hlength : ((c :: rest).drop p.text.length).length < n := by
      have hpos := List.length_pos_iff.2 hne
      rw [List.length_drop, hn]
      rw [List.length_cons] at hn
      omega
    rw [piecesFrom?_step hdrop hp hlt, hstop, hrest, ih _ hlength _ _ rfl, Place.after_append]
    rfl

/-- The tokens of a source are read, and they are those that `tokenize` gives. -/
theorem tokenize?_eq (source : List Char) : tokenize? source = some (tokenize source) := by
  rw [tokenize?, show piecesFrom? source 0 = some (pieces source) from piecesFrom?_eq [] source,
    tokenize]
  simp only [Option.bind_eq_bind, Option.bind_some]
  cases lexicalFaults (pieces source) <;> rfl

/-! ## Where lexemes lie -/

/-- Every piece is the first one of what is left of the source at its place. -/
theorem exists_of_mem_piecesFrom (before : List Char) {text : List Char} {p : Piece}
    (h : p ∈ piecesFrom (Place.start.after before) text) :
    ∃ before' c rest, before ++ text = before' ++ c :: rest ∧
      p = Piece.first (Place.start.after before') c rest := by
  induction hn : text.length using Nat.strongRecOn generalizing before text with | ind n ih
  cases text with
  | nil => rw [piecesFrom] at h; cases h
  | cons c rest =>
    rw [piecesFrom] at h
    rcases List.mem_cons.1 h with rfl | h
    · exact ⟨before, c, rest, rfl, rfl⟩
    · obtain ⟨hne, -⟩ := Piece.first_text (Place.start.after before) c rest
      have hrest := Piece.first_text_append (Place.start.after before) c rest
      generalize Piece.first (Place.start.after before) c rest = q at *
      have hlength : ((c :: rest).drop q.text.length).length < n := by
        have hpos := List.length_pos_iff.2 hne
        rw [List.length_drop, hn]
        rw [List.length_cons] at hn
        omega
      rw [← Place.after_append] at h
      obtain ⟨before', c', rest', hsource, hp⟩ := ih _ hlength (before ++ q.text) h rfl
      exact ⟨before', c', rest', by rw [← hsource, List.append_assoc, hrest], hp⟩

/-- Every piece is found in the source at its span. -/
theorem slice?_of_mem_pieces {source : List Char} {p : Piece} (h : p ∈ pieces source) :
    slice? source p.span = some p.text := by
  obtain ⟨before, c, rest, hsource, rfl⟩ := exists_of_mem_piecesFrom [] h
  have hrest := Piece.first_text_append (Place.start.after before) c rest
  rw [first_span, show source = before ++ c :: rest from hsource]
  generalize Piece.first (Place.start.after before) c rest = q at *
  rw [after_start, ← hrest]
  exact slice?_append ..

/-- Every lexeme of a source is found in it at its span, as it is spelled. -/
theorem slice?_of_mem_lexemes {source : List Char} {l : Lexeme}
    (h : l ∈ lexemes (pieces source)) : slice? source l.span = some l.spelling.toList := by
  obtain ⟨p, hp, hl⟩ := List.mem_filterMap.1 h
  have hslice := slice?_of_mem_pieces hp
  unfold Piece.lexeme? at hl
  split at hl
  · cases hl
    rw [String.toList_ofList]
    exact hslice
  · cases hl

end ProtoSchema.Checked
