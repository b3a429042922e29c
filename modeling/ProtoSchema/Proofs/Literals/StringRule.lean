import Mathlib.Data.List.TakeWhile
import ProtoSchema.Proofs.Lexing.Extent
import ProtoSchema.Proofs.Literals.Numeral

/-
  The rule by which string literals are read, stated without a reader. A literal is scanned piece by
  piece: runs of plain characters, the other quote, escapes, and pieces that are faulty. Every text
  behind a quote has such a scan (`StringScan.exists`), and the reader finds the bytes of its
  pieces, its end, and a fault exactly if a piece or the end is faulty (`StringScan.read`).
-/

namespace ProtoSchema

/-! ## Escapes -/

/-- The characters that stand for a character behind a backslash, and those that they stand for. -/
def simpleEscapes : List (Char × Char) :=
  [('a', '\x07'), ('b', '\x08'), ('f', '\x0c'), ('n', '\n'), ('r', '\r'), ('t', '\t'),
    ('v', '\x0b'), ('?', '?'), ('\\', '\\'), ('\'', '\''), ('"', '"')]

/-- `digits` are digits of the base, at most so many, with the value `n`; with `behind` after them
there are no more that could be taken. -/
structure DigitRun (base most : Nat) (digits : List Char) (n : Nat) (behind : List Char) :
    Prop where
  numeral : Numeral base digits n
  nonempty : digits ≠ []
  length_le : digits.length ≤ most
  greedy : digits.length < most → ∀ c ∈ behind.head?, ¬∃ d < base, Digit c d

/-- The text `escape` between a backslash and the text `behind` makes up an escape with the
backslash, and this stands for the given bytes or has no value. -/
inductive EscapeRule : List Char → List Char → Option (List UInt8) → Prop
  | simple {c d : Char} {behind : List Char} (mem : (c, d) ∈ simpleEscapes) :
      EscapeRule [c] behind (some (String.utf8EncodeChar d))
  | hexByte {x : Char} {digits behind : List Char} {n : Nat} (marker : x = 'x' ∨ x = 'X')
      (run : DigitRun 16 2 digits n behind) : EscapeRule (x :: digits) behind (some [n.toUInt8])
  | octalByte {digits behind : List Char} {n : Nat} (run : DigitRun 8 3 digits n behind)
      (fits : n ≤ 255) : EscapeRule digits behind (some [n.toUInt8])
  | octalTooLarge {digits behind : List Char} {n : Nat} (run : DigitRun 8 3 digits n behind)
      (large : 255 < n) : EscapeRule digits behind none
  | codePoint {u : Char} {size : Nat} {digits behind : List Char} {c : Char}
      (marker : (u, size) = ('u', 4) ∨ (u, size) = ('U', 8))
      (numeral : Numeral 16 digits c.toNat) (length : digits.length = size) :
      EscapeRule (u :: digits) behind (some (String.utf8EncodeChar c))
  | noCodePoint {u : Char} {size : Nat} {digits behind : List Char} {n : Nat}
      (marker : (u, size) = ('u', 4) ∨ (u, size) = ('U', 8)) (numeral : Numeral 16 digits n)
      (length : digits.length = size) (noScalar : ∀ c : Char, c.toNat ≠ n) :
      EscapeRule (u :: digits) behind none

namespace DigitRun

variable {base most n : Nat} {digits behind : List Char} {p : Char → Bool}

theorem take_eq (h : DigitRun base most digits n behind)
    (hp : ∀ c, p c = true ↔ ∃ d < base, Digit c d) (hbase : base ≤ 16) :
    ((digits ++ behind).take most).takeWhile p = digits ∧ ofDigits base digits = n := by
  obtain ⟨hdigits, hvalue⟩ := (numeral_iff hbase).1 h.numeral
  refine ⟨take_takeWhile_run (fun c hc => (hp c).2 (hdigits c hc)) h.length_le
    fun hlt c hc => ?_, hvalue⟩
  rw [← Bool.not_eq_true, hp]
  exact h.greedy hlt c hc

/-- As many digits as may be taken. -/
theorem of_length (h : Numeral base digits n) (hpos : 0 < most) (hlength : digits.length = most)
    (behind : List Char) : DigitRun base most digits n behind where
  numeral := h
  nonempty := List.length_pos_iff.1 (hlength ▸ hpos)
  length_le := Nat.le_of_eq hlength
  greedy hlt := absurd hlength (Nat.ne_of_lt hlt)

theorem of_text (hp : ∀ c, p c = true ↔ ∃ d < base, Digit c d) (hbase : base ≤ 16)
    {text : List Char} (hdigits : digits = (text.take most).takeWhile p) (hne : digits ≠ []) :
    DigitRun base most digits (ofDigits base digits) (text.drop digits.length) ∧
      text = digits ++ text.drop digits.length := by
  have hdigitsFirst : digits <+: text :=
    hdigits ▸ (List.takeWhile_prefix p).trans (List.take_prefix _ _)
  have hrun : ∀ c ∈ digits, p c = true := fun c hc => List.mem_takeWhile_imp (hdigits ▸ hc)
  refine ⟨⟨(numeral_iff hbase).2 ⟨fun c hc => (hp c).1 (hrun c hc), rfl⟩, hne, ?_, ?_⟩,
    List.prefix_iff_eq_append.1 hdigitsFirst |>.symm⟩
  · rw [hdigits]
    exact Nat.le_trans (List.takeWhile_prefix p).length_le (List.length_take_le _ _)
  · intro hlt c hc
    rw [hdigits] at hlt hc
    rw [← hp, head?_drop_takeWhile hlt c hc]
    exact Bool.false_ne_true

end DigitRun

/-- An escape of the given length with a value or without one. -/
def Escape.ofValue? : Option (List UInt8) → Nat → Escape
  | some bytes, length => .value bytes length
  | .none, length => .valueless length

theorem Escape.read_octal {c : Char} (hc : isOctalDigit c = true) (text : List Char) :
    read (c :: text) = octalByte (c :: text) := by
  have hmarker : ¬(c = 'x' ∨ c = 'X') ∧ c ≠ 'u' ∧ c ≠ 'U' := by
    refine ⟨?_, ?_, ?_⟩
    · rintro (rfl | rfl) <;> exact absurd hc (by decide)
    · rintro rfl
      exact absurd hc (by decide)
    · rintro rfl
      exact absurd hc (by decide)
  rw [read, if_neg hmarker.1, if_neg hmarker.2.1, if_neg hmarker.2.2, if_pos hc]

theorem Escape.read_codePoint {u : Char} {size : Nat}
    (h : (u, size) = ('u', 4) ∨ (u, size) = ('U', 8)) (text : List Char) :
    read (u :: text) = codePoint size text := by
  rcases h with h | h <;> cases h <;> rfl

theorem DigitRun.octalByte {digits behind : List Char} {n : Nat}
    (h : DigitRun 8 3 digits n behind) :
    Escape.read (digits ++ behind) = Escape.byte n digits.length := by
  obtain ⟨htake, hvalue⟩ := h.take_eq (p := isOctalDigit) (fun _ => isOctalDigit_iff) (by decide)
  cases digits with
  | nil => exact absurd rfl h.nonempty
  | cons c digits =>
    have hc : isOctalDigit c = true := isOctalDigit_iff.2
      (((numeral_iff (by decide)).1 h.numeral).1 c List.mem_cons_self)
    rw [List.cons_append] at htake ⊢
    rw [Escape.read_octal hc, Escape.octalByte, htake]
    simp only [hvalue]

theorem Numeral.codePoint {u : Char} {size n : Nat} {digits : List Char}
    (h : Numeral 16 digits n) (hlength : digits.length = size)
    (hmarker : (u, size) = ('u', 4) ∨ (u, size) = ('U', 8)) (behind : List Char) :
    Escape.read (u :: digits ++ behind) = Escape.char n (size + 1) := by
  obtain ⟨hdigits, hvalue⟩ := (numeral_iff (by decide)).1 h
  have htake : ((digits ++ behind).take size).takeWhile isHexDigit = digits :=
    take_takeWhile_run (fun c hc => isHexDigit_iff.2 (hdigits c hc)) (Nat.le_of_eq hlength)
      fun hlt => absurd hlength (Nat.ne_of_lt hlt)
  simp only [List.cons_append, Escape.read_codePoint hmarker, Escape.codePoint, htake, hvalue,
    if_pos hlength]

theorem toNat_ofNat {n : Nat} (h : n.isValidChar) : (Char.ofNat n).toNat = n := by
  rw [Char.ofNat, dif_pos h]
  rfl

/-- The reader takes what the rule says is an escape for that escape. -/
theorem EscapeRule.read {escape behind : List Char} {value? : Option (List UInt8)}
    (h : EscapeRule escape behind value?) :
    Escape.read (escape ++ behind) = .ofValue? value? escape.length := by
  cases h with
  | @simple c d _ mem =>
    simp only [simpleEscapes, List.mem_cons, List.not_mem_nil, or_false, Prod.mk.injEq] at mem
    rcases mem with ⟨rfl, rfl⟩ | ⟨rfl, rfl⟩ | ⟨rfl, rfl⟩ | ⟨rfl, rfl⟩ | ⟨rfl, rfl⟩ | ⟨rfl, rfl⟩ |
      ⟨rfl, rfl⟩ | ⟨rfl, rfl⟩ | ⟨rfl, rfl⟩ | ⟨rfl, rfl⟩ | ⟨rfl, rfl⟩ <;> rfl
  | @hexByte x digits _ n marker run =>
    obtain ⟨htake, hvalue⟩ := run.take_eq (p := isHexDigit) (fun _ => isHexDigit_iff) (by decide)
    have hfits : n < 256 :=
      Nat.lt_of_lt_of_le run.numeral.lt_pow (Nat.pow_le_pow_right (by decide) run.length_le)
    rw [List.cons_append, Escape.read, if_pos marker, Escape.hexByte, htake,
      List.isEmpty_eq_false_iff.2 run.nonempty, hvalue, Escape.byte, if_pos hfits]
    rfl
  | octalByte run fits => rw [run.octalByte, Escape.byte, if_pos (Nat.lt_succ_of_le fits)]; rfl
  | octalTooLarge run large => rw [run.octalByte, Escape.byte, if_neg (by omega)]; rfl
  | @codePoint u size digits _ c marker numeral length =>
    have hvalid : c.toNat.isValidChar := c.valid
    rw [numeral.codePoint length marker, Escape.char, if_pos hvalid, Char.ofNat_toNat, ← length]
    rfl
  | @noCodePoint u size digits _ n marker numeral length noScalar =>
    have hvalid : ¬n.isValidChar := fun hvalid =>
      noScalar (Char.ofNat n) (toNat_ofNat hvalid)
    rw [numeral.codePoint length marker, Escape.char, if_neg hvalid, ← length]
    rfl

theorem mem_simpleEscapes {c : Char} {b : UInt8} (h : Escape.simple? c = some b) :
    ∃ d, (c, d) ∈ simpleEscapes := by
  unfold Escape.simple? at h
  split at h <;> simp [simpleEscapes] at h ⊢

/-! ### Every escape that is read is one by the rule -/

theorem EscapeRule.exists_of_hexByte {c : Char} {text : List Char} (marker : c = 'x' ∨ c = 'X')
    (h : Escape.hexByte text ≠ .none) :
    ∃ escape behind value?, c :: text = escape ++ behind ∧ EscapeRule escape behind value? := by
  have hne : (text.take 2).takeWhile isHexDigit ≠ [] := by
    intro hnil
    rw [Escape.hexByte, hnil] at h
    exact h rfl
  obtain ⟨hrun, htext⟩ := DigitRun.of_text (fun _ => isHexDigit_iff) (by decide) rfl hne
  exact ⟨_, _, _, congrArg (c :: ·) htext, .hexByte marker hrun⟩

theorem EscapeRule.exists_of_codePoint {c : Char} {size : Nat} {text : List Char}
    (marker : (c, size) = ('u', 4) ∨ (c, size) = ('U', 8))
    (h : Escape.codePoint size text ≠ .none) :
    ∃ escape behind value?, c :: text = escape ++ behind ∧ EscapeRule escape behind value? := by
  rw [Escape.codePoint] at h
  have hlength : ((text.take size).takeWhile isHexDigit).length = size :=
    Decidable.byContradiction fun hlength => h (if_neg hlength)
  have hne : (text.take size).takeWhile isHexDigit ≠ [] := by
    intro hnil
    rw [hnil] at hlength
    rcases marker with hu | hu <;> cases hu <;> cases hlength
  obtain ⟨hrun, htext⟩ := DigitRun.of_text (fun _ => isHexDigit_iff) (by decide) rfl hne
  by_cases hscalar : ∃ s : Char, s.toNat = ofDigits 16 ((text.take size).takeWhile isHexDigit)
  · obtain ⟨s, hs⟩ := hscalar
    exact ⟨_, _, _, congrArg (c :: ·) htext, .codePoint marker (hs ▸ hrun.numeral) hlength⟩
  · exact ⟨_, _, _, congrArg (c :: ·) htext,
      .noCodePoint marker hrun.numeral hlength (not_exists.1 hscalar)⟩

theorem EscapeRule.exists_of_octal {c : Char} (hoctal : isOctalDigit c = true)
    (text : List Char) :
    ∃ escape behind value?, c :: text = escape ++ behind ∧ EscapeRule escape behind value? := by
  have hne : ((c :: text).take 3).takeWhile isOctalDigit ≠ [] := by
    rw [List.take_succ_cons, List.takeWhile_cons_of_pos hoctal]
    exact List.cons_ne_nil _ _
  obtain ⟨hrun, htext⟩ := DigitRun.of_text (fun _ => isOctalDigit_iff) (by decide) rfl hne
  by_cases hfits : ofDigits 8 (((c :: text).take 3).takeWhile isOctalDigit) ≤ 255
  · exact ⟨_, _, _, htext, .octalByte hrun hfits⟩
  · exact ⟨_, _, _, htext, .octalTooLarge hrun (Nat.lt_of_not_le hfits)⟩

theorem EscapeRule.exists_of_read {text : List Char} (h : Escape.read text ≠ .none) :
    ∃ escape behind value?, text = escape ++ behind ∧ EscapeRule escape behind value? := by
  cases text with
  | nil => exact absurd rfl h
  | cons c text =>
    by_cases hx : c = 'x' ∨ c = 'X'
    · rw [Escape.read, if_pos hx] at h
      exact exists_of_hexByte hx h
    by_cases hu : ∃ size, (c, size) = ('u', 4) ∨ (c, size) = ('U', 8)
    · obtain ⟨size, hu⟩ := hu
      rw [Escape.read_codePoint hu] at h
      exact exists_of_codePoint hu h
    by_cases hoctal : isOctalDigit c = true
    · exact exists_of_octal hoctal text
    have hu4 : c ≠ 'u' := fun hc => hu ⟨4, .inl (hc ▸ rfl)⟩
    have hu8 : c ≠ 'U' := fun hc => hu ⟨8, .inr (hc ▸ rfl)⟩
    rw [Escape.read, if_neg hx, if_neg hu4, if_neg hu8, if_neg hoctal] at h
    cases hsimple : Escape.simple? c with
    | none =>
      rw [hsimple] at h
      exact absurd rfl h
    | some b =>
      obtain ⟨d, hd⟩ := mem_simpleEscapes hsimple
      exact ⟨[c], text, _, rfl, .simple hd⟩

/-! ## Pieces of a literal -/

/-- A piece of a string literal with the bytes that it stands for, unless it is faulty. -/
structure StringPiece where
  text : List Char
  value? : Option (List UInt8)

/-- The bytes that a piece stands for; a faulty one stands for none. -/
def StringPiece.bytes (p : StringPiece) : List UInt8 := p.value?.getD []

/-- Whether a character stands for itself in every literal. -/
def isPlain (c : Char) : Bool := c ∉ ['\x00', '\n', '\\', '\'', '"']

theorem isPlain_iff {c : Char} : isPlain c = true ↔
    c ≠ '\x00' ∧ c ≠ '\n' ∧ c ≠ '\\' ∧ c ≠ '\'' ∧ c ≠ '"' := by
  simp [isPlain]

/-- `PieceRule quote piece behind`: with `behind` after it, this is one piece of a literal between
quotes of this kind. -/
inductive PieceRule (quote : Char) : StringPiece → List Char → Prop
  | plain {run behind : List Char} (nonempty : run ≠ []) (plain : ∀ c ∈ run, isPlain c = true)
      (maximal : ∀ c ∈ behind.head?, isPlain c = false) :
      PieceRule quote ⟨run, some (Checked.utf8 run)⟩ behind
  | otherQuote {c : Char} {behind : List Char} (isQuote : c = '"' ∨ c = '\'') (other : c ≠ quote) :
      PieceRule quote ⟨[c], some (Checked.utf8 [c])⟩ behind
  | escape {escape behind : List Char} {value? : Option (List UInt8)}
      (rule : EscapeRule escape behind value?) : PieceRule quote ⟨'\\' :: escape, value?⟩ behind
  | backslash {behind : List Char}
      (noEscape : ∀ escape rest value?, behind = escape ++ rest → ¬EscapeRule escape rest value?) :
      PieceRule quote ⟨['\\'], none⟩ behind
  | zero {behind : List Char} : PieceRule quote ⟨['\x00'], none⟩ behind

/-- What ends a literal. -/
inductive LiteralEnd where
  | quote | newline | source
  deriving DecidableEq

/-- The characters of an end. -/
def LiteralEnd.text (quote : Char) : LiteralEnd → List Char
  | .quote => [quote]
  | .newline => ['\n']
  | .source => []

/-- `StringScan quote text pieces ending rest`: behind an opening quote, the text is scanned into
these pieces up to the end of the literal, behind which there is `rest`. -/
inductive StringScan (quote : Char) :
    List Char → List StringPiece → LiteralEnd → List Char → Prop
  | quote {rest : List Char} : StringScan quote (quote :: rest) [] .quote rest
  | newline {rest : List Char} : StringScan quote ('\n' :: rest) [] .newline rest
  | source : StringScan quote [] [] .source []
  | piece {p : StringPiece} {behind rest : List Char} {ps : List StringPiece} {ending : LiteralEnd}
      (rule : PieceRule quote p behind) (scan : StringScan quote behind ps ending rest) :
      StringScan quote (p.text ++ behind) (p :: ps) ending rest

/-- Where a literal does not end there is a piece of it. -/
theorem PieceRule.exists {quote c : Char} (hend : c ≠ quote) (hnewline : c ≠ '\n')
    (text : List Char) : ∃ p behind, PieceRule quote p behind ∧ c :: text = p.text ++ behind ∧
      0 < p.text.length := by
  by_cases hzero : c = '\x00'
  · exact ⟨_, text, .zero, by rw [hzero]; rfl, Nat.one_pos⟩
  by_cases hbackslash : c = '\\'
  · subst hbackslash
    by_cases hescape : ∃ escape rest value?, text = escape ++ rest ∧ EscapeRule escape rest value?
    · obtain ⟨escape, rest, value?, rfl, hrule⟩ := hescape
      exact ⟨_, rest, .escape hrule, rfl, Nat.succ_pos _⟩
    · refine ⟨_, text, .backslash fun escape rest value? htext hrule => ?_, rfl, Nat.one_pos⟩
      exact hescape ⟨escape, rest, value?, htext, hrule⟩
  by_cases hquotes : c = '"' ∨ c = '\''
  · exact ⟨_, text, .otherQuote hquotes hend, rfl, Nat.one_pos⟩
  rw [not_or] at hquotes
  have hplain : isPlain c = true :=
    isPlain_iff.2 ⟨hzero, hnewline, hbackslash, hquotes.2, hquotes.1⟩
  have hne : (c :: text).takeWhile isPlain ≠ [] := by
    rw [List.takeWhile_cons_of_pos hplain]
    exact List.cons_ne_nil _ _
  have hstop : ∀ d ∈ ((c :: text).dropWhile isPlain).head?, isPlain d = false := by
    intro d hd
    have hnot := List.head?_dropWhile_not isPlain (c :: text)
    rw [hd] at hnot
    exact hnot
  exact ⟨_, _, .plain hne (fun d hd => List.mem_takeWhile_imp hd) hstop,
    List.takeWhile_append_dropWhile.symm, List.length_pos_iff.2 hne⟩

/-- Every text behind a quote is scanned. -/
theorem StringScan.exists (quote : Char) (text : List Char) :
    ∃ ps ending rest, StringScan quote text ps ending rest := by
  induction hn : text.length using Nat.strongRecOn generalizing text with | ind n ih
  cases text with
  | nil => exact ⟨[], .source, [], .source⟩
  | cons c text =>
    by_cases hend : c = quote
    · subst hend
      exact ⟨[], .quote, text, .quote⟩
    by_cases hnewline : c = '\n'
    · subst hnewline
      exact ⟨[], .newline, text, .newline⟩
    obtain ⟨p, behind, hrule, htext, hpos⟩ := PieceRule.exists hend hnewline text
    rw [htext] at hn ⊢
    obtain ⟨ps, ending, rest, hscan⟩ :=
      ih behind.length (by rw [← hn, List.length_append]; omega) behind rfl
    exact ⟨p :: ps, ending, rest, .piece hrule hscan⟩

/-! ## Reading a scan -/

namespace StringBody

theorem prepend_nil (b : StringBody) : b.prepend 0 [] [] = b := by
  rw [prepend, Nat.zero_add]
  rfl

theorem prepend_prepend (m n : Nat) (as bs : List UInt8) (fs gs : List LexicalFault)
    (b : StringBody) :
    (b.prepend n bs gs).prepend m as fs = b.prepend (m + n) (as ++ bs) (fs ++ gs) := by
  simp only [prepend, Nat.add_assoc, List.append_assoc]

variable {quote : Char} (opening offset : Nat)

theorem read_content {c : Char} (hquote : c ≠ quote) (hnewline : c ≠ '\n') (hzero : c ≠ '\x00')
    (hbackslash : c ≠ '\\') (text : List Char) : read quote opening offset (c :: text) =
      (read quote opening (offset + c.utf8Size) text).prepend 1 (Checked.utf8 [c]) [] := by
  rw [read, if_neg hquote, if_neg hnewline, if_neg hzero, if_neg hbackslash, Checked.utf8,
    List.flatMap_singleton]

theorem read_plain (hquote : quote = '"' ∨ quote = '\'') {run : List Char}
    (hrun : ∀ c ∈ run, isPlain c = true) (behind : List Char) :
    read quote opening offset (run ++ behind) =
      (read quote opening (offset + byteLength run) behind).prepend run.length
        (Checked.utf8 run) [] := by
  induction run generalizing offset with
  | nil => exact (prepend_nil _).symm
  | cons c run ih =>
    obtain ⟨hc, hrun⟩ := List.forall_mem_cons.1 hrun
    obtain ⟨hzero, hnewline, hbackslash, hsingle, hdouble⟩ := isPlain_iff.1 hc
    have hend : c ≠ quote := by
      rcases hquote with rfl | rfl
      · exact hdouble
      · exact hsingle
    rw [List.cons_append, read_content opening offset hend hnewline hzero hbackslash, ih _ hrun,
      prepend_prepend, Nat.add_comm 1, byteLength_cons, Nat.add_assoc, Checked.utf8, Checked.utf8,
      ← List.flatMap_append]
    rfl

theorem read_escape (hquote : quote = '"' ∨ quote = '\'') {escape behind : List Char}
    {value? : Option (List UInt8)} (h : EscapeRule escape behind value?) :
    read quote opening offset ('\\' :: (escape ++ behind)) =
      (read quote opening (offset + 1 + escape.length) behind).prepend (escape.length + 1)
        (value?.getD []) (if value?.isSome then [] else
          [⟨.invalidStringEscape, ⟨offset, offset + 1 + escape.length⟩⟩]) := by
  have hend : '\\' ≠ quote := by
    rcases hquote with rfl | rfl <;> decide
  rw [read, if_neg hend, if_neg (by decide), if_neg (by decide), if_pos rfl, h.read]
  cases value? with
  | none =>
    dsimp only [Escape.ofValue?]
    rw [List.drop_left, Nat.add_comm 1 escape.length]
    rfl
  | some bytes =>
    dsimp only [Escape.ofValue?]
    rw [List.drop_left, Nat.add_comm 1 escape.length]
    rfl

end StringBody

/-- A piece contributes its bytes, and a fault exactly if it is faulty. -/
theorem PieceRule.read {quote : Char} (hquote : quote = '"' ∨ quote = '\'') {p : StringPiece}
    {behind : List Char} (h : PieceRule quote p behind) (opening offset : Nat) :
    ∃ offset' faults, (faults = [] ↔ p.value? ≠ none) ∧
      StringBody.read quote opening offset (p.text ++ behind) =
        (StringBody.read quote opening offset' behind).prepend p.text.length p.bytes faults := by
  have hbackslash : '\\' ≠ quote := by
    rcases hquote with rfl | rfl <;> decide
  have hzero : '\x00' ≠ quote := by
    rcases hquote with rfl | rfl <;> decide
  cases h with
  | @plain run _ nonempty plain maximal =>
    exact ⟨_, [], by simp, StringBody.read_plain opening offset hquote plain behind⟩
  | @otherQuote c _ isQuote other =>
    refine ⟨_, [], by simp, StringBody.read_content opening offset other ?_ ?_ ?_ behind⟩ <;>
      rcases isQuote with rfl | rfl <;> decide
  | @escape escape _ value? rule =>
    refine ⟨_, _, ?_, StringBody.read_escape opening offset hquote rule⟩
    cases value? <;> simp
  | backslash noEscape =>
    have hnone : Escape.read behind = .none := by
      refine Decidable.byContradiction fun hread => ?_
      obtain ⟨escape, rest, value?, htext, hrule⟩ := EscapeRule.exists_of_read hread
      exact noEscape escape rest value? htext hrule
    rw [List.singleton_append, StringBody.read, if_neg hbackslash, if_neg (by decide),
      if_neg (by decide), if_pos rfl, hnone]
    exact ⟨_, _, by simp, rfl⟩
  | zero =>
    rw [List.singleton_append, StringBody.read, if_neg hzero, if_neg (by decide), if_pos rfl]
    exact ⟨_, _, by simp, rfl⟩

/-- The reader finds the bytes of the pieces and reads to the end of the literal, and it finds
a fault unless every piece has bytes and the literal ends with its quote. -/
theorem StringScan.read {quote : Char} (hquote : quote = '"' ∨ quote = '\'') {text rest : List Char}
    {ps : List StringPiece} {ending : LiteralEnd} (h : StringScan quote text ps ending rest)
    (opening offset : Nat) :
    (StringBody.read quote opening offset text).bytes = ps.flatMap StringPiece.bytes ∧
      ((StringBody.read quote opening offset text).faults = [] ↔
        ending = .quote ∧ ∀ p ∈ ps, p.value? ≠ none) ∧
      text.take (StringBody.read quote opening offset text).length =
        ps.flatMap StringPiece.text ++ ending.text quote ∧
      text = ps.flatMap StringPiece.text ++ ending.text quote ++ rest := by
  have hnewline : '\n' ≠ quote := by
    rcases hquote with rfl | rfl <;> decide
  induction h generalizing offset with
  | quote =>
    rw [StringBody.read, if_pos rfl]
    simp [LiteralEnd.text]
  | newline =>
    rw [StringBody.read, if_neg hnewline, if_pos rfl]
    simp [LiteralEnd.text]
  | source =>
    rw [StringBody.read]
    simp [LiteralEnd.text]
  | @piece p behind rest ps ending rule _ ih =>
    obtain ⟨offset', faults, hfaults, hread⟩ := rule.read hquote opening offset
    obtain ⟨hbytes, hnone, htake, htext⟩ := ih offset'
    rw [hread, StringBody.prepend]
    refine ⟨?_, ?_, ?_, ?_⟩
    · rw [List.flatMap_cons, ← hbytes]
    · rw [List.append_eq_nil_iff, hfaults, hnone, List.forall_mem_cons, and_left_comm]
    · rw [List.take_length_add_append, htake, List.flatMap_cons, List.append_assoc]
    · rw [htext]
      simp

end ProtoSchema
