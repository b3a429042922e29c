import Mathlib
import ProtoSchema.Proofs.Lexing.Lines
import ProtoSchema.Proofs.Lexing.Longest
import ProtoSchema.Proofs.Literals.StringLiteral

/-
  Tokens that are written. `Written` says in which ways a word, a punctuation character, an integer
  or a string may be written, whatever reads it. Lexemes that are written in one of these ways, with
  layout between any two of them, are the tokens of the source that they make up
  (`tokenize_written`).
-/

namespace ProtoSchema

/-! ## Ways to write a token -/

/-- A letter or underscore, then letters, digits and underscores. -/
inductive WordText : List Char → Prop
  | mk {c : Char} {cs : List Char} (first : c.isAlpha = true ∨ c = '_')
      (others : ∀ d ∈ cs, d.isAlphanum = true ∨ d = '_') : WordText (c :: cs)

/-- Whether a text is a word can be found out character by character. -/
theorem WordText.of_all {c : Char} {cs : List Char} (first : c.isAlpha = true ∨ c = '_')
    (others : (cs.all fun d => decide (d.isAlphanum = true ∨ d = '_')) = true) :
    WordText (c :: cs) :=
  .mk first fun d hd => of_decide_eq_true (List.all_eq_true.1 others d hd)

/-- The text is the given one but for the case of its letters. -/
def SameIgnoringCase (text : List Char) (lower : String) : Prop :=
  text.map Char.toLower = lower.toList

instance (text : List Char) (lower : String) : Decidable (SameIgnoringCase text lower) :=
  inferInstanceAs (Decidable (_ = _))

/-- What a word stands for: a truth value or null in any case, else a keyword with this spelling,
else an identifier. -/
inductive WordWritten (text : List Char) : Word → Prop
  | bool (b : Bool) (same : SameIgnoringCase text (if b then "true" else "false")) :
      WordWritten text (.bool b)
  | null (same : SameIgnoringCase text "null") : WordWritten text .null
  | keyword {k : Keyword} (noLiteral : ∀ s ∈ ["true", "false", "null"], ¬SameIgnoringCase text s)
      (spelled : text = k.text.toList) : WordWritten text (.keyword k)
  | ident (noLiteral : ∀ s ∈ ["true", "false", "null"], ¬SameIgnoringCase text s)
      (noKeyword : ∀ k : Keyword, text ≠ k.text.toList) :
      WordWritten text (.ident (String.ofList text))

/-- A natural number in decimal or hexadecimal, with any number of leading zeros. -/
inductive MagnitudeWritten : List Char → Nat → Prop
  | decimal {digits : List Char} {n : Nat} (numeral : Numeral 10 digits n)
      (nonempty : digits ≠ []) :
      MagnitudeWritten digits n
  | hex {x : Char} {digits : List Char} {n : Nat} (marker : x = 'x' ∨ x = 'X')
      (numeral : Numeral 16 digits n) (nonempty : digits ≠ []) :
      MagnitudeWritten ('0' :: x :: digits) n

/-- An integer, with a minus sign or without. -/
inductive IntWritten : List Char → Int → Prop
  | pos {text : List Char} {n : Nat} (magnitude : MagnitudeWritten text n) : IntWritten text n
  | neg {text : List Char} {n : Nat} (magnitude : MagnitudeWritten text n) :
      IntWritten ('-' :: text) (-n)

/-- A byte as an escape of two hexadecimal or three octal digits. -/
inductive ByteWritten (b : UInt8) : List Char → Prop
  | hex {x : Char} {digits : List Char} (marker : x = 'x' ∨ x = 'X')
      (numeral : Numeral 16 digits b.toNat) (length : digits.length = 2) :
      ByteWritten b ('\\' :: x :: digits)
  | octal {digits : List Char} (numeral : Numeral 8 digits b.toNat) (length : digits.length = 3) :
      ByteWritten b ('\\' :: digits)

/-- A character between quotes: itself, an escape of one letter, escapes of the bytes of its UTF-8
form, or an escape of its code point in four or eight digits. -/
inductive CharWritten (quote c : Char) : List Char → Prop
  | itself (notZero : c ≠ '\x00') (notNewline : c ≠ '\n') (notBackslash : c ≠ '\\')
      (notQuote : c ≠ quote) : CharWritten quote c [c]
  | simple {letter : Char} (mem : (letter, c) ∈ simpleEscapes) : CharWritten quote c ['\\', letter]
  | bytes {texts : List (List Char)}
      (written : List.Forall₂ ByteWritten (String.utf8EncodeChar c) texts) :
      CharWritten quote c texts.flatten
  | codePoint {u : Char} {size : Nat} {digits : List Char}
      (marker : (u, size) = ('u', 4) ∨ (u, size) = ('U', 8)) (numeral : Numeral 16 digits c.toNat)
      (length : digits.length = size) : CharWritten quote c ('\\' :: u :: digits)

/-- A token as it may be written. -/
inductive Written : Token → List Char → Prop
  | word {text : List Char} {w : Word} (isWord : WordText text) (word : WordWritten text w) :
      Written (.word w) text
  | punct (p : Punct) : Written (.punct p) [p.char]
  | int {text : List Char} {n : Int} (written : IntWritten text n) (ge : -2 ^ 63 ≤ n)
      (lt : n < 2 ^ 63) : Written (.int n) text
  | string {quote : Char} {value : String} {texts : List (List Char)}
      (isQuote : quote = '"' ∨ quote = '\'')
      (written : List.Forall₂ (CharWritten quote) value.toList texts) :
      Written (.string value) (quote :: (texts.flatten ++ [quote]))

/-! ## Words -/

/-- Where keywords may stand, a word is read as what it stands for. -/
theorem WordWritten.ofSpelling {text : List Char} {w : Word} (h : WordWritten text w)
    {before : Option Char} (hbefore : ∀ k : Keyword, k.follows before = true) :
    Word.ofSpelling before text = w := by
  have hliteral (hno : ∀ s ∈ ["true", "false", "null"], ¬SameIgnoringCase text s) :
      Word.ofSpelling before text = (Keyword.ofText? (String.ofList text)).elim
        (.ident (String.ofList text)) fun k =>
          if k.follows before then .keyword k else .ident (String.ofList text) := by
    simp only [List.forall_mem_cons, SameIgnoringCase] at hno
    obtain ⟨htrue, hfalse, hnull, -⟩ := hno
    refine (if_neg htrue).trans ((if_neg hfalse).trans ((if_neg hnull).trans ?_))
    cases Keyword.ofText? (String.ofList text) <;> rfl
  cases h with
  | bool b same =>
    cases b with
    | true => exact if_pos same
    | false =>
      replace same : text.map Char.toLower = "false".toList := same
      rw [Word.ofSpelling, if_neg (by rw [same]; decide), if_pos same]
  | null same =>
    rw [SameIgnoringCase] at same
    rw [Word.ofSpelling, if_neg (by rw [same]; decide), if_neg (by rw [same]; decide), if_pos same]
  | @keyword k noLiteral spelled =>
    rw [hliteral noLiteral, spelled, String.ofList_toList, Keyword.ofText?_text]
    exact if_pos (hbefore k)
  | ident noLiteral noKeyword =>
    rw [hliteral noLiteral]
    cases hk : Keyword.ofText? (String.ofList text) with
    | none => rfl
    | some k =>
      have hspelled := congrArg String.toList (Keyword.text_of_ofText? hk)
      rw [String.toList_ofList] at hspelled
      exact absurd hspelled.symm (noKeyword k)

theorem isDigit_of_isWordStart {c : Char} (h : isWordStart c = true) : c.isDigit = false := by
  simp only [isWordStart, Char.isAlpha, Char.isUpper, Char.isLower, Bool.or_eq_true,
    Bool.and_eq_true, decide_eq_true_eq, beq_iff_eq, UInt32.le_iff_toNat_le, ge_iff_le] at h
  rw [Bool.eq_false_iff]
  intro hdigit
  simp only [Char.isDigit, Bool.and_eq_true, decide_eq_true_eq, UInt32.le_iff_toNat_le,
    ge_iff_le] at hdigit
  rcases h with (⟨h, -⟩ | ⟨h, -⟩) | rfl
  · exact absurd (Nat.le_trans h hdigit.2) (by decide)
  · exact absurd (Nat.le_trans h hdigit.2) (by decide)
  · exact absurd hdigit.2 (by decide)

/-- Only a word starts with a letter or an underscore. -/
theorem Pattern.starts_wordStart {p : Pattern} {c : Char} (hc : isWordStart c = true)
    (h : p.starts c = true) : p = .word := by
  have hne {d : Char} (hd : isWordStart d = false) : c ≠ d := by
    rintro rfl
    rw [hc] at hd
    cases hd
  have hdigit := isDigit_of_isWordStart hc
  cases p with
  | word => rfl
  | punct p =>
    refine absurd (beq_iff_eq.1 h) (hne ?_)
    cases p <;> decide
  | _ => simp [starts, hdigit, hne (show isWordStart '-' = false by decide),
      hne (show isWordStart '0' = false by decide), hne (show isWordStart '.' = false by decide),
      hne (show isWordStart '"' = false by decide), hne (show isWordStart '\'' = false by decide),
      hne (show isWordStart '/' = false by decide)] at h

theorem WordText.longest? {text : List Char} (h : WordText text) :
    Pattern.longest? text = some (.word, text.length) := by
  obtain ⟨first, others⟩ := h
  rename_i c cs
  have hstart : isWordStart c = true := by simpa [isWordStart] using first
  have hothers : cs.takeWhile isWordChar = cs :=
    List.takeWhile_eq_self_iff.2 fun d hd => by simpa [isWordChar] using others d hd
  refine Pattern.longest?_of_starts (fun q => Pattern.starts_wordStart hstart) ?_ (Nat.succ_pos _)
  rw [Pattern.length, wordLength, if_pos hstart, runLength, hothers]
  rfl

/-! ## Integers -/

/-- Only a number starts with a sign or a digit. -/
theorem Pattern.starts_number {p : Pattern} {c : Char} (hc : c = '-' ∨ c.isDigit = true)
    (h : p.starts c = true) : p = .integer ∨ p = .hexInteger ∨ p = .float := by
  have hne {d : Char} (hd : ¬(d = '-' ∨ d.isDigit = true)) : c ≠ d := by
    rintro rfl
    exact hd hc
  cases p with
  | integer => exact .inl rfl
  | hexInteger => exact .inr (.inl rfl)
  | float => exact .inr (.inr rfl)
  | word =>
    rcases hc with rfl | hc
    · exact absurd h (by decide)
    · rw [isDigit_of_isWordStart h] at hc
      cases hc
  | punct p =>
    refine absurd (beq_iff_eq.1 h) (hne ?_)
    cases p <;> decide
  | _ => simp [starts, hne (show ¬('"' = '-' ∨ '"'.isDigit = true) by decide),
      hne (show ¬('\'' = '-' ∨ '\''.isDigit = true) by decide),
      hne (show ¬('/' = '-' ∨ '/'.isDigit = true) by decide)] at h

/-- `whole` is `text`, which starts with a digit, or `text` with a minus sign. -/
inductive Signed (text : List Char) : List Char → Prop
  | pos (digit : ∃ c cs, text = c :: cs ∧ c.isDigit = true) : Signed text text
  | neg (digit : ∃ c cs, text = c :: cs ∧ c.isDigit = true) : Signed text ('-' :: text)

theorem hexMagnitudeLength_decimal {digits : List Char}
    (hdigits : ∀ c ∈ digits, c.isDigit = true) : hexMagnitudeLength digits = 0 := by
  match digits with
  | [] => rfl
  | [c] => simp [hexMagnitudeLength]
  | c :: x :: others =>
    have hdigit := hdigits x (by simp)
    have hx : ¬(x = 'x' ∨ x = 'X') := by
      rintro (rfl | rfl) <;> exact absurd hdigit (by decide)
    unfold hexMagnitudeLength
    split
    · next heq =>
      cases heq
      exact if_neg (not_and_of_not_left _ hx)
    · rfl

theorem hexMagnitudeLength_hex {x : Char} {digits : List Char} (hx : x = 'x' ∨ x = 'X')
    (hdigits : ∀ c ∈ digits, isHexDigit c = true) (hne : digits ≠ []) :
    hexMagnitudeLength ('0' :: x :: digits) = digits.length + 2 := by
  have hrun : runLength isHexDigit digits = digits.length := by
    rw [runLength, List.takeWhile_eq_self_iff.2 hdigits]
  have hpos : digits.length ≠ 0 := mt List.length_eq_zero_iff.1 hne
  simp only [hexMagnitudeLength, hrun, if_pos (And.intro hx hpos)]

namespace Signed

variable {text whole : List Char}

theorem head (h : Signed text whole) : ∃ c cs, whole = c :: cs ∧ (c = '-' ∨ c.isDigit = true) := by
  cases h with
  | pos digit =>
    obtain ⟨c, cs, rfl, hc⟩ := digit
    exact ⟨c, cs, rfl, .inr hc⟩
  | neg digit => exact ⟨'-', text, rfl, .inl rfl⟩

theorem signLength_of_digit (digit : ∃ c cs, text = c :: cs ∧ c.isDigit = true) :
    signLength text = 0 := by
  obtain ⟨c, cs, rfl, hc⟩ := digit
  refine Pattern.signLength_of_ne ?_ cs
  rintro rfl
  cases hc

theorem drop_sign (h : Signed text whole) :
    whole.drop (signLength whole) = text ∧ whole.length = signLength whole + text.length := by
  cases h with
  | pos digit =>
    rw [signLength_of_digit digit]
    exact ⟨rfl, (Nat.zero_add _).symm⟩
  | neg digit => exact ⟨rfl, Nat.add_comm _ _⟩

/-- A number is read by the pattern of numbers that matches all of it. -/
theorem longest? (h : Signed text whole) {p : Pattern} (hp : p.length whole = whole.length)
    (hothers : ∀ q ∈ [Pattern.integer, .hexInteger, .float], q ≠ p →
      q.length whole < whole.length) :
    Pattern.longest? whole = some (p, whole.length) := by
  obtain ⟨c, cs, rfl, hc⟩ := h.head
  refine Pattern.longest?_of_lt hp (Nat.succ_pos _) fun q hq => ?_
  cases hstarts : q.starts c with
  | false =>
    rw [Pattern.length_of_not_starts hstarts]
    exact Nat.succ_pos _
  | true =>
    refine hothers q ?_ hq
    rcases Pattern.starts_number hc hstarts with rfl | rfl | rfl <;> decide

theorem length_pos (h : Signed text whole) : 0 < whole.length := by
  obtain ⟨c, cs, rfl, -⟩ := h.head
  exact Nat.succ_pos _

theorem longest?_decimal (h : Signed text whole) (hdigits : ∀ c ∈ text, c.isDigit = true)
    (hne : text ≠ []) : Pattern.longest? whole = some (.integer, whole.length) := by
  obtain ⟨hdrop, hlength⟩ := h.drop_sign
  have hrun : runLength Char.isDigit text = text.length := by
    rw [runLength, List.takeWhile_eq_self_iff.2 hdigits]
  have hinteger : integerLength whole = whole.length := by
    unfold integerLength
    dsimp only
    rw [hdrop, hrun, if_neg (mt List.length_eq_zero_iff.1 hne), hlength]
  have hhex : hexLength whole = 0 := by
    unfold hexLength
    dsimp only
    rw [hdrop, hexMagnitudeLength_decimal hdigits, if_pos rfl]
  have hfloat : floatLength whole = 0 := by
    unfold floatLength
    dsimp only
    rw [hdrop, hrun, ← List.drop_drop, hdrop, List.drop_length]
    rfl
  refine h.longest? hinteger fun q hq hne => ?_
  simp only [List.mem_cons, List.not_mem_nil, or_false] at hq
  rcases hq with rfl | rfl | rfl
  · exact absurd rfl hne
  · exact Nat.lt_of_le_of_lt (Nat.le_of_eq hhex) h.length_pos
  · exact Nat.lt_of_le_of_lt (Nat.le_of_eq hfloat) h.length_pos

theorem longest?_hex {x : Char} {digits : List Char} (h : Signed ('0' :: x :: digits) whole)
    (hx : x = 'x' ∨ x = 'X') (hdigits : ∀ c ∈ digits, isHexDigit c = true) (hne : digits ≠ []) :
    Pattern.longest? whole = some (.hexInteger, whole.length) := by
  obtain ⟨hdrop, hlength⟩ := h.drop_sign
  have hone : runLength Char.isDigit ('0' :: x :: digits) = 1 := by
    rcases hx with rfl | rfl <;> rfl
  have hinteger : integerLength whole < whole.length := by
    unfold integerLength
    dsimp only
    rw [hdrop, hone, if_neg Nat.one_ne_zero, hlength]
    simp
  have hhex : hexLength whole = whole.length := by
    unfold hexLength
    dsimp only
    rw [hdrop, hexMagnitudeLength_hex hx hdigits hne, if_neg (Nat.succ_ne_zero _), hlength]
    rfl
  have hfloat : floatLength whole = 0 := by
    unfold floatLength
    dsimp only
    rw [hdrop, hone, ← List.drop_drop, hdrop]
    rcases hx with rfl | rfl <;> rfl
  refine h.longest? hhex fun q hq hne => ?_
  simp only [List.mem_cons, List.not_mem_nil, or_false] at hq
  rcases hq with rfl | rfl | rfl
  · exact hinteger
  · exact absurd rfl hne
  · exact Nat.lt_of_le_of_lt (Nat.le_of_eq hfloat) h.length_pos

end Signed

theorem integerValue_pos {text : List Char} (base marker : Nat)
    (digit : ∃ c cs, text = c :: cs ∧ c.isDigit = true) :
    integerValue base marker text = ofDigits base (text.drop marker) := by
  unfold integerValue
  dsimp only
  rw [Signed.signLength_of_digit digit, Nat.zero_add]
  rfl

theorem integerValue_neg (base marker : Nat) (text : List Char) :
    integerValue base marker ('-' :: text) = -ofDigits base (text.drop marker) := by
  have hsign : signLength ('-' :: text) = 1 := rfl
  unfold integerValue
  dsimp only
  rw [hsign, if_pos rfl, Nat.add_comm 1 marker, List.drop_succ_cons]

theorem MagnitudeWritten.digit {text : List Char} {n : Nat} (h : MagnitudeWritten text n) :
    ∃ c cs, text = c :: cs ∧ c.isDigit = true := by
  cases h with
  | decimal numeral nonempty =>
    obtain ⟨c, cs, rfl⟩ := List.exists_cons_of_ne_nil nonempty
    exact ⟨c, cs, rfl, isDigit_iff.2 (((numeral_iff (by decide)).1 numeral).1 c (by simp))⟩
  | @hex x digits _ marker numeral nonempty => exact ⟨'0', x :: digits, rfl, rfl⟩

/-- A number is read as a whole, with the base that it is written in. -/
theorem MagnitudeWritten.longest? {text : List Char} {n : Nat} (h : MagnitudeWritten text n) :
    ((∀ whole, Signed text whole → Pattern.longest? whole = some (.integer, whole.length)) ∧
      ofDigits 10 text = n) ∨
    ((∀ whole, Signed text whole → Pattern.longest? whole = some (.hexInteger, whole.length)) ∧
      ofDigits 16 (text.drop 2) = n) := by
  cases h with
  | decimal numeral nonempty =>
    obtain ⟨hdigits, hvalue⟩ := (numeral_iff (by decide)).1 numeral
    exact .inl ⟨fun whole hwhole =>
      hwhole.longest?_decimal (fun c hc => isDigit_iff.2 (hdigits c hc)) nonempty, hvalue⟩
  | hex marker numeral nonempty =>
    obtain ⟨hdigits, hvalue⟩ := (numeral_iff (by decide)).1 numeral
    exact .inr ⟨fun whole hwhole =>
      hwhole.longest?_hex marker (fun c hc => isHexDigit_iff.2 (hdigits c hc)) nonempty, hvalue⟩

/-- So is an integer. -/
theorem IntWritten.longest? {text : List Char} {n : Int} (h : IntWritten text n) :
    (Pattern.longest? text = some (.integer, text.length) ∧ integerValue 10 0 text = n) ∨
      (Pattern.longest? text = some (.hexInteger, text.length) ∧ integerValue 16 2 text = n) := by
  cases h with
  | pos magnitude =>
    rw [integerValue_pos 10 0 magnitude.digit, integerValue_pos 16 2 magnitude.digit]
    exact magnitude.longest?.imp
      (fun h => ⟨h.1 _ (.pos magnitude.digit), congrArg Int.ofNat h.2⟩)
      (fun h => ⟨h.1 _ (.pos magnitude.digit), congrArg Int.ofNat h.2⟩)
  | neg magnitude =>
    rw [integerValue_neg, integerValue_neg]
    exact magnitude.longest?.imp
      (fun h => ⟨h.1 _ (.neg magnitude.digit), congrArg (fun n : Nat => -(n : Int)) h.2⟩)
      (fun h => ⟨h.1 _ (.neg magnitude.digit), congrArg (fun n : Nat => -(n : Int)) h.2⟩)

/-! ## Strings -/

/-- A byte that is written as an escape is read as this byte. -/
theorem ByteWritten.read {b : UInt8} {text : List Char} (h : ByteWritten b text) {quote : Char}
    (hquote : quote = '"' ∨ quote = '\'') (opening offset : Nat) (behind : List Char) :
    ∃ offset', StringBody.read quote opening offset (text ++ behind) =
      (StringBody.read quote opening offset' behind).prepend text.length [b] [] := by
  have hb : b.toNat.toUInt8 = b := UInt8.ofNat_toNat
  cases h with
  | hex marker numeral length =>
    have hread := StringBody.read_escape opening offset hquote
      (.hexByte marker (.of_length numeral (by decide) length behind))
    rw [Option.getD_some, hb] at hread
    exact ⟨_, hread⟩
  | octal numeral length =>
    have hfits : b.toNat ≤ 255 := Nat.le_of_lt_succ b.toNat_lt
    have hread := StringBody.read_escape opening offset hquote
      (.octalByte (.of_length numeral (by decide) length behind) hfits)
    rw [Option.getD_some, hb] at hread
    exact ⟨_, hread⟩

theorem read_bytes {bytes : List UInt8} {texts : List (List Char)}
    (h : List.Forall₂ ByteWritten bytes texts) {quote : Char} (hquote : quote = '"' ∨ quote = '\'')
    (opening offset : Nat) (behind : List Char) :
    ∃ offset', StringBody.read quote opening offset (texts.flatten ++ behind) =
      (StringBody.read quote opening offset' behind).prepend texts.flatten.length bytes [] := by
  induction h generalizing offset with
  | nil => exact ⟨offset, (StringBody.prepend_nil _).symm⟩
  | @cons b text bytes texts hb _ ih =>
    obtain ⟨offset₁, hread₁⟩ := hb.read hquote opening offset (texts.flatten ++ behind)
    obtain ⟨offset₂, hread₂⟩ := ih offset₁
    refine ⟨offset₂, ?_⟩
    rw [List.flatten_cons, List.append_assoc, hread₁, hread₂, StringBody.prepend_prepend,
      List.length_append]
    rfl

/-- A character is read as itself, however it is written. -/
theorem CharWritten.read {quote c : Char} (hquote : quote = '"' ∨ quote = '\'') {text : List Char}
    (h : CharWritten quote c text) (opening offset : Nat) (behind : List Char) :
    ∃ offset', StringBody.read quote opening offset (text ++ behind) =
      (StringBody.read quote opening offset' behind).prepend text.length (Checked.utf8 [c]) [] := by
  rw [Checked.utf8, List.flatMap_singleton]
  cases h with
  | itself notZero notNewline notBackslash notQuote =>
    have hread := StringBody.read_content opening offset notQuote notNewline notZero notBackslash
      behind
    rw [Checked.utf8, List.flatMap_singleton] at hread
    exact ⟨_, hread⟩
  | simple mem => exact ⟨_, StringBody.read_escape opening offset hquote (.simple mem)⟩
  | bytes written => exact read_bytes written hquote opening offset behind
  | codePoint marker numeral length =>
    exact ⟨_, StringBody.read_escape opening offset hquote (.codePoint marker numeral length)⟩

theorem read_chars {quote : Char} (hquote : quote = '"' ∨ quote = '\'') {value : List Char}
    {texts : List (List Char)} (h : List.Forall₂ (CharWritten quote) value texts)
    (opening offset : Nat) :
    StringBody.read quote opening offset (texts.flatten ++ [quote]) =
      ⟨texts.flatten.length + 1, Checked.utf8 value, []⟩ := by
  induction h generalizing offset with
  | nil => rw [List.flatten_nil, List.nil_append, StringBody.read, if_pos rfl]; rfl
  | @cons c text value texts hc _ ih =>
    obtain ⟨offset', hread⟩ := hc.read hquote opening offset (texts.flatten ++ [quote])
    rw [List.flatten_cons, List.append_assoc, hread, ih, StringBody.prepend, List.length_append,
      ← Nat.add_assoc, Checked.utf8, Checked.utf8, Checked.utf8, ← List.flatMap_append]
    rfl

/-! ## Tokens -/

/-- A text that is read as one token. -/
structure ReadAs (place : Place) (text : List Char) (t : Token) : Prop where
  head : ∃ c cs, text = c :: cs ∧ isLayout c = false ∧ c ≠ '/' ∧
    Piece.first place c cs = ⟨.token t, text, place.span text, []⟩

theorem ReadAs.of_longest? {place : Place} {c : Char} {cs : List Char} {pattern : Pattern}
    {t : Token} (hlayout : isLayout c = false) (hslash : c ≠ '/')
    (hlongest : Pattern.longest? (c :: cs) = some (pattern, (c :: cs).length))
    (hread : Reading.ofMatch place pattern (c :: cs).length c cs = ⟨t, (c :: cs).length, []⟩) :
    ReadAs place (c :: cs) t := by
  refine ⟨c, cs, rfl, hlayout, hslash, ?_⟩
  unfold Piece.first
  rw [if_neg (Bool.eq_false_iff.1 hlayout), hlongest]
  dsimp only
  rw [hread]
  dsimp only
  rw [List.take_length]

theorem WordText.readAs {text : List Char} {w : Word} (hword : WordText text)
    (h : WordWritten text w) {place : Place}
    (hplace : ∀ k : Keyword, k.follows place.before = true) : ReadAs place text (.word w) := by
  have hlongest := hword.longest?
  obtain ⟨first, others⟩ := hword
  rename_i c cs
  have hstart : isWordStart c = true := by simpa [isWordStart] using first
  refine .of_longest? ?_ ?_ hlongest ?_
  · refine Bool.eq_false_iff.2 fun hlayout => ?_
    rcases layout_cases hlayout with rfl | rfl | rfl | rfl | rfl | rfl <;>
      exact absurd hstart (by decide)
  · rintro rfl
    exact absurd hstart (by decide)
  · rw [Reading.ofMatch, List.take_length, h.ofSpelling hplace]

theorem Punct.readAs (p : Punct) (place : Place) : ReadAs place [p.char] (.punct p) := by
  have hlongest : Pattern.longest? [p.char] = some (.punct p, 1) := by
    cases p <;> decide
  refine .of_longest? ?_ ?_ hlongest rfl
  all_goals cases p <;> decide

theorem IntWritten.readAs {text : List Char} {n : Int} (h : IntWritten text n)
    (hfits : fitsInt64 n = true) (place : Place) : ReadAs place text (.int n) := by
  have hlongest := h.longest?
  obtain ⟨c, cs, rfl, hc⟩ : ∃ c cs, text = c :: cs ∧ (c = '-' ∨ c.isDigit = true) := by
    cases h with
    | pos magnitude => exact (Signed.pos magnitude.digit).head
    | neg magnitude => exact (Signed.neg magnitude.digit).head
  have hlayout : isLayout c = false := by
    refine Bool.eq_false_iff.2 fun hlayout => ?_
    rcases layout_cases hlayout with rfl | rfl | rfl | rfl | rfl | rfl <;>
      exact absurd hc (by decide)
  have hslash : c ≠ '/' := by
    rintro rfl
    exact absurd hc (by decide)
  have hread {base marker : Nat} (hvalue : integerValue base marker (c :: cs) = n) :
      Reading.integer place base marker (c :: cs) = ⟨.int n, (c :: cs).length, []⟩ := by
    unfold Reading.integer
    dsimp only
    rw [hvalue, if_pos hfits]
  rcases hlongest with ⟨hlongest, hvalue⟩ | ⟨hlongest, hvalue⟩
  · refine .of_longest? hlayout hslash hlongest ?_
    rw [Reading.ofMatch, List.take_length]
    exact hread hvalue
  · refine .of_longest? hlayout hslash hlongest ?_
    rw [Reading.ofMatch, List.take_length]
    exact hread hvalue

theorem readAs_string {quote : Char} (hquote : quote = '"' ∨ quote = '\'') {value : String}
    {texts : List (List Char)} (h : List.Forall₂ (CharWritten quote) value.toList texts)
    (place : Place) : ReadAs place (quote :: (texts.flatten ++ [quote])) (.string value) := by
  have hread := read_chars hquote h place.offset (place.offset + quote.utf8Size)
  obtain ⟨htoken, hfaults⟩ := (Reading.string_eq place (texts.flatten ++ [quote]) value).2
    ⟨congrArg StringBody.faults hread, congrArg StringBody.bytes hread⟩
  have htake : (quote :: (texts.flatten ++ [quote])).take
      (Reading.string place quote (texts.flatten ++ [quote])).length =
        quote :: (texts.flatten ++ [quote]) := by
    rw [Reading.string_length, hread, List.take_of_length_le]
    simp
  refine ⟨quote, _, rfl, ?_, ?_, ?_⟩
  · rcases hquote with rfl | rfl <;> rfl
  · rcases hquote with rfl | rfl <;> decide
  · rw [Piece.first_string hquote, htoken, hfaults, htake]

/-- Where keywords may stand, what is written as a token is read as this token. -/
theorem Written.readAs {t : Token} {text : List Char} (h : Written t text) {place : Place}
    (hplace : ∀ k : Keyword, k.follows place.before = true) : ReadAs place text t := by
  cases h with
  | word isWord word => exact isWord.readAs word hplace
  | punct p => exact p.readAs place
  | @int _ n written ge lt =>
    refine written.readAs ?_ place
    rw [fitsInt64, Bool.and_eq_true, decide_eq_true_eq, decide_eq_true_eq]
    exact ⟨ge, lt⟩
  | string isQuote written => exact readAs_string isQuote written place

/-! ## Sources -/

/-- Layout is where keywords may stand behind. -/
theorem Keyword.follows_layout {c : Char} (hc : isLayout c = true) (k : Keyword) :
    k.follows (some c) = true := by
  rw [follows, Bool.or_eq_true]
  left
  rcases layout_cases hc with rfl | rfl | rfl | rfl | rfl | rfl <;> decide

/-- A text starts with layout, if it does not start with a lexeme. -/
theorem Spaced.head_layout {offset : Nat} {ls : List Lexeme} {text : List Char}
    (h : Spaced offset ls text) (hapart : ∀ l ∈ ls.head?, offset < l.span.start) :
    ∀ c ∈ text.head?, isLayout c = true := by
  cases h with
  | nil layout => exact fun c hc => layout c (List.mem_of_mem_head? hc)
  | @cons _ gap rest l ls layout start stop ne_nil others =>
    have hlt := hapart l rfl
    cases gap with
    | nil => exact absurd start (Nat.ne_of_gt hlt)
    | cons d gap =>
      intro c hc
      obtain rfl : d = c := Option.some.inj hc
      exact layout d List.mem_cons_self

/-- So keywords may stand behind a gap. -/
theorem follows_gap {place : Place} {gap : List Char} (hgap : ∀ c ∈ gap, isLayout c = true)
    (hplace : gap = [] → ∀ k : Keyword, k.follows place.before = true) (k : Keyword) :
    k.follows (place.after gap).before = true := by
  rcases List.eq_nil_or_concat gap with rfl | ⟨init, c, rfl⟩
  · exact hplace rfl k
  · rw [List.concat_eq_append] at hgap ⊢
    rw [Place.after_append]
    exact k.follows_layout (hgap c (by simp))

/-- A lexeme before layout is read as its token. -/
theorem ReadAs.piecesFrom {place : Place} {text rest : List Char} {t : Token}
    (h : ReadAs place text t) (hrest : ∀ c ∈ rest.head?, isLayout c = true) :
    ProtoSchema.piecesFrom place (text ++ rest) =
      ⟨.token t, text, place.span text, []⟩ ::
        ProtoSchema.piecesFrom (place.after text) rest := by
  obtain ⟨c, cs, rfl, hlayout, hslash, hfirst⟩ := h.head
  have hrest : Piece.first place c (cs ++ rest) = Piece.first place c cs := by
    cases rest with
    | nil => rw [List.append_nil]
    | cons d rest =>
      refine Piece.first_of_faultless (hrest d rfl) hlayout (by rw [hfirst]) ?_
      refine lineCommentLength_layout (hrest d rfl) rest fun hboth => hslash ?_
      exact (List.cons_prefix_cons.1 hboth).1.symm
  rw [List.cons_append, ProtoSchema.piecesFrom, hrest, hfirst]
  dsimp only
  rw [← List.cons_append, List.drop_left]

/-- Behind a place where keywords may stand, or behind layout, lexemes that are written as their
tokens are read as these. -/
theorem lexemes_written {offset : Nat} {ls : List Lexeme} {text : List Char}
    (h : Spaced offset ls text) (hwritten : ∀ l ∈ ls, Written l.token l.spelling.toList)
    (hapart : ls.IsChain fun a b => a.span.stop < b.span.start) {place : Place}
    (hoffset : place.offset = offset) (hplace : ∀ l ∈ ls.head?, l.span.start = offset →
      ∀ k : Keyword, k.follows place.before = true) :
    lexemes (piecesFrom place text) = ls ∧ faults (piecesFrom place text) = [] := by
  induction h generalizing place with
  | @nil offset gap layout =>
    have hlexemes := lexemes_gap layout place []
    have hfaults := faults_gap layout place []
    rw [List.append_nil, piecesFrom] at hlexemes hfaults
    exact ⟨hlexemes, hfaults⟩
  | @cons offset gap rest l ls layout start stop ne_nil others ih =>
    obtain ⟨hl, hls⟩ := List.forall_mem_cons.1 hwritten
    obtain ⟨hnext, hothers⟩ := List.isChain_cons.1 hapart
    have hgap : gap = [] → ∀ k : Keyword, k.follows place.before = true := by
      rintro rfl
      exact hplace l rfl start
    have hread := hl.readAs (follows_gap layout hgap)
    have hspan : (place.after gap).span l.spelling.toList = l.span := by
      rw [Place.span, Place.after_offset, hoffset, ← start, ← stop]
    have hstop : ((place.after gap).after l.spelling.toList).offset = l.span.stop := by
      rw [Place.after_offset, Place.after_offset, hoffset, ← start, ← stop]
    obtain ⟨hlexemes, hfaults⟩ := ih hls hothers hstop
      fun m hm hstart => absurd hstart (Nat.ne_of_gt (hnext m hm))
    rw [List.append_assoc, lexemes_gap layout, faults_gap layout,
      hread.piecesFrom (others.head_layout hnext)]
    constructor
    · have hlexeme :
          (⟨.token l.token, l.spelling.toList, l.span, []⟩ : Piece).lexeme? = some l := by
        rw [Piece.lexeme?, String.ofList_toList]
      rw [lexemes, hspan, List.filterMap_cons_some hlexeme, ← lexemes, hlexemes]
    · rw [faults, List.flatMap_cons, ← faults, hfaults]
      rfl

/-- Lexemes that are written as their tokens, with layout between any two of them and perhaps
before and behind, are the tokens of the source that they make up. -/
theorem tokenize_written {source : List Char} {ls : List Lexeme} (h : Spaced 0 ls source)
    (hwritten : ∀ l ∈ ls, Written l.token l.spelling.toList)
    (hapart : ls.IsChain fun a b => a.span.stop < b.span.start) : tokenize source = .ok ls := by
  obtain ⟨hlexemes, hfaults⟩ := lexemes_written h hwritten hapart
    (show Place.start.offset = 0 from rfl) fun _ _ _ _ => rfl
  have htokenize : tokenize source = .ok (lexemes (pieces source)) := tokenize_of_faults hfaults
  rwa [pieces, hlexemes] at htokenize

/-- A keyword, a truth value, the least integer, and a string in which a character of two bytes is
written as two escapes. -/
theorem tokenize_written_escapes :
    tokenize " syntax TRUE\t=\n-0x8000000000000000 '\\xC3\\251a\"'".toList =
      .ok [⟨.word (.keyword .syntaxKw), "syntax", ⟨1, 7⟩⟩,
        ⟨.word (.bool true), "TRUE", ⟨8, 12⟩⟩, ⟨.punct .equals, "=", ⟨13, 14⟩⟩,
        ⟨.int (-9223372036854775808), "-0x8000000000000000", ⟨15, 34⟩⟩,
        ⟨.string "\u00e9a\"", "'\\xC3\\251a\"'", ⟨35, 47⟩⟩] := by
  have hint : IntWritten "-0x8000000000000000".toList (-9223372036854775808) :=
    .neg (n := 9223372036854775808)
      (.hex (.inl rfl) (.of_all (by decide) (by decide)) nofun)
  have hbytes : List.Forall₂ ByteWritten (String.utf8EncodeChar '\u00e9')
      ["\\xC3".toList, "\\251".toList] :=
    .cons (.hex (.inl rfl) (.of_all (by decide) (by decide)) rfl)
      (.cons (.octal (.of_all (by decide) (by decide)) rfl) .nil)
  have hstring : List.Forall₂ (CharWritten '\'') "\u00e9a\"".toList
      ["\\xC3\\251".toList, ['a'], ['"']] :=
    .cons (.bytes hbytes) (.cons (.itself nofun nofun nofun nofun)
      (.cons (.itself nofun nofun nofun nofun) .nil))
  have hspaced : Spaced 0 [⟨.word (.keyword .syntaxKw), "syntax", ⟨1, 7⟩⟩,
      ⟨.word (.bool true), "TRUE", ⟨8, 12⟩⟩, ⟨.punct .equals, "=", ⟨13, 14⟩⟩,
      ⟨.int (-9223372036854775808), "-0x8000000000000000", ⟨15, 34⟩⟩,
      ⟨.string "\u00e9a\"", "'\\xC3\\251a\"'", ⟨35, 47⟩⟩]
      " syntax TRUE\t=\n-0x8000000000000000 '\\xC3\\251a\"'".toList := by
    have hlayout {c : Char} (hc : isLayout c = true) : ∀ d ∈ [c], isLayout d = true :=
      List.forall_mem_singleton.2 hc
    refine .cons (hlayout (c := ' ') rfl) rfl rfl (by decide) ?_
    refine .cons (hlayout (c := ' ') rfl) rfl rfl (by decide) ?_
    refine .cons (hlayout (c := '\t') rfl) rfl rfl (by decide) ?_
    refine .cons (hlayout (c := '\n') rfl) rfl rfl (by decide) ?_
    refine .cons (hlayout (c := ' ') rfl) rfl rfl (by decide) ?_
    exact .nil (show ∀ c ∈ [], isLayout c = true from nofun)
  refine tokenize_written hspaced ?_ (by decide)
  simp only [List.forall_mem_cons]
  refine ⟨.word (.of_all (.inl rfl) (by decide)) (.keyword (by decide) rfl),
    .word (.of_all (.inl rfl) (by decide)) (.bool true (by decide)), .punct .equals,
    .int hint (by decide) (by decide), .string (.inr rfl) hstring, nofun⟩

end ProtoSchema
