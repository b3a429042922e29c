import Mathlib
import ProtoSchema.Proofs.Lexing.Extent
import ProtoSchema.Proofs.Lexing.Longest

/-
  The languages of the token patterns. `Pattern.language` says which texts a pattern matches as a
  whole, as an expression over languages in the way such patterns are written down; how far a scan
  goes does not enter into it. `Pattern.measures` says that the length which is found for a pattern
  is that of the longest match at the start of a text: what is cut off is matched, and no match is
  longer. Numbers need care, since a scan of them may have to fall back by several characters.
-/

namespace ProtoSchema

open Computability

/-! ## Languages of characters -/

namespace TokenLanguage

/-- One character with the given property. -/
def one (P : Char → Prop) : Language Char := fun w => ∃ c, P c ∧ w = [c]

/-- One of the given characters. -/
def oneOf (chars : String) : Language Char := one (· ∈ chars.toList)

/-- The given text and no other. -/
def literal (text : String) : Language Char := {text.toList}

/-- What may be left out. -/
def optional (l : Language Char) : Language Char := 1 + l

/-- One or more, one behind the other. -/
def oneOrMore (l : Language Char) : Language Char := l * l∗

/-- The decimal digits. -/
def IsDecimal (c : Char) : Prop := '0' ≤ c ∧ c ≤ '9'

/-- The hexadecimal digits, of either case. -/
def IsHexadecimal (c : Char) : Prop :=
  IsDecimal c ∨ ('A' ≤ c ∧ c ≤ 'F') ∨ ('a' ≤ c ∧ c ≤ 'f')

/-- The characters that a word may start with. -/
def StartsWord (c : Char) : Prop := ('A' ≤ c ∧ c ≤ 'Z') ∨ ('a' ≤ c ∧ c ≤ 'z') ∨ c = '_'

/-- The minus sign of a number, which may be left out. -/
def sign : Language Char := optional (literal "-")

/-- Decimal digits, at least one. -/
def decimals : Language Char := oneOrMore (one IsDecimal)

/-- A hexadecimal number without its sign. -/
def hexadecimal : Language Char := literal "0" * oneOf "xX" * oneOrMore (one IsHexadecimal)

/-- The exponent of a floating-point number. -/
def exponent : Language Char := oneOf "eE" * optional (oneOf "+-") * decimals

/-- A point with the digits behind it and, if there is one, the exponent. -/
def fraction : Language Char := literal "." * decimals * optional exponent

/-- What is skipped between tokens. -/
def layout : Language Char := oneOrMore (oneOf "\t\n\x0b\x0c\x0d ")

end TokenLanguage

open TokenLanguage

/-- The texts that a pattern matches. -/
def Pattern.language : Pattern → Language Char
  | word => one StartsWord * (one fun c => StartsWord c ∨ IsDecimal c)∗
  | integer => sign * decimals
  | hexInteger => sign * hexadecimal
  | float => sign * ((one IsDecimal)∗ * fraction)
  | quote => oneOf "'\""
  | lineComment => literal "//" * (one (· ≠ '\n'))∗
  | blockOpening => literal "/*"
  | punct p => {[p.char]}

/-! ## Which texts they hold -/

namespace TokenLanguage

variable {P : Char → Prop} {l m : Language Char} {w : List Char}

theorem mem_one : w ∈ one P ↔ ∃ c, P c ∧ w = [c] := Iff.rfl

theorem mem_literal {text : String} : w ∈ literal text ↔ w = text.toList := Iff.rfl

theorem mem_optional : w ∈ optional l ↔ w = [] ∨ w ∈ l := Iff.rfl

theorem mem_one_mul : w ∈ one P * m ↔ ∃ c v, P c ∧ v ∈ m ∧ w = c :: v := by
  constructor
  · intro h
    obtain ⟨_, ⟨c, hc, rfl⟩, v, hv, rfl⟩ := Language.mem_mul.1 h
    exact ⟨c, v, hc, hv, rfl⟩
  · rintro ⟨c, v, hc, hv, rfl⟩
    exact Language.append_mem_mul (mem_one.2 ⟨c, hc, rfl⟩) hv

theorem mem_kstar_one : w ∈ (one P)∗ ↔ ∀ c ∈ w, P c := by
  constructor
  · intro h c hc
    obtain ⟨words, rfl, hwords⟩ := Language.mem_kstar.1 h
    obtain ⟨word, hword, hc⟩ := List.mem_flatten.1 hc
    obtain ⟨d, hd, rfl⟩ := hwords word hword
    rwa [List.mem_singleton.1 hc]
  · intro h
    refine Language.mem_kstar.2 ⟨w.map fun c => [c], ?_, fun word hword => ?_⟩
    · rw [← List.flatMap_def, List.flatMap_singleton']
    · obtain ⟨c, hc, rfl⟩ := List.mem_map.1 hword
      exact ⟨c, h c hc, rfl⟩

theorem mem_oneOrMore_one : w ∈ oneOrMore (one P) ↔ w ≠ [] ∧ ∀ c ∈ w, P c := by
  unfold oneOrMore
  rw [mem_one_mul]
  constructor
  · rintro ⟨c, v, hc, hv, rfl⟩
    exact ⟨List.cons_ne_nil c v, List.forall_mem_cons.2 ⟨hc, mem_kstar_one.1 hv⟩⟩
  · rintro ⟨hne, h⟩
    obtain ⟨c, v, rfl⟩ := List.exists_cons_of_ne_nil hne
    obtain ⟨hc, hv⟩ := List.forall_mem_cons.1 h
    exact ⟨c, v, hc, mem_kstar_one.2 hv, rfl⟩

/-! ## Classes of characters -/

theorem isDigit_iff_isDecimal {c : Char} : c.isDigit = true ↔ IsDecimal c := by
  simp [Char.isDigit, IsDecimal, Char.le_def]

theorem isHexDigit_iff_isHexadecimal {c : Char} : isHexDigit c = true ↔ IsHexadecimal c := by
  simp only [isHexDigit, IsHexadecimal, Bool.or_eq_true, isDigit_iff_isDecimal, Bool.and_eq_true,
    decide_eq_true_eq]
  tauto

theorem isWordStart_iff_startsWord {c : Char} : isWordStart c = true ↔ StartsWord c := by
  simp [isWordStart, StartsWord, Char.isAlpha, Char.isUpper, Char.isLower, Char.le_def, or_assoc]

theorem isWordChar_iff {c : Char} : isWordChar c = true ↔ StartsWord c ∨ IsDecimal c := by
  rw [← isWordStart_iff_startsWord, ← isDigit_iff_isDecimal]
  simp only [isWordChar, isWordStart, Char.isAlphanum, Bool.or_eq_true]
  tauto

theorem isLayout_iff {c : Char} : isLayout c = true ↔ c ∈ "\t\n\x0b\x0c\x0d ".toList := by
  simp [isLayout, or_assoc]

/-! ## Numbers without their signs -/

theorem mem_decimals : w ∈ decimals ↔ w ≠ [] ∧ ∀ c ∈ w, c.isDigit = true := by
  unfold decimals
  simp only [mem_oneOrMore_one, isDigit_iff_isDecimal]

theorem mem_hexadecimal : w ∈ hexadecimal ↔ ∃ x digits, (x = 'x' ∨ x = 'X') ∧
    digits ∈ oneOrMore (one IsHexadecimal) ∧ w = '0' :: x :: digits := by
  constructor
  · intro h
    obtain ⟨_, hmark, digits, hdigits, rfl⟩ := Language.mem_mul.1 h
    obtain ⟨_, rfl, _, ⟨x, hx, rfl⟩, rfl⟩ := Language.mem_mul.1 hmark
    exact ⟨x, digits, by simpa using hx, hdigits, rfl⟩
  · rintro ⟨x, digits, hx, hdigits, rfl⟩
    refine Language.append_mem_mul (a := ['0', x]) ?_ hdigits
    exact Language.append_mem_mul (a := ['0']) rfl (mem_one.2 ⟨x, by simpa using hx, rfl⟩)

end TokenLanguage

/-! ## Lengths of longest matches -/

/-- The length is that of the longest match of the language at the start of a text, if there is a
match, and it is zero if there is none. -/
structure Measures (len : List Char → Nat) (l : Language Char) : Prop where
  matched : ∀ text, 0 < len text → text.take (len text) ∈ l
  longest : ∀ v ∈ l, ∀ rest, v.length ≤ len (v ++ rest)

theorem Measures.matched_of_ne_zero {len : List Char → Nat} {l : Language Char}
    (h : Measures len l) {text : List Char} (hne : len text ≠ 0) : text.take (len text) ∈ l :=
  h.matched text (Nat.pos_iff_ne_zero.2 hne)

section Runs

variable {p : Char → Bool} {v rest : List Char}

theorem of_mem_take_runLength {text : List Char} :
    ∀ c ∈ text.take (runLength p text), p c = true := by
  rw [← Checked.takeWhile_eq_take]
  exact List.all_eq_true.1 List.all_takeWhile

theorem le_runLength (h : ∀ c ∈ v, p c = true) : v.length ≤ runLength p (v ++ rest) := by
  unfold runLength
  rw [List.takeWhile_append_of_pos h, List.length_append]
  omega

theorem runLength_append (h : ∀ c ∈ v, p c = true) (hstop : ∀ c ∈ rest.head?, p c = false) :
    runLength p (v ++ rest) = v.length := by
  unfold runLength
  rw [List.takeWhile_append_of_pos h]
  cases rest with
  | nil => simp
  | cons c rest => rw [List.takeWhile_cons_of_neg (by simpa using hstop c rfl), List.append_nil]

theorem take_runLength_ne_nil {text : List Char} (h : runLength p text ≠ 0) :
    text.take (runLength p text) ≠ [] := by
  intro hnil
  rw [← Checked.takeWhile_eq_take] at hnil
  apply h
  rw [runLength, hnil, List.length_nil]

end Runs

/-- A run of characters is the longest match of one or more of them. -/
theorem measures_run {p : Char → Bool} {P : Char → Prop} (h : ∀ {c}, p c = true ↔ P c) :
    Measures (runLength p) (oneOrMore (one P)) where
  matched _ hpos := mem_oneOrMore_one.2
    ⟨take_runLength_ne_nil (Nat.pos_iff_ne_zero.1 hpos),
      fun c hc => h.1 (of_mem_take_runLength c hc)⟩
  longest _ hv _ := le_runLength fun c hc => h.2 ((mem_oneOrMore_one.1 hv).2 c hc)

theorem measures_layout : Measures (runLength isLayout) layout :=
  measures_run isLayout_iff

theorem measures_decimals : Measures (runLength Char.isDigit) decimals :=
  measures_run isDigit_iff_isDecimal

/-- Digits are counted in full, so that there are some if there should be. -/
theorem le_runLength_of_mem_decimals {v : List Char} (h : v ∈ decimals) (rest : List Char) :
    0 < v.length ∧ v.length ≤ runLength Char.isDigit (v ++ rest) :=
  ⟨List.length_pos_of_ne_nil (mem_oneOrMore_one.1 h).1, measures_decimals.longest v h rest⟩

/-! ## Parts of numbers -/

theorem exponentLength_cons {e : Char} {s digits : List Char} (he : e ∈ "eE".toList)
    (hs : s ∈ optional (oneOf "+-")) (hdigits : digits ∈ decimals) (rest : List Char) :
    exponentLength (e :: (s ++ digits ++ rest)) =
      1 + s.length + runLength Char.isDigit (digits ++ rest) := by
  obtain ⟨hpos, hle⟩ := le_runLength_of_mem_decimals hdigits rest
  have he : e = 'e' ∨ e = 'E' := by simpa using he
  rcases mem_optional.1 hs with rfl | ⟨c, hc, rfl⟩
  · -- The first digit is no sign.
    obtain ⟨hne, hall⟩ := mem_decimals.1 hdigits
    obtain ⟨d, others, rfl⟩ := List.exists_cons_of_ne_nil hne
    have hd := hall d List.mem_cons_self
    have hplus : d ≠ '+' := by rintro rfl; exact absurd hd (by decide)
    have hminus : d ≠ '-' := by rintro rfl; exact absurd hd (by decide)
    have hdigit : runLength Char.isDigit (d :: others ++ rest) ≠ 0 := by omega
    simp only [List.nil_append, List.cons_append] at hdigit ⊢
    simp [exponentLength, hplus, hminus, he, hdigit]
  · have hc : c = '+' ∨ c = '-' := by simpa using hc
    have hdigit : runLength Char.isDigit (digits ++ rest) ≠ 0 := by omega
    rcases hc with rfl | rfl <;> simp [exponentLength, he, hdigit]

theorem exponentLength_of_pos {text : List Char} (hpos : 0 < exponentLength text) :
    ∃ e s tail, text = e :: (s ++ tail) ∧ e ∈ "eE".toList ∧ s ∈ optional (oneOf "+-") ∧
      runLength Char.isDigit tail ≠ 0 ∧
      exponentLength text = 1 + s.length + runLength Char.isDigit tail := by
  cases text with
  | nil => exact absurd hpos (Nat.lt_irrefl 0)
  | cons e text =>
    obtain ⟨s, tail, rfl, hs, hlength⟩ : ∃ s tail, text = s ++ tail ∧
        s ∈ optional (oneOf "+-") ∧ exponentLength (e :: text) =
          if (e = 'e' ∨ e = 'E') ∧ runLength Char.isDigit tail ≠ 0 then
            1 + s.length + runLength Char.isDigit tail
          else 0 := by
      unfold exponentLength
      dsimp only
      split
      · next tail => exact ⟨['+'], tail, rfl, .inr ⟨'+', by decide, rfl⟩, rfl⟩
      · next tail => exact ⟨['-'], tail, rfl, .inr ⟨'-', by decide, rfl⟩, rfl⟩
      · exact ⟨[], text, rfl, .inl rfl, rfl⟩
    rw [hlength] at hpos ⊢
    split at hpos
    · next h => exact ⟨e, s, tail, rfl, by simpa using h.1, hs, h.2, if_pos h⟩
    · exact absurd hpos (Nat.lt_irrefl 0)

theorem measures_exponent : Measures exponentLength exponent where
  matched text hpos := by
    obtain ⟨e, s, tail, rfl, he, hs, hdigits, hlength⟩ := exponentLength_of_pos hpos
    have htake : (e :: (s ++ tail)).take (exponentLength (e :: (s ++ tail))) =
        [e] ++ s ++ tail.take (runLength Char.isDigit tail) := by
      rw [hlength, Nat.add_assoc, Nat.add_comm 1, List.take_succ_cons, List.take_length_add_append]
      rfl
    rw [htake]
    exact Language.append_mem_mul (Language.append_mem_mul ⟨e, he, rfl⟩ hs)
      (measures_decimals.matched_of_ne_zero hdigits)
  longest _ hv rest := by
    obtain ⟨_, h, digits, hdigits, rfl⟩ := Language.mem_mul.1 hv
    obtain ⟨e, s, he, hs, rfl⟩ := mem_one_mul.1 h
    have hlength := exponentLength_cons he hs hdigits rest
    obtain ⟨-, hle⟩ := le_runLength_of_mem_decimals hdigits rest
    simp only [List.cons_append, List.length_cons, List.length_append] at hlength ⊢
    omega

/-- An exponent starts with no digit, so the digits before it end there. -/
theorem stop_of_mem_exponent {v : List Char} (h : v ∈ exponent) (rest : List Char) :
    ∀ c ∈ (v ++ rest).head?, c.isDigit = false := by
  obtain ⟨_, hmark, digits, -, rfl⟩ := Language.mem_mul.1 h
  obtain ⟨e, s, he, -, rfl⟩ := mem_one_mul.1 hmark
  have he : e = 'e' ∨ e = 'E' := by simpa using he
  rintro c ⟨⟩
  rcases he with rfl | rfl <;> rfl

theorem fractionLength_of_pos {text : List Char} (hpos : 0 < fractionLength text) :
    ∃ tail, text = '.' :: tail ∧ runLength Char.isDigit tail ≠ 0 ∧
      fractionLength text = 1 + runLength Char.isDigit tail +
        exponentLength (tail.drop (runLength Char.isDigit tail)) := by
  revert hpos
  fun_cases fractionLength text with
  | case1 tail digits hdigits => exact fun hpos => absurd hpos (Nat.lt_irrefl 0)
  | case2 tail digits hdigits => exact fun _ => ⟨tail, rfl, hdigits, rfl⟩
  | case3 => exact fun hpos => absurd hpos (Nat.lt_irrefl 0)

theorem measures_fraction : Measures fractionLength fraction where
  matched text hpos := by
    obtain ⟨tail, rfl, hdigits, hlength⟩ := fractionLength_of_pos hpos
    have hexponent : (tail.drop (runLength Char.isDigit tail)).take
        (exponentLength (tail.drop (runLength Char.isDigit tail))) ∈ optional exponent := by
      rcases Nat.eq_zero_or_pos (exponentLength (tail.drop (runLength Char.isDigit tail)))
        with hzero | hsome
      · rw [hzero, List.take_zero]
        exact .inl rfl
      · exact .inr (measures_exponent.matched _ hsome)
    rw [hlength, Nat.add_assoc, Nat.add_comm 1, List.take_succ_cons, List.take_add]
    exact Language.append_mem_mul
      (Language.append_mem_mul (mem_literal.2 rfl) (measures_decimals.matched_of_ne_zero hdigits))
      hexponent
  longest _ hv rest := by
    obtain ⟨_, h, x, hx, rfl⟩ := Language.mem_mul.1 hv
    obtain ⟨_, rfl, digits, hdigits, rfl⟩ := Language.mem_mul.1 h
    obtain ⟨hpos, hle⟩ := le_runLength_of_mem_decimals hdigits (x ++ rest)
    have hne : runLength Char.isDigit (digits ++ (x ++ rest)) ≠ 0 := by omega
    have hlength : fractionLength (".".toList ++ digits ++ x ++ rest) =
        1 + runLength Char.isDigit (digits ++ (x ++ rest)) + exponentLength
          ((digits ++ (x ++ rest)).drop (runLength Char.isDigit (digits ++ (x ++ rest)))) := by
      rw [List.append_assoc, List.append_assoc]
      exact if_neg hne
    have hone : ".".toList.length = 1 := rfl
    rw [hlength, List.length_append, List.length_append, hone]
    rcases mem_optional.1 hx with rfl | hx
    · rw [List.length_nil]
      omega
    · have hrun := runLength_append (mem_decimals.1 hdigits).2
        (stop_of_mem_exponent hx rest)
      have hexponent := measures_exponent.longest x hx rest
      rw [hrun, List.drop_left]
      omega

/-! ## Numbers -/

/-- The length of a number with its sign, given that of its magnitude. -/
def signedLength (len : List Char → Nat) (text : List Char) : Nat :=
  if len (text.drop (signLength text)) = 0 then 0
  else signLength text + len (text.drop (signLength text))

theorem mem_sign {w : List Char} : w ∈ sign ↔ w = [] ∨ w = ['-'] := Iff.rfl

theorem take_signLength_mem (text : List Char) : text.take (signLength text) ∈ sign := by
  unfold signLength
  split
  · exact .inr rfl
  · exact .inl rfl

/-- Texts that are not empty and do not start with a sign. -/
def Unsigned (l : Language Char) : Prop := ∀ v ∈ l, ∃ c cs, v = c :: cs ∧ c ≠ '-'

/-- What stands behind the sign of a number is its magnitude. -/
theorem Unsigned.drop_sign {l : Language Char} (hl : Unsigned l) {w : List Char}
    (h : w ∈ sign * l) : w.drop (signLength w) ∈ l := by
  obtain ⟨s, hs, v, hv, rfl⟩ := Language.mem_mul.1 h
  rcases mem_sign.1 hs with rfl | rfl
  · obtain ⟨c, cs, rfl, hc⟩ := hl v hv
    rw [List.nil_append, Pattern.signLength_of_ne hc]
    exact hv
  · exact hv

/-- A magnitude starts with a character other than the sign, so the sign is told apart from it. -/
theorem Measures.signed {len : List Char → Nat} {l : Language Char} (h : Measures len l)
    (hl : Unsigned l) : Measures (signedLength len) (sign * l) where
  matched text hpos := by
    unfold signedLength at hpos ⊢
    split at hpos
    · exact absurd hpos (Nat.lt_irrefl 0)
    · next hlen =>
      rw [if_neg hlen, List.take_add]
      exact Language.append_mem_mul (take_signLength_mem text)
        (h.matched_of_ne_zero hlen)
  longest _ h' rest := by
    obtain ⟨s, hs, v, hv, rfl⟩ := Language.mem_mul.1 h'
    have hle := h.longest v hv rest
    obtain ⟨c, cs, rfl, hc⟩ := hl v hv
    have hlen : len (c :: cs ++ rest) ≠ 0 := by
      rw [List.length_cons] at hle
      omega
    unfold signedLength
    rcases mem_sign.1 hs with rfl | rfl
    · rw [List.nil_append, List.cons_append, Pattern.signLength_of_ne hc, List.drop_zero,
        ← List.cons_append, if_neg hlen]
      omega
    · have hsign : signLength (['-'] ++ (c :: cs) ++ rest) = 1 := rfl
      have hdrop : (['-'] ++ (c :: cs) ++ rest).drop 1 = c :: cs ++ rest := rfl
      rw [hsign, hdrop, if_neg hlen, List.length_append, List.length_singleton]
      omega

theorem ne_minus_of_isDigit {c : Char} (h : c.isDigit = true) : c ≠ '-' := by
  rintro rfl
  exact absurd h (by decide)

theorem unsigned_decimals : Unsigned decimals := by
  intro v hv
  obtain ⟨hne, hdigits⟩ := mem_decimals.1 hv
  obtain ⟨c, cs, rfl⟩ := List.exists_cons_of_ne_nil hne
  exact ⟨c, cs, rfl, ne_minus_of_isDigit (hdigits c List.mem_cons_self)⟩

theorem measures_integer : Measures integerLength (Pattern.language .integer) :=
  measures_decimals.signed unsigned_decimals

theorem unsigned_hexadecimal : Unsigned hexadecimal := by
  intro v hv
  obtain ⟨x, digits, -, -, rfl⟩ := mem_hexadecimal.1 hv
  exact ⟨'0', x :: digits, rfl, by decide⟩

theorem measures_hexDigits : Measures (runLength isHexDigit) (oneOrMore (one IsHexadecimal)) :=
  measures_run isHexDigit_iff_isHexadecimal

theorem measures_hexadecimal : Measures hexMagnitudeLength hexadecimal where
  matched text hpos := by
    obtain ⟨x, rest, rfl, hx, hdigits, hlength⟩ :=
      Checked.hexMagnitude_of_pos (Nat.pos_iff_ne_zero.1 hpos)
    rw [hlength, List.take_succ_cons, List.take_succ_cons]
    exact mem_hexadecimal.2 ⟨x, _, hx, measures_hexDigits.matched_of_ne_zero hdigits, rfl⟩
  longest _ hv rest := by
    obtain ⟨x, digits, hx, hdigits, rfl⟩ := mem_hexadecimal.1 hv
    have hle := measures_hexDigits.longest digits hdigits rest
    have hpos := List.length_pos_of_ne_nil (mem_oneOrMore_one.1 hdigits).1
    have hsome : runLength isHexDigit (digits ++ rest) ≠ 0 := by omega
    have hlength : hexMagnitudeLength ('0' :: x :: digits ++ rest) =
        runLength isHexDigit (digits ++ rest) + 2 :=
      if_pos ⟨hx, hsome⟩
    rw [hlength, List.length_cons, List.length_cons]
    omega

theorem measures_hexInteger : Measures hexLength (Pattern.language .hexInteger) :=
  measures_hexadecimal.signed unsigned_hexadecimal

/-- The length of a floating-point number without its sign. -/
def floatMagnitudeLength (text : List Char) : Nat :=
  if fractionLength (text.drop (runLength Char.isDigit text)) = 0 then 0
  else runLength Char.isDigit text + fractionLength (text.drop (runLength Char.isDigit text))

theorem floatLength_eq (text : List Char) :
    floatLength text = signedLength floatMagnitudeLength text := by
  unfold floatLength signedLength floatMagnitudeLength
  dsimp only
  rw [← List.drop_drop]
  split
  · rw [if_pos rfl]
  · rw [if_neg (by omega)]
    omega

/-- A fraction starts with a point, so the digits before it end there. -/
theorem head_of_mem_fraction {v : List Char} (h : v ∈ fraction) : ∃ cs, v = '.' :: cs := by
  obtain ⟨_, hmark, x, -, rfl⟩ := Language.mem_mul.1 h
  obtain ⟨_, rfl, digits, -, rfl⟩ := Language.mem_mul.1 hmark
  exact ⟨digits ++ x, rfl⟩

theorem measures_floatMagnitude :
    Measures floatMagnitudeLength ((one IsDecimal)∗ * fraction) where
  matched text hpos := by
    unfold floatMagnitudeLength at hpos ⊢
    split at hpos
    · exact absurd hpos (Nat.lt_irrefl 0)
    · next hlen =>
      rw [if_neg hlen, List.take_add]
      refine Language.append_mem_mul (mem_kstar_one.2 fun c hc => ?_)
        (measures_fraction.matched_of_ne_zero hlen)
      exact isDigit_iff_isDecimal.1 (of_mem_take_runLength c hc)
  longest _ h' rest := by
    obtain ⟨whole, hwhole, v, hv, rfl⟩ := Language.mem_mul.1 h'
    have hle := measures_fraction.longest v hv rest
    obtain ⟨cs, rfl⟩ := head_of_mem_fraction hv
    have hrun : runLength Char.isDigit (whole ++ ('.' :: cs ++ rest)) = whole.length := by
      apply runLength_append
      · exact fun c hc => isDigit_iff_isDecimal.2 (mem_kstar_one.1 hwhole c hc)
      · rintro c ⟨⟩
        rfl
    have hlen : fractionLength ('.' :: cs ++ rest) ≠ 0 := by
      rw [List.length_cons] at hle
      omega
    unfold floatMagnitudeLength
    rw [List.append_assoc, hrun, List.drop_left, if_neg hlen, List.length_append]
    omega

theorem measures_float : Measures floatLength (Pattern.language .float) := by
  rw [show floatLength = signedLength floatMagnitudeLength from funext floatLength_eq]
  refine measures_floatMagnitude.signed fun v hv' => ?_
  obtain ⟨whole, hwhole, v, hv, rfl⟩ := Language.mem_mul.1 hv'
  obtain ⟨cs, rfl⟩ := head_of_mem_fraction hv
  cases whole with
  | nil => exact ⟨'.', cs, rfl, by decide⟩
  | cons c whole =>
    have hc := isDigit_iff_isDecimal.2 (mem_kstar_one.1 hwhole c List.mem_cons_self)
    exact ⟨c, whole ++ '.' :: cs, rfl, ne_minus_of_isDigit hc⟩

/-! ## The other patterns -/

theorem measures_word : Measures wordLength (Pattern.language .word) where
  matched text hpos := by
    cases text with
    | nil => exact absurd hpos (Nat.lt_irrefl 0)
    | cons c text =>
      rw [wordLength] at hpos ⊢
      split at hpos
      · next hc =>
        rw [if_pos hc, List.take_succ_cons]
        refine mem_one_mul.2 ⟨c, _, isWordStart_iff_startsWord.1 hc, mem_kstar_one.2 ?_, rfl⟩
        exact fun d hd => isWordChar_iff.1 (of_mem_take_runLength d hd)
      · exact absurd hpos (Nat.lt_irrefl 0)
  longest _ h' rest := by
    obtain ⟨c, v, hc, hv, rfl⟩ := mem_one_mul.1 h'
    have hle : v.length ≤ runLength isWordChar (v ++ rest) :=
      le_runLength fun d hd => isWordChar_iff.2 (mem_kstar_one.1 hv d hd)
    rw [List.cons_append, wordLength, if_pos (isWordStart_iff_startsWord.2 hc), List.length_cons]
    omega

theorem measures_quote : Measures quoteLength (Pattern.language .quote) where
  matched text hpos := by
    cases text with
    | nil => exact absurd hpos (Nat.lt_irrefl 0)
    | cons c text =>
      rw [quoteLength] at hpos ⊢
      split at hpos
      · next hc =>
        rw [if_pos hc]
        exact ⟨c, by simpa [or_comm] using hc, rfl⟩
      · exact absurd hpos (Nat.lt_irrefl 0)
  longest _ hv rest := by
    obtain ⟨c, hc, rfl⟩ := hv
    have hc : c = '\'' ∨ c = '"' := by simpa using hc
    rw [List.singleton_append, quoteLength, if_pos hc.symm]
    exact Nat.le_refl 1

theorem measures_punct (p : Punct) : Measures (punctLength p) (Pattern.language (.punct p)) where
  matched text hpos := by
    cases text with
    | nil => exact absurd hpos (Nat.lt_irrefl 0)
    | cons c text =>
      rw [punctLength] at hpos ⊢
      split at hpos
      · next hc =>
        rw [if_pos hc, hc]
        rfl
      · exact absurd hpos (Nat.lt_irrefl 0)
  longest _ hv rest := by
    cases hv
    rw [List.singleton_append, punctLength, if_pos rfl]
    exact Nat.le_refl 1

theorem measures_lineComment : Measures lineCommentLength (Pattern.language .lineComment) where
  matched text hpos := by
    unfold lineCommentLength at hpos ⊢
    split
    · next text =>
      rw [List.take_succ_cons, List.take_succ_cons]
      refine Language.append_mem_mul (a := ['/', '/']) rfl (mem_kstar_one.2 fun c hc => ?_)
      simpa using of_mem_take_runLength c hc
    · next hne =>
      split at hpos
      · exact absurd rfl (hne _)
      · exact absurd hpos (Nat.lt_irrefl 0)
  longest _ h' rest := by
    obtain ⟨_, rfl, v, hv, rfl⟩ := Language.mem_mul.1 h'
    have hle : v.length ≤ runLength (· != '\n') (v ++ rest) :=
      le_runLength fun c hc => by simpa using mem_kstar_one.1 hv c hc
    change v.length + 2 ≤ runLength (· != '\n') (v ++ rest) + 2
    omega

theorem measures_blockOpening : Measures blockOpeningLength (Pattern.language .blockOpening) where
  matched text hpos := by
    unfold blockOpeningLength at hpos ⊢
    split
    · rfl
    · next hne =>
      split at hpos
      · exact absurd rfl (hne _)
      · exact absurd hpos (Nat.lt_irrefl 0)
  longest _ hv rest := by
    cases hv
    exact Nat.le_refl 2

/-- The length that is found for a pattern is that of its longest match. -/
theorem Pattern.measures (p : Pattern) : Measures p.length p.language := by
  cases p with
  | word => exact measures_word
  | integer => exact measures_integer
  | hexInteger => exact measures_hexInteger
  | float => exact measures_float
  | quote => exact measures_quote
  | lineComment => exact measures_lineComment
  | blockOpening => exact measures_blockOpening
  | punct p => exact measures_punct p

end ProtoSchema
