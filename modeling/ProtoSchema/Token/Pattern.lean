import ProtoSchema.Token.Basic

/-
  The patterns that tokens are recognised by. Each pattern has the length of the longest start of
  a text that it matches, zero when it matches none, and a token is read by the pattern that
  reaches furthest. Of a string and of a block comment a pattern matches the opening only.
-/

namespace ProtoSchema

/-! ## Classes of characters -/

/-- Whether a character may start a word. -/
def isWordStart (c : Char) : Bool := c.isAlpha || c == '_'

/-- Whether a character may stand in a word. -/
def isWordChar (c : Char) : Bool := c.isAlphanum || c == '_'

/-- Whether a character is a hexadecimal digit. -/
def isHexDigit (c : Char) : Bool :=
  c.isDigit || ('a' ≤ c && c ≤ 'f') || ('A' ≤ c && c ≤ 'F')

/-- Whether a character is an octal digit. -/
def isOctalDigit (c : Char) : Bool := '0' ≤ c && c ≤ '7'

/-- Whether a character separates tokens. -/
def isLayout (c : Char) : Bool :=
  c == '\t' || c == '\n' || c == '\x0b' || c == '\x0c' || c == '\r' || c == ' '

/-- The value of a digit in any base up to sixteen. -/
def digitValue (c : Char) : Nat :=
  if c.isDigit then c.toNat - '0'.toNat
  else if 'a' ≤ c then c.toNat - 'a'.toNat + 10
  else c.toNat - 'A'.toNat + 10

/-- The number that a sequence of digits stands for. -/
def ofDigits (base : Nat) (digits : List Char) : Nat :=
  digits.foldl (fun n c => n * base + digitValue c) 0

/-- The length of the longest start of a text whose characters all satisfy `p`. -/
def runLength (p : Char → Bool) (text : List Char) : Nat := (text.takeWhile p).length

theorem runLength_le (p : Char → Bool) (text : List Char) : runLength p text ≤ text.length :=
  (List.takeWhile_prefix p).length_le

/-! ## Lengths of matches -/

/-- The length of a minus sign at the start of a text. -/
def signLength : List Char → Nat
  | '-' :: _ => 1
  | _ => 0

/-- A word is a letter or underscore, then letters, digits and underscores. -/
def wordLength : List Char → Nat
  | c :: text => if isWordStart c then runLength isWordChar text + 1 else 0
  | [] => 0

/-- An integer is an optional sign and decimal digits. -/
def integerLength (text : List Char) : Nat :=
  let sign := signLength text
  let digits := runLength Char.isDigit (text.drop sign)
  if digits = 0 then 0 else sign + digits

/-- The length of a hexadecimal number without sign. -/
def hexMagnitudeLength : List Char → Nat
  | '0' :: x :: text =>
    let digits := runLength isHexDigit text
    if (x = 'x' ∨ x = 'X') ∧ digits ≠ 0 then digits + 2 else 0
  | _ => 0

/-- A hexadecimal integer is an optional sign, `0x` or `0X`, and hexadecimal digits. -/
def hexLength (text : List Char) : Nat :=
  let sign := signLength text
  let magnitude := hexMagnitudeLength (text.drop sign)
  if magnitude = 0 then 0 else sign + magnitude

/-- An exponent is `e` or `E`, an optional sign and decimal digits. -/
def exponentLength : List Char → Nat
  | e :: text =>
    let sign := match text with
      | '+' :: _ | '-' :: _ => 1
      | _ => 0
    let digits := runLength Char.isDigit (text.drop sign)
    if (e = 'e' ∨ e = 'E') ∧ digits ≠ 0 then 1 + sign + digits else 0
  | [] => 0

/-- The length of a point with the digits and the exponent after it. -/
def fractionLength : List Char → Nat
  | '.' :: text =>
    let digits := runLength Char.isDigit text
    if digits = 0 then 0 else 1 + digits + exponentLength (text.drop digits)
  | _ => 0

/-- A floating-point number is an optional sign, any number of digits, a point, at least one digit
and an optional exponent. -/
def floatLength (text : List Char) : Nat :=
  let sign := signLength text
  let whole := runLength Char.isDigit (text.drop sign)
  let fraction := fractionLength (text.drop (sign + whole))
  if fraction = 0 then 0 else sign + whole + fraction

/-- A quote opens a string. -/
def quoteLength : List Char → Nat
  | c :: _ => if c = '"' ∨ c = '\'' then 1 else 0
  | [] => 0

/-- A punctuation token is its character. -/
def punctLength (p : Punct) : List Char → Nat
  | c :: _ => if c = p.char then 1 else 0
  | [] => 0

/-- A line comment is two slashes and the rest of the line. -/
def lineCommentLength : List Char → Nat
  | '/' :: '/' :: text => runLength (· != '\n') text + 2
  | _ => 0

/-- A slash and an asterisk open a block comment. -/
def blockOpeningLength : List Char → Nat
  | '/' :: '*' :: _ => 2
  | _ => 0

/-! ## The pattern that reaches furthest -/

/-- The patterns of tokens. -/
inductive Pattern where
  | word | integer | hexInteger | float | quote | lineComment | blockOpening
  | punct (p : Punct)
  deriving DecidableEq

namespace Pattern

/-- Every pattern. -/
def all : List Pattern :=
  [word, integer, hexInteger, float, quote, lineComment, blockOpening] ++ Punct.all.map punct

/-- The length of the longest start of a text that the pattern matches. -/
def length : Pattern → List Char → Nat
  | word => wordLength
  | integer => integerLength
  | hexInteger => hexLength
  | float => floatLength
  | quote => quoteLength
  | lineComment => lineCommentLength
  | blockOpening => blockOpeningLength
  | punct p => punctLength p

/-- The first of the given patterns with the longest match at the start of a text, and the length
of that match. -/
def longestOf (text : List Char) : List Pattern → Option (Pattern × Nat)
  | [] => none
  | p :: patterns =>
    match longestOf text patterns with
    | some (q, n) => if n ≤ p.length text then some (p, p.length text) else some (q, n)
    | none => if 0 < p.length text then some (p, p.length text) else none

/-- The pattern that reaches furthest from the start of a text, and how far. -/
def longest? (text : List Char) : Option (Pattern × Nat) := longestOf text all

theorem longestOf_eq_some {text : List Char} {patterns : List Pattern} {p : Pattern} {n : Nat}
    (h : longestOf text patterns = some (p, n)) :
    p ∈ patterns ∧ n = p.length text ∧ 0 < n ∧ ∀ q ∈ patterns, q.length text ≤ n := by
  induction patterns generalizing p n with
  | nil => simp [longestOf] at h
  | cons r patterns ih =>
    rw [longestOf] at h
    cases hl : longestOf text patterns with
    | none =>
      rw [hl] at h
      have hnone : ∀ q ∈ patterns, q.length text = 0 := by
        clear ih h
        induction patterns with
        | nil => simp
        | cons s patterns ih =>
          rw [longestOf] at hl
          cases hs : longestOf text patterns with
          | none =>
            rw [hs] at hl
            simp only [ite_eq_right_iff, reduceCtorEq, imp_false, Nat.not_lt, Nat.le_zero] at hl
            simpa [hl] using ih hs
          | some best =>
            rw [hs] at hl
            simp only at hl
            split at hl <;> simp at hl
      simp only [Option.ite_none_right_eq_some, Option.some.injEq, Prod.mk.injEq] at h
      obtain ⟨hpos, rfl, rfl⟩ := h
      refine ⟨List.mem_cons_self, rfl, hpos, fun q hq => ?_⟩
      rcases List.mem_cons.1 hq with rfl | hq
      · exact Nat.le_refl _
      · rw [hnone q hq]; exact Nat.zero_le _
    | some best =>
      obtain ⟨q, m⟩ := best
      obtain ⟨hmem, hm, hpos, hmax⟩ := ih hl
      rw [hl] at h
      simp only at h
      split at h
      · next hle =>
        simp only [Option.some.injEq, Prod.mk.injEq] at h
        obtain ⟨rfl, rfl⟩ := h
        refine ⟨List.mem_cons_self, rfl, by omega, fun s hs => ?_⟩
        rcases List.mem_cons.1 hs with rfl | hs
        · exact Nat.le_refl _
        · exact Nat.le_trans (hmax s hs) hle
      · next hlt =>
        simp only [Option.some.injEq, Prod.mk.injEq] at h
        obtain ⟨rfl, rfl⟩ := h
        refine ⟨List.mem_cons_of_mem _ hmem, hm, hpos, fun s hs => ?_⟩
        rcases List.mem_cons.1 hs with rfl | hs
        · omega
        · exact hmax s hs

theorem longest?_pos {text : List Char} {p : Pattern} {n : Nat}
    (h : longest? text = some (p, n)) : 0 < n :=
  (longestOf_eq_some h).2.2.1

end Pattern

end ProtoSchema
