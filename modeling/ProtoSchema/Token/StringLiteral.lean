import ProtoSchema.Token.Fault
import ProtoSchema.Token.Pattern

/-
  String literals. A literal denotes bytes: plain characters stand for their UTF-8 form, an escape
  for one byte or for one character. The literal ends at its quote; it is faulty if it ends at a
  newline or with the source, if an escape in it is malformed, if it holds a zero character, or
  if its bytes are not valid UTF-8.
-/

namespace ProtoSchema

/-! ## Escapes -/

/-- What the text after a backslash is: an escape of so many characters with the bytes it stands
for, an escape without a value, or no escape. -/
inductive Escape where
  | value (bytes : List UInt8) (length : Nat)
  | valueless (length : Nat)
  | none
  deriving DecidableEq

namespace Escape

/-- The byte that a single letter or sign after the backslash stands for. -/
def simple? : Char → Option UInt8
  | 'a' => some 7
  | 'b' => some 8
  | 'f' => some 12
  | 'n' => some 10
  | 'r' => some 13
  | 't' => some 9
  | 'v' => some 11
  | '?' => some 63
  | '\\' => some 92
  | '\'' => some 39
  | '"' => some 34
  | _ => Option.none

/-- An escape for one byte, which has no value if the number does not fit. -/
def byte (n length : Nat) : Escape :=
  if n < 256 then value [n.toUInt8] length else valueless length

/-- An escape for one character, which has no value if the number is no Unicode scalar value. -/
def char (n length : Nat) : Escape :=
  if n.isValidChar then value (String.utf8EncodeChar (Char.ofNat n)) length else valueless length

/-- Reads one or two hexadecimal digits, as many as there are. -/
def hexByte (text : List Char) : Escape :=
  let digits := (text.take 2).takeWhile isHexDigit
  if digits.isEmpty then none else byte (ofDigits 16 digits) (digits.length + 1)

/-- Reads up to three octal digits, as many as there are. -/
def octalByte (text : List Char) : Escape :=
  let digits := (text.take 3).takeWhile isOctalDigit
  byte (ofDigits 8 digits) digits.length

/-- Reads exactly `size` hexadecimal digits. -/
def codePoint (size : Nat) (text : List Char) : Escape :=
  let digits := (text.take size).takeWhile isHexDigit
  if digits.length = size then char (ofDigits 16 digits) (size + 1) else none

/-- Reads the text after a backslash. -/
def read : List Char → Escape
  | [] => none
  | c :: text =>
    if c = 'x' ∨ c = 'X' then hexByte text
    else if c = 'u' then codePoint 4 text
    else if c = 'U' then codePoint 8 text
    else if isOctalDigit c then octalByte (c :: text)
    else match simple? c with
      | some b => value [b] 1
      | Option.none => none

end Escape

/-! ## Literals -/

/-- How the body of a literal was read: the number of characters in it, its end included, the
bytes it denotes, and the faults found. -/
structure StringBody where
  length : Nat
  bytes : List UInt8
  faults : List LexicalFault
  deriving DecidableEq

namespace StringBody

/-- A body with `n` characters, some bytes and some faults put in front. -/
def prepend (n : Nat) (bytes : List UInt8) (faults : List LexicalFault) (b : StringBody) :
    StringBody :=
  ⟨n + b.length, bytes ++ b.bytes, faults ++ b.faults⟩

/-- Reads the body of a literal whose opening quote, a `quote`, stands at byte `opening`; the body
starts at byte `offset`. A backslash that starts no escape is a fault of its own, and the text
after it is read as if it were not there. -/
def read (quote : Char) (opening offset : Nat) : List Char → StringBody
  | [] => ⟨0, [], [⟨.unterminatedString, ⟨opening, offset⟩⟩]⟩
  | c :: text =>
    if c = quote then ⟨1, [], []⟩
    else if c = '\n' then ⟨1, [], [⟨.unterminatedString, ⟨opening, offset⟩⟩]⟩
    else if c = '\x00' then
      (read quote opening (offset + 1) text).prepend 1 []
        [⟨.invalidStringCharacters, ⟨offset, offset + 1⟩⟩]
    else if c = '\\' then
      match Escape.read text with
      | .value bytes n =>
        (read quote opening (offset + 1 + n) (text.drop n)).prepend (1 + n) bytes []
      | .valueless n =>
        (read quote opening (offset + 1 + n) (text.drop n)).prepend (1 + n) []
          [⟨.invalidStringEscape, ⟨offset, offset + 1 + n⟩⟩]
      | .none =>
        (read quote opening (offset + 1) text).prepend 1 []
          [⟨.invalidStringEscape, ⟨offset, offset + 1⟩⟩]
    else
      (read quote opening (offset + c.utf8Size) text).prepend 1 (String.utf8EncodeChar c) []
termination_by text => text.length
decreasing_by all_goals simp only [List.length_cons, List.length_drop]; omega

end StringBody

/-- The text with the given UTF-8 form. -/
def decodeUtf8? (bytes : List UInt8) : Option String := String.fromUTF8? ⟨bytes.toArray⟩

end ProtoSchema
