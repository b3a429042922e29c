import ProtoSchema.Text.Unprintable

/-
  Quoted text: a text between double quotes, in which quotes, backslashes and characters that
  cannot be seen are written as escapes.
-/

namespace ProtoSchema.Text

/-- A number in hexadecimal, in lower case and without leading zeros. -/
def hexadecimal (n : Nat) : List Char := Nat.toDigits 16 n

/-- A character as it stands between the quotes. -/
def escaped (c : Char) : List Char :=
  if c = '"' then ['\\', '"']
  else if c = '\\' then ['\\', '\\']
  else if c = '\x00' then ['\\', '0']
  else if c = '\t' then ['\\', 't']
  else if c = '\r' then ['\\', 'r']
  else if c = '\n' then ['\\', 'n']
  else if isUnprintable c then ['\\', 'u', '\x7b'] ++ hexadecimal c.toNat ++ ['\x7d']
  else [c]

/-- A text between double quotes, with everything in it visible. -/
def quoted (text : List Char) : List Char := '"' :: text.flatMap escaped ++ ['"']

end ProtoSchema.Text
