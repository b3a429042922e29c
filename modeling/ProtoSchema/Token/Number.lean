import ProtoSchema.Binary64.Nearest
import ProtoSchema.Token.Pattern

/-
  The values of number literals. Integers are exact and have to fit into 64 bits with a sign;
  floating-point literals are rounded once, to the nearest number.
-/

namespace ProtoSchema

/-- Whether an integer fits into 64 bits with a sign. -/
def fitsInt64 (n : Int) : Bool := -(Nat.pow 2 63 : Nat) ≤ n && n < (Nat.pow 2 63 : Nat)

/-- The integer that a literal denotes: after the sign and `marker` more characters come the
digits of the given base. -/
def integerValue (base marker : Nat) (literal : List Char) : Int :=
  let sign := signLength literal
  let magnitude : Int := ofDigits base (literal.drop (sign + marker))
  if sign = 1 then -magnitude else magnitude

/-- The exponent that the end of a floating-point literal denotes. -/
def exponentValue : List Char → Int
  | [] => 0
  | _ :: '-' :: digits => -ofDigits 10 digits
  | _ :: '+' :: digits => ofDigits 10 digits
  | _ :: digits => ofDigits 10 digits

/-- The number that a floating-point literal denotes. -/
def floatValue (literal : List Char) : Binary64 :=
  let sign := signLength literal
  let whole := (literal.drop sign).takeWhile Char.isDigit
  let afterPoint := literal.drop (sign + whole.length + 1)
  let fraction := afterPoint.takeWhile Char.isDigit
  let exponent := exponentValue (afterPoint.drop fraction.length)
  Binary64.ofDecimal (sign == 1) (ofDigits 10 (whole ++ fraction)) (exponent - fraction.length)

end ProtoSchema
