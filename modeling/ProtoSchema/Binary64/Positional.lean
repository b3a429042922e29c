import ProtoSchema.Binary64.Shortest

/-
  The text of a number in positional notation. An integer is written with all its digits and one
  zero after the point, any other number with the fewest digits that read back, and neither ever
  with an exponent.
-/

namespace ProtoSchema.Binary64

/-- A decimal in positional notation. -/
def Decimal.positional (d : Decimal) : String :=
  let digits := Nat.toDigits 10 d.digits
  let places := (-d.exponent).toNat
  let padded := List.replicate (places + 1 - digits.length) '0' ++ digits
  let whole := padded.take (padded.length - places)
  let part := padded.drop (padded.length - places)
  let zeros := List.replicate d.exponent.toNat '0'
  String.ofList (if part.isEmpty then whole ++ zeros else whole ++ '.' :: part)

/-- The magnitude of a number as text. -/
def magnitudeText (x : Binary64) : String :=
  if x.isInfinite then "inf"
  else if x.isIntegral then toString x.integerPart ++ ".0"
  else match x.shortest? with
    | some d => d.positional
    | none => toString x.integerPart ++ ".0"

/-- The text of a number. -/
def text (x : Binary64) : String :=
  if x.isNaN then "NaN" else if x.isNegative then "-" ++ x.magnitudeText else x.magnitudeText

end ProtoSchema.Binary64
