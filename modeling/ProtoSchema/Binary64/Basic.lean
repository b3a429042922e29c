/-
  Binary floating-point numbers of 64 bits, as the words that hold them. A word is a sign, eleven
  bits of exponent and 52 bits of fraction; a finite number is a significand times a power of two,
  and everything about it is computed in exact integers.
-/

namespace ProtoSchema

/-- A double-precision number in the interchange format of the floating-point standard. -/
structure Binary64 where
  bits : UInt64
  deriving DecidableEq

namespace Binary64

/-- The word of positive infinity; the words of the finite magnitudes lie below it. -/
def infinityBits : Nat := 0x7FF * Nat.pow 2 52

/-- Whether the sign bit is set. -/
def isNegative (x : Binary64) : Bool := x.bits.toNat ≥ Nat.pow 2 63

/-- The word without its sign bit. -/
def magnitudeBits (x : Binary64) : Nat := x.bits.toNat % Nat.pow 2 63

/-- The number with the given magnitude word and sign. -/
def ofMagnitude (isNegative : Bool) (bits : Nat) : Binary64 :=
  ⟨(if isNegative then bits + Nat.pow 2 63 else bits).toUInt64⟩

/-- Whether the number is one of the two infinities. -/
def isInfinite (x : Binary64) : Bool := x.magnitudeBits == infinityBits

/-- Whether the word stands for no number. -/
def isNaN (x : Binary64) : Bool := x.magnitudeBits > infinityBits

/-- The exponent field: zero for zero and the subnormal numbers. -/
def exponentField (x : Binary64) : Nat := x.magnitudeBits / Nat.pow 2 52

/-- The integer `m` in the magnitude `m * 2 ^ q` of a finite number. -/
def significand (x : Binary64) : Nat :=
  if x.exponentField = 0 then x.magnitudeBits else Nat.pow 2 52 + x.magnitudeBits % Nat.pow 2 52

/-- The exponent `q` in the magnitude `m * 2 ^ q` of a finite number. -/
def scale (x : Binary64) : Int := max x.exponentField 1 - 1075

/-- Whether a finite number is an integer. -/
def isIntegral (x : Binary64) : Bool := x.significand % Nat.pow 2 (-x.scale).toNat == 0

/-- The magnitude of a finite number, rounded towards zero to an integer. -/
def integerPart (x : Binary64) : Nat :=
  x.significand * Nat.pow 2 x.scale.toNat / Nat.pow 2 (-x.scale).toNat

end Binary64

end ProtoSchema
