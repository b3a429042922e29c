import ProtoSchema.Binary64.Basic

/-
  The floating-point number nearest to a decimal one. A tie goes to the number whose significand
  is even, and what is too large for the format becomes infinity.
-/

namespace ProtoSchema.Binary64

/-- The integer nearest to `num / den`, the even one of two at the same distance. -/
def roundHalfEven (num den : Nat) : Nat :=
  let q := num / den
  let r := num % den
  if 2 * r < den then q else if den < 2 * r then q + 1 else q + q % 2

/-- The magnitude word nearest to the fraction `num / den`. The least positive number is
`2 ^ (-1074)`; in units of it the fraction is an integer part and a rest, and `k` low bits of the
integer part do not fit into a significand. The word is then `k * 2 ^ 52` plus the significand,
also where rounding carries into the next power of two. -/
def nearestBits (num den : Nat) : Nat :=
  let units := num * Nat.pow 2 1074
  let k := (units / den).log2 - 52
  min (k * Nat.pow 2 52 + roundHalfEven units (den * Nat.pow 2 k)) infinityBits

/-- The number of decimal digits of a number, which is one for zero. -/
def digitCount (n : Nat) : Nat := (Nat.toDigits 10 n).length

/-- The magnitude word nearest to `digits * 10 ^ exponent`. A decimal of at least `10 ^ 400` or
below `10 ^ (-400)` lies outside the format, and no power of ten is computed for it. -/
def nearestDecimalBits (digits : Nat) (exponent : Int) : Nat :=
  let size := digitCount digits + exponent
  if digits = 0 then 0
  else if 400 < size then infinityBits
  else if size < -400 then 0
  else nearestBits (digits * Nat.pow 10 exponent.toNat) (Nat.pow 10 (-exponent).toNat)

/-- The number nearest to `digits * 10 ^ exponent`, with the given sign. -/
def ofDecimal (isNegative : Bool) (digits : Nat) (exponent : Int) : Binary64 :=
  ofMagnitude isNegative (nearestDecimalBits digits exponent)

/-- Rounding changes a fraction by at most one half. -/
theorem roundHalfEven_dist {num den : Nat} (h : 0 < den) :
    2 * (roundHalfEven num den * den) ≤ 2 * num + den ∧
      2 * num ≤ 2 * (roundHalfEven num den * den) + den := by
  have hdiv : den * (num / den) + num % den = num := Nat.div_add_mod num den
  have hlt : num % den < den := Nat.mod_lt _ h
  have hq : (num / den + 1) * den = den * (num / den) + den := by
    rw [Nat.add_mul, Nat.mul_comm]
    simp
  have hq' : num / den * den = den * (num / den) := Nat.mul_comm _ _
  simp only [roundHalfEven]
  split
  · omega
  · split
    · omega
    · rcases Nat.mod_two_eq_zero_or_one (num / den) with h0 | h1
      · rw [h0, Nat.add_zero]; omega
      · rw [h1]; omega

end ProtoSchema.Binary64
