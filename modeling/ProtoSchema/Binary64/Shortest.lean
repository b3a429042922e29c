import ProtoSchema.Binary64.Basic

/-
  The shortest decimal that reads back as a given number. A decimal reads back as the number when
  it lies in the interval of reals that round to it; the interval contains its ends exactly when
  the significand is even. The coarsest grid of multiples of a power of ten that has a point in
  the interval gives the fewest digits, and the nearest such point is the text of the number.
-/

namespace ProtoSchema.Binary64

/-- The decimal `digits * 10 ^ exponent`. -/
structure Decimal where
  digits : Nat
  exponent : Int
  deriving DecidableEq

/-- The quarter steps, below and above the significand, that still round to the number. The step
downwards is half as wide at a power of two. -/
def quarterSteps (x : Binary64) : Nat × Nat :=
  if x.significand = Nat.pow 2 52 ∧ 1 < x.exponentField then (1, 2) else (2, 2)

/-- The point of the grid of multiples of `10 ^ k` that is nearest to the magnitude of `x`, among
those which read back as `x`. All numbers are brought to one scale, on which the magnitude is
`4 * m * b` and the grid has the points `c * a`. -/
def gridPoint? (x : Binary64) (k : Int) : Option Nat :=
  let m := x.significand
  let a := Nat.pow 10 k.toNat * Nat.pow 2 (2 - x.scale).toNat
  let b := Nat.pow 10 (-k).toNat * Nat.pow 2 (x.scale - 2).toNat
  let value := 4 * m * b
  let low := value - x.quarterSteps.1 * b
  let high := value + x.quarterSteps.2 * b
  let readsBack (c : Nat) : Bool :=
    if m % 2 = 0 then low ≤ c * a && c * a ≤ high else low < c * a && c * a < high
  let below := value / a
  let above := below + 1
  match readsBack below, readsBack above with
  | true, true => some (if 2 * (value - below * a) < a then below else above)
  | true, false => some below
  | false, true => some above
  | false, false => none

/-- The powers of ten whose multiples can be the shortest text of a number, coarsest first. -/
def gridExponents : List Int := (List.range 660).map fun (i : Nat) => (310 : Int) - i

/-- The shortest decimal that reads back as the magnitude of a finite number other than zero. -/
def shortest? (x : Binary64) : Option Decimal :=
  gridExponents.findSome? fun k => (x.gridPoint? k).map (⟨·, k⟩)

end ProtoSchema.Binary64
