/-!
# The shortest decimal of a floating-point number

* `Dyadic` is `mantissa * 2 ^ exponent`, and `Dyadic.ofFloat?` decodes a finite positive number.
* `Dyadic.readsBack` tells whether a decimal lies among the reals that round to the number. The ends
  of that interval belong to it when the mantissa is even.
* `Dyadic.shortest` is the decimal of the fewest digits that reads back, and of those the nearest.
  Of two that are equally near it is the upper one.
* `Decimal.positional` writes all digits out, without an exponent.
* `floatText` is the text of a number in this form, whole numbers without a point.
-/

namespace LossSketch

/-- The number `digits * 10 ^ exponent`. -/
structure Decimal where
  digits : Nat
  exponent : Int
  deriving DecidableEq

/-- The number written out: zeros behind or in front of its digits, and a point where it has a
fraction. -/
def Decimal.positional (x : Decimal) : String :=
  let digits := (toString x.digits).toList
  if 0 ≤ x.exponent then
    String.ofList (digits ++ List.replicate x.exponent.toNat '0')
  else
    let places := x.exponent.natAbs
    let padded := List.replicate (places + 1 - digits.length) '0' ++ digits
    let whole := padded.length - places
    String.ofList (padded.take whole ++ '.' :: padded.drop whole)

/-- The number `mantissa * 2 ^ exponent`, with the least exponent that its format has for it. -/
structure Dyadic where
  mantissa : Nat
  exponent : Int

namespace Dyadic

/-- The bit in front of the fraction, which the format leaves out. -/
def hiddenBit : Nat := 4503599627370496

/-- The value of a finite positive number. -/
def ofFloat? (x : Float) : Option Dyadic :=
  let bits := x.toBits.toNat
  let fraction := bits % hiddenBit
  let scale := bits / hiddenBit
  if scale = 0 then (if fraction = 0 then none else some ⟨fraction, -1074⟩)
  else if scale < 2047 then some ⟨hiddenBit + fraction, Int.ofNat scale - 1075⟩
  else none

variable (x : Dyadic)

/-- The number as a fraction: four times the mantissa over four times the power of two, so that the
midpoints to its neighbours have whole numerators. -/
def fraction : Nat × Nat :=
  if 0 ≤ x.exponent then ((4 * x.mantissa) <<< x.exponent.toNat, 4)
  else (4 * x.mantissa, 4 <<< x.exponent.natAbs)

/-- The distances to the ends of the interval, over the same denominator. Below a power of two the
numbers lie twice as dense. -/
def margins : Nat × Nat :=
  let unit := if 0 ≤ x.exponent then 1 <<< x.exponent.toNat else 1
  (if x.mantissa = hiddenBit ∧ -1074 < x.exponent then unit else 2 * unit, 2 * unit)

/-- Whether `digits * 10 ^ exponent` rounds to the number. -/
def readsBack (d : Decimal) : Bool :=
  let (num, den) := x.fraction
  let (below, above) := x.margins
  let (a, b) := if 0 ≤ d.exponent then (d.digits * Nat.pow 10 d.exponent.toNat, 1)
    else (d.digits, Nat.pow 10 d.exponent.natAbs)
  if x.mantissa % 2 = 0 then (num - below) * b ≤ a * den ∧ a * den ≤ (num + above) * b
  else (num - below) * b < a * den ∧ a * den < (num + above) * b

/-- The whole part of the number over `10 ^ exponent`, and whether the fraction behind it is a half
or more. -/
def onGrid (exponent : Int) : Nat × Bool :=
  let (num, den) := x.fraction
  let (num, den) := if 0 ≤ exponent then (num, den * Nat.pow 10 exponent.toNat)
    else (num * Nat.pow 10 exponent.natAbs, den)
  (num / den, den ≤ 2 * (num % den))

/-- The neighbour of the number on a grid that reads back. The nearer of the two comes first, and
halfway between them the upper one. -/
def neighbour? (exponent : Int) : Option Decimal :=
  let (whole, up) := x.onGrid exponent
  let order := if up then [whole + 1, whole] else [whole, whole + 1]
  (order.map fun digits => (⟨digits, exponent⟩ : Decimal)).find? x.readsBack

/-- The decimal of the fewest digits that reads back. The grids are tried from the power of ten
above the number on; a grid eighteen powers finer separates any two numbers of the format. -/
def shortest : Decimal :=
  let (num, den) := x.fraction
  let digits (n : Nat) : Int := (toString n).length
  let top := if num / den = 0 then 1 - digits (den / num) else digits (num / den)
  ((List.range 20).findSome? fun i => x.neighbour? (top - Int.ofNat i)).getD ⟨0, 0⟩

end Dyadic

/-- The text of a floating-point number, in the fewest digits that read back. -/
def floatText (x : Float) : String :=
  if x.isNaN then "NaN"
  else
    let magnitude :=
      if x.isInf then "inf"
      else match Dyadic.ofFloat? x.abs with
        | none => "0"
        | some d => d.shortest.positional
    if x < 0 || (x == 0 && 1 / x < 0) then "-" ++ magnitude else magnitude

end LossSketch
