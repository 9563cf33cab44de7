import LossSketch.Field.Monic

/-!
# Power sums and Newton's identities

* `powerSums` sums `x, x ^ 2, …, x ^ degree` over a list of elements.
* `coefficientsOf` goes back: from the first `n` power sums of `n` elements it recovers the monic
  polynomial whose roots they are, by Newton's identities `(i + 1) * cᵢ = -(pᵢ + p₀ * cᵢ₋₁ + … +
  pᵢ₋₁ * c₀)`, where `pᵢ` is the sum of the `i + 1`-st powers.
* `inverse` supplies the inverses of `1, 2, …` that the identities divide by.
-/

namespace LossSketch

namespace Field

variable (f : Field)

/-- Adds `y, y * x, y * x ^ 2, …` to the sums. -/
def addPowers (x : UInt32) : (y : UInt32) → List UInt32 → List UInt32
  | _, [] => []
  | y, s :: sums => f.add s y :: addPowers x (f.mul y x) sums

/-- Adds the powers of one element to the power sums of others. -/
def insertPowers (sums : List UInt32) (key : UInt32) : List UInt32 :=
  f.addPowers (f.reduce key.toUInt64) (f.reduce key.toUInt64) sums

/-- The sums of the first `degree` powers of the elements. -/
def powerSums (degree : Nat) (keys : List UInt32) : List UInt32 :=
  keys.foldl f.insertPowers (List.replicate degree 0)

/-- The inverse of `n`, or zero where there is none. -/
def inverse (n : Nat) : UInt32 :=
  (f.inv? (f.reduce (UInt64.ofNat n))).getD 0

/-- Adds the products of matching elements of the two lists to `acc`. -/
def addProducts (acc : UInt32) : List UInt32 → List UInt32 → UInt32
  | p :: ps, c :: cs => addProducts (f.add acc (f.mul p c)) ps cs
  | _, _ => acc

/-- The next coefficient, from all power sums, the power sum of its place `i`, and the earlier
coefficients with the latest first. -/
def nextCoefficient (sums : List UInt32) (earlier : List UInt32) (p : UInt32) (i : Nat) : UInt32 :=
  f.mul (f.neg (f.addProducts p sums earlier)) (f.inverse (i + 1))

/-- The coefficients that the first power sums determine, one for each of the first `n`. -/
def coefficientsOf (sums : List UInt32) (n : Nat) : Monic :=
  ((sums.take n).zipIdx.foldl
    (fun earlier (p, i) => f.nextCoefficient sums earlier p i :: earlier) []).reverse

end Field

end LossSketch
