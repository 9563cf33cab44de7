import LossSketch.Field.Basic

/-!
# Monic polynomials over a field

* `Monic` lists the coefficients of `x ^ n + c₀ * x ^ (n - 1) + … + cₙ₋₁` below the leading one,
  highest degree first. The empty list is the constant `1`. Coefficients need not be reduced.
* `Monic.eval` is Horner's rule.
* `Monic.deflate` is synthetic division by `x - r`; the last running value is the remainder.
* `Monic.multiplicity` divides by `x - r` as long as the remainder is zero.
* `Monic.roots` evaluates at every residue and stops once there are as many roots as the degree.
-/

namespace LossSketch

/-- The coefficients of a monic polynomial below the leading one, highest degree first. -/
abbrev Monic := List UInt32

namespace Monic

variable (f : Field)

/-- The value at `x`. -/
def eval (c : Monic) (x : UInt32) : UInt32 :=
  c.foldl (fun value coeff => f.add (f.mul value (f.reduce x.toUInt64)) coeff) (f.reduce 1)

/-- The running values of Horner's rule after each coefficient, from `carry` on. -/
def partials (x : UInt32) : UInt32 → Monic → List UInt32
  | _, [] => []
  | carry, coeff :: c =>
    let next := f.add coeff (f.mul carry x)
    next :: partials x next c

/-- Quotient and remainder of the division by `x - root`. -/
def deflate (c : Monic) (root : UInt32) : Monic × UInt32 :=
  let values := partials f (f.reduce root.toUInt64) (f.reduce 1) c
  (values.dropLast, values.getLastD 0)

@[simp] theorem length_partials (x carry : UInt32) (c : Monic) :
    (partials f x carry c).length = c.length := by
  induction c generalizing carry with
  | nil => rfl
  | cons coeff c ih => simp [partials, ih]

@[simp] theorem length_deflate (c : Monic) (root : UInt32) :
    (deflate f c root).1.length = c.length - 1 := by
  simp [deflate]

/-- How often `x - root` divides the polynomial. -/
def multiplicity (c : Monic) (root : UInt32) : Nat :=
  if c = [] then 0
  else
    let d := deflate f c root
    if d.2 = 0 then multiplicity d.1 root + 1 else 0
termination_by c.length
decreasing_by
  rename_i h _
  have := List.length_pos_iff.2 h
  simp only [length_deflate]
  omega

/-- The first `wanted` roots among the `left` residues from `x` on. -/
def rootsFrom (c : Monic) : (left : Nat) → (x : UInt32) → (wanted : Nat) → List UInt32
  | 0, _, _ => []
  | _ + 1, _, 0 => []
  | left + 1, x, wanted + 1 =>
    if c.eval f x = 0 then x :: rootsFrom c left (x + 1) wanted
    else rootsFrom c left (x + 1) (wanted + 1)

/-- The roots, ascending, each once; the constant `1` has none. -/
def roots (c : Monic) : List UInt32 :=
  rootsFrom f c f.modulus.toNat 0 c.length

end Monic

end LossSketch
