/-!
# Primality of a 32-bit word by trial division

`isPrime` divides by two and then by the odd numbers up to the square root, of which a 32-bit word
has at most `2 ^ 15`.
-/

namespace LossSketch

/-- None of `d`, `d + 2`, `d + 4`, … up to the square root of `n` divides `n`. -/
def noDivisorFrom (n d : Nat) : Bool :=
  if d * d ≤ n then
    if n % d = 0 then false else noDivisorFrom n (d + 2)
  else true
termination_by n + 1 - d
decreasing_by
  have : d ≤ d * d := Nat.le_mul_self d
  omega

/-- Whether `n` is a prime number. -/
def isPrime (n : UInt32) : Bool :=
  if n < 2 then false
  else if n % 2 = 0 then n = 2
  else noDivisorFrom n.toNat 3

end LossSketch
