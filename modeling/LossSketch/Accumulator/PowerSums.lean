import LossSketch.Field.Newton
import LossSketch.Session

/-!
# Power sums of the fingerprints of a session

* `PowerSums` holds the first power sums of a multiset of fingerprints, and its signed size. It was
  computed at one offset into the packets, and combines only with power sums of that offset.
* `PowerSums.subtract` is the power sums of a multiset difference.
* `PowerSums.rootPolynomial` is the monic polynomial whose roots are the elements, one per element.
-/

namespace LossSketch

/-- The power sums of a multiset of fingerprints. -/
structure PowerSums where
  session : Session
  offset : UInt64
  /-- The sums of the first, second, … powers, as many as the degree of the session. -/
  sums : List UInt32
  /-- The number of elements, which is negative when more was taken out than put in. -/
  count : Int
  deriving DecidableEq

namespace PowerSums

/-- The power sums of a list of fingerprints, for a session already checked. -/
def accumulate (session : Session) (offset : UInt64) (keys : List UInt32) : PowerSums :=
  ⟨session, offset, session.field.powerSums session.degree.toNat keys, keys.length⟩

/-- The power sums of a list of fingerprints. -/
def ofKeys (session : Session) (offset : UInt64) (keys : List UInt32) :
    Except Error PowerSums := do
  session.check
  return accumulate session offset keys

variable (a : PowerSums)

/-- The most elements that can be decoded. -/
def capacity : Nat := a.session.degree.toNat

/-- Refuses power sums of another session or offset. -/
def checkAlike (b : PowerSums) : Except Error Unit :=
  a.session.checkAligned a.offset b.session b.offset

/-- The power sums without the elements of another multiset. -/
def subtract (b : PowerSums) : Except Error PowerSums := do
  a.checkAlike b
  return { a with
    sums := a.sums.zipWith a.session.field.sub b.sums
    count := a.count - b.count }

/-- The number of elements, if it can be decoded. -/
def size : Except Error Nat :=
  if a.count < 0 then .error .infeasible
  else if a.capacity < a.count.toNat then .error (.thresholdExceeded a.count.toNat a.capacity)
  else .ok a.count.toNat

/-- The polynomial that the first `n` power sums determine. -/
def polynomial (n : Nat) : Monic := a.session.field.coefficientsOf a.sums n

/-- The polynomial that all power sums determine. With fewer elements than the degree, the
coefficients behind theirs are zero. -/
def fullPolynomial : Monic := a.polynomial a.capacity

/-- The polynomial whose roots are the elements. -/
def rootPolynomial : Except Error Monic := do
  return a.polynomial (← a.size)

end PowerSums

end LossSketch
