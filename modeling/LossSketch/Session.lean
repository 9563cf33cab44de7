import LossSketch.Error
import LossSketch.Field.Basic
import LossSketch.Field.Primality
import LossSketch.Word

/-!
# Sessions

* `Session` holds the parameters that both observers of a comparison share.
* `Session.check` refuses parameters that describe no usable session. It reckons with the bits of a
  packet, whose number is a word only for packets of less than `2 ^ 61` bytes.
  `Session.checkChecked` is the check in words.
* `Session.checkAlike` refuses two sessions whose sketches cannot be combined. The length of a
  packet is not compared: it changes neither where a key lands nor what is summed.
-/

namespace LossSketch

/-- How the hash functions share the buckets of a table. -/
inductive Policy
  /-- Every hash function may land anywhere. -/
  | shared
  /-- Hash function `i` lands in the `i`-th of equally long ranges only. -/
  | disjoint
  deriving DecidableEq

/-- Parameters that stay fixed for a comparison. -/
structure Session where
  /-- The number of buckets of a table. -/
  buckets : UInt64 := 1000
  /-- The number of hash functions, which is how many buckets hold a key. -/
  hashes : UInt32 := 2
  /-- The width of a fingerprint in bits. -/
  width : UInt32 := 16
  /-- The prime modulus of power sums and bucket sums. -/
  modulus : UInt32 := 65521
  /-- The number of power sums, which is the most losses they decode. -/
  degree : UInt64 := 20
  policy : Policy := .shared
  seed : UInt64 := 0
  /-- The least length of a packet in bytes. -/
  packetBytes : UInt64 := 16
  deriving DecidableEq

namespace Session

variable (s : Session)

/-- The field that sums are formed in. -/
def field : Field := ⟨s.modulus⟩

/-- The first parameter that cannot be used. -/
def fault? : Option ConfigFault :=
  if s.buckets = 0 then some .noBuckets
  else if s.hashes = 0 then some .noHashes
  else if s.width = 0 ∨ 32 < s.width then some (.width s.width.toNat)
  else if s.degree = 0 then some .noDegree
  else if !isPrime s.modulus then some (.compositeModulus s.modulus.toNat)
  else if s.modulus.toNat ≤ s.degree.toNat then
    some (.degreeTooLarge s.degree.toNat s.modulus.toNat)
  else if s.policy = .disjoint ∧ s.buckets.toNat % s.hashes.toNat ≠ 0 then
    some (.unevenRanges s.buckets.toNat s.hashes.toNat)
  else if s.packetBytes.toNat * 8 < s.width.toNat then
    some (.shortPackets s.packetBytes.toNat s.width.toNat)
  else none

/-- Refuses parameters that describe no usable session. -/
def check : Except Error Unit :=
  match s.fault? with
  | some fault => .error (.invalidConfig fault)
  | none => .ok ()

/-- Refuses parameters that describe no usable session. The number of bits of a packet is formed
last, and stops the check if it is no word. -/
def checkChecked : Checked Unit := do
  Checked.report s.check
  discard (Checked.step (unsigned? (s.packetBytes.toNat * 8)))

/-- The buckets of one hash function: a range of its own, or the whole table. -/
def rangeSize : UInt64 :=
  match s.policy with
  | .shared => s.buckets
  | .disjoint => s.buckets / s.hashes.toUInt64

/-- The first parameter that keeps sketches of two sessions from being combined. -/
def difference? (other : Session) : Option Difference :=
  if s.buckets ≠ other.buckets then
    some (.tableSizes s.buckets.toNat other.buckets.toNat)
  else if s.hashes ≠ other.hashes ∨ s.policy ≠ other.policy ∨ s.seed ≠ other.seed then
    some .hashSchemes
  else if s.modulus ≠ other.modulus then
    some (.moduli s.modulus.toNat other.modulus.toNat)
  else if s.width ≠ other.width then some .widths
  else if s.degree ≠ other.degree then
    some (.degrees s.degree.toNat other.degree.toNat)
  else none

/-- Refuses to combine sketches of sessions that differ. -/
def checkAlike (other : Session) : Except Error Unit :=
  match s.difference? other with
  | some difference => .error (.structuralMismatch difference)
  | none => .ok ()

/-- Refuses to combine sketches of sessions, or of offsets into the packets, that differ. -/
def checkAligned (offset : UInt64) (other : Session) (otherOffset : UInt64) :
    Except Error Unit := do
  s.checkAlike other
  if offset ≠ otherOffset then
    throw (.structuralMismatch (.offsets offset.toNat otherOffset.toNat))

end Session

end LossSketch
