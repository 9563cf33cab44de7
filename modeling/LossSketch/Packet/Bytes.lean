/-!
# Bytes as numbers

* `Bytes` is a list of bytes, such as a packet or a snapshot.
* `Bytes.toNat` reads it with the least significant byte first, so bit `8 * i + j` of the number is
  bit `j` of byte `i`.
* `Bytes.ofNat len n` writes the lowest `len` bytes of a number in the same order.
-/

namespace LossSketch

/-- A packet, a window of one, or a snapshot. -/
abbrev Bytes := List UInt8

namespace Bytes

/-- The number that the bytes spell, least significant byte first. -/
def toNat : Bytes → Nat
  | [] => 0
  | b :: bytes => b.toNat + 256 * toNat bytes

/-- The lowest `len` bytes of `n`, least significant byte first. -/
def ofNat : (len : Nat) → (n : Nat) → Bytes
  | 0, _ => []
  | len + 1, n => UInt8.ofNat n :: ofNat len (n / 256)

@[simp] theorem length_ofNat (len n : Nat) : (ofNat len n).length = len := by
  induction len generalizing n with
  | zero => rfl
  | succ len ih => simp [ofNat, ih]

/-- Reading and writing back restores the bytes. -/
theorem ofNat_toNat (bytes : Bytes) : ofNat bytes.length (toNat bytes) = bytes := by
  induction bytes with
  | nil => rfl
  | cons b bytes ih =>
    have hb := b.toNat_lt
    have hdiv : (b.toNat + 256 * toNat bytes) / 256 = toNat bytes := by omega
    have hmod : UInt8.ofNat (b.toNat + 256 * toNat bytes) = b := by
      apply UInt8.toNat_inj.1
      simp only [UInt8.toNat_ofNat']
      omega
    simp only [List.length_cons, ofNat, toNat, hdiv, hmod, ih]

end Bytes

end LossSketch
