import LossSketch.Error
import LossSketch.Packet.Bytes

/-!
# Fixed-width words in snapshots

* `Decoder` reads a value off the front of some bytes and leaves the rest. Running out of bytes is
  an error, wherever it happens.
* `Decoder.word` reads an unsigned number of a given number of bytes, `Decoder.signed` a number in
  two's complement of eight; `signedBytes` writes the latter.
* `Decoder.times` reads a value a number of times.
-/

namespace LossSketch

/-- Reads a value off the front of some bytes. -/
abbrev Decoder := StateT Bytes (Except CodecFault)

namespace Decoder

/-- An unsigned number of `len` bytes. -/
def word (len : Nat) : Decoder Nat := fun bytes =>
  let front := bytes.take len
  if front.length < len then .error .endOfInput else .ok (Bytes.toNat front, bytes.drop len)

/-- A signed number of eight bytes. -/
def signed : Decoder Int := do
  return Int.bmod (← word 8) UInt64.size

/-- Reads `count` values behind those in `earlier`, which has the latest first. -/
def timesAfter {α : Type} (item : Decoder α) : (count : Nat) → (earlier : List α) →
    Decoder (List α)
  | 0, earlier => return earlier.reverse
  | count + 1, earlier => do
    let a ← item
    timesAfter item count (a :: earlier)

/-- Reads `count` values. -/
def times {α : Type} (item : Decoder α) (count : Nat) : Decoder (List α) :=
  timesAfter item count []

end Decoder

/-- A signed number in eight bytes. -/
def signedBytes (n : Int) : Bytes :=
  Bytes.ofNat 8 (n % UInt64.size).toNat

end LossSketch
