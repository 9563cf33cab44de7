import LossSketch.Packet.Bytes
import LossSketch.Session

/-!
# Fingerprints of packets

* `Window` is a width in bits and a modulus. `Window.of` refuses widths outside `1..=32` and moduli
  below two, so every window satisfies the bounds that its fields state.
* `Window.bits?` cuts the bits out of a packet, least significant byte first. Its loop over the bytes
  is `Window.collect`, which has no answer where a byte is missing.
* `Window.settle` maps them below the modulus: a nonzero multiple of the modulus becomes the
  greatest residue, and every other number its residue.
* `Window.read` is the fingerprint: it refuses packets that end inside the window.
* Offsets and numbers of bits are words. `Window.readChecked` stops where the end of the window is
  none, and `Window.lastOffsetChecked?` where the number of bits is none, which it is from `2 ^ 61`
  bytes on. `Window.read` and `Window.lastOffset?` are the same on numbers of any size.
-/

namespace LossSketch

/-- Where fingerprints are read from: a number of bits, and the modulus they are settled below. -/
structure Window where
  width : UInt32
  modulus : UInt32
  width_pos : 0 < width.toNat
  width_le : width.toNat ≤ 32
  two_le_modulus : 2 ≤ modulus.toNat

namespace Window

/-- The window of a width and a modulus. -/
def of (width modulus : UInt32) : Except Error Window :=
  if hw : 0 < width.toNat ∧ width.toNat ≤ 32 then
    if hm : 2 ≤ modulus.toNat then .ok ⟨width, modulus, hw.1, hw.2, hm⟩
    else .error (.invalidConfig (.smallModulus modulus.toNat))
  else .error (.invalidConfig (.width width.toNat))

variable (w : Window)

/-- The modulus, where the window has room for it. It would count as zero, and is never read. -/
def zeroAlias? : Option UInt32 :=
  if w.modulus.toNat < 1 <<< w.width.toNat then some w.modulus else none

/-- The greatest offset at which the window lies inside `bytes` bytes. -/
def lastOffset? (bytes : Nat) : Option Nat :=
  if w.width.toNat ≤ 8 * bytes then some (8 * bytes - w.width.toNat) else none

/-- How many bytes a packet needs to hold the window at an offset. -/
def bytesNeeded (offset : Nat) : Nat :=
  (offset + w.width.toNat + 7) / 8

/-- Puts the bytes above the `filled` lowest bits of `value` until the window is full. The lowest
`skip` bits of the first byte lie before the window. No answer means that a byte is missing. -/
def collect : (bytes : Bytes) → (skip filled : Nat) → (value : UInt64) → Option UInt64
  | [], _, filled, value => if filled < w.width.toNat then none else some value
  | byte :: bytes, skip, filled, value =>
    if filled < w.width.toNat then
      collect bytes 0 (filled + (8 - skip))
        (value ||| (byte >>> UInt8.ofNat skip).toUInt64 <<< UInt64.ofNat filled)
    else some value

/-- The bits of the window at bit `offset`; a packet that ends inside the window has none. The last
byte may bring more bits than the window has, which are masked out. -/
def bits? (packet : Bytes) (offset : Nat) : Option UInt32 :=
  (w.collect (packet.drop (offset / 8)) (offset % 8) 0 0).map fun value =>
    (value &&& ((1 <<< w.width.toUInt64) - 1)).toUInt32

/-- The number below the modulus that stands for the bits. -/
def settle (bits : Nat) : UInt32 :=
  if bits < w.modulus.toNat then UInt32.ofNat bits
  else if bits % w.modulus.toNat = 0 then w.modulus - 1
  else UInt32.ofNat (bits % w.modulus.toNat)

/-- The fingerprint of a packet at bit `offset`. -/
def read (packet : Bytes) (offset : Nat) : Except Error UInt32 :=
  if packet.length < w.bytesNeeded offset then
    .error (.packetTooShort packet.length (w.bytesNeeded offset))
  else
    match w.bits? packet offset with
    | some bits => .ok (w.settle bits.toNat)
    | none => .error (.packetTooShort packet.length (w.bytesNeeded offset))

/-- The number of bytes that a packet needs, if the sums that lead to it are words. -/
def bytesNeededChecked (offset : UInt64) : Option Nat := do
  let last ← unsigned? (offset.toNat + w.width.toNat)
  let raised ← unsigned? (last + 7)
  return raised / 8

/-- The fingerprint of a packet at bit `offset`. The length is compared before anything is read. -/
def readChecked (packet : Bytes) (offset : UInt64) : Checked UInt32 := do
  let needed ← Checked.step (w.bytesNeededChecked offset)
  if packet.length < needed then throw (.error (.packetTooShort packet.length needed))
  else Checked.report (w.read packet offset.toNat)

/-- The greatest offset at which the window lies inside `bytes` bytes, whose bits are counted in a
word. -/
def lastOffsetChecked? (bytes : Nat) : Option (Option Nat) := do
  let bits ← unsigned? (8 * bytes)
  return if w.width.toNat ≤ bits then some (bits - w.width.toNat) else none

/-- The fingerprints of all packets at one offset; the first short packet is an error. -/
def readAll (packets : List Bytes) (offset : Nat) : Except Error (List UInt32) :=
  packets.mapM (w.read · offset)

end Window

namespace Session

/-- The window that a session reads fingerprints through. -/
def window (s : Session) : Except Error Window :=
  Window.of s.width s.modulus

end Session

end LossSketch
