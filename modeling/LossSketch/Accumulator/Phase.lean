import LossSketch.Accumulator.PowerSums
import LossSketch.Packet.Offset

/-!
# Accumulators

Fingerprints mean something only once the offset is fixed. So an accumulator first keeps the
packets, and computes its power sums when it is finalized.

* `Buffer` keeps packets. `Buffer.finalize` computes their power sums at a given offset, or at the
  one with the fewest collisions among them.
* `Accumulator` is a buffer or power sums, for an owner that has to keep either. An operation of the
  other phase is a misuse.
* `Accumulator.insertInPlace` and `Accumulator.finalizeInPlace` change the accumulator that the
  owner keeps.
-/

namespace LossSketch

/-- Packets whose power sums are not computed yet. -/
structure Buffer where
  session : Session
  packets : Array Bytes

namespace Buffer

/-- The buffer without packets. -/
def new (session : Session) : Except Error Buffer := do
  session.check
  return ⟨session, #[]⟩

variable (b : Buffer)

/-- Keeps a packet, which must have the length of the session at least. -/
def insert (packet : Bytes) : Except Error Buffer :=
  if packet.length < b.session.packetBytes.toNat then
    .error (.packetTooShort packet.length b.session.packetBytes.toNat)
  else .ok { b with packets := b.packets.push packet }

/-- Keeps a packet in the buffer at hand. -/
def insertInPlace (packet : Bytes) : EStateM Error Buffer Unit := do
  let needed := (← get).session.packetBytes.toNat
  if packet.length < needed then throw (.packetTooShort packet.length needed)
  modify fun b => { b with packets := b.packets.push packet }

/-- The offset with the fewest collisions among the packets. -/
def bestOffset : Except Error Nat := do
  let window ← b.session.window
  window.bestOffset b.packets.toList

/-- The power sums of the packets, at an offset or at the one with the fewest collisions. -/
def finalize (offset : Option UInt64) : Except Error PowerSums := do
  let offset ← match offset with
    | some offset => pure offset
    | none => UInt64.ofNat <$> b.bestOffset
  let window ← b.session.window
  let keys ← window.readAll b.packets.toList offset.toNat
  return PowerSums.accumulate b.session offset keys

end Buffer

/-- An accumulator of either phase. -/
inductive Accumulator
  | buffering (buffer : Buffer)
  | finalized (sums : PowerSums)

namespace Accumulator

/-- The buffering accumulator without packets. -/
def new (session : Session) : Except Error Accumulator :=
  buffering <$> Buffer.new session

/-- Whether the power sums are computed. -/
def isFinalized : Accumulator → Bool
  | buffering _ => false
  | finalized _ => true

/-- Keeps a packet. -/
def insert (packet : Bytes) : Accumulator → Except Error Accumulator
  | buffering b => buffering <$> b.insert packet
  | finalized _ => .error (.misuse .insertFinalized)

/-- Computes the power sums. -/
def finalize (offset : Option UInt64) : Accumulator → Except Error Accumulator
  | buffering b => finalized <$> b.finalize offset
  | finalized _ => .error (.misuse .alreadyFinalized)

/-- Keeps a packet in the accumulator at hand. The buffer is what its own step has made of it, which
may have failed. -/
def insertInPlace (packet : Bytes) : EStateM Error Accumulator Unit
  | buffering b =>
    match (Buffer.insertInPlace packet).run b with
    | .ok () b => .ok () (buffering b)
    | .error e b => .error e (buffering b)
  | finalized a => .error (.misuse .insertFinalized) (finalized a)

/-- Computes the power sums, and keeps them in the place of the buffer. -/
def finalizeInPlace (offset : Option UInt64) : EStateM Error Accumulator Unit := do
  let sums ← match ← get with
    | buffering b => MonadExcept.ofExcept (b.finalize offset)
    | finalized _ => throw (.misuse .alreadyFinalized)
  set (finalized sums)

/-- The power sums, once they are computed. -/
def powerSums : Accumulator → Except Error PowerSums
  | buffering _ => .error (.misuse .notFinalized)
  | finalized a => .ok a

/-- The power sums of a multiset difference. -/
def subtract (a b : Accumulator) : Except Error PowerSums := do
  (← a.powerSums).subtract (← b.powerSums)

end Accumulator

end LossSketch
