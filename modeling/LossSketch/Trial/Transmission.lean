import LossSketch.Random.Draw

/-!
# Simulated transmissions

* `Transmission` is what a sender sent, what the receiver saw, and which packets were lost in
  between.
* `Transmission.drawBy` draws the packets, then the place of a forgery, then the fate of each
  packet, by the rules of any sampler. A packet is drawn again as often as a limit says.
* `Transmission.draw` draws from a source of words, and `Transmission.seeded` from the stream of a
  seed.

A forging receiver reports a packet of all ones in place of one that was sent. No packet that is
sent is all ones, and the packet in that place is never lost.
-/

namespace LossSketch

/-- One simulated transmission. -/
structure Transmission where
  sent : List Bytes
  /-- The packets that the receiver saw, in order. -/
  received : List Bytes
  /-- The indices of the lost packets, ascending. -/
  lost : List Nat
  /-- The index of the packet that the receiver forged. -/
  forged : Option Nat

namespace Transmission

variable {σ : Type}

/-- The packet that a forging receiver reports. -/
def forgery (packetBytes : Nat) : Bytes := List.replicate packetBytes 0xff

/-- A packet to send. -/
def drawPacket (sampler : Sampler σ) (tries packetBytes : Nat) : Draw σ Bytes :=
  Draw.retry (do
    let packet ← sampler.bytes packetBytes
    return if packet = forgery packetBytes then none else some packet) tries

/-- What the receiver sees of a packet, which is nothing when it is lost. -/
def drawFate (sampler : Sampler σ) (chance : Chance) (packetBytes : Nat) (forged : Option Nat)
    (packet : Bytes) (i : Nat) : Draw σ (Option Bytes) :=
  if forged = some i then return some (forgery packetBytes)
  else return if ← sampler.happens chance then none else some packet

/-- The transmission of packets of which the receiver sees what their fates say. -/
def ofFates (sent : List Bytes) (forged : Option Nat) (fates : List (Option Bytes)) :
    Transmission where
  sent
  received := fates.filterMap id
  lost := fates.zipIdx.filterMap fun (fate, i) => if fate = none then some i else none
  forged

/-- A transmission of `count` packets of the given length, each of which is found within some
tries. -/
def drawBy (sampler : Sampler σ) (tries count packetBytes : Nat) (chance : Chance)
    (forging : Bool) : Draw σ Transmission := do
  let sent ← (List.range count).mapM fun _ => drawPacket sampler tries packetBytes
  let forged ← if forging && 0 < count then some <$> sampler.below count else pure none
  let fates ← sent.zipIdx.mapM fun (packet, i) =>
    drawFate sampler chance packetBytes forged packet i
  return ofFates sent forged fates

/-- A transmission from the words of a source. -/
def draw [WordSource σ] (count packetBytes : Nat) (chance : Chance) (forging : Bool) :
    Draw σ Transmission :=
  drawBy .ofWords Draw.tries count packetBytes chance forging

/-- The transmission of a seed. -/
def seeded (seed : UInt64) (count packetBytes : Nat) (chance : Chance) (forging : Bool) :
    Option Transmission :=
  (draw count packetBytes chance forging (Stream.seeded seed)).map Prod.fst

end Transmission

end LossSketch
