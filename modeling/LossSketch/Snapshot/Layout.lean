import LossSketch.Accumulator.PowerSums
import LossSketch.Bucket.Table
import LossSketch.Snapshot.Codec

/-!
# Snapshots of sketches

A snapshot is the session, the offset, and the buckets or power sums behind their number. All
numbers have a fixed width with the least significant byte first, and bytes behind the last number
are ignored. Nothing tells the kinds of sketches apart.

* `Table.toBytes` and `PowerSums.toBytes` write a sketch.
* `Table.ofBytes` and `PowerSums.ofBytes` read one, and refuse what no session of these parameters
  can hold: an unusable session, an offset outside its packets, another number of buckets or power
  sums, and sums outside the field.
* `Table.ofBytesFor` and `PowerSums.ofBytesFor` refuse sketches of other sessions as well.
-/

namespace LossSketch

/-! ## Sessions -/

namespace Policy

/-- The number that stands for a policy. -/
def code : Policy → Nat
  | shared => 0
  | disjoint => 1

/-- Reads a policy. -/
def decoder : Decoder Policy := do
  match ← Decoder.word 4 with
  | 0 => return shared
  | 1 => return disjoint
  | n => throw (.unknownPolicy n)

end Policy

namespace Session

/-- The bytes of a session. -/
def toBytes (s : Session) : Bytes :=
  Bytes.ofNat 8 s.buckets.toNat ++ Bytes.ofNat 4 s.hashes.toNat ++ Bytes.ofNat 4 s.width.toNat
    ++ Bytes.ofNat 4 s.modulus.toNat ++ Bytes.ofNat 8 s.degree.toNat
    ++ Bytes.ofNat 4 s.policy.code ++ Bytes.ofNat 8 s.seed.toNat
    ++ Bytes.ofNat 8 s.packetBytes.toNat

/-- Reads a session, whatever its parameters. -/
def decoder : Decoder Session := do
  let buckets ← Decoder.word 8
  let hashes ← Decoder.word 4
  let width ← Decoder.word 4
  let modulus ← Decoder.word 4
  let degree ← Decoder.word 8
  let policy ← Policy.decoder
  let seed ← Decoder.word 8
  let packetBytes ← Decoder.word 8
  return {
    buckets := UInt64.ofNat buckets
    hashes := UInt32.ofNat hashes
    width := UInt32.ofNat width
    modulus := UInt32.ofNat modulus
    degree := UInt64.ofNat degree
    policy
    seed := UInt64.ofNat seed
    packetBytes := UInt64.ofNat packetBytes }

/-- Refuses a session that cannot be used, and an offset at which its packets hold no window. -/
def checkSnapshot (s : Session) (offset : UInt64) : Except Error Unit := do
  s.check
  let window ← s.window
  if !(window.lastOffset? s.packetBytes.toNat).any (offset.toNat ≤ ·) then
    throw (.invalidConfig (.snapshotOffset offset.toNat))

end Session

/-- Reads all of a sketch off the front of some bytes. -/
def Decoder.read {α : Type} (d : Decoder α) (bytes : Bytes) : Except Error α :=
  match d bytes with
  | .ok (a, _) => .ok a
  | .error fault => .error (.codec fault)

/-! ## Tables -/

namespace Kind

/-- The bytes of the record of the keys. -/
def digestBytes : (kind : Kind) → kind.Digest → Bytes
  | counting, _ => []
  | invertible, sum => Bytes.ofNat 4 (UInt32.toNat sum)
  | summing, sum => Bytes.ofNat 4 (UInt32.toNat sum)

/-- Reads the record of the keys. -/
def digestDecoder : (kind : Kind) → Decoder kind.Digest
  | counting => return ()
  | invertible => UInt32.ofNat <$> Decoder.word 4
  | summing => UInt32.ofNat <$> Decoder.word 4

end Kind

namespace Cell

variable {kind : Kind}

/-- The bytes of a bucket. -/
def toBytes (c : Cell kind) : Bytes :=
  signedBytes c.count ++ kind.digestBytes c.digest

/-- Reads a bucket. -/
def decoder : Decoder (Cell kind) := do
  let count ← Decoder.signed
  let digest ← kind.digestDecoder
  return ⟨count, digest⟩

end Cell

namespace Table

variable {kind : Kind}

/-- The snapshot of a table. -/
def toBytes (t : Table kind) : Bytes :=
  t.session.toBytes ++ Bytes.ofNat 8 t.offset.toNat ++ Bytes.ofNat 8 t.cells.size
    ++ t.cells.toList.flatMap Cell.toBytes

/-- Reads a table, whatever it holds. -/
def decoder : Decoder (Table kind) := do
  let session ← Session.decoder
  let offset ← Decoder.word 8
  let size ← Decoder.word 8
  let cells ← Decoder.times Cell.decoder size
  return ⟨session, UInt64.ofNat offset, cells.toArray⟩

/-- Refuses another number of buckets than the session has, and sums outside the field. -/
def checkCells (t : Table kind) : Except Error Unit :=
  if t.cells.size ≠ t.session.buckets.toNat then
    .error (.structuralMismatch (.snapshotBuckets t.cells.size t.session.buckets.toNat))
  else
    match t.cells.findIdx? (·.fieldSum?.any (t.session.modulus ≤ ·)) with
    | some bucket => .error (.inconsistentBucket bucket)
    | none => .ok ()

/-- The table of a snapshot. -/
def ofBytes (bytes : Bytes) : Except Error (Table kind) := do
  let t ← (decoder : Decoder (Table kind)).read bytes
  t.session.checkSnapshot t.offset
  t.checkCells
  return t

/-- The table of a snapshot of a session. -/
def ofBytesFor (session : Session) (bytes : Bytes) : Except Error (Table kind) := do
  let t ← ofBytes bytes
  session.checkAlike t.session
  return t

end Table

/-! ## Power sums -/

namespace PowerSums

/-- The snapshot of power sums. -/
def toBytes (a : PowerSums) : Bytes :=
  a.session.toBytes ++ Bytes.ofNat 8 a.offset.toNat ++ Bytes.ofNat 8 a.sums.length
    ++ a.sums.flatMap (fun sum => Bytes.ofNat 4 sum.toNat) ++ signedBytes a.count

/-- Reads power sums, whatever they are. -/
def decoder : Decoder PowerSums := do
  let session ← Session.decoder
  let offset ← Decoder.word 8
  let size ← Decoder.word 8
  let sums ← Decoder.times (UInt32.ofNat <$> Decoder.word 4) size
  let count ← Decoder.signed
  return ⟨session, UInt64.ofNat offset, sums, count⟩

/-- Refuses another number of power sums than the session has, and sums outside the field. -/
def checkSums (a : PowerSums) : Except Error Unit :=
  if a.sums.length ≠ a.session.degree.toNat then
    .error (.structuralMismatch (.snapshotSums a.sums.length a.session.degree.toNat))
  else if a.sums.any (a.session.modulus ≤ ·) then .error (.invalidConfig .sumOutsideField)
  else .ok ()

/-- The power sums of a snapshot. -/
def ofBytes (bytes : Bytes) : Except Error PowerSums := do
  let a ← decoder.read bytes
  a.session.checkSnapshot a.offset
  a.checkSums
  return a

/-- The power sums of a snapshot of a session. -/
def ofBytesFor (session : Session) (bytes : Bytes) : Except Error PowerSums := do
  let a ← ofBytes bytes
  session.checkAlike a.session
  return a

end PowerSums

end LossSketch
