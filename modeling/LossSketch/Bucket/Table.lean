import LossSketch.Bucket.Cell
import LossSketch.Bucket.Placement
import LossSketch.Packet.Window

/-!
# Tables of buckets

* `Table` is an array of buckets, with the session and the offset into the packets that it was built
  for. A key is added at each of its buckets; a bucket that it is sent to twice gets it twice.
* `Table.insert` and `Table.delete` undo each other, and `Table.subtract` takes the keys of one
  table out of another: a sender's table without a receiver's holds what was lost.
* `Table.checkLosses` refuses buckets that no loss of packets can leave behind.
-/

namespace LossSketch

/-- Buckets of one kind, for one session and one offset into the packets. -/
structure Table (kind : Kind) where
  session : Session
  offset : UInt64
  cells : Array (Cell kind)
  deriving DecidableEq

namespace Table

variable {kind : Kind}

/-- The empty table of a session, whose packets are read at bit `offset`. -/
def new (session : Session) (offset : UInt64) : Except Error (Table kind) := do
  session.check
  let window ← session.window
  if (window.lastOffset? session.packetBytes.toNat).any (offset.toNat ≤ ·) then
    return ⟨session, offset, Array.replicate session.buckets.toNat Cell.empty⟩
  else
    throw (.invalidConfig
      (.offsetOutside offset.toNat session.width.toNat session.packetBytes.toNat))

variable (t : Table kind)

/-- The empty table like this one. -/
def emptied : Table kind :=
  { t with cells := Array.replicate t.cells.size Cell.empty }

/-- The bucket at an index. -/
def cell (i : Nat) : Cell kind := t.cells.getD i Cell.empty

/-- The form in which the table records a key. -/
def canonical (key : UInt32) : UInt32 := kind.canonical t.session.field key

/-- The buckets of a key, one per hash function. -/
def bucketsOf (key : UInt32) : List Nat := t.session.bucketsOf (t.canonical key)

/-- The fingerprint of a packet at the offset of the table. -/
def fingerprint (packet : Bytes) : Except Error UInt32 := do
  let window ← t.session.window
  window.read packet t.offset.toNat

/-- Changes the buckets of a key, once for each time that the key is sent there. -/
def modifyAt (key : UInt32) (change : Cell kind → Cell kind) : Table kind :=
  { t with cells := (t.bucketsOf key).foldl (fun cells i => cells.modify i change) t.cells }

/-- The table with one key more. -/
def insert (key : UInt32) : Table kind :=
  let f := t.session.field
  t.modifyAt key (·.insert f key)

/-- The table with one key less. -/
def delete (key : UInt32) : Table kind :=
  let f := t.session.field
  t.modifyAt key (·.delete f key)

/-- Inserts the fingerprint of a packet, and answers it. -/
def insertPacket (packet : Bytes) : Except Error (UInt32 × Table kind) := do
  let key ← t.fingerprint packet
  return (key, t.insert key)

/-- Deletes the fingerprint of a packet, and answers it. -/
def deletePacket (packet : Bytes) : Except Error (UInt32 × Table kind) := do
  let key ← t.fingerprint packet
  return (key, t.delete key)

/-- Every bucket of the key counts something. A key of which this is false is not in the table. -/
def mayHold (key : UInt32) : Bool :=
  (t.bucketsOf key).all fun i => (t.cell i).count ≠ 0

/-- The sum of all counts, which is the number of keys times that of hash functions. -/
def total : Int := t.cells.foldl (fun total c => total + c.count) 0

/-- The number of keys. -/
def keyCount : Int := t.total.tdiv t.session.hashes.toNat

/-- Every bucket is empty. -/
def isEmpty : Bool := t.cells.all (·.isEmpty)

/-- Refuses a table of another session or offset. -/
def checkAlike (other : Table kind) : Except Error Unit :=
  t.session.checkAligned t.offset other.session other.offset

/-- The table without the keys of another. -/
def subtract (other : Table kind) : Except Error (Table kind) := do
  t.checkAlike other
  return { t with cells := t.cells.zipWith (·.sub t.session.field) other.cells }

/-- The table with the keys of another. -/
def merge (other : Table kind) : Except Error (Table kind) := do
  t.checkAlike other
  return { t with cells := t.cells.zipWith (·.add t.session.field) other.cells }

/-- Refuses negative counts, and records of keys in a bucket that counts none. -/
def checkLosses : Except Error Unit :=
  if t.cells.any (·.count < 0) then .error .infeasible
  else
    match t.cells.findIdx? (!·.isCoherent) with
    | some bucket => .error (.inconsistentBucket bucket)
    | none => .ok ()

end Table

end LossSketch
