import LossSketch.Bucket.Peel
import LossSketch.Word

/-!
# Tables in words

The count of a bucket is a signed word. A snapshot may hold any, so inserting, deleting, combining
and peeling can come to a count out of range. The operations here stop there, and are otherwise the
operations of the same names on `Cell` and `Table`.
-/

namespace LossSketch

namespace Cell

variable {kind : Kind} (f : Field)

/-- The bucket with the keys of both. -/
def addChecked (a b : Cell kind) : Option (Cell kind) := do
  let count ← signed? (a.count + b.count)
  return ⟨count, kind.join f a.digest b.digest⟩

/-- The bucket with the keys of the first without those of the second. -/
def subChecked (a b : Cell kind) : Option (Cell kind) := do
  let count ← signed? (a.count - b.count)
  return ⟨count, kind.cancel f a.digest b.digest⟩

/-- The bucket with one key more. -/
def insertChecked (c : Cell kind) (key : UInt32) : Option (Cell kind) :=
  c.addChecked f (single f key)

/-- The bucket with one key less. -/
def deleteChecked (c : Cell kind) (key : UInt32) : Option (Cell kind) :=
  c.subChecked f (single f key)

end Cell

namespace Table

variable {kind : Kind}

/-- The empty table of a session, whose packets are read at bit `offset`. -/
def newChecked (session : Session) (offset : UInt64) : Checked (Table kind) := do
  session.checkChecked
  Checked.report (new session offset)

variable (t : Table kind)

/-- The fingerprint of a packet at the offset of the table. -/
def fingerprintChecked (packet : Bytes) : Checked UInt32 := do
  let window ← Checked.report t.session.window
  window.readChecked packet t.offset

/-- Changes the buckets of a key, once for each time that the key is sent there. -/
def modifyAtChecked (key : UInt32) (change : Cell kind → Option (Cell kind)) :
    Option (Table kind) := do
  let cells ← (t.bucketsOf key).foldlM (fun cells i => modifyChecked cells i change) t.cells
  return { t with cells }

/-- The table with one key more. -/
def insertChecked (key : UInt32) : Option (Table kind) :=
  let f := t.session.field
  t.modifyAtChecked key (·.insertChecked f key)

/-- The table with one key less. -/
def deleteChecked (key : UInt32) : Option (Table kind) :=
  let f := t.session.field
  t.modifyAtChecked key (·.deleteChecked f key)

/-- Inserts the fingerprint of a packet, and answers it. -/
def insertPacketChecked (packet : Bytes) : Checked (UInt32 × Table kind) := do
  let key ← t.fingerprintChecked packet
  let inserted ← Checked.step (t.insertChecked key)
  return (key, inserted)

/-- Deletes the fingerprint of a packet, and answers it. -/
def deletePacketChecked (packet : Bytes) : Checked (UInt32 × Table kind) := do
  let key ← t.fingerprintChecked packet
  let deleted ← Checked.step (t.deleteChecked key)
  return (key, deleted)

/-- The sum of all counts. -/
def totalChecked : Option Int :=
  t.cells.toList.foldlM (fun total c => signed? (total + c.count)) 0

/-- The number of keys. -/
def keyCountChecked : Option Int := do
  let total ← t.totalChecked
  return total.tdiv t.session.hashes.toNat

/-- The table with its buckets combined with those of another. -/
def combineChecked (other : Table kind)
    (combine : Cell kind → Cell kind → Option (Cell kind)) : Checked (Table kind) := do
  Checked.report (t.checkAlike other)
  let cells ← Checked.step
    ((t.cells.toList.zip other.cells.toList).mapM fun (a, b) => combine a b)
  return { t with cells := cells.toArray }

/-- The table without the keys of another. -/
def subtractChecked (other : Table kind) : Checked (Table kind) :=
  t.combineChecked other (·.subChecked t.session.field)

/-- The table with the keys of another. -/
def mergeChecked (other : Table kind) : Checked (Table kind) :=
  t.combineChecked other (·.addChecked t.session.field)

/-! ## Peeling -/

/-- Takes out the keys of the buckets listed, one after the other. -/
def peelOverChecked : List Nat → Table kind → Option (Peeled kind)
  | [], t => some ⟨[], t⟩
  | i :: buckets, t =>
    match t.pureKey? i with
    | none => peelOverChecked buckets t
    | some key => do
      let rest ← peelOverChecked buckets (← t.deleteChecked key)
      return ⟨key :: rest.recovered, rest.residual⟩

/-- Takes out keys in at most `walks` walks over all buckets, up to the first that finds none. -/
def peelWalksChecked : (walks : Nat) → Table kind → Option (Peeled kind)
  | 0, t => some ⟨[], t⟩
  | walks + 1, t => do
    let walk ← peelOverChecked (List.range t.cells.size) t
    if walk.recovered = [] then return walk
    else
      let rest ← peelWalksChecked walks walk.residual
      return ⟨walk.recovered ++ rest.recovered, rest.residual⟩

/-- Takes out the keys of pure buckets until there is none. -/
def peelChecked (t : Table kind) : Option (Peeled kind) :=
  peelWalksChecked (t.cells.countP (0 < ·.count) + 1) t

end Table

end LossSketch
