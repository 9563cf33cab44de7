import LossSketch.Field.Basic

/-!
# Buckets

* `Kind` tells what a bucket keeps of its keys beside their number: nothing, their exclusive or, or
  their sum in the field. `Kind.Digest` is the type of that record, with `Kind.join` and
  `Kind.cancel` to combine two records and `Kind.digest` for the record of one key.
* `Kind.canonical` is the form in which a kind records a key. Keys with one canonical form cannot be
  told apart by the bucket.
* `Cell` is a signed number of keys with their record, so that the difference of two tables can show
  a bucket that lost more than it held. `Cell.add` and `Cell.sub` combine two cells, and inserting a
  key is adding `Cell.single`.

Numbers of keys are of any size here. `Cell.insertChecked` and the other operations in words stop
where a number is none.
-/

namespace LossSketch

/-- What a bucket keeps of its keys. -/
inductive Kind
  /-- Their number alone. -/
  | counting
  /-- Their number and their exclusive or. -/
  | invertible
  /-- Their number and their sum in the field. -/
  | summing
  deriving DecidableEq

namespace Kind

/-- The name of the kind. -/
def name : Kind → String
  | counting => "counting"
  | invertible => "invertible"
  | summing => "summing"

/-- The record of the keys beside their number. -/
abbrev Digest : Kind → Type
  | counting => Unit
  | invertible => UInt32
  | summing => UInt32

instance : (kind : Kind) → DecidableEq kind.Digest
  | counting => inferInstanceAs (DecidableEq Unit)
  | invertible => inferInstanceAs (DecidableEq UInt32)
  | summing => inferInstanceAs (DecidableEq UInt32)

/-- The record of no keys. -/
def blank : (kind : Kind) → kind.Digest
  | counting => ()
  | invertible => (0 : UInt32)
  | summing => (0 : UInt32)

/-- The record of one key. -/
def digest (f : Field) (key : UInt32) : (kind : Kind) → kind.Digest
  | counting => ()
  | invertible => key
  | summing => f.reduce key.toUInt64

/-- The record of the keys of both. -/
def join (f : Field) : (kind : Kind) → kind.Digest → kind.Digest → kind.Digest
  | counting, _, _ => ()
  | invertible, a, b => UInt32.xor a b
  | summing, a, b => f.add a b

/-- The record that is left of the first when the keys of the second are taken out. -/
def cancel (f : Field) : (kind : Kind) → kind.Digest → kind.Digest → kind.Digest
  | counting, _, _ => ()
  | invertible, a, b => UInt32.xor a b
  | summing, a, b => f.sub a b

/-- The form in which the kind records a key. -/
def canonical (f : Field) (key : UInt32) : Kind → UInt32
  | counting => key
  | invertible => key
  | summing => f.reduce key.toUInt64

/-- The sum of the keys in the field, for the kind that keeps one. -/
def fieldSum? : (kind : Kind) → kind.Digest → Option UInt32
  | counting, _ => none
  | invertible, _ => none
  | summing, sum => some sum

/-- The key that the record of a single key names, for the kinds that record any. -/
def key? : (kind : Kind) → kind.Digest → Option UInt32
  | counting, _ => none
  | invertible, key => some key
  | summing, key => some key

end Kind

/-- A bucket. -/
structure Cell (kind : Kind) where
  count : Int
  digest : kind.Digest
  deriving DecidableEq

namespace Cell

variable {kind : Kind} (f : Field)

/-- The bucket without keys. -/
def empty : Cell kind := ⟨0, kind.blank⟩

/-- The bucket with one key. -/
def single (key : UInt32) : Cell kind := ⟨1, kind.digest f key⟩

/-- The bucket with the keys of both. -/
def add (a b : Cell kind) : Cell kind := ⟨a.count + b.count, kind.join f a.digest b.digest⟩

/-- The bucket with the keys of the first without those of the second. -/
def sub (a b : Cell kind) : Cell kind := ⟨a.count - b.count, kind.cancel f a.digest b.digest⟩

/-- The bucket with one key more. -/
def insert (c : Cell kind) (key : UInt32) : Cell kind := c.add f (single f key)

/-- The bucket with one key less. -/
def delete (c : Cell kind) (key : UInt32) : Cell kind := c.sub f (single f key)

/-- The sum of the keys in the field, where the bucket keeps one. -/
def fieldSum? (c : Cell kind) : Option UInt32 := kind.fieldSum? c.digest

/-- The key of a bucket that holds one; of any other number of keys it means nothing. -/
def key? (c : Cell kind) : Option UInt32 := kind.key? c.digest

/-- Neither keys nor a record of any. -/
def isEmpty (c : Cell kind) : Bool := c = empty

/-- A bucket without keys has no record of any. -/
def isCoherent (c : Cell kind) : Bool := c.count ≠ 0 || c.isEmpty

end Cell

end LossSketch
