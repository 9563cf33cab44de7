import LossSketch.Bucket.Table

/-!
# Peeling

* `Table.pureKey?` is the key of a bucket that counts one key, if that key is sent to the bucket. A
  bucket may count one because a negative count cancelled a positive one, and then its record names
  a key that belongs elsewhere.
* `Table.peelOver` walks over buckets and deletes each such key from all of its buckets, so that a
  later bucket of the walk sees the change.
* `Table.peel` walks over all buckets until a walk finds no key. A bucket gives at most one key,
  because counts only fall, so there are at most as many fruitful walks as positive counts.
-/

namespace LossSketch

/-- Keys that were taken out of a table, in the order they were found, and what is left of it. -/
structure Peeled (kind : Kind) where
  recovered : List UInt32
  residual : Table kind

/-- Nothing is left. -/
def Peeled.isComplete {kind : Kind} (p : Peeled kind) : Bool := p.residual.isEmpty

namespace Table

variable {kind : Kind}

/-- The key of a bucket that holds just that key. -/
def pureKey? (t : Table kind) (i : Nat) : Option UInt32 :=
  if (t.cell i).count = 1 then (t.cell i).key?.filter fun key => (t.bucketsOf key).contains i
  else none

/-- Takes out the keys of the buckets listed, one after the other. -/
def peelOver : List Nat → Table kind → Peeled kind
  | [], t => ⟨[], t⟩
  | i :: buckets, t =>
    match t.pureKey? i with
    | none => peelOver buckets t
    | some key =>
      let rest := peelOver buckets (t.delete key)
      ⟨key :: rest.recovered, rest.residual⟩

/-- Takes out keys in at most `walks` walks over all buckets, up to the first that finds none. -/
def peelWalks : (walks : Nat) → Table kind → Peeled kind
  | 0, t => ⟨[], t⟩
  | walks + 1, t =>
    let walk := peelOver (List.range t.cells.size) t
    if walk.recovered = [] then walk
    else
      let rest := peelWalks walks walk.residual
      ⟨walk.recovered ++ rest.recovered, rest.residual⟩

/-- Takes out the keys of pure buckets until there is none. -/
def peel (t : Table kind) : Peeled kind :=
  peelWalks (t.cells.countP (0 < ·.count) + 1) t

end Table

end LossSketch
