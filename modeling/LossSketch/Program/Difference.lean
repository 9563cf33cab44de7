import LossSketch.Bucket.Table
import LossSketch.Program.Basic

/-!
# The program of a difference table

`Program.ofDifference` states which candidate packets can make up a table:

* a row per bucket, in which each selected candidate counts as often as it is sent to the bucket,
  and which must come to the bucket's count;
* for summing tables a second row per bucket, in which it counts that often with its residue. It
  must come to the bucket's sum, up to a multiple of the modulus that an auxiliary column takes off.
  A bucket of `n` keys wraps at most `n` times.

A candidate that is sent to a bucket of count zero was not lost, and gets no column.
-/

namespace LossSketch

/-- The distinct elements of a sorted list, each with the number of times it occurs. -/
def tallies : List Nat → List (Nat × Nat)
  | [] => []
  | i :: rest =>
    match tallies rest with
    | (j, n) :: others => if i = j then (j, n + 1) :: others else (i, 1) :: (j, n) :: others
    | [] => [(i, 1)]

namespace Table

variable {kind : Kind} (t : Table kind)

/-- The buckets of a key in ascending order, each with the number of times it is sent there. -/
def incidences (key : UInt32) : List (Nat × Nat) :=
  tallies ((t.bucketsOf key).mergeSort (· ≤ ·))

/-- What one more candidate adds to the rows of its buckets. -/
def decisionEntries (key : UInt32) : List (Nat × Int) :=
  let residue : Int := (key % t.session.modulus).toNat
  (t.incidences key).flatMap fun (bucket, times) =>
    if kind = .summing then
      [(bucket, (times : Int)), (t.cells.size + bucket, times * residue)]
    else [(bucket, (times : Int))]

/-- The demands on the counts, and those on the sums behind them. -/
def rowBounds : List Bound :=
  t.cells.toList.map (fun c => .fixed c.count)
    ++ t.cells.toList.filterMap fun c => c.fieldSum?.map fun sum => .fixed sum.toNat

/-- The columns that take multiples of the modulus off the sums. -/
def wrapColumns : List Column :=
  if kind = .summing then
    t.cells.toList.zipIdx.filterMap fun (c, bucket) =>
      if 0 < c.count then
        some ⟨.integer 0 c.count, [(t.cells.size + bucket, -(t.session.modulus.toNat : Int))]⟩
      else none
  else []

end Table

namespace Program

/-- The program of which `expected` candidates make up the difference table. -/
def ofDifference {kind : Kind} (diff : Table kind) (candidates : List UInt32) (expected : Nat) :
    Except Error Program := do
  diff.checkLosses
  let possible := candidates.zipIdx.filter fun (key, _) => diff.mayHold key
  return {
    rows := diff.rowBounds
    columns :=
      possible.map (fun (key, _) => ⟨.binary, diff.decisionEntries key⟩) ++ diff.wrapColumns
    candidates := possible.map Prod.snd
    expected }

end Program

end LossSketch
