import LossSketch.Bucket.Peel
import LossSketch.Program.Difference
import LossSketch.Program.Solution
import Std.Data.HashMap
import Std.Data.HashSet

/-!
# Lost packets from tables

* `Table.losses` decodes a difference table into the candidates that make it up. Keys are peeled
  first, and whatever peeling leaves is solved as a program over the candidates that are left.
* `Pool.takeAll` gives each peeled key the lowest candidate of that key which is not taken yet; a
  key without one was never sent. `Pool.ofCandidates` is the pool that nothing is taken from.
* `Table.lossesFrom` decodes what of a sender's log is missing from a receiver's table.

Counts and sums are of any size here. `Table.lossesChecked` and `Table.lossesFromChecked` decode in
words, which may be too narrow for them.
-/

namespace LossSketch

/-- Lost packets, as ascending indices of candidates. -/
structure Losses where
  indices : List Nat
  /-- How many of them peeling found. -/
  byPeeling : Nat
  /-- How many of them the solver found. -/
  bySolving : Nat
  deriving DecidableEq

/-- Candidates that are not taken: for each key that a table may record, the indices of the
candidates that it records as this key, ascending. -/
abbrev Pool := Std.HashMap UInt32 (List Nat)

namespace Pool

variable {kind : Kind} (diff : Table kind)

/-- The pool of all candidates. -/
def ofCandidates (candidates : List UInt32) : Pool :=
  candidates.zipIdx.foldr (fun (candidate, index) pool =>
    let key := diff.canonical candidate
    pool.insert key (index :: pool.getD key [])) ∅

/-- Takes the first candidate of a key. -/
def take? (pool : Pool) (key : UInt32) : Option (Nat × Pool) :=
  match pool.getD key [] with
  | [] => none
  | index :: others => some (index, pool.insert key others)

/-- Takes a candidate for each key, and answers their indices. -/
def takeAll : Pool → List UInt32 → Except Error (List Nat)
  | _, [] => .ok []
  | pool, key :: keys =>
    match pool.take? key with
    | none => .error (.spuriousRecovery key)
    | some (index, pool) => (index :: ·) <$> takeAll pool keys

end Pool

/-- The candidates that are not among the taken ones, each with its index. -/
def candidatesLeft (candidates : List UInt32) (taken : List Nat) : List (UInt32 × Nat) :=
  let taken : Std.HashSet Nat := taken.foldl Std.HashSet.insert ∅
  candidates.zipIdx.filter fun (_, index) => !taken.contains index

/-- Counts the packets found by peeling on both sides of a wrong number of packets. -/
def Error.countPeeled (expected peeled : Nat) : Error → Error
  | cardinalityMismatch _ found => cardinalityMismatch expected (found + peeled)
  | e => e

namespace Table

variable {kind : Kind}

/-- The `expected` candidates that make up a difference table. -/
def losses (diff : Table kind) (candidates : List UInt32) (expected : Nat) (solver : Solver) :
    Except Error Losses := do
  diff.checkLosses
  let peeled := diff.peel
  let taken ← (Pool.ofCandidates diff candidates).takeAll peeled.recovered
  if peeled.isComplete then
    if taken.length ≠ expected then throw (.cardinalityMismatch expected taken.length)
    return ⟨taken.mergeSort (· ≤ ·), taken.length, 0⟩
  else
    peeled.residual.checkLosses
    if expected < taken.length then throw (.cardinalityMismatch expected taken.length)
    let left := candidatesLeft candidates taken
    let program ← Program.ofDifference peeled.residual (left.map Prod.fst) (expected - taken.length)
    let selected ← (program.solve solver).mapError (.countPeeled expected taken.length)
    let indices := (left.map Prod.snd).toArray
    let solved := selected.map fun i => indices.getD i 0
    return ⟨(taken ++ solved).mergeSort (· ≤ ·), taken.length, solved.length⟩

/-- The packets of a log that are missing from the table of a receiver. -/
def lossesFrom (log : List Bytes) (received : Table kind) (solver : Solver) :
    Except Error Losses := do
  let candidates ← log.mapM received.fingerprint
  let expected : Int := log.length - received.keyCount
  if expected < 0 then throw .infeasible
  let sent := candidates.foldl insert received.emptied
  let diff ← sent.subtract received
  diff.losses candidates expected.toNat solver

end Table

end LossSketch
