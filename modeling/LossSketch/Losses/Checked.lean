import LossSketch.Bucket.Checked
import LossSketch.Losses
import LossSketch.Program.Checked

/-!
# Lost packets from tables in words

* `Program.ofDifferenceChecked` forms the coefficients of the program of a difference in words.
* `Table.lossesChecked` and `Table.lossesFromChecked` decode like `Table.losses` and
  `Table.lossesFrom`, on tables, programs and a search in words. The test of the solver's answer may
  be made with words that wrap; all else stops at the first result out of range.
-/

namespace LossSketch

namespace Table

variable {kind : Kind} (t : Table kind)

/-- What one more candidate adds to the rows of its buckets. -/
def decisionEntriesChecked (key : UInt32) : Option (List (Nat × Int)) := do
  let residue : Int := (key % t.session.modulus).toNat
  let entries ← (t.incidences key).mapM fun (bucket, times) =>
    if kind = .summing then do
      let amount ← signed? (times * residue)
      return [(bucket, (times : Int)), (t.cells.size + bucket, amount)]
    else some [(bucket, (times : Int))]
  return entries.flatten

end Table

/-- The program of which `expected` candidates make up the difference table. -/
def Program.ofDifferenceChecked {kind : Kind} (diff : Table kind) (candidates : List UInt32)
    (expected : Nat) : Checked Program := do
  Checked.report diff.checkLosses
  let possible := candidates.zipIdx.filter fun (key, _) => diff.mayHold key
  let decisions ← Checked.step (possible.mapM fun (key, _) => diff.decisionEntriesChecked key)
  return {
    rows := diff.rowBounds
    columns := decisions.map (⟨.binary, ·⟩) ++ diff.wrapColumns
    candidates := possible.map Prod.snd
    expected }

/-- Counts the packets found by peeling on both sides of a wrong number of packets. -/
def Halt.countPeeled (expected peeled : Nat) : Halt → Halt
  | overflow => overflow
  | error e => error (e.countPeeled expected peeled)

namespace Table

variable {kind : Kind}

/-- The `expected` candidates that make up a difference table. -/
def lossesChecked (overflow : Overflow) (diff : Table kind) (candidates : List UInt32)
    (expected : Nat) (solver : CheckedSolver) : Checked Losses := do
  Checked.report diff.checkLosses
  let peeled ← Checked.step diff.peelChecked
  let taken ← Checked.report ((Pool.ofCandidates diff candidates).takeAll peeled.recovered)
  if peeled.isComplete then
    if taken.length ≠ expected then throw (.error (.cardinalityMismatch expected taken.length))
    return ⟨taken.mergeSort (· ≤ ·), taken.length, 0⟩
  else
    Checked.report peeled.residual.checkLosses
    if expected < taken.length then
      throw (.error (.cardinalityMismatch expected taken.length))
    let left := candidatesLeft candidates taken
    let program ← Program.ofDifferenceChecked peeled.residual (left.map Prod.fst)
      (expected - taken.length)
    let selected ← (program.solveChecked overflow solver).mapError
      (.countPeeled expected taken.length)
    let indices := (left.map Prod.snd).toArray
    let solved := selected.map fun i => indices.getD i 0
    return ⟨(taken ++ solved).mergeSort (· ≤ ·), taken.length, solved.length⟩

/-- The packets of a log that are missing from the table of a receiver. -/
def lossesFromChecked (overflow : Overflow) (log : List Bytes) (received : Table kind)
    (solver : CheckedSolver) : Checked Losses := do
  let candidates ← log.mapM received.fingerprintChecked
  let sent ← Checked.step (candidates.foldlM insertChecked received.emptied)
  let held ← Checked.step received.keyCountChecked
  let expected ← Checked.step (signed? (log.length - held))
  if expected < 0 then throw (.error .infeasible)
  let diff ← sent.subtractChecked received
  diff.lossesChecked overflow candidates expected.toNat solver

end Table

end LossSketch
