import LossSketch.Accumulator.Decode
import LossSketch.Accumulator.Phase
import LossSketch.Losses
import LossSketch.Snapshot.Layout
import LossSketch.Trial.Transmission

/-!
# Trials of a sketch

* `tableResult` and `powerSumResult` sketch both ends of a transmission and decode what was lost.
* `Verdict.of` compares what was decoded with the truth. Of an honest receiver the losses must be
  decoded; a forging one must be refused.
* `Trial` is the verdict with the messages of the trial and the size of the receiver's snapshot.
-/

namespace LossSketch

/-- What a decoder made of a transmission. -/
inductive Verdict
  /-- The losses of an honest receiver were decoded. -/
  | decoded
  /-- A forging receiver was refused. -/
  | refused
  /-- Something other than the losses of an honest receiver was decoded. -/
  | mistaken
  /-- Losses were decoded in spite of the forgery of a packet. -/
  | deceived (count forged : Nat)
  /-- The losses of an honest receiver were not decoded. -/
  | failed (count : Nat) (error : Error)
  deriving DecidableEq

namespace Verdict

/-- The verdict on the result of decoding a transmission. -/
def of (t : Transmission) (result : Except Error (List Nat)) : Verdict :=
  match result, t.forged with
  | .ok indices, none => if indices = t.lost then decoded else mistaken
  | .ok indices, some i => deceived indices.length i
  | .error _, some _ => refused
  | .error e, none => failed t.lost.length e

/-- The decoder reported the truth. -/
def isCorrect : Verdict → Bool
  | decoded | refused => true
  | mistaken | deceived .. | failed .. => false

/-- The message about a verdict worth one. -/
def message? : Verdict → Option String
  | deceived count i => some s!"accepted {count} drops despite malicious packet {i}"
  | failed count e => some (s!"failed to decode {count} drops: " ++ e.message)
  | decoded | refused | mistaken => none

end Verdict

/-- One decoded transmission. -/
structure Trial where
  messages : List String
  /-- The number of bytes in the receiver's snapshot. -/
  snapshotBytes : Nat
  verdict : Verdict

/-- Sketches both ends in tables, at the offset with the fewest collisions among the packets sent.
Answers the receiver's table with the result of decoding. -/
def tableResult (kind : Kind) (session : Session) (t : Transmission) (solver : Solver) :
    Except Error (Table kind × Except Error Losses) := do
  let window ← session.window
  let offset ← window.bestOffset t.sent
  let empty ← Table.new session (UInt64.ofNat offset)
  let keys ← t.received.mapM empty.fingerprint
  let received : Table kind := keys.foldl Table.insert empty
  return (received, received.lossesFrom t.sent solver)

/-- Sketches both ends in power sums, at the offset with the fewest collisions among the packets
sent. Answers the receiver's power sums with the result of decoding. -/
def powerSumResult (session : Session) (t : Transmission) :
    Except Error (PowerSums × Except Error (List Nat)) := do
  let buffer ← Buffer.new session
  let sender ← t.sent.foldlM Buffer.insert buffer
  let receiver ← t.received.foldlM Buffer.insert buffer
  let sent ← sender.finalize none
  let received ← receiver.finalize (some sent.offset)
  return (received, do (← sent.subtract received).lossesFrom t.sent)

/-- A trial of a table. -/
def tableTrial (kind : Kind) (session : Session) (t : Transmission) (solver : Solver) :
    Except Error Trial := do
  let (received, result) ← tableResult kind session t solver
  let verdict := Verdict.of t (result.map Losses.indices)
  let peeled := match result with
    | .ok r => [s!"peeled {r.byPeeling}, solved {r.bySolving}"]
    | .error _ => []
  return ⟨peeled ++ verdict.message?.toList, received.toBytes.length, verdict⟩

/-- A trial of power sums. -/
def powerSumTrial (session : Session) (t : Transmission) : Except Error Trial := do
  let (received, result) ← powerSumResult session t
  let verdict := Verdict.of t result
  return ⟨verdict.message?.toList, received.toBytes.length, verdict⟩

end LossSketch
