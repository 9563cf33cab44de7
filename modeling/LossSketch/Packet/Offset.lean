import LossSketch.Packet.Window
import Std.Data.HashSet

/-!
# The choice of an offset

* `repeats` counts the elements of a list that occurred before in it.
* `Window.collisions` counts the packets whose fingerprint at an offset repeats an earlier one.
* `Window.bestOffset` is the lowest offset with the fewest collisions among those at which the
  shortest packet holds the window. The scan ends at the first offset without any.
-/

namespace LossSketch

/-- How many elements occurred before, where those in `seen` count as earlier. -/
def repeatsAfter (seen : Std.HashSet UInt32) : (count : Nat) → List UInt32 → Nat
  | count, [] => count
  | count, key :: keys =>
    if seen.contains key then repeatsAfter seen (count + 1) keys
    else repeatsAfter (seen.insert key) count keys

/-- How many elements of the list occurred before in it. -/
def repeats (keys : List UInt32) : Nat :=
  repeatsAfter ∅ 0 keys

namespace Window

variable (w : Window)

/-- How many packets repeat the fingerprint of an earlier one. -/
def collisions (packets : List Bytes) (offset : Nat) : Except Error Nat := do
  let keys ← w.readAll packets offset
  return repeats keys

/-- The best of `best`, which has `least` collisions, and the offsets still to be tried. -/
def improveOffset (packets : List Bytes) :
    (untried : List Nat) → (best least : Nat) → Except Error Nat
  | [], best, _ => .ok best
  | offset :: untried, best, least =>
    if least = 0 then .ok best
    else do
      let found ← w.collisions packets offset
      if found < least then improveOffset packets untried offset found
      else improveOffset packets untried best least

/-- The lowest offset with the fewest collisions; without packets it is zero. -/
def bestOffset (packets : List Bytes) : Except Error Nat :=
  match (packets.map List.length).min? with
  | none => .ok 0
  | some shortest =>
    match w.lastOffset? shortest with
    | none => .error (.packetTooShort shortest (w.bytesNeeded 0))
    | some greatest => do
      let found ← w.collisions packets 0
      w.improveOffset packets (List.range' 1 greatest) 0 found

end Window

end LossSketch
