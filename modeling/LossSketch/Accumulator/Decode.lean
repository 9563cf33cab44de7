import LossSketch.Accumulator.PowerSums
import LossSketch.Packet.Window

/-!
# Decoding power sums

* `PowerSums.lossesFrom` finds the elements among the packets of a log: the first packets whose
  fingerprints are roots, each root at most as often as its multiplicity.
* `PowerSums.elements` finds them among all residues.
* `PowerSums.checkReproduced` refuses elements that do not reproduce all power sums, of which only
  the first few determined the polynomial.
-/

namespace LossSketch

namespace PowerSums

variable (a : PowerSums)

/-- Refuses fingerprints that do not reproduce every power sum. -/
def checkReproduced (keys : List UInt32) : Except Error Unit :=
  if a.session.field.powerSums a.session.degree.toNat keys = a.sums then .ok ()
  else .error (.spuriousRecovery (keys.headD 0))

/-- The first `wanted` packets of a log whose fingerprints are roots, each with its index. A
fingerprint in `taken` uses up one of the multiplicity of its root. -/
def matchRoots (f : Field) (poly : Monic) (window : Window) (offset : Nat) :
    List (Bytes × Nat) → (wanted : Nat) → (taken : List UInt32) →
    Except Error (List (UInt32 × Nat))
  | [], _, _ => .ok []
  | _ :: _, 0, _ => .ok []
  | (packet, i) :: log, wanted + 1, taken => do
    let key ← window.read packet offset
    if taken.count key < poly.multiplicity f key then
      let others ← matchRoots f poly window offset log wanted (key :: taken)
      return (key, i) :: others
    else matchRoots f poly window offset log (wanted + 1) taken

/-- The indices of the packets of a log that make up the multiset, ascending. -/
def lossesFrom (log : List Bytes) : Except Error (List Nat) := do
  let n ← a.size
  let window ← a.session.window
  let found ← matchRoots a.session.field (a.polynomial n) window a.offset.toNat log.zipIdx n []
  if found.length < n then throw (.cardinalityMismatch n found.length)
  a.checkReproduced (found.map Prod.fst)
  return found.map Prod.snd

/-- The fingerprints that make up the multiset, ascending, each as often as it occurs. -/
def elements : Except Error (List UInt32) := do
  let n ← a.size
  let f := a.session.field
  let poly := a.polynomial n
  let keys := (poly.roots f).flatMap fun root => List.replicate (poly.multiplicity f root) root
  if keys.length ≠ n then throw (.cardinalityMismatch n keys.length)
  a.checkReproduced keys
  return keys

end PowerSums

end LossSketch
