/-!
# Hashes of a key

* `scramble` mixes a 64-bit word by odd multiplications and shifts. Everything wraps.
* `Probe` is an arithmetic progression of words with an odd step, set up from a key and a seed.
* `Probe.hash` scrambles the word at a place of the progression; `Probe.hashes` walks along it.
-/

namespace LossSketch

/-- The multiplier of the words of a probe. -/
def probeMultiplier : UInt64 := 0x9e3779b97f4a7c15

/-- The multiplier of the step of a probe. -/
def stepMultiplier : UInt64 := 0xda942042e4dd58b5

/-- Scrambles a word with an odd multiplier. -/
def scramble (x multiplier : UInt64) : UInt64 :=
  let y := x * multiplier
  let z := (y ^^^ (y >>> 29)) * multiplier
  z ^^^ (z >>> 32)

/-- The words that the hashes of a key are scrambled from. -/
structure Probe where
  start : UInt64
  step : UInt64

namespace Probe

/-- The probe of a key. The step is odd, and depends on the key in the other half of the word. -/
def of (key : UInt32) (seed : UInt64) : Probe where
  start := scramble (key.toUInt64 ^^^ seed) probeMultiplier
  step := scramble ((key.toUInt64 <<< 32) ^^^ seed) stepMultiplier ||| 1

variable (p : Probe)

/-- The `i`-th hash. -/
def hash (i : Nat) : UInt64 :=
  scramble (p.start + UInt64.ofNat i * p.step) probeMultiplier

/-- `count` hashes, from `word` on. -/
def hashesFrom : (count : Nat) → (word : UInt64) → List UInt64
  | 0, _ => []
  | count + 1, word => scramble word probeMultiplier :: hashesFrom count (word + p.step)

/-- The first `count` hashes. -/
def hashes (count : Nat) : List UInt64 :=
  p.hashesFrom count p.start

end Probe

end LossSketch
