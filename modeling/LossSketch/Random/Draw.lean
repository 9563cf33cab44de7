import LossSketch.Packet.Bytes
import LossSketch.Random.Stream

/-!
# Random draws

* `WordSource` is anything that hands out 32-bit words, and `Draw` a value drawn from one. All draws
  of a run take their words from the same source, one after the other.
* `Draw.retry` draws again until a value is accepted. It gives up after a number of tries that no
  source of independent words ever reaches, so that it ends for every source.
* `Draw.below` is a number below a bound, without bias; `Draw.happens` decides by a `Chance`.
* `Sampler` is a choice of rules for bytes, numbers and events. `Sampler.ofWords` has those above.
-/

namespace LossSketch

/-- Hands out words. -/
class WordSource (σ : Type) where
  next : σ → UInt32 × σ

instance : WordSource Stream := ⟨Stream.next⟩

/-- A value drawn from a source, unless the tries run out. -/
abbrev Draw (σ : Type) := StateT σ Option

/-- How often a random event happens. -/
inductive Chance
  /-- It always happens, and no word is drawn. -/
  | always
  /-- It happens when a drawn 64-bit word is below the bound. -/
  | below (bound : UInt64)
  deriving DecidableEq

/-- The chance of a probability from zero to one. -/
def Chance.ofProbability (p : Float) : Chance :=
  if p == 1.0 then always else below (p * 18446744073709551616.0).toUInt64

namespace Draw

variable {σ : Type} [WordSource σ]

/-- The next word. -/
def word : Draw σ UInt32 := fun source => some (WordSource.next source)

/-- The low byte of the next word. -/
def byte : Draw σ UInt8 := return (← word).toUInt8

/-- The next two words, the low one first. -/
def word64 : Draw σ UInt64 := do
  let low ← word
  let high ← word
  return low.toUInt64 ||| (high.toUInt64 <<< 32)

/-- Draws again until there is a value, at most `tries` times. -/
def retry {α : Type} (draw : Draw σ (Option α)) : (tries : Nat) → Draw σ α
  | 0 => failure
  | tries + 1 => do
    match ← draw with
    | some a => return a
    | none => retry draw tries

/-- The number of tries after which a source is given up. -/
def tries : Nat := 4096

/-- A number below `n`: the high half of the product of `n` with a 64-bit word, where the low half
must lie among as many values as make all numbers equally likely. -/
def below (n : Nat) : Draw σ Nat :=
  retry (do
    let product := (← word64).toNat * n
    let accepted := n <<< (63 - n.log2)
    return if product % UInt64.size < accepted then some (product / UInt64.size) else none) tries

/-- Whether an event happens. -/
def happens : Chance → Draw σ Bool
  | .always => return true
  | .below bound => return (← word64) < bound

end Draw

/-- Rules by which values are drawn from a source. -/
structure Sampler (σ : Type) where
  byte : Draw σ UInt8
  /-- A number below a bound. -/
  below : (bound : Nat) → Draw σ Nat
  /-- Whether an event happens. -/
  happens : Chance → Draw σ Bool

namespace Sampler

variable {σ : Type}

/-- The rules for a source of words. -/
def ofWords [WordSource σ] : Sampler σ where
  byte := Draw.byte
  below := Draw.below
  happens := Draw.happens

/-- Some bytes. -/
def bytes (sampler : Sampler σ) (count : Nat) : Draw σ Bytes :=
  (List.range count).mapM fun _ => sampler.byte

end Sampler

end LossSketch
