import Mathlib.Data.FinEnum
import Mathlib.Data.Nat.Prime.Basic
import Mathlib.Data.Nat.ModEq
import LossSketch.Bucket.Hash

/-!
# The hashes of a key are different

* `mul_injective_of_odd` — multiplying words by an odd one loses nothing.
* `xorShift_injective` — nor does the exclusive or of a word with itself moved down.
* `scramble_bijective` — so scrambling with an odd multiplier only changes the order of all words.
* `Probe.hashes_eq_map` — walking along a probe takes its places one after the other.
* `Probe.hash_injOn` — no two of the first `2 ^ 64` places have the same hash.
* `Probe.hashes_distinct` — so the hashes of a key are pairwise different, however many.
-/

namespace LossSketch

/-! ## Scrambling -/

theorem mul_injective_of_odd {m : UInt64} (hm : Odd m.toNat) :
    Function.Injective fun x : UInt64 => x * m := by
  intro x y h
  have hmod : Nat.ModEq (2 ^ 64) (x.toNat * m.toNat) (y.toNat * m.toNat) := by
    have htoNat : (x * m).toNat = (y * m).toNat := congrArg UInt64.toNat h
    rwa [UInt64.toNat_mul, UInt64.toNat_mul] at htoNat
  -- an odd number has no divisor in common with a power of two
  have hcoprime : Nat.Coprime (2 ^ 64) m.toNat := (Nat.coprime_two_left.2 hm).pow_left 64
  have hcancel := Nat.ModEq.cancel_right_of_coprime hcoprime hmod
  exact UInt64.toNat_inj.1 (hcancel.eq_of_lt_of_lt x.toNat_lt y.toNat_lt)

/-- A word moved down is another, unless it is zero. -/
theorem eq_zero_of_shiftRight_eq {n : UInt64} (hpos : 0 < n.toNat) (hlt : n.toNat < 64)
    {x : UInt64} (h : x >>> n = x) : x = 0 := by
  by_contra hne
  have hx : 0 < x.toNat := Nat.pos_of_ne_zero fun h0 => hne (UInt64.toNat_inj.1 h0)
  have hdiv : x.toNat / 2 ^ n.toNat = x.toNat := by
    have htoNat := congrArg UInt64.toNat h
    rwa [UInt64.toNat_shiftRight, Nat.mod_eq_of_lt hlt, Nat.shiftRight_eq_div_pow] at htoNat
  have hsmaller := Nat.div_lt_self hx (Nat.one_lt_two_pow hpos.ne')
  omega

/-- The exclusive or of a word with itself moved down tells the word. -/
theorem xorShift_injective {n : UInt64} (hpos : 0 < n.toNat) (hlt : n.toNat < 64) :
    Function.Injective fun x : UInt64 => x ^^^ (x >>> n) := by
  intro x y h
  -- moving down is linear, so what two words differ in is its own image
  have hdiff : (x ^^^ y) ^^^ ((x ^^^ y) >>> n) = 0 := by
    rw [UInt64.shiftRight_xor]
    calc (x ^^^ y) ^^^ ((x >>> n) ^^^ (y >>> n))
        = (x ^^^ (x >>> n)) ^^^ (y ^^^ (y >>> n)) := by ac_rfl
      _ = 0 := UInt64.xor_eq_zero_iff.2 h
  have hzero := eq_zero_of_shiftRight_eq hpos hlt (UInt64.xor_eq_zero_iff.1 hdiff).symm
  exact UInt64.xor_eq_zero_iff.1 hzero

theorem scramble_injective {m : UInt64} (hm : Odd m.toNat) :
    Function.Injective fun x => scramble x m :=
  -- the steps of the scrambling, from the last to the first
  (xorShift_injective (n := 32) (by decide) (by decide)).comp <| (mul_injective_of_odd hm).comp <|
    (xorShift_injective (n := 29) (by decide) (by decide)).comp (mul_injective_of_odd hm)

/-- Scrambling with an odd multiplier permutes the words. -/
theorem scramble_bijective {m : UInt64} (hm : Odd m.toNat) :
    Function.Bijective fun x => scramble x m :=
  Finite.injective_iff_bijective.1 (scramble_injective hm)

theorem odd_probeMultiplier : Odd probeMultiplier.toNat := by decide

theorem odd_stepMultiplier : Odd stepMultiplier.toNat := by decide

/-! ## Places of a probe -/

namespace Probe

/-- The step of the probe of a key is odd. -/
theorem odd_step_of (key : UInt32) (seed : UInt64) : Odd (of key seed).step.toNat := by
  rw [Nat.odd_iff, of, UInt64.toNat_or]
  exact Nat.or_mod_two_eq_one.2 (.inr rfl)

variable (p : Probe)

/-- From any word on, the hashes are those of the words a step apart. -/
theorem hashesFrom_eq_map (count : Nat) (word : UInt64) : p.hashesFrom count word =
    (List.range count).map fun i => scramble (word + UInt64.ofNat i * p.step) probeMultiplier := by
  induction count generalizing word with
  | zero => rfl
  | succ count ih =>
    have hfirst : word + UInt64.ofNat 0 * p.step = word := by simp
    -- a step from the next word is one step more from this
    have hnext : ∀ i : Nat, word + p.step + UInt64.ofNat i * p.step =
        word + UInt64.ofNat (i + 1) * p.step := by
      intro i
      rw [UInt64.ofNat_add, UInt64.ofNat_one, UInt64.add_mul, UInt64.one_mul, UInt64.add_assoc,
        UInt64.add_comm p.step]
    rw [hashesFrom, ih, List.range_succ_eq_map, List.map_cons, List.map_map, hfirst]
    refine congrArg _ (List.map_congr_left fun i _ => ?_)
    rw [hnext, Function.comp_apply]

/-- Walking along a probe takes its places one after the other. -/
theorem hashes_eq_map (count : Nat) : p.hashes count = (List.range count).map p.hash :=
  p.hashesFrom_eq_map count p.start

@[simp] theorem length_hashes (count : Nat) : (p.hashes count).length = count := by
  rw [hashes_eq_map, List.length_map, List.length_range]

variable {p}

/-- A probe with an odd step has different hashes at the first `2 ^ 64` places. -/
theorem hash_injOn (hodd : Odd p.step.toNat) : Set.InjOn p.hash {i | i < 2 ^ 64} := by
  intro i hi j hj h
  have hword := scramble_injective odd_probeMultiplier h
  have hmultiple := mul_injective_of_odd hodd ((UInt64.add_right_inj p.start).1 hword)
  -- the places are numbers that a word has room for
  have hplace := congrArg UInt64.toNat hmultiple
  rwa [UInt64.toNat_ofNat', UInt64.toNat_ofNat', Nat.mod_eq_of_lt hi, Nat.mod_eq_of_lt hj] at hplace

theorem nodup_hashes (hodd : Odd p.step.toNat) {count : Nat} (hcount : count ≤ 2 ^ 64) :
    (p.hashes count).Nodup := by
  rw [hashes_eq_map]
  refine List.Nodup.map_on (fun i hi j hj h => ?_) List.nodup_range
  exact hash_injOn hodd (Nat.lt_of_lt_of_le (List.mem_range.1 hi) hcount)
    (Nat.lt_of_lt_of_le (List.mem_range.1 hj) hcount) h

/-- **The hashes of a key never coincide.** Scrambling with either multiplier permutes the words of
64 bits. For every key and seed, and any number of hashes that a word of 32 bits counts, as many
hashes as asked for are answered, and no two of them are the same. -/
theorem hashes_distinct :
    (Function.Bijective fun x => scramble x probeMultiplier) ∧
    (Function.Bijective fun x => scramble x stepMultiplier) ∧
    ∀ (key : UInt32) (seed : UInt64) (count : UInt32),
      ((of key seed).hashes count.toNat).length = count.toNat ∧
        ((of key seed).hashes count.toNat).Nodup := by
  refine ⟨scramble_bijective odd_probeMultiplier, scramble_bijective odd_stepMultiplier,
    fun key seed count => ⟨length_hashes _ _, nodup_hashes (odd_step_of key seed) ?_⟩⟩
  have hcount := count.toNat_lt
  omega

end Probe

end LossSketch
