import Mathlib.Data.Nat.Prime.Basic
import LossSketch.Field.Primality

/-!
# Trial division decides primality

* `noDivisorFrom_iff_minFacAux` — the loop over odd divisors answers whether the least factor that
  it can find is the number itself.
* `isPrime_iff` — `isPrime` answers whether the word is a prime number.
-/

namespace LossSketch

/-- The loop over `d`, `d + 2`, … finds no divisor exactly when the least factor search from `d` on
ends at the number. -/
theorem noDivisorFrom_iff_minFacAux {n d : Nat} (hd : 1 < d) :
    noDivisorFrom n d = true ↔ Nat.minFacAux n d = n := by
  fun_induction noDivisorFrom n d with
  | case1 d hsq hmod =>
    have hdvd : d ∣ n := Nat.dvd_of_mod_eq_zero hmod
    have hlt : d < d * d := Nat.lt_mul_self_iff.2 hd
    rw [Nat.minFacAux, if_neg (by omega), if_pos hdvd]
    simp only [Bool.false_eq_true, false_iff]
    omega
  | case2 d hsq hmod ih =>
    have hndvd : ¬ d ∣ n := fun h => hmod (Nat.mod_eq_zero_of_dvd h)
    rw [Nat.minFacAux, if_neg (by omega), if_neg hndvd]
    exact ih (by omega)
  | case3 d hsq =>
    -- past the square root both give up
    rw [Nat.minFacAux, if_pos (by omega)]
    simp

theorem isPrime_iff (n : UInt32) : isPrime n = true ↔ n.toNat.Prime := by
  unfold isPrime
  split
  · -- too small
    rename_i h2
    have hlt : n.toNat < 2 := UInt32.lt_iff_toNat_lt.1 h2
    simp only [Bool.false_eq_true, false_iff]
    exact fun hp => absurd hp.two_le (by omega)
  · rename_i h2
    have hge : 2 ≤ n.toNat := Nat.not_lt.1 fun hlt => h2 (UInt32.lt_iff_toNat_lt.2 hlt)
    split
    · -- even
      rename_i heven
      have hmod : n.toNat % 2 = 0 := by simpa using congrArg UInt32.toNat heven
      have hdvd : 2 ∣ n.toNat := Nat.dvd_of_mod_eq_zero hmod
      rw [decide_eq_true_eq, ← UInt32.toNat_inj]
      constructor
      · intro h
        rw [h]
        exact Nat.prime_two
      · intro hp
        exact ((Nat.prime_dvd_prime_iff_eq Nat.prime_two hp).1 hdvd).symm
    · -- odd, so only odd divisors are tried
      rename_i hodd
      have hndvd : ¬ 2 ∣ n.toNat := by
        intro h
        refine hodd (UInt32.toNat_inj.1 ?_)
        simpa using Nat.mod_eq_zero_of_dvd h
      rw [noDivisorFrom_iff_minFacAux (by omega), Nat.prime_def_minFac, Nat.minFac, if_neg hndvd]
      exact ⟨fun h => ⟨hge, h⟩, fun h => h.2⟩

end LossSketch
