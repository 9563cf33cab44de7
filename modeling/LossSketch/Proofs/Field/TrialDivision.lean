import LossSketch.Proofs.Field.Checked
import LossSketch.Proofs.Session

/-!
# Trial division ends in time

`isPrimeChecked` runs `isPrime` again in words of 64 bits that must fit, and with a limit on the
rounds of its loop.

* `noDivisorFromChecked_eq` — the loop over odd divisors stays below `2 ^ 16 + 2`, where squares are
  words, and ends before it has passed all of them.
* `isPrime_decides` — for every word of 32 bits, `2 ^ 15` rounds decide whether it is a prime
  number, so the modulus of a checked session is one.
-/

namespace LossSketch

/-- None of `d`, `d + 2`, `d + 4`, … up to the square root of `n` divides `n`, found in at most as
many rounds as given. -/
def noDivisorFromChecked (n : UInt64) : (rounds : Nat) → (d : UInt64) → Except Word.Fault Bool
  | 0, _ => .error .unfinished
  | rounds + 1, d => do
    let square ← Word.mul d d
    if square ≤ n then
      let remainder ← Word.rem n d
      if remainder = 0 then return false
      else noDivisorFromChecked n rounds (← Word.add d 2)
    else return true

/-- Whether `n` is a prime number. -/
def isPrimeChecked (n : UInt32) (rounds : Nat) : Except Word.Fault Bool :=
  if n < 2 then .ok false
  else if n % 2 = 0 then .ok (n = 2)
  else noDivisorFromChecked n.toUInt64 rounds 3

/-! ## The loop over odd divisors -/

section Loop

variable (n : UInt32) {rounds : Nat} {d : UInt64} (hd : d.toNat ≤ 2 ^ 16 + 1)
include hd

/-- The square of a divisor is a word, so that comparing it is comparing numbers. -/
theorem mul_self_eq :
    Word.mul d d = .ok (d * d) ∧ (d * d ≤ n.toUInt64 ↔ d.toNat * d.toNat ≤ n.toNat) := by
  have hsquare : d.toNat * d.toNat < 2 ^ 64 :=
    calc d.toNat * d.toNat ≤ (2 ^ 16 + 1) * (2 ^ 16 + 1) := Nat.mul_le_mul hd hd
      _ < 2 ^ 64 := by decide
  refine ⟨Word.mul_eq hsquare, ?_⟩
  rw [UInt64.le_iff_toNat_le, UInt64.toNat_mul, Nat.mod_eq_of_lt hsquare, UInt32.toNat_toUInt64]

/-- Past the square root the loop ends. -/
theorem noDivisorFromChecked_of_lt (hlt : n.toNat < d.toNat * d.toNat) :
    noDivisorFromChecked n.toUInt64 (rounds + 1) d = .ok true := by
  obtain ⟨hmul, hle⟩ := mul_self_eq n hd
  rw [noDivisorFromChecked, hmul]
  show (if d * d ≤ n.toUInt64 then _ else _) = _
  rw [if_neg fun h => absurd (hle.1 h) (Nat.not_le.2 hlt)]
  rfl

/-- Up to the square root it divides, and the next divisor is two more. -/
theorem noDivisorFromChecked_of_le (hpos : 0 < d.toNat) (hroot : d.toNat * d.toNat ≤ n.toNat) :
    noDivisorFromChecked n.toUInt64 (rounds + 1) d =
      if n.toNat % d.toNat = 0 then .ok false
      else noDivisorFromChecked n.toUInt64 rounds (d + 2) := by
  obtain ⟨hmul, hle⟩ := mul_self_eq n hd
  have hne : d ≠ 0 := by
    rintro rfl
    exact absurd hpos (by decide)
  have hnext : d.toNat + (2 : UInt64).toNat < 2 ^ 64 := by
    show d.toNat + 2 < 2 ^ 64
    omega
  have hmod : n.toUInt64 % d = 0 ↔ n.toNat % d.toNat = 0 := by
    rw [← UInt64.toNat_inj, UInt64.toNat_mod, UInt32.toNat_toUInt64]
    rfl
  rw [noDivisorFromChecked, hmul]
  show (if d * d ≤ n.toUInt64 then _ else _) = _
  rw [if_pos (hle.2 hroot), Word.rem_eq hne]
  show (if n.toUInt64 % d = 0 then _ else _) = _
  simp only [hmod, Word.add_eq hnext]
  rfl

/-- The odd divisors below `2 ^ 16` are enough: the square of a later one is no word of 32 bits. -/
theorem noDivisorFromChecked_eq (hpos : 0 < d.toNat)
    (hrounds : 2 ^ 16 + 3 ≤ d.toNat + 2 * rounds) :
    noDivisorFromChecked n.toUInt64 rounds d = .ok (noDivisorFrom n.toNat d.toNat) := by
  have hword := n.toNat_lt
  induction rounds generalizing d with
  | zero =>
    -- so large a divisor is not reached
    omega
  | succ rounds ih =>
    rcases Nat.lt_or_ge n.toNat (d.toNat * d.toNat) with hlt | hroot
    · rw [noDivisorFromChecked_of_lt n hd hlt, noDivisorFrom, if_neg (Nat.not_le.2 hlt)]
    · have hbelow : d.toNat < 2 ^ 16 := by
        by_contra hge
        have hsquare := Nat.mul_le_mul (Nat.not_lt.1 hge) (Nat.not_lt.1 hge)
        omega
      -- two more leaves the square a word, and takes one round
      have hnext : (d + 2).toNat = d.toNat + 2 := by
        rw [UInt64.toNat_add]
        exact Nat.mod_eq_of_lt (by show d.toNat + 2 < 2 ^ 64; omega)
      rw [noDivisorFromChecked_of_le n hd hpos hroot, noDivisorFrom, if_pos hroot]
      split
      · rfl
      · rw [ih (by omega) (by omega) (by omega), hnext]

end Loop

/-! ## The test -/

theorem isPrimeChecked_eq (n : UInt32) : isPrimeChecked n (2 ^ 15) = .ok (isPrime n) := by
  unfold isPrimeChecked isPrime
  split
  · rfl
  · split
    · rfl
    · exact noDivisorFromChecked_eq n (by decide) (by decide) (by decide)

/-- **Trial division decides primality.** For every word of 32 bits, the test ends after at most
`2 ^ 15` rounds without leaving the words of 64 bits, and answers whether the word is a prime
number. So the modulus of every session that passes its check is one. -/
theorem isPrime_decides :
    (∀ n : UInt32, isPrimeChecked n (2 ^ 15) = .ok (isPrime n) ∧
      (isPrime n = true ↔ n.toNat.Prime)) ∧
    ∀ s : Session, s.check = .ok () → s.modulus.toNat.Prime := by
  refine ⟨fun n => ⟨isPrimeChecked_eq n, isPrime_iff n⟩, fun s hs => ?_⟩
  exact (Session.check_eq_ok_iff.1 hs).prime

/-- The square of the largest prime below `2 ^ 16` is divided by all odd numbers up to that. -/
theorem isPrime_decides_square : isPrimeChecked 4293001441 (2 ^ 15) = .ok false ∧
    Session.small.check = .ok () ∧ Session.small.modulus.toNat.Prime := by
  obtain ⟨hdecides, hsession⟩ := isPrime_decides
  obtain ⟨hchecked, hprime⟩ := hdecides 4293001441
  have hcomposite : ¬ (4293001441 : UInt32).toNat.Prime :=
    Nat.not_prime_of_mul_eq (show 65521 * 65521 = (4293001441 : UInt32).toNat by rfl)
      (by decide) (by decide)
  rw [Bool.eq_false_iff.2 (mt hprime.1 hcomposite)] at hchecked
  exact ⟨hchecked, Session.check_small, hsession _ Session.check_small⟩

end LossSketch
