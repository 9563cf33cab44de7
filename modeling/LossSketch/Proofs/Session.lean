import LossSketch.Proofs.Error
import LossSketch.Proofs.Field.Primality
import LossSketch.Proofs.Field.Residue
import LossSketch.Proofs.Word
import LossSketch.Session

/-!
# What a checked session promises

* `Session.Usable` lists the facts about the parameters that the sketches rely on.
* `Session.check_eq_ok_iff` — the check passes exactly for usable sessions.
  `Session.checkChecked_eq_ok` — in words, the bits of a packet must be counted in one as well, and
  `Session.checkChecked_eq_overflow` — otherwise the check stops.
* `Session.checkAligned_self` — sketches of one session and offset can be combined.
  `Session.sizes_eq_of_checkAligned` — those that can be combined have as many buckets and as many
  power sums.
* `Session.small` is a usable session for examples.
-/

namespace LossSketch

namespace Session

/-- The parameters describe a session that sketches can be built for. -/
structure Usable (s : Session) : Prop where
  buckets_pos : 0 < s.buckets.toNat
  hashes_pos : 0 < s.hashes.toNat
  width_pos : 0 < s.width.toNat
  width_le : s.width.toNat ≤ 32
  degree_pos : 0 < s.degree.toNat
  prime : s.modulus.toNat.Prime
  degree_lt : s.degree.toNat < s.modulus.toNat
  even_ranges : s.policy = .disjoint → s.hashes.toNat ∣ s.buckets.toNat
  width_fits : s.width.toNat ≤ s.packetBytes.toNat * 8

variable {s : Session}

theorem check_eq_ok_iff_fault? : s.check = .ok () ↔ s.fault? = none := by
  unfold check
  cases s.fault? <;> simp

/-- The check passes exactly for usable sessions. -/
theorem check_eq_ok_iff : s.check = .ok () ↔ s.Usable := by
  rw [check_eq_ok_iff_fault?, fault?]
  have hb : s.buckets = 0 ↔ s.buckets.toNat = 0 := UInt64.toNat_inj.symm
  have hh : s.hashes = 0 ↔ s.hashes.toNat = 0 := UInt32.toNat_inj.symm
  have hw : s.width = 0 ↔ s.width.toNat = 0 := UInt32.toNat_inj.symm
  have hw32 : 32 < s.width ↔ 32 < s.width.toNat := UInt32.lt_iff_toNat_lt
  have hd : s.degree = 0 ↔ s.degree.toNat = 0 := UInt64.toNat_inj.symm
  have hp : (!isPrime s.modulus) = true ↔ ¬ s.modulus.toNat.Prime := by
    rw [← isPrime_iff, Bool.not_eq_true']
    exact Bool.not_eq_true _ |>.symm.to_iff
  have hdvd : s.buckets.toNat % s.hashes.toNat ≠ 0 ↔ ¬ s.hashes.toNat ∣ s.buckets.toNat :=
    not_congr (Nat.dvd_iff_mod_eq_zero ..).symm
  simp only [hb, hh, hw, hw32, hd, hp, hdvd]
  -- each promise is what one of the refusals leaves
  constructor
  · intro h
    split_ifs at h with h1 h2 h3 h4 h5 h6 h7 h8
    exact ⟨by omega, by omega, by omega, by omega, by omega, h5, by omega,
      fun hpol => not_not.1 fun hn => h7 ⟨hpol, hn⟩, by omega⟩
  · intro h
    obtain ⟨h1, h2, h3, h4, h5, h6, h7, h8, h9⟩ := h
    rw [if_neg (by omega), if_neg (by omega), if_neg (by omega), if_neg (by omega),
      if_neg (not_not.2 h6), if_neg (by omega), if_neg fun hn => hn.2 (h8 hn.1), if_neg (by omega)]

/-- In words, the check passes exactly for usable sessions whose packets have no more bits than a
word counts. -/
theorem checkChecked_eq_ok :
    s.checkChecked = .ok () ↔ s.Usable ∧ s.packetBytes.toNat * 8 < 2 ^ 64 := by
  rw [← check_eq_ok_iff, checkChecked, bind_eq_ok]
  constructor
  · rintro ⟨⟨⟩, hcheck, hbits⟩
    obtain ⟨bits, hbits, -⟩ := map_eq_ok.1 hbits
    exact ⟨Checked.report_eq_ok.1 hcheck, (unsigned?_eq_some.1 (Checked.step_eq_ok.1 hbits)).1⟩
  · rintro ⟨hcheck, hbits⟩
    rw [unsigned?_eq_some.2 ⟨hbits, rfl⟩]
    exact ⟨(), Checked.report_eq_ok.2 hcheck, rfl⟩

/-- Where the bits of a packet are no word, the check of a session that is usable otherwise
stops. -/
theorem checkChecked_eq_overflow :
    s.checkChecked = .error .overflow ↔ s.Usable ∧ 2 ^ 64 ≤ s.packetBytes.toNat * 8 := by
  rw [← check_eq_ok_iff, checkChecked]
  cases hcheck : s.check with
  | error e => exact ⟨nofun, fun h => nomatch h.1⟩
  | ok _ =>
    by_cases hbits : s.packetBytes.toNat * 8 < 2 ^ 64
    · rw [unsigned?_eq_some.2 ⟨hbits, rfl⟩]
      exact ⟨nofun, fun h => absurd hbits (Nat.not_lt.2 h.2)⟩
    · rw [unsigned?_eq_none hbits]
      exact ⟨fun _ => ⟨rfl, Nat.not_lt.1 hbits⟩, fun _ => rfl⟩

theorem Usable.modulus_ne_zero (hs : s.Usable) : s.field.modulus ≠ 0 :=
  Field.modulus_ne_zero_of_prime hs.prime

/-- Sketches of one session and offset can be combined. -/
theorem checkAligned_self (s : Session) (offset : UInt64) :
    s.checkAligned offset s offset = .ok () := by
  have hdiff : s.difference? s = none := by simp [difference?]
  simp [checkAligned, checkAlike, hdiff, bind, Except.bind, pure, Except.pure]

/-- Sketches that can be combined have as many buckets and as many power sums. -/
theorem sizes_eq_of_checkAligned {other : Session} {offset otherOffset : UInt64}
    (h : s.checkAligned offset other otherOffset = .ok ()) :
    other.buckets = s.buckets ∧ other.degree = s.degree := by
  obtain ⟨⟨⟩, halike, -⟩ := bind_eq_ok.1 h
  unfold checkAlike at halike
  cases hdiff : s.difference? other with
  | some difference =>
    rw [hdiff] at halike
    cases halike
  | none =>
    unfold difference? at hdiff
    split_ifs at hdiff with hbuckets _ _ _ hdegree
    exact ⟨(not_not.1 hbuckets).symm, (not_not.1 hdegree).symm⟩

/-- A session with four buckets, and fingerprints of a byte modulo thirteen. -/
def small : Session where
  buckets := 4
  hashes := 2
  width := 8
  modulus := 13
  degree := 2
  packetBytes := 2

theorem check_small : small.check = .ok () := by
  decide +kernel

end Session

end LossSketch
