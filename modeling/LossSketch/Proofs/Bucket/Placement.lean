import LossSketch.Bucket.Placement
import LossSketch.Proofs.Bucket.Hash
import LossSketch.Proofs.Session

/-!
# Every key lands inside the table

* `bucketsOf_eq_map` — listing the buckets of a key is asking each hash function for its bucket.
* `place_mem_range` — under the disjoint policy a hash function stays in its range.
* `lt_of_mem_bucketsOf` — in a usable session no bucket of a key is outside the table.
* `bucketsOf_placed` — all that a checked session promises about the buckets of a key.
-/

namespace LossSketch

namespace Session

variable {s : Session}

/-- The numbers that placing a key divides by. The ranges of the disjoint policy come of a division
themselves. -/
def divisors (s : Session) : List UInt64 :=
  match s.policy with
  | .shared => [s.buckets]
  | .disjoint => [s.hashes.toUInt64, s.rangeSize]

/-! ## Buckets of a key, by hash function -/

theorem bucketsOf_eq_map (s : Session) (key : UInt32) :
    s.bucketsOf key = (List.range s.hashes.toNat).map (s.bucket key) := by
  rw [bucketsOf, Probe.hashes_eq_map]
  refine List.ext_getElem (by simp) fun i _ _ => ?_
  simp [bucket]

@[simp] theorem length_bucketsOf (s : Session) (key : UInt32) :
    (s.bucketsOf key).length = s.hashes.toNat := by
  rw [bucketsOf_eq_map, List.length_map, List.length_range]

/-- The bucket of a hash function is where the last of the hashes up to its own is placed. -/
theorem bucket_eq_place_getLast (s : Session) (key : UInt32) (i : Nat) :
    ∃ hash, ((Probe.of key s.seed).hashes (i + 1)).getLast? = some hash ∧
      s.bucket key i = s.place hash i := by
  refine ⟨(Probe.of key s.seed).hash i, ?_, rfl⟩
  rw [Probe.hashes_eq_map, List.range_succ, List.map_append, List.map_singleton,
    List.getLast?_concat]

/-! ## Ranges -/

theorem toNat_rangeSize (hpol : s.policy = .disjoint) :
    s.rangeSize.toNat = s.buckets.toNat / s.hashes.toNat := by
  rw [rangeSize, hpol]
  simp only [UInt64.toNat_div, UInt32.toNat_toUInt64]

/-- Under the disjoint policy the ranges of all hash functions fill the table. -/
theorem rangeSize_mul_hashes (hs : s.Usable) (hpol : s.policy = .disjoint) :
    s.rangeSize.toNat * s.hashes.toNat = s.buckets.toNat := by
  rw [toNat_rangeSize hpol]
  exact Nat.div_mul_cancel (hs.even_ranges hpol)

theorem rangeSize_pos (hs : s.Usable) (hpol : s.policy = .disjoint) : 0 < s.rangeSize.toNat := by
  refine Nat.pos_of_ne_zero fun h0 => ?_
  have hbuckets := hs.buckets_pos
  rw [← rangeSize_mul_hashes hs hpol, h0] at hbuckets
  omega

/-- Nothing is divided by zero. -/
theorem ne_zero_of_mem_divisors (hs : s.Usable) {d : UInt64} (hd : d ∈ s.divisors) : d ≠ 0 := by
  have hne : 0 < d.toNat := by
    unfold divisors at hd
    cases hpol : s.policy with
    | shared =>
      rw [hpol] at hd
      obtain rfl := List.mem_singleton.1 hd
      exact hs.buckets_pos
    | disjoint =>
      rw [hpol] at hd
      rcases List.mem_pair.1 hd with rfl | rfl
      · rw [UInt32.toNat_toUInt64]
        exact hs.hashes_pos
      · exact rangeSize_pos hs hpol
  rintro rfl
  exact absurd hne (by decide)

/-- Under the disjoint policy a hash function stays in its range. -/
theorem place_mem_range (hs : s.Usable) (hpol : s.policy = .disjoint) (hash : UInt64) (i : Nat) :
    i * s.rangeSize.toNat ≤ s.place hash i ∧ s.place hash i < (i + 1) * s.rangeSize.toNat := by
  have hmod := Nat.mod_lt hash.toNat (rangeSize_pos hs hpol)
  simp only [place, hpol, UInt64.toNat_mod]
  rw [Nat.succ_mul]
  omega

theorem place_lt (hs : s.Usable) (hash : UInt64) {i : Nat} (hi : i < s.hashes.toNat) :
    s.place hash i < s.buckets.toNat := by
  cases hpol : s.policy with
  | shared =>
    rw [place, hpol]
    simp only [UInt64.toNat_mod]
    exact Nat.mod_lt _ hs.buckets_pos
  | disjoint =>
    -- the range of this hash function ends before those of all of them do
    rw [← rangeSize_mul_hashes hs hpol, Nat.mul_comm]
    exact (place_mem_range hs hpol hash i).2.trans_le (Nat.mul_le_mul_right _ hi)

/-- In a usable session no bucket of a key lies outside the table. -/
theorem lt_of_mem_bucketsOf (hs : s.Usable) {key : UInt32} {b : Nat} (hb : b ∈ s.bucketsOf key) :
    b < s.buckets.toNat := by
  rw [bucketsOf_eq_map] at hb
  obtain ⟨i, hi, rfl⟩ := List.mem_map.1 hb
  exact place_lt hs _ (List.mem_range.1 hi)

/-- Under the disjoint policy the buckets of a key ascend. -/
theorem pairwise_bucketsOf (hs : s.Usable) (hpol : s.policy = .disjoint) (key : UInt32) :
    (s.bucketsOf key).Pairwise (· < ·) := by
  rw [bucketsOf_eq_map, List.pairwise_map]
  refine List.pairwise_lt_range.imp fun {i j} hij => ?_
  -- one range ends before a later one begins
  calc s.bucket key i < (i + 1) * s.rangeSize.toNat := (place_mem_range hs hpol _ i).2
    _ ≤ j * s.rangeSize.toNat := Nat.mul_le_mul_right _ hij
    _ ≤ s.bucket key j := (place_mem_range hs hpol _ j).1

/-- **Where a key lands.** In a checked session nothing is divided by zero. A key has one bucket per
hash function; listing them all answers the same as asking for that of one hash function, which
places the last of the hashes up to its own; and none is outside the table. Under the disjoint
policy each lies in the range of its hash function, so they ascend, and no bucket is hit twice. -/
theorem bucketsOf_placed (hs : s.check = .ok ()) (key : UInt32) :
    (∀ d ∈ s.divisors, d ≠ 0) ∧
    (s.bucketsOf key).length = s.hashes.toNat ∧
    (∀ i < s.hashes.toNat,
      (s.bucketsOf key)[i]? = some (s.bucket key i) ∧ s.bucket key i < s.buckets.toNat ∧
        ∃ hash, ((Probe.of key s.seed).hashes (i + 1)).getLast? = some hash ∧
          s.bucket key i = s.place hash i) ∧
    (s.policy = .disjoint →
      (∀ i < s.hashes.toNat, i * (s.buckets.toNat / s.hashes.toNat) ≤ s.bucket key i ∧
        s.bucket key i < (i + 1) * (s.buckets.toNat / s.hashes.toNat)) ∧
      (s.bucketsOf key).Pairwise (· < ·) ∧ (s.bucketsOf key).Nodup) := by
  have hu := check_eq_ok_iff.1 hs
  refine ⟨fun d => ne_zero_of_mem_divisors hu, length_bucketsOf s key,
    fun i hi => ⟨?_, place_lt hu _ hi, bucket_eq_place_getLast s key i⟩,
    fun hpol => ⟨fun i _ => ?_, pairwise_bucketsOf hu hpol key,
      (pairwise_bucketsOf hu hpol key).imp Nat.ne_of_lt⟩⟩
  · rw [bucketsOf_eq_map, List.getElem?_map, List.getElem?_range hi, Option.map_some]
  · rw [← toNat_rangeSize hpol]
    exact place_mem_range hu hpol _ i

/-- The small session with six buckets, in ranges of two for each of three hash functions. -/
def ranged : Session := { small with buckets := 6, hashes := 3, policy := .disjoint }

/-- The second of three hash functions stays in the buckets two and three. -/
theorem bucketsOf_placed_ranged : ranged.check = .ok () ∧
    (∀ d ∈ ranged.divisors, d ≠ 0) ∧ (ranged.bucketsOf 7)[1]? = some (ranged.bucket 7 1) ∧
    2 ≤ ranged.bucket 7 1 ∧ ranged.bucket 7 1 < 4 ∧ (ranged.bucketsOf 7).Nodup := by
  have hs : ranged.check = .ok () := by decide +kernel
  obtain ⟨hdivisors, -, hbucket, hdisjoint⟩ := bucketsOf_placed hs 7
  obtain ⟨hrange, -, hnodup⟩ := hdisjoint rfl
  obtain ⟨hge, hlt⟩ := hrange 1 (by decide)
  exact ⟨hs, hdivisors, (hbucket 1 (by decide)).1, hge, hlt, hnodup⟩

end Session

end LossSketch
