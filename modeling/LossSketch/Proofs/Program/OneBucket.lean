import LossSketch.Proofs.Bucket.Stuck
import LossSketch.Proofs.Program.Exact
import Mathlib.NumberTheory.LucasPrimality
import Mathlib.Tactic.NormNum.Prime
import Mathlib.Tactic.ReduceModChar

/-!
# Tables with one bucket

All hash functions send every key to the only bucket. With many of them a few keys are enough for
large numbers.

* `Session.crowded` — sessions with one bucket, and the greatest prime of 32 bits as modulus.
* `Table.crowd` — a summing table of such a session. `Table.peel_crowd` says that nothing is peeled
  where the bucket counts more than one.
* `Table.program_crowd` — the program of such a table, for candidates of one key.
-/

namespace LossSketch

/-! ## Sessions -/

namespace Session

/-- A session with one bucket. -/
def crowded (hashes : UInt32) : Session where
  buckets := 1
  hashes := hashes
  modulus := 4294967291
  degree := 1
  packetBytes := 2

theorem prime_4294967291 : Nat.Prime 4294967291 := by
  -- two is a primitive root
  refine lucas_primality _ 2 (by reduce_mod_char) fun q hq hdvd => ?_
  have hfactors : (4294967291 - 1 : Nat) = 2 * 5 * 19 * 22605091 := by norm_num
  rw [hfactors, hq.dvd_mul, hq.dvd_mul, hq.dvd_mul, Nat.prime_dvd_prime_iff_eq hq (by norm_num),
    Nat.prime_dvd_prime_iff_eq hq (by norm_num), Nat.prime_dvd_prime_iff_eq hq (by norm_num),
    Nat.prime_dvd_prime_iff_eq hq (by norm_num)] at hdvd
  obtain ((rfl | rfl) | rfl) | rfl := hdvd <;> norm_num <;> reduce_mod_char <;> decide

variable {hashes : UInt32} (hhashes : 0 < hashes.toNat)
include hhashes

theorem usable_crowded : (crowded hashes).Usable where
  buckets_pos := Nat.one_pos
  hashes_pos := hhashes
  width_pos := show 0 < (16 : UInt32).toNat by decide
  width_le := show (16 : UInt32).toNat ≤ 32 by decide
  degree_pos := Nat.one_pos
  prime := prime_4294967291
  degree_lt := show (1 : UInt64).toNat < (4294967291 : UInt32).toNat by decide
  even_ranges := nofun
  width_fits := show (16 : UInt32).toNat ≤ (2 : UInt64).toNat * 8 by decide

theorem check_crowded : (crowded hashes).check = .ok () :=
  check_eq_ok_iff.2 (usable_crowded hhashes)

theorem bucketsOf_crowded (key : UInt32) :
    (crowded hashes).bucketsOf key = List.replicate hashes.toNat 0 := by
  refine List.eq_replicate_iff.2 ⟨length_bucketsOf _ _, fun b hb => ?_⟩
  exact Nat.lt_one_iff.1 (lt_of_mem_bucketsOf (usable_crowded hhashes) hb)

end Session

theorem tallies_replicate (n a : Nat) : tallies (List.replicate (n + 1) a) = [(a, n + 1)] := by
  induction n with
  | zero => rfl
  | succ n ih =>
    rw [List.replicate_succ, tallies, ih]
    dsimp only
    rw [if_pos rfl]

/-! ## Tables -/

namespace Table

/-- A summing table with one bucket. -/
def crowd (hashes : UInt32) (count : Int) (sum : UInt32) : Table .summing :=
  ⟨.crowded hashes, 0, #[⟨count, sum⟩]⟩

/-- The program of a table with one bucket and `n` candidates of one key. -/
def crowdProgram (hashes : UInt32) (count : Int) (sum key : UInt32) (n expected : Nat) :
    Program where
  rows := [.fixed count, .fixed sum.toNat]
  columns := List.replicate n
      ⟨.binary, [(0, hashes.toNat), (1, hashes.toNat * ((key % 4294967291).toNat : Int))]⟩ ++
    [⟨.integer 0 count, [(1, -4294967291)]⟩]
  candidates := List.range n
  expected := expected

section

variable {hashes : UInt32} (hhashes : 0 < hashes.toNat) {count : Int} {sum : UInt32}
include hhashes

theorem wellFormed_crowd (hsum : sum < 4294967291) : (crowd hashes count sum).WellFormed where
  checked := Session.check_crowded hhashes
  size_eq := rfl
  reduced := by
    intro c hc
    obtain rfl : c = ⟨count, sum⟩ := by simpa [crowd] using hc
    rintro _ ⟨⟩
    exact hsum

theorem bucketsOf_crowd (key : UInt32) :
    (crowd hashes count sum).bucketsOf key = List.replicate hashes.toNat 0 :=
  Session.bucketsOf_crowded hhashes _

theorem incidences_crowd (key : UInt32) :
    (crowd hashes count sum).incidences key = [(0, hashes.toNat)] := by
  obtain ⟨n, hn⟩ := Nat.exists_eq_succ_of_ne_zero hhashes.ne'
  have hsorted : (List.replicate hashes.toNat 0).Pairwise fun a b => decide (a ≤ b) = true :=
    List.pairwise_replicate.2 (Or.inr (by decide))
  rw [incidences, bucketsOf_crowd hhashes, List.mergeSort_of_pairwise hsorted, hn]
  exact tallies_replicate n 0

theorem possible_crowd (hcount : count ≠ 0) (candidates : List UInt32) :
    (crowd hashes count sum).possible candidates = candidates.zipIdx := by
  refine List.filter_eq_self.2 fun e _ => List.all_eq_true.2 fun b hb => ?_
  rw [bucketsOf_crowd hhashes] at hb
  rw [List.eq_of_mem_replicate hb]
  exact decide_eq_true hcount

theorem program_crowd (hcount : 0 < count) (key : UInt32) (n expected : Nat) :
    (crowd hashes count sum).program (List.replicate n key) expected =
      crowdProgram hashes count sum key n expected := by
  have hdecision : ∀ e ∈ (List.replicate n key).zipIdx,
      (crowd hashes count sum).decisionColumn e = ⟨.binary,
        [(0, hashes.toNat), (1, hashes.toNat * ((key % 4294967291).toNat : Int))]⟩ := by
    intro e he
    have hkey : e.1 = key := List.eq_of_mem_replicate (List.fst_mem_of_mem_zipIdx he)
    rw [decisionColumn, decisionEntries, incidences_crowd hhashes, hkey]
    rfl
  have hwrap : (crowd hashes count sum).wrapping.map (crowd hashes count sum).wrapColumn =
      [⟨.integer 0 count, [(1, -4294967291)]⟩] := by
    have hwrapping : (crowd hashes count sum).wrapping = [(⟨count, sum⟩, 0)] := by
      refine List.filter_eq_self.2 fun e he => ?_
      obtain rfl := List.mem_singleton.1 he
      exact decide_eq_true hcount
    rw [hwrapping]
    rfl
  rw [program, possible_crowd hhashes hcount.ne', hwrap, List.map_congr_left hdecision]
  simp [crowdProgram, List.range_eq_range']
  rfl

/-- What keys bring to the sum of the bucket. -/
theorem residues_crowd (key : UInt32) (n : Nat) :
    (crowd hashes count sum).residues (List.replicate n key) 0 =
      n * (hashes.toNat * (key % 4294967291).toNat) := by
  rw [residues, List.map_replicate, List.sum_replicate, bucketsOf_crowd hhashes,
    List.count_replicate_self]
  rfl

omit hhashes in
theorem checkLosses_crowd (hcount : 0 < count) : (crowd hashes count sum).checkLosses = .ok () := by
  refine (checkLosses_eq_ok_iff _).2 fun c hc => ?_
  obtain rfl : c = ⟨count, sum⟩ := by simpa [crowd] using hc
  exact ⟨hcount.le, fun h => absurd h hcount.ne'⟩

omit hhashes in
/-- Nothing is peeled from a bucket that counts more than one. -/
theorem peel_crowd (hcount : count ≠ 1) : (crowd hashes count sum).peel =
    ⟨[], crowd hashes count sum⟩ := by
  refine peel_of_stuck fun b => pureKey?_eq_none ?_
  cases b with
  | zero => exact hcount
  | succ b => exact Int.zero_ne_one

/-- The table of some keys counts each of them once for each hash function. -/
theorem exists_tabulate_eq_crowd (keys : List UInt32) : ∃ sum : UInt32, sum < 4294967291 ∧
    tabulate .summing (.crowded hashes) 0 keys =
      crowd hashes (hashes.toNat * keys.length : Nat) sum := by
  have hs := Session.usable_crowded hhashes
  have hwell := wellFormed_tabulate .summing 0 keys hs
  have hcount := (holds_tabulate .summing 0 keys hs).count_cell 0
  have hsession := session_tabulate .summing (.crowded hashes) 0 keys
  have hoffset := offset_tabulate .summing (.crowded hashes) 0 keys
  generalize tabulate .summing (.crowded hashes) 0 keys = t at *
  obtain ⟨session, offset, cells⟩ := t
  obtain rfl : session = .crowded hashes := hsession
  obtain rfl : offset = 0 := hoffset
  obtain ⟨⟨count, sum⟩, rfl⟩ := Array.size_eq_one_iff.1 hwell.size_eq
  refine ⟨sum, hwell.reduced ⟨count, sum⟩ (by simp) sum rfl, ?_⟩
  -- every key is sent to the bucket by all hash functions
  have hkeys : ∀ key, ((crowd hashes count sum).bucketsOf key).count 0 = hashes.toNat := by
    intro key
    rw [bucketsOf_crowd hhashes, List.count_replicate_self]
  have hcount : count = (hashes.toNat * keys.length : Nat) := by
    refine hcount.trans (congrArg Nat.cast ?_)
    have hshares : ((keys : Multiset UInt32).map fun key =>
        ((crowd hashes count sum).bucketsOf key).count 0) =
        Multiset.replicate keys.length hashes.toNat := by
      simp only [hkeys, Multiset.map_const', Multiset.coe_card]
    exact (congrArg Multiset.sum hshares).trans
      ((Multiset.sum_replicate _ _).trans (Nat.mul_comm _ _))
  rw [← hcount]
  rfl

end

end Table

end LossSketch
