import Mathlib.Data.ZMod.Basic
import LossSketch.Proofs.Bucket.Image
import LossSketch.Proofs.Packet.Log

/-!
# Tables that given keys make up

* `Table.MadeUpBy` — inserting keys into an empty table gives every count and every field sum of a
  table. It says nothing of what an invertible bucket records.
* `Table.arrivals` and `Table.residues` are the two numbers that keys bring to a bucket before
  anything is reduced: how many of them arrive, and the sum of their residues.
* `Table.madeUpBy_iff` — keys make up a table when the arrivals are its counts and the residues
  agree with its field sums modulo the modulus.
* `Table.Holds.madeUpBy` and `Table.MadeUpBy.keyCount` — a table is made up by the keys it holds,
  and by no other number of keys than it counts.
-/

namespace LossSketch

namespace Table

variable {kind : Kind}

/-- Inserting the keys into an empty table gives every count and every field sum of the table. -/
def MadeUpBy (t : Table kind) (keys : List UInt32) : Prop :=
  ∀ b < t.cells.size, ((keys.foldl insert t.emptied).cell b).count = (t.cell b).count ∧
    ((keys.foldl insert t.emptied).cell b).fieldSum? = (t.cell b).fieldSum?

/-- How often the keys are sent to a bucket. -/
def arrivals (t : Table kind) (keys : List UInt32) (b : Nat) : Nat :=
  (keys.map fun key => (t.bucketsOf key).count b).sum

/-- The sum of the residues that the keys bring to a bucket. -/
def residues (t : Table kind) (keys : List UInt32) (b : Nat) : Nat :=
  (keys.map fun key => (t.bucketsOf key).count b * (key % t.session.modulus).toNat).sum

@[simp] theorem arrivals_nil (t : Table kind) (b : Nat) : t.arrivals [] b = 0 := rfl

@[simp] theorem arrivals_cons (t : Table kind) (key : UInt32) (keys : List UInt32) (b : Nat) :
    t.arrivals (key :: keys) b = (t.bucketsOf key).count b + t.arrivals keys b := by
  rw [arrivals, List.map_cons, List.sum_cons, arrivals]

@[simp] theorem residues_nil (t : Table kind) (b : Nat) : t.residues [] b = 0 := rfl

@[simp] theorem residues_cons (t : Table kind) (key : UInt32) (keys : List UInt32) (b : Nat) :
    t.residues (key :: keys) b =
      (t.bucketsOf key).count b * (key % t.session.modulus).toNat + t.residues keys b := by
  rw [residues, List.map_cons, List.sum_cons, residues]

theorem arrivals_append (t : Table kind) (keys others : List UInt32) (b : Nat) :
    t.arrivals (keys ++ others) b = t.arrivals keys b + t.arrivals others b := by
  rw [arrivals, List.map_append, List.sum_append, arrivals, arrivals]

theorem arrivals_perm (t : Table kind) {keys others : List UInt32} (h : keys.Perm others)
    (b : Nat) : t.arrivals keys b = t.arrivals others b :=
  (h.map _).sum_eq

/-- The shares of keys count their arrivals. -/
theorem sum_share_fst (t : Table kind) (keys : List UInt32) (b : Nat) :
    ((keys.map fun key => t.session.share kind key b).sum).1 = t.arrivals keys b := by
  induction keys with
  | nil => rfl
  | cons key keys ih =>
    rw [List.map_cons, List.sum_cons, Prod.fst_add, ih, Session.share_fst, arrivals_cons,
      Nat.cast_add]
    rfl

/-- A key that is sent to a bucket shows in its arrivals. -/
theorem arrivals_pos {t : Table kind} {keys : List UInt32} {key : UInt32} {b : Nat}
    (hkey : key ∈ keys) (hb : b ∈ t.bucketsOf key) : 0 < t.arrivals keys b := by
  refine Nat.lt_of_lt_of_le (List.count_pos_iff.2 hb) ?_
  exact List.single_le_sum (fun _ _ => Nat.zero_le _) _ (List.mem_map_of_mem hkey)

section

variable {t : Table kind} (ht : t.WellFormed)
include ht

theorem mod_lt_modulus (key : UInt32) :
    (key % t.session.modulus).toNat < t.session.modulus.toNat := by
  rw [UInt32.toNat_mod]
  exact Nat.mod_lt _ ht.usable.prime.pos

/-- Each arrival brings less than the modulus. -/
theorem residues_le (keys : List UInt32) (b : Nat) :
    t.residues keys b ≤ t.arrivals keys b * t.session.modulus.toNat := by
  induction keys with
  | nil => simp
  | cons key keys ih =>
    have hkey := Nat.mul_le_mul_left ((t.bucketsOf key).count b) (mod_lt_modulus ht key).le
    rw [residues_cons, arrivals_cons, Nat.add_mul]
    exact Nat.add_le_add hkey ih

/-- What keys put into a bucket, counted and summed. -/
theorem count_foldl_insert (keys : List UInt32) (b : Nat) :
    ((keys.foldl insert t.emptied).cell b).count = t.arrivals keys b := by
  rw [← sum_share_fst]
  exact congrArg Prod.fst (weight_foldl_insert_emptied keys ht b)

end

/-- A summing bucket records the class of the residues that keys bring to it. -/
theorem residue_foldl_insert {t : Table .summing} (ht : t.WellFormed) (keys : List UInt32)
    (b : Nat) : t.session.field.residue ((keys.foldl insert t.emptied).cell b).digest =
      (t.residues keys b : ZMod t.session.field.modulus.toNat) := by
  -- a share is a residue, as often as the key is sent to the bucket
  have hshare : ∀ key, (t.session.share .summing key b).2 =
      (((t.bucketsOf key).count b * (key % t.session.modulus).toNat : Nat) :
        ZMod t.session.field.modulus.toNat) := by
    intro key
    have hsingle : t.session.field.residue (t.session.field.reduce key.toUInt64) =
        ((key % t.session.modulus).toNat : ZMod t.session.field.modulus.toNat) := by
      rw [Field.residue, Field.toNat_reduce _ _ ht.modulus_ne_zero, UInt32.toNat_toUInt64,
        UInt32.toNat_mod]
      rfl
    rw [Nat.cast_mul, ← hsingle, ← nsmul_eq_mul]
    rfl
  have hsum : ((keys.map fun key => t.session.share .summing key b).sum).2 =
      (t.residues keys b : ZMod t.session.field.modulus.toNat) := by
    induction keys with
    | nil => exact (Nat.cast_zero (R := ZMod t.session.field.modulus.toNat)).symm
    | cons key keys ih =>
      rw [List.map_cons, List.sum_cons, residues_cons, Nat.cast_add, ← ih, ← hshare key]
      rfl
  exact (congrArg Prod.snd (weight_foldl_insert_emptied keys ht b)).trans hsum

/-- Keys make up a table when their arrivals are its counts, and their residues are its field sums
up to multiples of the modulus. -/
theorem madeUpBy_iff {t : Table kind} (ht : t.WellFormed) (keys : List UInt32) :
    t.MadeUpBy keys ↔ ∀ b < t.cells.size, (t.arrivals keys b : Int) = (t.cell b).count ∧
      ∀ sum, (t.cell b).fieldSum? = some sum →
        (t.session.modulus.toNat : Int) ∣ t.residues keys b - sum.toNat := by
  refine forall₂_congr fun b _ => and_congr ?_ ?_
  · rw [count_foldl_insert ht]
  · cases kind with
    | counting => exact ⟨fun _ _ h => (nomatch h), fun _ => rfl⟩
    | invertible => exact ⟨fun _ _ h => (nomatch h), fun _ => rfl⟩
    | summing =>
      -- both field sums are reduced, so they agree when their classes do
      have hrebuilt : t.session.field.Reduced ((keys.foldl insert t.emptied).cell b).digest := by
        have := (WellFormed.foldl_insert keys ht.emptied).reduced_cell b _ rfl
        rwa [session_foldl_insert] at this
      have hclass : ((keys.foldl insert t.emptied).cell b).digest = (t.cell b).digest ↔
          (t.session.modulus.toNat : Int) ∣ t.residues keys b - (t.cell b).digest.toNat := by
        rw [← Field.residue_inj hrebuilt (ht.reduced_cell b _ rfl), residue_foldl_insert ht,
          Field.residue, eq_comm, ← ZMod.intCast_eq_intCast_iff_dvd_sub]
        simp only [Int.cast_natCast]
        rfl
      constructor
      · rintro h sum ⟨⟩
        exact hclass.1 (Option.some.inj h)
      · intro h
        exact congrArg some (hclass.2 (h _ rfl))

/-- Inserting the keys that make up a counting or a summing table gives it back. -/
theorem MadeUpBy.foldl_insert_eq {t : Table kind} (ht : t.WellFormed) {keys : List UInt32}
    (h : t.MadeUpBy keys) (hkind : kind ≠ .invertible) : keys.foldl insert t.emptied = t := by
  refine ext_of_weight ht (WellFormed.foldl_insert keys ht.emptied) (session_foldl_insert keys _)
    (offset_foldl_insert keys _) fun b hb => ?_
  obtain ⟨hcount, hsum⟩ := h b hb
  refine Prod.ext hcount ?_
  cases kind with
  | counting => rfl
  | invertible => exact absurd rfl hkind
  | summing => exact congrArg (Kind.weigh t.session.field .summing) (Option.some.inj hsum)

/-- A table is made up by the keys it holds. -/
theorem Holds.madeUpBy {t : Table kind} (ht : t.WellFormed) {keys : List UInt32}
    (h : t.Holds keys) : t.MadeUpBy keys := by
  rw [MadeUpBy, h.foldl_insert_eq ht]
  exact fun b _ => ⟨rfl, rfl⟩

/-- Each key that makes up a table adds one for each hash function to its counts. -/
theorem MadeUpBy.total {t : Table kind} (ht : t.WellFormed) {keys : List UInt32}
    (h : t.MadeUpBy keys) : t.total = t.session.hashes.toNat * keys.length := by
  have hwell := WellFormed.foldl_insert keys ht.emptied
  have htotal := (holds_foldl_insert ht keys).total hwell
  have hsame : (keys.foldl insert t.emptied).total = t.total := by
    rw [total_eq_sum, total_eq_sum, size_foldl_insert, show t.emptied.cells.size = t.cells.size from
      Array.size_replicate]
    exact Finset.sum_congr rfl fun b hb => (h b (Finset.mem_range.1 hb)).1
  rwa [hsame, session_foldl_insert, Multiset.coe_card] at htotal

/-- A table is made up by as many keys as it counts. -/
theorem MadeUpBy.keyCount {t : Table kind} (ht : t.WellFormed) {keys : List UInt32}
    (h : t.MadeUpBy keys) : t.keyCount = keys.length :=
  keyCount_eq ht (h.total ht)

/-- A table is made up by as many keys as it holds. -/
theorem MadeUpBy.length_eq {t : Table kind} (ht : t.WellFormed) {keys : List UInt32}
    (h : t.MadeUpBy keys) {held : Multiset UInt32} (hheld : t.Holds held) :
    keys.length = Multiset.card held := by
  have hcount := (h.keyCount ht).symm.trans (hheld.keyCount ht)
  exact_mod_cast hcount

/-- The table of the keys listed, in the small session. -/
def small (kind : Kind) (keys : List UInt32) : Table kind := tabulate kind Session.small 0 keys

theorem wellFormed_small (kind : Kind) (keys : List UInt32) : (small kind keys).WellFormed :=
  wellFormed_tabulate kind 0 keys (Session.check_eq_ok_iff.1 Session.check_small)

theorem holds_small (kind : Kind) (keys : List UInt32) : (small kind keys).Holds keys :=
  holds_tabulate kind 0 keys (Session.check_eq_ok_iff.1 Session.check_small)

theorem madeUpBy_small (kind : Kind) (keys : List UInt32) : (small kind keys).MadeUpBy keys := by
  rw [MadeUpBy, small, emptied_tabulate]
  exact fun b _ => ⟨rfl, rfl⟩

end Table

end LossSketch
