import LossSketch.Accumulator.PowerSums
import LossSketch.Proofs.Error
import LossSketch.Proofs.Field.Monic
import LossSketch.Proofs.Session

/-!
# Power sums of a session

* `Field.powerSums_perm` — the order of the elements does not matter.
* `PowerSums.subtract_accumulate` — subtracting the power sums of some elements leaves exactly the
  power sums of the others.
* `PowerSums.multiplicity_accumulate` — the elements are the roots of the polynomial that their
  power sums determine, as long as they are not more than the degree.
-/

namespace LossSketch

/-- The order of the elements does not matter. -/
theorem Field.powerSums_perm {f : Field} (hf : f.modulus ≠ 0) {keys others : List UInt32}
    (h : keys.Perm others) (degree : Nat) :
    f.powerSums degree keys = f.powerSums degree others := by
  have hsums := sumsPowers_powerSums hf degree others
  rw [← Multiset.coe_eq_coe.2 (h.map f.residue)] at hsums
  refine (sumsPowers_powerSums hf degree keys).unique hsums ?_
    (fun _ => reduced_of_mem_powerSums hf) (fun _ => reduced_of_mem_powerSums hf)
  rw [length_powerSums, length_powerSums]

namespace PowerSums

/-- The order of the fingerprints does not matter. -/
theorem accumulate_perm {s : Session} (hs : s.Usable) (offset : UInt64) {keys others : List UInt32}
    (h : keys.Perm others) : accumulate s offset keys = accumulate s offset others := by
  rw [accumulate, accumulate, Field.powerSums_perm hs.modulus_ne_zero h, h.length_eq]

theorem ofKeys_eq_ok {s : Session} (hs : s.Usable) (offset : UInt64) (keys : List UInt32) :
    ofKeys s offset keys = .ok (accumulate s offset keys) := by
  rw [ofKeys, Session.check_eq_ok_iff.2 hs]
  rfl

/-- Power sums are accumulated for usable sessions only. -/
theorem eq_accumulate_of_ofKeys {s : Session} {offset : UInt64} {keys : List UInt32} {a : PowerSums}
    (h : ofKeys s offset keys = .ok a) : s.Usable ∧ a = accumulate s offset keys := by
  obtain ⟨⟨⟩, hcheck, h⟩ := bind_eq_ok.1 h
  exact ⟨Session.check_eq_ok_iff.1 hcheck, (Except.ok.inj h).symm⟩

/-- Power sums of one session and offset can be subtracted. -/
theorem subtract_eq_ok (s : Session) (offset : UInt64) (keys others : List UInt32) :
    (accumulate s offset keys).subtract (accumulate s offset others) =
      .ok ⟨s, offset, (s.field.powerSums s.degree.toNat keys).zipWith s.field.sub
        (s.field.powerSums s.degree.toNat others), keys.length - others.length⟩ := by
  rw [subtract, checkAlike]
  simp only [accumulate, Session.checkAligned_self, ok_bind]
  rfl

/-- **Subtracting power sums** leaves exactly the power sums of the elements that were not taken
out. -/
theorem subtract_accumulate {s : Session} (hf : s.field.modulus ≠ 0) (offset : UInt64)
    {keys others held : List UInt32} (h : (others ++ held).Perm keys) :
    (accumulate s offset keys).subtract (accumulate s offset others) =
      .ok (accumulate s offset held) := by
  -- the differences are reduced sums of the same powers
  have hsums : (s.field.powerSums s.degree.toNat keys).zipWith s.field.sub
      (s.field.powerSums s.degree.toNat others) = s.field.powerSums s.degree.toNat held := by
    have hkeys := Field.sumsPowers_powerSums hf s.degree.toNat keys
    rw [← Multiset.coe_eq_coe.2 (h.map s.field.residue), List.map_append, ← Multiset.coe_add]
      at hkeys
    refine (hkeys.sub hf (Field.sumsPowers_powerSums hf s.degree.toNat others)).unique
      (Field.sumsPowers_powerSums hf s.degree.toNat held) ?_ ?_
      (fun _ => Field.reduced_of_mem_powerSums hf)
    · simp
    · intro word hword
      obtain ⟨i, hi, rfl⟩ := List.getElem_of_mem hword
      rw [List.getElem_zipWith]
      exact Field.reduced_sub hf _ _
  have hcount : (keys.length : Int) - others.length = held.length := by
    rw [← h.length_eq, List.length_append]
    push_cast
    ring
  rw [subtract_eq_ok, hsums, hcount]
  rfl

/-- The number of elements can be decoded from none to the degree. -/
theorem size_eq_ok_iff {a : PowerSums} {n : Nat} : a.size = .ok n ↔
    (n : Int) = a.count ∧ n ≤ a.session.degree.toNat := by
  unfold size capacity
  split
  · rename_i hneg
    exact ⟨nofun, fun h => by omega⟩
  · rename_i hnonneg
    split
    · rename_i hlarge
      exact ⟨nofun, fun h => by omega⟩
    · rename_i hsmall
      rw [Except.ok.injEq]
      omega

theorem size_accumulate {s : Session} {offset : UInt64} {keys : List UInt32}
    (h : keys.length ≤ s.degree.toNat) : (accumulate s offset keys).size = .ok keys.length :=
  size_eq_ok_iff.2 ⟨rfl, h⟩

/-- The elements are the roots of the polynomial that their power sums determine, each as often as
it occurs. -/
theorem multiplicity_accumulate {s : Session} (hs : s.Usable) (offset : UInt64)
    {keys : List UInt32} (hkeys : ∀ key ∈ keys, s.field.Reduced key)
    (hdegree : keys.length ≤ s.degree.toNat) {key : UInt32} (hkey : s.field.Reduced key) :
    ((accumulate s offset keys).polynomial keys.length).multiplicity s.field key =
      keys.count key := by
  have hlt : keys.length < s.field.modulus.toNat := hdegree.trans_lt hs.degree_lt
  have hroot := (Field.sumsPowers_powerSums hs.modulus_ne_zero s.degree.toNat keys).multiplicity_eq
    hs.prime (by simpa using hdegree) (by simpa using hlt) key
  rw [Multiset.coe_card, List.length_map] at hroot
  refine hroot.trans ?_
  rw [Multiset.coe_count]
  exact Field.count_map_residue hkeys hkey

end PowerSums

end LossSketch
