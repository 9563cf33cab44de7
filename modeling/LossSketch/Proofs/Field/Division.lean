import LossSketch.Proofs.Field.Roots

/-!
# Division by linear factors

* `Monic.coeff_polynomial` — the coefficients listed are those of the polynomial, so by
  `Monic.monic_polynomial` and `Monic.natDegree_polynomial` it is the one that they spell.
* `Monic.deflate_snd` — the remainder of synthetic division is the value that Horner's rule
  computes.
* `Monic.isGreatest_multiplicity` — repeated division counts the powers of the linear factor that
  divide the polynomial.
* `Monic.sum_multiplicity_le` — different residues do not have more multiplicity together than the
  degree.
* `Monic.division_multiplicity` puts these together.
-/

namespace LossSketch

open Polynomial

namespace Monic

variable {f : Field}

/-! ## The polynomial of a list -/

/-- Coefficients are listed from the one below the leading one down. -/
theorem coeff_polynomial (f : Field) (poly : Monic) (i : Nat) (hi : i < poly.length) :
    (polynomial f poly).coeff (poly.length - 1 - i) = f.residue poly[i] := by
  induction poly using List.reverseRecOn with
  | nil => exact absurd hi (Nat.not_lt_zero i)
  | append_singleton poly a ih =>
    rw [polynomial_append, coeff_add]
    rcases Nat.lt_or_ge i poly.length with hlt | hge
    · -- the last coefficient moved the others up
      have hplace : (poly ++ [a]).length - 1 - i = poly.length - 1 - i + 1 := by
        rw [List.length_append, List.length_singleton]
        omega
      rw [hplace, coeff_mul_X, coeff_C_succ, add_zero, ih hlt, List.getElem_append_left hlt]
    · -- and is the constant itself
      have hlast : i = poly.length := by
        rw [List.length_append, List.length_singleton] at hi
        omega
      subst hlast
      have hplace : (poly ++ [a]).length - 1 - poly.length = 0 := by
        rw [List.length_append, List.length_singleton]
        omega
      rw [hplace, mul_coeff_zero, coeff_X_zero, mul_zero, zero_add, coeff_C_zero,
        List.getElem_concat_length rfl]

/-! ## Quotient and remainder -/

section Division

variable (hf : f.modulus ≠ 0)
include hf

/-- **The remainder is the value** of the polynomial at the root divided by. -/
theorem deflate_snd {c : Monic} (hc : c ≠ []) (root : UInt32) :
    (deflate f c root).2 = c.eval f root := by
  -- both are reduced, so it is enough that they have the same class
  refine (Field.residue_inj (reduced_deflate hf hc root) (reduced_eval hf c root)).1 ?_
  rw [residue_eval hf, polynomial_deflate hf hc root]
  simp

theorem reduced_of_mem_partials {x carry : UInt32} {c : Monic} {value : UInt32}
    (hvalue : value ∈ partials f x carry c) : f.Reduced value := by
  induction c generalizing carry with
  | nil => exact absurd hvalue List.not_mem_nil
  | cons coeff c ih =>
    rcases List.mem_cons.1 hvalue with rfl | hvalue
    · exact Field.reduced_add hf _ _
    · exact ih hvalue

/-- Quotients have reduced coefficients, whatever was divided. -/
theorem reduced_of_mem_deflate {c : Monic} {root a : UInt32} (ha : a ∈ (deflate f c root).1) :
    f.Reduced a :=
  reduced_of_mem_partials hf (List.mem_of_mem_dropLast ha)

end Division

/-! ## Multiplicities -/

variable (hp : f.modulus.toNat.Prime)
include hp

/-- The multiplicity is the greatest power of the linear factor that divides the polynomial. -/
theorem isGreatest_multiplicity (c : Monic) (x : UInt32) :
    IsGreatest {m | (X - C (f.residue x)) ^ m ∣ polynomial f c} (c.multiplicity f x) := by
  have : Fact f.modulus.toNat.Prime := ⟨hp⟩
  have hne : polynomial f c ≠ 0 := (monic_polynomial hp c).ne_zero
  rw [multiplicity_eq hp]
  exact ⟨pow_rootMultiplicity_dvd _ _, fun m hm => (le_rootMultiplicity_iff hne).2 hm⟩

/-- Words of different classes divide the polynomial no more often than its degree. -/
theorem sum_multiplicity_le (c : Monic) {xs : List UInt32} (hnodup : (xs.map f.residue).Nodup) :
    (xs.map (c.multiplicity f)).sum ≤ c.length := by
  have : Fact f.modulus.toNat.Prime := ⟨hp⟩
  -- a multiplicity counts a class among the roots
  have hcount : xs.map (c.multiplicity f) =
      (xs.map f.residue).map fun z => (polynomial f c).roots.count z := by
    rw [List.map_map]
    refine List.map_congr_left fun x _ => ?_
    rw [Function.comp_apply, multiplicity_eq hp, count_roots]
  -- with the roots themselves added, all counts sum up to the number of roots
  have hall : ∑ z ∈ (xs.map f.residue).toFinset ∪ (polynomial f c).roots.toFinset,
      (polynomial f c).roots.count z = Multiset.card (polynomial f c).roots :=
    Multiset.sum_count_eq_card fun z hz => Finset.mem_union_right _ (Multiset.mem_toFinset.2 hz)
  calc (xs.map (c.multiplicity f)).sum
      = ∑ z ∈ (xs.map f.residue).toFinset, (polynomial f c).roots.count z := by
        rw [hcount, List.sum_toFinset _ hnodup]
    _ ≤ Multiset.card (polynomial f c).roots := by
        rw [← hall]
        exact Finset.sum_le_sum_of_subset Finset.subset_union_left
    _ ≤ (polynomial f c).natDegree := card_roots' _
    _ = c.length := natDegree_polynomial hp c

/-- **Division and multiplicities are those of polynomials** over a prime modulus, and coefficients
need not be reduced. A list spells the monic polynomial whose coefficients it lists. Divided by
`X - x` that leaves the quotient, which is monic and reduced, and the value at `x`. The multiplicity
of `x` is the greatest power of `X - x` that divides it, zero for the constant, and words of
different classes have no more multiplicity together than the degree. -/
theorem division_multiplicity (poly : Monic) :
    ((polynomial f poly).Monic ∧ (polynomial f poly).natDegree = poly.length ∧
      ∀ (i : Nat) (hi : i < poly.length),
        (polynomial f poly).coeff (poly.length - 1 - i) = f.residue poly[i]) ∧
    (poly ≠ [] → ∀ x,
      polynomial f poly = (X - C (f.residue x)) * polynomial f (poly.deflate f x).1 +
        C (f.residue (poly.deflate f x).2) ∧
      (poly.deflate f x).1.length + 1 = poly.length ∧ (∀ a ∈ (poly.deflate f x).1, f.Reduced a) ∧
      (poly.deflate f x).2 = poly.eval f x) ∧
    (∀ x, IsGreatest {m | (X - C (f.residue x)) ^ m ∣ polynomial f poly} (poly.multiplicity f x)) ∧
    (poly = [] → ∀ x, poly.multiplicity f x = 0) ∧
    ∀ xs : List UInt32, (xs.map f.residue).Nodup →
      (xs.map (poly.multiplicity f)).sum ≤ poly.length := by
  have hf := Field.modulus_ne_zero_of_prime hp
  refine ⟨⟨monic_polynomial hp poly, natDegree_polynomial hp poly, coeff_polynomial f poly⟩,
    fun hc x => ⟨polynomial_deflate hf hc x, ?_, fun a => reduced_of_mem_deflate hf,
      deflate_snd hf hc x⟩, isGreatest_multiplicity hp poly, ?_,
    fun xs => sum_multiplicity_le hp poly⟩
  · rw [length_deflate]
    exact Nat.sub_add_cancel (List.length_pos_iff.2 hc)
  · rintro rfl x
    rw [multiplicity, if_pos rfl]

omit hp in
/-- Modulo 13 the list spells `(X - 3) ^ 2 * (X - 4)`, with two coefficients that are not reduced.
Divided by `X - 3` it leaves `(X - 3) * (X - 4)`. -/
theorem division_multiplicity_double : Nat.Prime 13 ∧
    polynomial ⟨13⟩ [16, 33, 3] = (X - C (Field.residue ⟨13⟩ 3)) * polynomial ⟨13⟩ [6, 12] ∧
    (X - C (Field.residue ⟨13⟩ 3)) ^ multiplicity ⟨13⟩ [16, 33, 3] 3 ∣
      polynomial ⟨13⟩ [16, 33, 3] ∧
    multiplicity ⟨13⟩ [16, 33, 3] 3 + multiplicity ⟨13⟩ [16, 33, 3] 4 ≤ 3 := by
  have hp : (Field.mk 13).modulus.toNat.Prime := by decide
  obtain ⟨-, hdivide, hgreatest, -, hsum⟩ := division_multiplicity hp [16, 33, 3]
  obtain ⟨hquotient, -⟩ := hdivide (by decide) 3
  have hdeflate : deflate ⟨13⟩ [16, 33, 3] 3 = ([6, 12], 0) := by decide
  have hle := hsum [3, 4] (by decide)
  rw [hdeflate, Field.residue_zero, C_0, add_zero] at hquotient
  exact ⟨hp, hquotient, (hgreatest 3).1, by simpa using hle⟩

end Monic

end LossSketch
