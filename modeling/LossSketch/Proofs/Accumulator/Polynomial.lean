import LossSketch.Proofs.Accumulator.Forged

/-!
# The polynomial of some fingerprints

Power sums say of which fingerprints they are by a polynomial that has these for its roots.

* `PowerSums.map_residue_polynomial` — as many coefficients as asked for are those of the monic
  polynomial of the fingerprints, where those behind its last are zero.
* `PowerSums.rootPolynomial_accumulate` — so the polynomial of as many coefficients as fingerprints
  is the product of their linear factors, and the polynomial of all power sums is the same with
  zeros behind it.
-/

namespace LossSketch

namespace PowerSums

open Polynomial

variable {s : Session} {keys : List UInt32}

/-- The coefficients of the power sums of some fingerprints, however many are asked for. -/
theorem map_residue_polynomial (hs : s.Usable) (offset : UInt64) (keys : List UInt32) {n : Nat}
    (hn : n ≤ s.degree.toNat) :
    ((accumulate s offset keys).polynomial n).map s.field.residue =
      (List.range n).map fun i => coefficient (s.field.residues keys) (i + 1) := by
  have hlength : (s.field.powerSums s.degree.toNat keys).length = s.degree.toNat :=
    Field.length_powerSums _ _
  have hlt : n < s.field.modulus.toNat := hn.trans_lt hs.degree_lt
  exact Field.map_residue_coefficientsOf hs.prime
    (Field.sumsPowers_powerSums hs.modulus_ne_zero s.degree.toNat keys) (hn.trans_eq hlength.symm)
    hlt

theorem reduced_of_mem_polynomial (hs : s.Usable) (offset : UInt64) {n : Nat}
    (hn : n ≤ s.degree.toNat) {c : UInt32} (hc : c ∈ (accumulate s offset keys).polynomial n) :
    s.field.Reduced c := by
  have hlength : (s.field.powerSums s.degree.toNat keys).length = s.degree.toNat :=
    Field.length_powerSums _ _
  exact Field.reduced_of_mem_coefficientsOf hs.modulus_ne_zero (hn.trans_eq hlength.symm) hc

/-- The polynomial of all power sums has zeros behind the coefficients of the fingerprints. -/
theorem fullPolynomial_accumulate (hs : s.Usable) (offset : UInt64)
    (hle : keys.length ≤ s.degree.toNat) : (accumulate s offset keys).fullPolynomial =
      (accumulate s offset keys).polynomial keys.length ++
        List.replicate (s.degree.toNat - keys.length) 0 := by
  refine Field.eq_of_map_residue (f := s.field)
    (fun c hc => reduced_of_mem_polynomial hs offset le_rfl hc) (fun c hc => ?_) ?_
  · rcases List.mem_append.1 hc with hroots | hzero
    · exact reduced_of_mem_polynomial hs offset hle hroots
    · rw [List.eq_of_mem_replicate hzero]
      exact Field.reduced_zero hs.modulus_ne_zero
  · -- the coefficients asked for beyond the number of roots are zero
    have hrange : List.range s.degree.toNat = List.range keys.length ++
        (List.range (s.degree.toNat - keys.length)).map (keys.length + ·) := by
      rw [← List.range_add, Nat.add_sub_cancel' hle]
    have hbehind : ∀ i, coefficient (s.field.residues keys) (keys.length + i + 1) = 0 := by
      intro i
      refine coefficient_eq_zero ?_
      rw [Field.card_residues]
      omega
    show ((accumulate s offset keys).polynomial s.degree.toNat).map s.field.residue = _
    rw [map_residue_polynomial hs offset keys le_rfl, List.map_append,
      map_residue_polynomial hs offset keys hle, hrange, List.map_append, List.map_map,
      List.map_replicate, Field.residue_zero]
    congr 1
    refine List.eq_replicate_iff.2 ⟨by rw [List.length_map, List.length_range], fun c hc => ?_⟩
    obtain ⟨i, -, rfl⟩ := List.mem_map.1 hc
    exact hbehind i

/-- **The polynomial of some fingerprints is recovered** from their power sums, if they are not more
than the degree, whatever words they are. It has as many coefficients below the leading one, highest
degree first. They are reduced, and they are those of the product of the linear factors. The
polynomial that all power sums determine has zeros behind them. -/
theorem rootPolynomial_ofKeys (hs : s.check = .ok ()) (offset : UInt64)
    (hle : keys.length ≤ s.degree.toNat) : ∃ a poly, ofKeys s offset keys = .ok a ∧
      a.rootPolynomial = .ok poly ∧ poly.length = keys.length ∧ (∀ c ∈ poly, c < s.modulus) ∧
      (∀ (i : Nat) (h : i < poly.length), s.field.residue poly[i] =
        (keys.map fun key => X - C (s.field.residue key)).prod.coeff (keys.length - 1 - i)) ∧
      a.fullPolynomial = poly ++ List.replicate (s.degree.toNat - keys.length) 0 := by
  have hu := Session.check_eq_ok_iff.1 hs
  have hsize : (accumulate s offset keys).size = .ok keys.length := size_accumulate hle
  have hclasses := map_residue_polynomial hu offset keys hle
  have hlength := congrArg List.length hclasses
  rw [List.length_map, List.length_map, List.length_range] at hlength
  refine ⟨_, (accumulate s offset keys).polynomial keys.length, ofKeys_eq_ok hu offset keys,
    by rw [rootPolynomial, hsize]; rfl, hlength,
    fun c hc => UInt32.lt_iff_toNat_lt.2 (reduced_of_mem_polynomial hu offset hle hc),
    fun i hi => ?_, fullPolynomial_accumulate hu offset hle⟩
  -- the coefficients are those of the multiset of roots, counted from the leading one
  have hclass := congrArg (·[i]?) hclasses
  rw [List.getElem?_map, List.getElem?_map, List.getElem?_eq_getElem hi,
    List.getElem?_range (hlength ▸ hi)] at hclass
  have hcard : i + 1 ≤ Multiset.card (s.field.residues keys) := by
    rw [Field.card_residues]
    omega
  have hproduct : ((s.field.residues keys).map fun x => X - C x).prod =
      (keys.map fun key => X - C (s.field.residue key)).prod := by
    rw [Field.residues, Multiset.map_coe, Multiset.prod_coe, List.map_map]
    rfl
  have hcoeff := coefficient_eq_coeff hcard
  rw [hproduct, Field.card_residues,
    show keys.length - (i + 1) = keys.length - 1 - i by omega] at hcoeff
  exact (Option.some.inj hclass).trans hcoeff

/-- Seventeen is four in the field of thirteen, so that the polynomial is `(X - 4)² = X² + 5 X + 3`.
-/
theorem rootPolynomial_ofKeys_twice : ∃ a, ofKeys Session.small 0 [17, 4] = .ok a ∧
    a.rootPolynomial = .ok [5, 3] ∧ a.fullPolynomial = [5, 3] := by
  obtain ⟨a, poly, ha, hpoly, -, -, -, hfull⟩ :=
    rootPolynomial_ofKeys Session.check_small 0 (show ([17, 4] : List UInt32).length ≤ _ by decide)
  obtain ⟨-, rfl⟩ := eq_accumulate_of_ofKeys ha
  have hroot : (accumulate Session.small 0 [17, 4]).rootPolynomial = .ok [5, 3] := by
    decide +kernel
  obtain rfl : poly = [5, 3] := Except.ok.inj (hpoly.symm.trans hroot)
  exact ⟨_, ha, hpoly, hfull⟩

end PowerSums

end LossSketch
