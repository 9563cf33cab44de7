import Mathlib.Algebra.Polynomial.Roots
import LossSketch.Field.Monic
import LossSketch.Proofs.Field.Newton

/-!
# Coefficient lists as polynomials

* `eq_of_powerSum` — multisets of few elements with the same first power sums are the same.
* `Monic.polynomial` is the monic polynomial that a list of coefficients stands for.
* `Monic.polynomial_deflate` — synthetic division divides by `X - r` with remainder.
* `Monic.multiplicity_eq` — repeated division counts the multiplicity of a root.
* `Monic.polynomial_coefficientsOf` — the coefficients recovered from power sums are those of the
  polynomial with the given roots; by `Field.SumsPowers.multiplicity_eq` each root counts as often
  as it was added up.
-/

namespace LossSketch

open Polynomial

/-- The monic polynomial with the given coefficients below the leading one, highest degree first. -/
noncomputable def hornerPolynomial {K : Type} [CommRing K] (c : List K) : K[X] :=
  c.foldl (fun q a => q * X + C a) 1

theorem hornerPolynomial_append {K : Type} [CommRing K] (c : List K) (a : K) :
    hornerPolynomial (c ++ [a]) = hornerPolynomial c * X + C a := by
  rw [hornerPolynomial, List.foldl_append, List.foldl_cons, List.foldl_nil, hornerPolynomial]

/-- The coefficients of the polynomial with given roots spell that polynomial. -/
theorem hornerPolynomial_coefficients {K : Type} [CommRing K] (xs : Multiset K) :
    hornerPolynomial ((List.range (Multiset.card xs)).map fun i => coefficient xs (i + 1)) =
      (xs.map fun x => X - C x).prod := by
  -- Horner's rule spells the sum of the first coefficients times falling powers
  have hsum : ∀ n, hornerPolynomial ((List.range n).map fun i => coefficient xs (i + 1)) =
      ∑ j ∈ Finset.range (n + 1), C (coefficient xs j) * X ^ (n - j) := by
    intro n
    induction n with
    | zero => simp [hornerPolynomial]
    | succ n ih =>
      rw [List.range_succ, List.map_append, List.map_singleton, hornerPolynomial_append, ih,
        Finset.sum_range_succ _ (n + 1), Nat.sub_self, pow_zero, mul_one, Finset.sum_mul]
      refine congrArg (· + _) (Finset.sum_congr rfl fun j hj => ?_)
      have hle := Finset.mem_range_succ_iff.1 hj
      rw [mul_assoc, ← pow_succ, show n - j + 1 = n + 1 - j by omega]
  rw [hsum, Multiset.prod_X_sub_X_eq_sum_esymm]
  refine Finset.sum_congr rfl fun j _ => ?_
  rw [coefficient, C_mul, mul_assoc]
  simp

/-- The coefficients below the leading one are those of the product of the linear factors. -/
theorem coefficient_eq_coeff {K : Type} [CommRing K] {xs : Multiset K} {k : ℕ}
    (hk : k ≤ Multiset.card xs) :
    coefficient xs k = (xs.map fun x => X - C x).prod.coeff (Multiset.card xs - k) := by
  rw [Multiset.prod_X_sub_C_coeff _ (Nat.sub_le _ _), Nat.sub_sub_self hk, coefficient]

/-- **Power sums determine the multiset**, if it has no more elements than there are sums and none
of the numbers that Newton's identities divide by is zero. -/
theorem eq_of_powerSum {K : Type} [CommRing K] [IsDomain K] {xs ys : Multiset K} {n : ℕ}
    (hne : ∀ k < n, ((k + 1 : ℕ) : K) ≠ 0)
    (hsums : ∀ k < n, powerSum xs (k + 1) = powerSum ys (k + 1))
    (hcard : Multiset.card xs = Multiset.card ys) (hle : Multiset.card xs ≤ n) : xs = ys := by
  -- the coefficients are the same, so the polynomials are, and their roots
  have hcoefficients : (List.range (Multiset.card xs)).map (fun i => coefficient xs (i + 1)) =
      (List.range (Multiset.card ys)).map fun i => coefficient ys (i + 1) := by
    rw [← hcard]
    refine List.map_congr_left fun i hi => coefficient_congr hne hsums ?_
    have hlt := List.mem_range.1 hi
    omega
  have hproducts := congrArg hornerPolynomial hcoefficients
  rw [hornerPolynomial_coefficients, hornerPolynomial_coefficients] at hproducts
  have hroots := congrArg roots hproducts
  rwa [roots_multiset_prod_X_sub_C, roots_multiset_prod_X_sub_C] at hroots

namespace Monic

variable {f : Field}

/-- The polynomial that a list of coefficients stands for. -/
noncomputable def polynomial (f : Field) (c : Monic) : (ZMod f.modulus.toNat)[X] :=
  hornerPolynomial (c.map f.residue)

theorem polynomial_append (c : Monic) (a : UInt32) :
    polynomial f (c ++ [a]) = polynomial f c * X + C (f.residue a) := by
  rw [polynomial, List.map_append, List.map_singleton, hornerPolynomial_append, polynomial]

/-! ## Division -/

theorem partials_append (x carry : UInt32) (c : Monic) (a : UInt32) :
    partials f x carry (c ++ [a]) = partials f x carry c ++
      [f.add a (f.mul ((partials f x carry c).getLastD carry) x)] := by
  induction c generalizing carry with
  | nil => rfl
  | cons coeff c ih =>
    rw [List.cons_append, partials, partials, ih, List.cons_append, List.getLastD_cons]

section Division

variable (hf : f.modulus ≠ 0)
include hf

/-- The running values of Horner's rule are the coefficients of the quotient, and the last of them
is the remainder. -/
theorem polynomial_append_eq (root : UInt32) (c : Monic) (a : UInt32) :
    polynomial f (c ++ [a]) =
      (X - C (f.residue root)) * polynomial f (partials f (f.reduce root.toUInt64) (f.reduce 1) c) +
        C (f.residue (f.add a (f.mul
          ((partials f (f.reduce root.toUInt64) (f.reduce 1) c).getLastD (f.reduce 1))
          (f.reduce root.toUInt64)))) := by
  -- on the last coefficient, since the running values grow at the end
  induction c using List.reverseRecOn generalizing a with
  | nil =>
    rw [polynomial_append, Field.residue_add hf, Field.residue_mul hf, Field.residue_reduce_word hf]
    simp [polynomial, hornerPolynomial, partials, Field.residue_reduce_one hf]
  | append_singleton c b ih =>
    rw [polynomial_append, ih b, partials_append, polynomial_append, List.getLastD_concat,
      Field.residue_add hf a, Field.residue_mul hf, Field.residue_reduce_word hf, C_add, C_mul]
    ring

/-- **Synthetic division** divides by `X - r` with remainder. -/
theorem polynomial_deflate {c : Monic} (hc : c ≠ []) (root : UInt32) :
    polynomial f c = (X - C (f.residue root)) * polynomial f (deflate f c root).1 +
      C (f.residue (deflate f c root).2) := by
  obtain ⟨c, a, rfl⟩ := (List.eq_nil_or_concat c).resolve_left hc
  rw [List.concat_eq_append, polynomial_append_eq hf root, deflate, partials_append]
  simp only [List.dropLast_concat, List.getLastD_concat]

theorem reduced_deflate {c : Monic} (hc : c ≠ []) (root : UInt32) :
    f.Reduced (deflate f c root).2 := by
  obtain ⟨c, a, rfl⟩ := (List.eq_nil_or_concat c).resolve_left hc
  rw [List.concat_eq_append, deflate, partials_append]
  simp only [List.getLastD_concat]
  exact Field.reduced_add hf _ _

end Division

/-! ## Multiplicities -/

theorem monic_polynomial (hp : f.modulus.toNat.Prime) (c : Monic) : (polynomial f c).Monic := by
  have : Fact f.modulus.toNat.Prime := ⟨hp⟩
  induction c using List.reverseRecOn with
  | nil => exact monic_one
  | append_singleton c a ih =>
    rw [polynomial_append]
    -- the constant added is of lower degree
    refine (ih.mul monic_X).add_of_left (degree_C_le.trans_lt ?_)
    rw [degree_mul_X, degree_eq_natDegree ih.ne_zero]
    exact_mod_cast Nat.succ_pos _

/-- **Repeated division counts the multiplicity** of a root. -/
theorem multiplicity_eq (hp : f.modulus.toNat.Prime) (c : Monic) (root : UInt32) :
    c.multiplicity f root = (polynomial f c).rootMultiplicity (f.residue root) := by
  have hf := Field.modulus_ne_zero_of_prime hp
  have : Fact f.modulus.toNat.Prime := ⟨hp⟩
  fun_induction multiplicity f c root with
  | case1 =>
    -- the constant polynomial has no root
    rw [polynomial, List.map_nil, hornerPolynomial, List.foldl_nil, ← C_1, rootMultiplicity_C]
  | case2 c hc d hd ih =>
    -- without remainder the quotient has the root once less
    have hdiv : polynomial f c = polynomial f d.1 * (X - C (f.residue root)) ^ 1 := by
      rw [polynomial_deflate hf hc root, show (deflate f c root).2 = 0 from hd, Field.residue_zero,
        C_0, add_zero, pow_one, mul_comm]
    rw [ih, hdiv, rootMultiplicity_mul_X_sub_C_pow (monic_polynomial hp d.1).ne_zero]
  | case3 c hc d hd =>
    -- with one, which is the value there, it is not a root
    have hremainder : f.residue d.2 ≠ 0 := by
      rw [← Field.residue_zero, Ne, Field.residue_inj (reduced_deflate hf hc root)
        (Field.reduced_zero hf)]
      exact hd
    refine (rootMultiplicity_eq_zero fun hroot => hremainder ?_).symm
    rw [IsRoot, polynomial_deflate hf hc root] at hroot
    simpa using hroot

/-! ## Recovered coefficients -/

/-- The coefficients recovered from power sums are those of the polynomial whose roots these are. -/
theorem polynomial_coefficientsOf (hp : f.modulus.toNat.Prime) {sums : List UInt32}
    {xs : Multiset (ZMod f.modulus.toNat)} (h : f.SumsPowers sums xs)
    (hle : Multiset.card xs ≤ sums.length) (hlt : Multiset.card xs < f.modulus.toNat) :
    polynomial f (f.coefficientsOf sums (Multiset.card xs)) = (xs.map fun x => X - C x).prod := by
  rw [polynomial, Field.map_residue_coefficientsOf hp h hle hlt, hornerPolynomial_coefficients]

end Monic

/-- **A root of the recovered polynomial counts as often as it was added up.** -/
theorem Field.SumsPowers.multiplicity_eq {f : Field} (hp : f.modulus.toNat.Prime)
    {sums : List UInt32} {xs : Multiset (ZMod f.modulus.toNat)} (h : f.SumsPowers sums xs)
    (hle : Multiset.card xs ≤ sums.length) (hlt : Multiset.card xs < f.modulus.toNat)
    (root : UInt32) :
    Monic.multiplicity f (f.coefficientsOf sums (Multiset.card xs)) root =
      xs.count (f.residue root) := by
  have : Fact f.modulus.toNat.Prime := ⟨hp⟩
  rw [Monic.multiplicity_eq hp, Monic.polynomial_coefficientsOf hp h hle hlt, ← count_roots,
    roots_multiset_prod_X_sub_C]

end LossSketch
