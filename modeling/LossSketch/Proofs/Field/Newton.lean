import Mathlib.RingTheory.MvPolynomial.Symmetric.NewtonIdentities
import Mathlib.RingTheory.Polynomial.Vieta
import LossSketch.Field.Newton
import LossSketch.Proofs.Field.Residue

/-!
# Power sums determine the coefficients

* `powerSum` and `coefficient` are the power sums of a multiset over a ring, and the coefficients of
  the monic polynomial with these roots. `mul_coefficient` is Newton's identity between them, and
  by `coefficient_congr` the power sums determine the coefficients.
* `Field.SumsPowers` — words are the first power sums of a multiset of classes. Inserting an element
  and subtracting the sums of others keep it, and reduced words are determined by it.
* `Field.map_residue_coefficientsOf` — from power sums, as long as their number is below the prime
  modulus, the coefficients are recovered.
-/

namespace LossSketch

/-! ## Newton's identities -/

section Newton

variable {K : Type} [CommRing K]

/-- The sum of a power over a multiset. -/
def powerSum (xs : Multiset K) (k : ℕ) : K := (xs.map (· ^ k)).sum

/-- The coefficient of the monic polynomial with these roots, `k` places below the leading one. -/
def coefficient (xs : Multiset K) (k : ℕ) : K := (-1) ^ k * xs.esymm k

@[simp] theorem powerSum_zero (k : ℕ) : powerSum (0 : Multiset K) k = 0 := rfl

@[simp] theorem powerSum_cons (x : K) (xs : Multiset K) (k : ℕ) :
    powerSum (x ::ₘ xs) k = x ^ k + powerSum xs k := by
  rw [powerSum, Multiset.map_cons, Multiset.sum_cons, powerSum]

@[simp] theorem powerSum_add (xs ys : Multiset K) (k : ℕ) :
    powerSum (xs + ys) k = powerSum xs k + powerSum ys k := by
  rw [powerSum, Multiset.map_add, Multiset.sum_add, powerSum, powerSum]

@[simp] theorem coefficient_zero (xs : Multiset K) : coefficient xs 0 = 1 := by
  simp [coefficient, Multiset.esymm]

/-- There are no more coefficients than roots, the leading one apart. -/
theorem coefficient_eq_zero {xs : Multiset K} {k : ℕ} (hk : Multiset.card xs < k) :
    coefficient xs k = 0 := by
  rw [coefficient, Multiset.esymm, Multiset.powersetCard_eq_empty k hk, Multiset.map_zero,
    Multiset.sum_zero, mul_zero]

/-- **Newton's identities**, for the roots and the coefficients of a monic polynomial. -/
theorem mul_coefficient (xs : Multiset K) (k : ℕ) :
    k * coefficient xs k =
      -∑ j ∈ Finset.range k, coefficient xs j * powerSum xs (k - j) := by
  -- the identity between polynomials is evaluated at the elements of a list
  obtain ⟨l, rfl⟩ : ∃ l : List K, (l : Multiset K) = xs := Quot.exists_rep xs
  have hval : (Finset.univ : Finset (Fin l.length)).val.map l.get = l := by
    rw [Fin.univ_val_map, List.ofFn_get]
  have hesymm : ∀ j, MvPolynomial.aeval l.get (MvPolynomial.esymm (Fin l.length) K j) =
      (l : Multiset K).esymm j := by
    intro j
    rw [MvPolynomial.aeval_esymm_eq_multiset_esymm, hval]
  have hpsum : ∀ j, MvPolynomial.aeval l.get (MvPolynomial.psum (Fin l.length) K j) =
      powerSum (l : Multiset K) j := by
    intro j
    rw [powerSum, MvPolynomial.psum, map_sum]
    simp only [map_pow, MvPolynomial.aeval_X]
    conv_rhs => rw [← hval, Multiset.map_map]
    rfl
  have hnewton := congrArg (MvPolynomial.aeval l.get)
    (MvPolynomial.mul_esymm_eq_sum (Fin l.length) K k)
  simp only [map_mul, map_sum, map_pow, map_neg, map_one, map_natCast, hesymm, hpsum] at hnewton
  -- the pairs of the identity are one sum over the first index
  have hrange : ∑ a ∈ Finset.HasAntidiagonal.antidiagonal k with a.1 < k,
      (-1) ^ a.1 * (l : Multiset K).esymm a.1 * powerSum (l : Multiset K) a.2 =
        ∑ j ∈ Finset.range k,
          coefficient (l : Multiset K) j * powerSum (l : Multiset K) (k - j) := by
    rw [Finset.sum_filter, Finset.Nat.sum_antidiagonal_eq_sum_range_succ_mk, Finset.sum_range_succ,
      if_neg (lt_irrefl k), add_zero]
    refine Finset.sum_congr rfl fun j hj => ?_
    rw [if_pos (Finset.mem_range.1 hj)]
    rfl
  rw [hrange] at hnewton
  rw [coefficient, mul_left_comm, hnewton, pow_succ, ← mul_assoc, ← mul_assoc, ← pow_add,
    Even.neg_one_pow ⟨k, rfl⟩]
  ring

/-- The identity that one coefficient follows from, with the latest of the earlier coefficients
first. -/
theorem mul_coefficient_succ (xs : Multiset K) (n : ℕ) :
    ((n + 1 : ℕ) : K) * coefficient xs (n + 1) =
      -(powerSum xs (n + 1) +
        ∑ j ∈ Finset.range n, powerSum xs (j + 1) * coefficient xs (n - j)) := by
  rw [mul_coefficient, Finset.sum_range_succ', coefficient_zero, one_mul, Nat.sub_zero,
    add_comm (powerSum xs (n + 1)), ← Finset.sum_range_reflect]
  congr 2
  refine Finset.sum_congr rfl fun j hj => ?_
  have hlt := Finset.mem_range.1 hj
  rw [show n - 1 - j + 1 = n - j by omega, show n + 1 - (n - j) = j + 1 by omega, mul_comm]

/-- Multisets with the same first power sums have the same first coefficients, if none of the
numbers that Newton's identities divide by is zero. -/
theorem coefficient_congr [IsDomain K] {xs ys : Multiset K} {n : ℕ}
    (hne : ∀ k < n, ((k + 1 : ℕ) : K) ≠ 0)
    (hsums : ∀ k < n, powerSum xs (k + 1) = powerSum ys (k + 1)) {k : ℕ} (hk : k ≤ n) :
    coefficient xs k = coefficient ys k := by
  induction k using Nat.strong_induction_on with
  | _ k ih =>
    rcases Nat.eq_zero_or_eq_succ_pred k with hzero | hsucc
    · rw [hzero, coefficient_zero, coefficient_zero]
    · -- the identity expresses a coefficient by earlier ones and the power sums
      have hcancel : (k : K) ≠ 0 := by
        rw [hsucc]
        exact hne k.pred (by omega)
      apply mul_left_cancel₀ hcancel
      rw [mul_coefficient, mul_coefficient]
      refine congrArg Neg.neg (Finset.sum_congr rfl fun j hj => ?_)
      have hlt := Finset.mem_range.1 hj
      have hpower := hsums (k - j - 1) (by omega)
      rw [show k - j - 1 + 1 = k - j by omega] at hpower
      rw [ih j hlt (by omega), hpower]

end Newton

namespace Field

variable {f : Field}

/-! ## Power sums -/

/-- The words are the first power sums of a multiset of classes. -/
def SumsPowers (f : Field) (sums : List UInt32) (xs : Multiset (ZMod f.modulus.toNat)) : Prop :=
  ∀ (i : ℕ) (s : UInt32), sums[i]? = some s → f.residue s = powerSum xs (i + 1)

section Sums

variable (hf : f.modulus ≠ 0)
include hf

theorem map_residue_addPowers (x y : UInt32) (sums : List UInt32) (i : ℕ) :
    (f.addPowers x y sums)[i]?.map f.residue =
      sums[i]?.map fun s => f.residue s + f.residue y * f.residue x ^ i := by
  induction sums generalizing y i with
  | nil => rfl
  | cons s sums ih =>
    unfold addPowers
    cases i with
    | zero => simp [residue_add hf]
    | succ i =>
      rw [List.getElem?_cons_succ, List.getElem?_cons_succ, ih, residue_mul hf]
      congr 1
      funext s
      ring

theorem SumsPowers.insertPowers {sums : List UInt32} {xs : Multiset (ZMod f.modulus.toNat)}
    (h : f.SumsPowers sums xs) (key : UInt32) :
    f.SumsPowers (f.insertPowers sums key) (f.residue key ::ₘ xs) := by
  intro i s hs
  have hmap := map_residue_addPowers hf (f.reduce key.toUInt64) (f.reduce key.toUInt64) sums i
  rw [← Field.insertPowers, hs, residue_reduce_word hf] at hmap
  obtain ⟨old, hold, hsum⟩ := Option.map_eq_some_iff.1 hmap.symm
  rw [← hsum, h i old hold, powerSum_cons]
  ring

theorem sumsPowers_powerSums (degree : ℕ) (keys : List UInt32) :
    f.SumsPowers (f.powerSums degree keys) (keys.map f.residue : List _) := by
  have hfold : ∀ (keys : List UInt32) (sums : List UInt32)
      (xs : Multiset (ZMod f.modulus.toNat)), f.SumsPowers sums xs →
      f.SumsPowers (keys.foldl f.insertPowers sums) ((keys.map f.residue : List _) + xs) := by
    intro keys
    induction keys with
    | nil =>
      intro sums xs h
      rwa [List.map_nil, Multiset.coe_nil, zero_add]
    | cons key keys ih =>
      intro sums xs h
      -- the first key is inserted, and then the others
      have hrest := ih _ _ (h.insertPowers hf key)
      rwa [Multiset.add_cons, ← Multiset.cons_add, Multiset.cons_coe] at hrest
  -- no element has sums of zero
  have hzero : f.SumsPowers (List.replicate degree 0) 0 := by
    intro i s hs
    rw [List.getElem?_replicate] at hs
    split at hs
    · obtain rfl := Option.some.inj hs
      rw [residue_zero, powerSum_zero]
    · cases hs
  have hsums := hfold keys _ 0 hzero
  rwa [add_zero] at hsums

/-- Differences of power sums, whether or not one multiset is part of the other. -/
theorem SumsPowers.residue_zipWith_sub {sums others : List UInt32}
    {xs ys : Multiset (ZMod f.modulus.toNat)} (h : f.SumsPowers sums xs)
    (h' : f.SumsPowers others ys) {i : ℕ} {s : UInt32}
    (hs : (sums.zipWith f.sub others)[i]? = some s) :
    f.residue s = powerSum xs (i + 1) - powerSum ys (i + 1) := by
  obtain ⟨a, b, ha, hb, rfl⟩ := List.getElem?_zipWith_eq_some.1 hs
  rw [residue_sub hf, h i a ha, h' i b hb]

theorem SumsPowers.sub {sums others : List UInt32} {xs ys : Multiset (ZMod f.modulus.toNat)}
    (h : f.SumsPowers sums (ys + xs)) (h' : f.SumsPowers others ys) :
    f.SumsPowers (sums.zipWith f.sub others) xs := by
  intro i s hs
  rw [h.residue_zipWith_sub hf h' hs, powerSum_add, add_sub_cancel_left]

theorem reduced_of_mem_addPowers {x y : UInt32} {sums : List UInt32} {s : UInt32}
    (hs : s ∈ f.addPowers x y sums) : f.Reduced s := by
  induction sums generalizing y with
  | nil => cases hs
  | cons old sums ih =>
    rcases List.mem_cons.1 hs with rfl | hmem
    · exact reduced_add hf _ _
    · exact ih hmem

theorem reduced_of_mem_powerSums {degree : ℕ} {keys : List UInt32} {s : UInt32}
    (hs : s ∈ f.powerSums degree keys) : f.Reduced s := by
  rcases List.eq_nil_or_concat keys with rfl | ⟨keys, key, rfl⟩
  · rw [(List.mem_replicate.1 hs).2]
    exact reduced_zero hf
  · rw [powerSums, List.concat_eq_append, List.foldl_append] at hs
    exact reduced_of_mem_addPowers hf hs

end Sums

theorem length_addPowers (x y : UInt32) (sums : List UInt32) :
    (f.addPowers x y sums).length = sums.length := by
  induction sums generalizing y with
  | nil => rfl
  | cons s sums ih => rw [addPowers, List.length_cons, ih, List.length_cons]

@[simp] theorem length_powerSums (degree : ℕ) (keys : List UInt32) :
    (f.powerSums degree keys).length = degree := by
  have hfold : ∀ (keys : List UInt32) (sums : List UInt32),
      (keys.foldl f.insertPowers sums).length = sums.length := by
    intro keys
    induction keys with
    | nil => exact fun _ => rfl
    | cons key keys ih => exact fun sums => (ih _).trans (length_addPowers _ _ _)
  rw [powerSums, hfold, List.length_replicate]

/-- Reduced words are determined by the multiset whose power sums they are. -/
theorem SumsPowers.unique {sums others : List UInt32} {xs : Multiset (ZMod f.modulus.toNat)}
    (h : f.SumsPowers sums xs) (h' : f.SumsPowers others xs) (hlength : sums.length = others.length)
    (hreduced : ∀ s ∈ sums, f.Reduced s) (hreduced' : ∀ s ∈ others, f.Reduced s) :
    sums = others := by
  refine List.ext_getElem hlength fun i hi hi' => ?_
  rw [← residue_inj (hreduced _ (List.getElem_mem hi)) (hreduced' _ (List.getElem_mem hi')),
    h i _ (List.getElem?_eq_getElem hi), h' i _ (List.getElem?_eq_getElem hi')]

/-! ## Coefficients -/

/-- A running sum of products, read in the field. -/
theorem residue_addProducts (hf : f.modulus ≠ 0) {P C : ℕ → ZMod f.modulus.toNat} (acc : UInt32)
    (ps cs : List UInt32) (hps : ∀ i p, ps[i]? = some p → f.residue p = P i)
    (hcs : ∀ i c, cs[i]? = some c → f.residue c = C i) (hle : cs.length ≤ ps.length) :
    f.residue (f.addProducts acc ps cs) =
      f.residue acc + ∑ j ∈ Finset.range cs.length, P j * C j := by
  induction cs generalizing ps acc P C with
  | nil => cases ps <;> simp [addProducts]
  | cons c cs ih =>
    cases ps with
    | nil => exact absurd hle (by simp)
    | cons p ps =>
      -- the first product goes into the running sum
      have hrest := ih (f.add acc (f.mul p c)) ps (fun i q hq => hps (i + 1) q hq)
        (fun i d hd => hcs (i + 1) d hd) (Nat.le_of_succ_le_succ hle)
      rw [addProducts, hrest, List.length_cons, Finset.sum_range_succ', residue_add hf,
        residue_mul hf, hps 0 p rfl, hcs 0 c rfl]
      ring

/-- The inverse of a number below a prime modulus. -/
theorem mul_residue_inverse (hp : f.modulus.toNat.Prime) {n : ℕ} (hpos : 0 < n)
    (hlt : n < f.modulus.toNat) : (n : ZMod f.modulus.toNat) * f.residue (f.inverse n) = 1 := by
  have hword := f.modulus.toNat_lt
  have hresidue : f.residue (f.reduce (UInt64.ofNat n)) = (n : ZMod f.modulus.toNat) := by
    rw [residue_reduce (modulus_ne_zero_of_prime hp), UInt64.toNat_ofNat_of_lt' (by
      show n < 2 ^ 64
      omega)]
  have hne : f.residue (f.reduce (UInt64.ofNat n)) ≠ 0 := by
    rw [hresidue, Ne, ZMod.natCast_eq_zero_iff]
    exact Nat.not_dvd_of_pos_of_lt hpos hlt
  obtain ⟨b, hb, -, hmul⟩ := exists_inv? hp hne
  rw [inverse, hb, Option.getD_some, ← hresidue, hmul]

theorem coefficientsOf_succ {sums : List UInt32} {n : ℕ} (hn : n < sums.length) :
    f.coefficientsOf sums (n + 1) = f.coefficientsOf sums n ++
      [f.nextCoefficient sums (f.coefficientsOf sums n).reverse sums[n] n] := by
  have hlength : (sums.take n).length = n := by
    rw [List.length_take]
    omega
  rw [coefficientsOf, coefficientsOf, List.take_succ_eq_append_getElem hn, List.zipIdx_append,
    List.foldl_append, hlength, List.reverse_reverse, zero_add]
  exact List.reverse_cons

@[simp] theorem length_coefficientsOf {sums : List UInt32} {n : ℕ} (hn : n ≤ sums.length) :
    (f.coefficientsOf sums n).length = n := by
  induction n with
  | zero => rfl
  | succ n ih =>
    rw [coefficientsOf_succ hn, List.length_append, ih (by omega), List.length_singleton]

theorem reduced_of_mem_coefficientsOf (hf : f.modulus ≠ 0) {sums : List UInt32} {n : ℕ}
    (hn : n ≤ sums.length) {c : UInt32} (hc : c ∈ f.coefficientsOf sums n) : f.Reduced c := by
  induction n with
  | zero => cases hc
  | succ n ih =>
    rw [coefficientsOf_succ hn, List.mem_append, List.mem_singleton] at hc
    rcases hc with hearlier | rfl
    · exact ih (by omega) hearlier
    · exact reduced_mul hf _ _

/-- **The coefficients are recovered** from the first power sums, as long as their number is below
the prime modulus. -/
theorem map_residue_coefficientsOf (hp : f.modulus.toNat.Prime) {sums : List UInt32}
    {xs : Multiset (ZMod f.modulus.toNat)} (h : f.SumsPowers sums xs) {n : ℕ}
    (hn : n ≤ sums.length) (hlt : n < f.modulus.toNat) :
    (f.coefficientsOf sums n).map f.residue =
      (List.range n).map fun i => coefficient xs (i + 1) := by
  have hf := modulus_ne_zero_of_prime hp
  induction n with
  | zero => rfl
  | succ n ih =>
    have hearlier := ih (by omega) (by omega)
    have hlength := length_coefficientsOf (f := f) (show n ≤ sums.length by omega)
    -- the earlier coefficients come latest first
    have hcs : ∀ i c, (f.coefficientsOf sums n).reverse[i]? = some c →
        f.residue c = coefficient xs (n - i) := by
      intro i c hc
      have hi : i < n := by
        have := (List.getElem?_eq_some_iff.1 hc).1
        rwa [List.length_reverse, hlength] at this
      rw [List.getElem?_reverse (by rwa [hlength]), hlength] at hc
      have hmap := congrArg (·[n - 1 - i]?) hearlier
      rw [List.getElem?_map, hc, List.getElem?_map, List.getElem?_range (by omega)] at hmap
      refine (Option.some.inj hmap).trans ?_
      show coefficient xs (n - 1 - i + 1) = _
      rw [show n - 1 - i + 1 = n - i by omega]
    -- Newton's identity, solved for the next coefficient
    have hnext : f.residue (f.nextCoefficient sums (f.coefficientsOf sums n).reverse sums[n] n) =
        coefficient xs (n + 1) := by
      have hproducts := residue_addProducts hf sums[n] sums (f.coefficientsOf sums n).reverse h hcs
        (by rw [List.length_reverse, hlength]; omega)
      rw [List.length_reverse, hlength, h n _ (List.getElem?_eq_getElem hn)] at hproducts
      rw [nextCoefficient, residue_mul hf, residue_neg hf, hproducts, ← mul_coefficient_succ,
        mul_right_comm, mul_residue_inverse hp (Nat.succ_pos n) hlt, one_mul]
    rw [coefficientsOf_succ hn, List.map_append, hearlier, List.range_succ, List.map_append,
      List.map_singleton, List.map_singleton, hnext]

end Field

end LossSketch
