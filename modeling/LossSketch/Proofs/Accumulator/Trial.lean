import LossSketch.Proofs.Accumulator.Forged
import LossSketch.Proofs.Field.Roots

/-!
# Decoding power sums without a log

* `PowerSums.AreOf` — power sums are those of a multiset of classes, and say how many these are.
  `PowerSums.AreOf.unique` — of one multiset only, as long as it is not larger than the degree.
* `PowerSums.AreOf.elements_eq` — from the power sums of a multiset, its reduced words are decoded.
* `PowerSums.elements_exact` — nothing else is ever decoded, from any power sums at all.
-/

namespace LossSketch

/-- The reduced words of the classes of a multiset, ascending, each as often as its class occurs. -/
structure Field.Lists (f : Field) (words : List UInt32) (xs : Multiset (ZMod f.modulus.toNat)) :
    Prop where
  ascending : words.Pairwise (· ≤ ·)
  reduced : ∀ word ∈ words, f.Reduced word
  residues_eq : f.residues words = xs

namespace PowerSums

variable {a : PowerSums}

/-- The power sums are those of a multiset of classes, which are as many as they say. -/
structure AreOf (a : PowerSums) (xs : Multiset (ZMod a.session.field.modulus.toNat)) : Prop where
  card_eq : (Multiset.card xs : Int) = a.count
  sumsPowers : a.session.field.SumsPowers a.sums xs

theorem elements_eq (a : PowerSums) : a.elements = do
    let n ← a.size
    let keys := (a.polynomial n).expanded a.session.field
    if keys.length ≠ n then throw (.cardinalityMismatch n keys.length)
    a.checkReproduced keys
    return keys := rfl

/-- Fingerprints that are reproduced are a multiset with these power sums. -/
theorem Reproduces.areOf (hf : a.session.field.modulus ≠ 0) {keys : List UInt32}
    (h : a.Reproduces keys) : a.AreOf (a.session.field.residues keys) where
  card_eq := by rw [Field.card_residues, h.length_eq]
  sumsPowers := h.powerSums_eq ▸ Field.sumsPowers_powerSums hf a.session.degree.toNat keys

section

variable (hs : a.session.Usable) (hlength : a.sums.length = a.session.degree.toNat)
  {xs : Multiset (ZMod a.session.field.modulus.toNat)} (h : a.AreOf xs)
  (hle : a.count ≤ a.session.degree.toNat)
include hs hlength h hle

/-- The polynomial that the power sums determine has the elements for its roots. -/
theorem AreOf.polynomial_eq : (a.polynomial (Multiset.card xs)).polynomial a.session.field =
    (xs.map fun x => .X - .C x).prod := by
  have hcard := h.card_eq
  have hdegree : a.session.degree.toNat < a.session.field.modulus.toNat := hs.degree_lt
  exact Monic.polynomial_coefficientsOf hs.prime h.sumsPowers (by omega) (by omega)

/-- Trial of all residues finds the elements. -/
theorem AreOf.residues_expanded :
    a.session.field.residues ((a.polynomial (Multiset.card xs)).expanded a.session.field) = xs := by
  have : Fact a.session.field.modulus.toNat.Prime := ⟨hs.prime⟩
  refine (Monic.residues_expanded _).trans ?_
  rw [h.polynomial_eq hs hlength hle, Polynomial.roots_multiset_prod_X_sub_C]

/-- **Power sums determine the multiset**, as long as it is not larger than the degree. -/
theorem AreOf.unique {ys : Multiset (ZMod a.session.field.modulus.toNat)} (h' : a.AreOf ys) :
    xs = ys := by
  have hcard : Multiset.card xs = Multiset.card ys := by
    exact_mod_cast h.card_eq.trans h'.card_eq.symm
  rw [← h.residues_expanded hs hlength hle, hcard, h'.residues_expanded hs hlength hle]

variable (hreduced : ∀ sum ∈ a.sums, a.session.field.Reduced sum)
include hreduced

/-- From the power sums of a multiset its elements are decoded. -/
theorem AreOf.elements_eq :
    a.elements = .ok ((a.polynomial (Multiset.card xs)).expanded a.session.field) := by
  have hcard := h.card_eq
  have hsize : a.size = .ok (Multiset.card xs) := size_eq_ok_iff.2 ⟨hcard, by omega⟩
  have hxs := h.residues_expanded hs hlength hle
  -- as many are found as there are
  have hfound := congrArg Multiset.card hxs
  rw [Field.card_residues] at hfound
  -- and they have the power sums, because both lists of sums are reduced
  have hsums : a.session.field.SumsPowers (a.session.field.powerSums a.session.degree.toNat
      ((a.polynomial (Multiset.card xs)).expanded a.session.field))
      (a.session.field.residues ((a.polynomial (Multiset.card xs)).expanded a.session.field)) :=
    Field.sumsPowers_powerSums hs.modulus_ne_zero _ _
  rw [hxs] at hsums
  have heq := hsums.unique h.sumsPowers (by rw [Field.length_powerSums, hlength])
    (fun _ => Field.reduced_of_mem_powerSums hs.modulus_ne_zero) hreduced
  rw [PowerSums.elements_eq, hsize, ok_bind, if_neg (not_not.2 hfound), checkReproduced, if_pos heq]
  rfl

end

/-- What is decoded lists the elements in ascending order. -/
theorem lists_of_elements (hs : a.session.Usable) {keys : List UInt32}
    (h : a.elements = .ok keys) : a.session.field.Lists keys (a.session.field.residues keys) := by
  rw [elements_eq, bind_eq_ok] at h
  obtain ⟨n, -, h⟩ := h
  dsimp only at h
  split at h
  · cases h
  · obtain ⟨⟨⟩, -, h⟩ := bind_eq_ok.1 h
    cases h
    exact ⟨Monic.pairwise_expanded hs.prime _, fun _ => Monic.reduced_of_mem_expanded hs.prime, rfl⟩

/-- **Decoding without a log is exact.** For a checked session and as many reduced sums as its
degree, whatever their number of elements, elements are decoded exactly if that number lies between
zero and the degree and so many classes have these power sums. There is then one such multiset, and
what is decoded lists it in ascending order, each element as often as it occurs. -/
theorem elements_exact (hs : a.session.check = .ok ())
    (hlength : a.sums.length = a.session.degree.toNat)
    (hreduced : ∀ sum ∈ a.sums, a.session.field.Reduced sum) :
    ((∃ keys, a.elements = .ok keys) ↔
      0 ≤ a.count ∧ a.count ≤ a.session.degree.toNat ∧ ∃ xs, a.AreOf xs) ∧
    (a.count ≤ a.session.degree.toNat → ∀ xs ys, a.AreOf xs → a.AreOf ys → xs = ys) ∧
    ∀ keys xs, a.elements = .ok keys → a.AreOf xs → a.session.field.Lists keys xs := by
  have hu := Session.check_eq_ok_iff.1 hs
  -- what is decoded has the power sums, and a number of elements that can be decoded
  have hdecoded : ∀ keys, a.elements = .ok keys → 0 ≤ a.count ∧
      a.count ≤ a.session.degree.toNat ∧ a.AreOf (a.session.field.residues keys) := by
    intro keys hkeys
    obtain ⟨n, hn, -⟩ := bind_eq_ok.1 hkeys
    obtain ⟨hcount, hle⟩ := size_eq_ok_iff.1 hn
    exact ⟨by omega, by omega, (reproduces_elements hkeys).areOf hu.modulus_ne_zero⟩
  refine ⟨⟨?_, ?_⟩, fun hle xs ys h h' => h.unique hu hlength hle h', fun keys xs hkeys h => ?_⟩
  · rintro ⟨keys, hkeys⟩
    obtain ⟨hnonneg, hle, hof⟩ := hdecoded keys hkeys
    exact ⟨hnonneg, hle, _, hof⟩
  · rintro ⟨-, hle, xs, h⟩
    exact ⟨_, h.elements_eq hu hlength hle hreduced⟩
  · -- the multiset decoded is the only one
    obtain ⟨-, hle, hof⟩ := hdecoded keys hkeys
    exact h.unique hu hlength hle hof ▸ lists_of_elements hu hkeys

/-- Two elements, whose first and second powers sum up to eight and to six modulo thirteen. -/
def twoFours : PowerSums := ⟨Session.small, 0, [8, 6], 2⟩

theorem elements_exact_twoFours : twoFours.session.check = .ok () ∧
    twoFours.elements = .ok [4, 4] ∧
    ∃ xs, twoFours.AreOf xs ∧ twoFours.session.field.Lists [4, 4] xs ∧
      ∀ ys, twoFours.AreOf ys → ys = xs := by
  have helements : twoFours.elements = .ok [4, 4] := by cbv
  have hreduced : ∀ sum ∈ twoFours.sums, twoFours.session.field.Reduced sum :=
    List.forall_iff_forall_mem.1 (by decide)
  obtain ⟨hdecodes, hunique, hlists⟩ := elements_exact Session.check_small rfl hreduced
  obtain ⟨-, hle, xs, hxs⟩ := hdecodes.1 ⟨_, helements⟩
  exact ⟨Session.check_small, helements, xs, hxs, hlists _ xs helements hxs,
    fun ys hys => hunique hle ys xs hys hxs⟩

end PowerSums

end LossSketch
