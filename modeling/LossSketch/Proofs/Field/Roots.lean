import LossSketch.Proofs.Field.Monic

/-!
# Roots found by trial

* `Field.words` lists the reduced words in ascending order.
* `Monic.eval_eq_zero_iff` — Horner's rule comes to zero at the roots of the polynomial.
* `Monic.roots_eq` — the scan for roots finds every reduced word at which the polynomial is zero. It
  stops once it has as many as the degree, but then there are no more.
* `Monic.roots_complete` says so of the whole scan: stopping early loses no root.
* `Monic.expanded` repeats each root as often as it divides the polynomial, and by
  `Monic.residues_expanded` these are all roots of the polynomial, with their multiplicities.
-/

namespace LossSketch

open Polynomial

/-! ## Reduced words -/

namespace Field

variable {f : Field}

/-- The reduced words, ascending. -/
def words (f : Field) : List UInt32 := (List.range f.modulus.toNat).map UInt32.ofNat

/-- Below the modulus a number is a word. -/
theorem toNat_ofNat_of_lt {n : Nat} (hn : n < f.modulus.toNat) : (UInt32.ofNat n).toNat = n :=
  UInt32.toNat_ofNat_of_lt' (hn.trans f.modulus.toNat_lt)

theorem mem_words {x : UInt32} : x ∈ f.words ↔ f.Reduced x := by
  rw [words, List.mem_map]
  constructor
  · rintro ⟨n, hn, rfl⟩
    rw [List.mem_range] at hn
    show (UInt32.ofNat n).toNat < f.modulus.toNat
    rwa [toNat_ofNat_of_lt hn]
  · intro hx
    exact ⟨x.toNat, List.mem_range.2 hx, UInt32.ofNat_toNat⟩

theorem pairwise_words (f : Field) : f.words.Pairwise (· < ·) := by
  rw [words, List.pairwise_map]
  refine List.pairwise_lt_range.imp_of_mem fun {a b} ha hb hab => ?_
  rw [UInt32.lt_iff_toNat_lt, toNat_ofNat_of_lt (List.mem_range.1 ha),
    toNat_ofNat_of_lt (List.mem_range.1 hb)]
  exact hab

theorem nodup_words (f : Field) : f.words.Nodup := f.pairwise_words.imp UInt32.ne_of_lt

/-- Every class is that of a reduced word. -/
theorem exists_reduced (hf : f.modulus ≠ 0) (z : ZMod f.modulus.toNat) :
    ∃ x, f.Reduced x ∧ f.residue x = z := by
  have : NeZero f.modulus.toNat := ⟨(modulus_toNat_pos hf).ne'⟩
  refine ⟨UInt32.ofNat z.val, ?_, ?_⟩
  · show (UInt32.ofNat z.val).toNat < _
    rw [toNat_ofNat_of_lt z.val_lt]
    exact z.val_lt
  · rw [residue, toNat_ofNat_of_lt z.val_lt, ZMod.natCast_zmod_val]

end Field

namespace Monic

variable {f : Field}

/-! ## Values -/

theorem eval_append (c : Monic) (a x : UInt32) :
    eval f (c ++ [a]) x = f.add (f.mul (c.eval f x) (f.reduce x.toUInt64)) a := by
  rw [eval, List.foldl_append, List.foldl_cons, List.foldl_nil, eval]

section Values

variable (hf : f.modulus ≠ 0)
include hf

/-- Horner's rule computes the value of the polynomial. -/
theorem residue_eval (c : Monic) (x : UInt32) :
    f.residue (c.eval f x) = (polynomial f c).eval (f.residue x) := by
  -- on the last coefficient, which Horner's rule adds last
  induction c using List.reverseRecOn with
  | nil =>
    rw [eval, List.foldl_nil, Field.residue_reduce_one hf, polynomial, List.map_nil,
      hornerPolynomial, List.foldl_nil, Polynomial.eval_one]
  | append_singleton c a ih =>
    rw [eval_append, Field.residue_add hf, Field.residue_mul hf, Field.residue_reduce_word hf, ih,
      polynomial_append, eval_add, eval_mul, eval_X, eval_C]

theorem reduced_eval (c : Monic) (x : UInt32) : f.Reduced (c.eval f x) := by
  rcases List.eq_nil_or_concat c with rfl | ⟨c, a, rfl⟩
  · exact Field.reduced_reduce hf _
  · rw [List.concat_eq_append, eval_append]
    exact Field.reduced_add hf _ _

theorem eval_eq_zero_iff (c : Monic) (x : UInt32) :
    c.eval f x = 0 ↔ (polynomial f c).IsRoot (f.residue x) := by
  rw [← Field.residue_inj (reduced_eval hf c x) (Field.reduced_zero hf), residue_eval hf,
    Field.residue_zero, IsRoot.def]

end Values

theorem natDegree_polynomial (hp : f.modulus.toNat.Prime) (c : Monic) :
    (polynomial f c).natDegree = c.length := by
  have : Fact f.modulus.toNat.Prime := ⟨hp⟩
  induction c using List.reverseRecOn with
  | nil => exact natDegree_one
  | append_singleton c a ih =>
    rw [polynomial_append, natDegree_add_C, natDegree_mul_X (monic_polynomial hp c).ne_zero, ih,
      List.length_append, List.length_singleton]

/-! ## The scan -/

/-- The scan keeps the first words at which the polynomial is zero, as many as wanted. -/
theorem rootsFrom_eq (c : Monic) (left start wanted : Nat) (hle : start + left ≤ 2 ^ 32) :
    rootsFrom f c left (UInt32.ofNat start) wanted =
      (((List.range' start left).map UInt32.ofNat).filter fun x => c.eval f x = 0).take wanted := by
  induction left generalizing start wanted with
  | zero => exact List.take_nil.symm
  | succ left ih =>
    cases wanted with
    | zero => rfl
    | succ wanted =>
      -- a word goes up by one as its number does
      have hnext : UInt32.ofNat start + 1 = UInt32.ofNat (start + 1) := by
        rw [UInt32.ofNat_add]
        rfl
      rw [rootsFrom, hnext, ih _ _ (by omega), ih _ _ (by omega), List.range'_succ, List.map_cons]
      by_cases hzero : c.eval f (UInt32.ofNat start) = 0
      · rw [if_pos hzero, List.filter_cons_of_pos (by simpa using hzero), List.take_succ_cons]
      · rw [if_neg hzero, List.filter_cons_of_neg (by simpa using hzero)]

/-- No more reduced words than the degree are roots. -/
theorem length_filter_words_le (hp : f.modulus.toNat.Prime) (c : Monic) :
    (f.words.filter fun x => c.eval f x = 0).length ≤ c.length := by
  have hf := Field.modulus_ne_zero_of_prime hp
  have : Fact f.modulus.toNat.Prime := ⟨hp⟩
  -- reduced words stand for different classes, and each of these is a root
  have hnodup : ((f.words.filter fun x => c.eval f x = 0).map f.residue).Nodup := by
    refine List.Nodup.map_on ?_ (f.nodup_words.filter _)
    intro x hx y hy hxy
    exact (Field.residue_inj (Field.mem_words.1 (List.mem_of_mem_filter hx))
      (Field.mem_words.1 (List.mem_of_mem_filter hy))).1 hxy
  have hsub : (((f.words.filter fun x => c.eval f x = 0).map f.residue : List _) :
      Multiset (ZMod f.modulus.toNat)) ⊆ (polynomial f c).roots := by
    intro z hz
    obtain ⟨x, hx, rfl⟩ := List.mem_map.1 (Multiset.mem_coe.1 hz)
    have hzero : c.eval f x = 0 := by simpa using (List.mem_filter.1 hx).2
    exact (mem_roots (monic_polynomial hp c).ne_zero).2 ((eval_eq_zero_iff hf c x).1 hzero)
  have hle := Multiset.card_le_card
    ((Multiset.le_iff_subset (Multiset.coe_nodup.2 hnodup)).2 hsub)
  rw [Multiset.coe_card, List.length_map] at hle
  exact hle.trans ((card_roots' _).trans_eq (natDegree_polynomial hp c))

/-- **The scan finds every root**, in ascending order. -/
theorem roots_eq (hp : f.modulus.toNat.Prime) (c : Monic) :
    c.roots f = f.words.filter fun x => c.eval f x = 0 := by
  have hword := f.modulus.toNat_lt
  rw [roots, show (0 : UInt32) = UInt32.ofNat 0 from rfl, rootsFrom_eq c _ _ _ (by omega),
    ← List.range_eq_range']
  -- it stops at the degree, which no polynomial has more roots than
  exact List.take_of_length_le (length_filter_words_le hp c)

/-- **Stopping early loses no root.** The scan ends once it has as many roots as the degree, but it
finds what evaluating at every residue finds: the residues at which the polynomial is zero, in
ascending order and each once. There are never more of them than the degree, so the constant has
none. Coefficients need not be reduced, and the degree may exceed the modulus. -/
theorem roots_complete (hp : f.modulus.toNat.Prime) (c : Monic) :
    c.roots f = f.words.filter (fun x => c.eval f x = 0) ∧
    (∀ x, x ∈ c.roots f ↔ f.Reduced x ∧ c.eval f x = 0) ∧ (c.roots f).Pairwise (· < ·) ∧
    (c.roots f).length ≤ c.length := by
  have hroots := roots_eq hp c
  refine ⟨hroots, fun x => ?_, ?_, ?_⟩
  · rw [hroots, List.mem_filter, Field.mem_words, decide_eq_true_eq]
  · rw [hroots]
    exact f.pairwise_words.filter _
  · rw [hroots]
    exact length_filter_words_le hp c

/-- Modulo 7 every residue is a root of `x ^ 8 - x ^ 2`, whose degree is above the modulus. -/
theorem roots_complete_everywhere : Nat.Prime 7 ∧
    roots ⟨7⟩ [7, 14, 0, 0, 0, 6, 7, 0] = [0, 1, 2, 3, 4, 5, 6] := by
  have hp : (Field.mk 7).modulus.toNat.Prime := by decide
  refine ⟨hp, (roots_complete hp [7, 14, 0, 0, 0, 6, 7, 0]).1.trans ?_⟩
  decide

/-! ## Roots with their multiplicities -/

/-- The roots, ascending, each as often as it divides the polynomial. -/
def expanded (f : Field) (c : Monic) : List UInt32 :=
  (c.roots f).flatMap fun root => List.replicate (c.multiplicity f root) root

theorem reduced_of_mem_expanded (hp : f.modulus.toNat.Prime) {c : Monic} {x : UInt32}
    (hx : x ∈ c.expanded f) : f.Reduced x := by
  obtain ⟨root, hroot, hx⟩ := List.mem_flatMap.1 hx
  rw [roots_eq hp] at hroot
  obtain rfl := List.eq_of_mem_replicate hx
  exact Field.mem_words.1 (List.mem_of_mem_filter hroot)

theorem pairwise_expanded (hp : f.modulus.toNat.Prime) (c : Monic) :
    (c.expanded f).Pairwise (· ≤ ·) := by
  rw [expanded, List.pairwise_flatMap, roots_eq hp]
  constructor
  · -- one root does not descend
    intro root _
    exact List.pairwise_replicate.2 (Or.inr (UInt32.le_refl root))
  · -- and the roots ascend
    refine (f.pairwise_words.filter _).imp fun {root other} hlt x hx y hy => ?_
    rw [List.eq_of_mem_replicate hx, List.eq_of_mem_replicate hy]
    exact UInt32.le_of_lt hlt

/-- Repeating each member of a list without duplicates counts it as often as it is repeated. -/
theorem count_flatMap_replicate {l : List UInt32} (hnodup : l.Nodup) (times : UInt32 → Nat)
    (x : UInt32) : (l.flatMap fun a => List.replicate (times a) a).count x =
      if x ∈ l then times x else 0 := by
  induction l with
  | nil => rfl
  | cons a l ih =>
    obtain ⟨hmem, hrest⟩ := List.nodup_cons.1 hnodup
    rw [List.flatMap_cons, List.count_append, ih hrest, List.count_replicate]
    by_cases hax : a = x
    · subst hax
      simp [hmem]
    · simp [hax, Ne.symm hax]

theorem count_expanded (hp : f.modulus.toNat.Prime) (c : Monic) {x : UInt32} (hx : f.Reduced x) :
    (c.expanded f).count x = c.multiplicity f x := by
  have hroots := roots_eq hp c
  have hnodup : (c.roots f).Nodup := hroots ▸ f.nodup_words.filter _
  rw [expanded, count_flatMap_replicate hnodup]
  split
  · rfl
  · -- a word that is no root does not divide the polynomial
    rename_i hmem
    rw [multiplicity_eq hp]
    refine (rootMultiplicity_eq_zero fun hroot => ?_).symm
    have hzero := (eval_eq_zero_iff (Field.modulus_ne_zero_of_prime hp) c x).2 hroot
    rw [hroots] at hmem
    exact hmem (List.mem_filter.2 ⟨Field.mem_words.2 hx, by simpa using hzero⟩)

/-- **Trial finds all roots** of the polynomial, with their multiplicities. -/
theorem residues_expanded [hprime : Fact f.modulus.toNat.Prime] (c : Monic) :
    (((c.expanded f).map f.residue : List _) : Multiset (ZMod f.modulus.toNat)) =
      (polynomial f c).roots := by
  have hp := hprime.out
  ext z
  -- every class has a reduced word, which counts as often as it divides the polynomial
  obtain ⟨x, hx, rfl⟩ := Field.exists_reduced (Field.modulus_ne_zero_of_prime hp) z
  rw [Multiset.coe_count, Field.count_map_residue (fun _ => reduced_of_mem_expanded hp) hx,
    count_expanded hp c hx, multiplicity_eq hp, count_roots]

end Monic

end LossSketch
