import Mathlib.FieldTheory.Finite.Basic
import LossSketch.Field.Basic

/-!
# Words as residues

The operations of `Field` compute in the integers modulo the modulus.

* `Field.residue` is the class that a word stands for, and `Field.Reduced` says that the word is the
  least one of its class.
* `residue_add`, `residue_sub`, `residue_mul`, `residue_neg` and `residue_pow` read an operation on
  words as the operation of the same name on classes; its operands need not be reduced, and
  `reduced_add` and its companions say that its result is.
* `residue_inj` goes back from classes to words, and `eq_of_map_residue` from lists of classes.
* `exists_inv?` finds the inverse of every nonzero class of a prime modulus.
-/

namespace LossSketch

namespace Field

/-- The class of a word among the integers modulo the modulus. -/
def residue (f : Field) (a : UInt32) : ZMod f.modulus.toNat := (a.toNat : ZMod f.modulus.toNat)

/-- The word is the least one of its class. -/
def Reduced (f : Field) (a : UInt32) : Prop := a.toNat < f.modulus.toNat

instance (f : Field) (a : UInt32) : Decidable (f.Reduced a) :=
  inferInstanceAs (Decidable (a.toNat < f.modulus.toNat))

variable {f : Field}

/-! ## Words and classes -/

/-- Reduced words stand for different classes. -/
theorem residue_inj {a b : UInt32} (ha : f.Reduced a) (hb : f.Reduced b) :
    f.residue a = f.residue b ↔ a = b := by
  constructor
  · intro h
    rw [residue, residue, ZMod.natCast_eq_natCast_iff', Nat.mod_eq_of_lt ha,
      Nat.mod_eq_of_lt hb] at h
    exact UInt32.toNat_inj.1 h
  · rintro rfl
    rfl

/-- Lists of reduced words are told apart by their classes. -/
theorem eq_of_map_residue {words others : List UInt32} (hwords : ∀ a ∈ words, f.Reduced a)
    (hothers : ∀ a ∈ others, f.Reduced a) (h : words.map f.residue = others.map f.residue) :
    words = others := by
  have hlength := congrArg List.length h
  rw [List.length_map, List.length_map] at hlength
  refine List.ext_getElem hlength fun i hi hi' => ?_
  have hclass := congrArg (·[i]?) h
  rw [List.getElem?_map, List.getElem?_map, List.getElem?_eq_getElem hi,
    List.getElem?_eq_getElem hi'] at hclass
  exact (residue_inj (hwords _ (List.getElem_mem hi)) (hothers _ (List.getElem_mem hi'))).1
    (Option.some.inj hclass)

/-- Reduced words are as often the same as their classes are. -/
theorem count_map_residue {words : List UInt32} (hwords : ∀ a ∈ words, f.Reduced a) {a : UInt32}
    (ha : f.Reduced a) : (words.map f.residue).count (f.residue a) = words.count a := by
  rw [List.count, List.countP_map]
  refine List.countP_congr fun b hb => ?_
  simp [residue_inj (hwords b hb) ha]

@[simp] theorem residue_zero : f.residue 0 = 0 := by
  simp [residue]

theorem modulus_toNat_pos (hf : f.modulus ≠ 0) : 0 < f.modulus.toNat := by
  refine Nat.pos_of_ne_zero fun h0 => hf ?_
  exact UInt32.toNat_inj.1 (by simpa using h0)

theorem modulus_ne_zero_of_prime (hp : f.modulus.toNat.Prime) : f.modulus ≠ 0 := by
  intro h0
  rw [h0] at hp
  exact Nat.not_prime_zero hp

theorem reduced_zero (hf : f.modulus ≠ 0) : f.Reduced 0 := by
  show (0 : UInt32).toNat < f.modulus.toNat
  simpa using modulus_toNat_pos hf

section Operations

variable (hf : f.modulus ≠ 0)
include hf

/-! ## Results are reduced -/

theorem reduced_reduce (x : UInt64) : f.Reduced (f.reduce x) := by
  rw [Reduced, toNat_reduce f x hf]
  exact Nat.mod_lt _ (modulus_toNat_pos hf)

theorem reduced_add (a b : UInt32) : f.Reduced (f.add a b) := reduced_reduce hf _

theorem reduced_sub (a b : UInt32) : f.Reduced (f.sub a b) := reduced_reduce hf _

theorem reduced_mul (a b : UInt32) : f.Reduced (f.mul a b) := reduced_reduce hf _

/-! ## Operations on classes -/

theorem residue_reduce (x : UInt64) :
    f.residue (f.reduce x) = (x.toNat : ZMod f.modulus.toNat) := by
  rw [residue, toNat_reduce f x hf, ZMod.natCast_mod]

/-- Reducing a word keeps its class. -/
@[simp] theorem residue_reduce_word (a : UInt32) :
    f.residue (f.reduce a.toUInt64) = f.residue a := by
  rw [residue_reduce hf, UInt32.toNat_toUInt64, residue]

theorem residue_reduce_one : f.residue (f.reduce 1) = 1 := by
  rw [residue_reduce hf]
  simp

theorem residue_add (a b : UInt32) : f.residue (f.add a b) = f.residue a + f.residue b := by
  rw [residue, toNat_add f a b hf, ZMod.natCast_mod, Nat.cast_add, residue, residue]

theorem residue_sub (a b : UInt32) : f.residue (f.sub a b) = f.residue a - f.residue b := by
  have hle : b.toNat % f.modulus.toNat ≤ f.modulus.toNat :=
    (Nat.mod_lt _ (modulus_toNat_pos hf)).le
  rw [residue, toNat_sub f a b hf, ZMod.natCast_mod, Nat.cast_add, Nat.cast_sub hle,
    ZMod.natCast_self, ZMod.natCast_mod, residue, residue]
  ring

theorem residue_mul (a b : UInt32) : f.residue (f.mul a b) = f.residue a * f.residue b := by
  rw [residue, toNat_mul f a b hf, ZMod.natCast_mod, Nat.cast_mul, residue, residue]

theorem residue_neg (a : UInt32) : f.residue (f.neg a) = -f.residue a := by
  rw [neg, residue_sub hf, residue_zero, zero_sub]

/-- A reduced word is its own reduction. -/
theorem reduce_eq_self {a : UInt32} (ha : f.Reduced a) : f.reduce a.toUInt64 = a :=
  (residue_inj (reduced_reduce hf _) ha).1 (residue_reduce_word hf a)

theorem residue_mulPow (acc base : UInt32) (exp : Nat) :
    f.residue (f.mulPow acc base exp) = f.residue acc * f.residue base ^ exp := by
  induction exp using Nat.strong_induction_on generalizing acc base with
  | _ exp ih =>
    unfold mulPow
    split
    · rename_i h0
      rw [h0, pow_zero, mul_one]
    · rename_i h0
      -- one squaring takes the lowest bit off the exponent
      have hexp : exp = 2 * (exp / 2) + exp % 2 := by omega
      rw [ih (exp / 2) (by omega), residue_mul hf]
      conv_rhs => rw [hexp, pow_add, pow_mul, pow_two]
      split
      · rename_i hodd
        rw [hodd, pow_one, residue_mul hf]
        ring
      · rename_i heven
        rw [show exp % 2 = 0 by omega, pow_zero, mul_one]

theorem residue_pow (base : UInt32) (exp : UInt64) :
    f.residue (f.pow base exp) = f.residue base ^ exp.toNat := by
  rw [pow, residue_mulPow hf, residue_reduce_one hf, residue_reduce_word hf, one_mul]

theorem reduced_mulPow {acc : UInt32} (base : UInt32) (exp : Nat) (hacc : f.Reduced acc) :
    f.Reduced (f.mulPow acc base exp) := by
  induction exp using Nat.strong_induction_on generalizing acc base with
  | _ exp ih =>
    unfold mulPow
    split
    · exact hacc
    · apply ih (exp / 2) (by omega)
      split
      · exact reduced_mul hf _ _
      · exact hacc

theorem reduced_pow (base : UInt32) (exp : UInt64) : f.Reduced (f.pow base exp) :=
  reduced_mulPow hf _ _ (reduced_reduce hf _)

/-- Only the words of class zero reduce to the word zero. -/
theorem reduce_eq_zero_iff (a : UInt32) : f.reduce a.toUInt64 = 0 ↔ f.residue a = 0 := by
  rw [← residue_inj (reduced_reduce hf _) (reduced_zero hf), residue_reduce_word hf, residue_zero]

end Operations

/-! ## Inverses -/

theorem inv?_eq_none (hf : f.modulus ≠ 0) {a : UInt32} (ha : f.residue a = 0) :
    f.inv? a = none := by
  rw [inv?, if_pos ((reduce_eq_zero_iff hf a).2 ha)]

/-- Over a prime modulus a nonzero class has an inverse, by Fermat's little theorem. -/
theorem exists_inv? (hp : f.modulus.toNat.Prime) {a : UInt32} (ha : f.residue a ≠ 0) :
    ∃ b, f.inv? a = some b ∧ f.Reduced b ∧ f.residue a * f.residue b = 1 := by
  have hf := modulus_ne_zero_of_prime hp
  have : Fact f.modulus.toNat.Prime := ⟨hp⟩
  refine ⟨f.pow (f.reduce a.toUInt64) (f.modulus.toUInt64 - 2), ?_, reduced_pow hf _ _, ?_⟩
  · rw [inv?, if_neg fun h => ha ((reduce_eq_zero_iff hf a).1 h)]
  · have h2 : 2 ≤ f.modulus.toNat := hp.two_le
    -- the exponent does not underflow
    have hexp : (f.modulus.toUInt64 - 2).toNat = f.modulus.toNat - 2 := by
      have hle : (2 : UInt64) ≤ f.modulus.toUInt64 := by
        rw [UInt64.le_iff_toNat_le]
        simpa using h2
      rw [UInt64.toNat_sub_of_le _ _ hle]
      simp
    rw [residue_pow hf, residue_reduce_word hf, hexp, ← pow_succ']
    rw [show f.modulus.toNat - 2 + 1 = f.modulus.toNat - 1 by omega]
    exact ZMod.pow_card_sub_one_eq_one ha

end Field

end LossSketch
