import LossSketch.Field.Inverses
import LossSketch.Proofs.Field.Checked
import LossSketch.Proofs.Field.Newton

/-!
# The operations of a field are exact

* `Field.Exact` — a computation ends, and its answer is an integer reduced by the modulus.
  `Field.Exact.of_residue` finds this in the class of the answer.
* `Field.IsInverse` — the product of two words is one. By `Field.IsInverse.unique` the inverse that
  `inv?` finds (`Field.exists_isInverse`) is the only one.
* `InverseTables.request_after` — whatever was requested before, a table of inverses is the one that
  would be made anew.
* `Field.arithmetic_exact` puts these together.
-/

namespace LossSketch

namespace Field

variable {f : Field}

/-! ## Integers reduced by the modulus -/

/-- A computation in words that must fit ends with the given word, the least residue of `n`. -/
structure Exact (f : Field) (n : Int) (run : Except Word.Fault UInt32) (answer : UInt32) :
    Prop where
  ends : run = .ok answer
  reduced : f.Reduced answer
  value : (answer.toNat : Int) = n % f.modulus.toNat

theorem Exact.of_residue {n : Int} {run : Except Word.Fault UInt32} {answer : UInt32}
    (hends : run = .ok answer) (hreduced : f.Reduced answer) (hclass : f.residue answer = n) :
    f.Exact n run answer := by
  refine ⟨hends, hreduced, ?_⟩
  -- equal classes have equal remainders, and a reduced word is its own
  have hlt : (answer.toNat : Int) < f.modulus.toNat := Int.ofNat_lt.2 hreduced
  have hmod : (answer.toNat : Int) % f.modulus.toNat = n % f.modulus.toNat := by
    rw [← ZMod.intCast_eq_intCast_iff', Int.cast_natCast]
    exact hclass
  rwa [Int.emod_eq_of_lt (Int.natCast_nonneg _) hlt] at hmod

section Operations

variable (hf : f.modulus ≠ 0)
include hf

theorem exact_add (a b : UInt32) : f.Exact (a.toNat + b.toNat) (f.addChecked a b) (f.add a b) := by
  refine .of_residue (addChecked_eq hf a b) (reduced_add hf a b) ?_
  rw [residue_add hf, Int.cast_add, Int.cast_natCast, Int.cast_natCast, residue, residue]

theorem exact_sub (a b : UInt32) : f.Exact (a.toNat - b.toNat) (f.subChecked a b) (f.sub a b) := by
  refine .of_residue (subChecked_eq hf a b) (reduced_sub hf a b) ?_
  rw [residue_sub hf, Int.cast_sub, Int.cast_natCast, Int.cast_natCast, residue, residue]

theorem exact_mul (a b : UInt32) : f.Exact (a.toNat * b.toNat) (f.mulChecked a b) (f.mul a b) := by
  refine .of_residue (mulChecked_eq hf a b) (reduced_mul hf a b) ?_
  rw [residue_mul hf, Int.cast_mul, Int.cast_natCast, Int.cast_natCast, residue, residue]

theorem exact_neg (a : UInt32) : f.Exact (-a.toNat) (f.negChecked a) (f.neg a) := by
  refine .of_residue (negChecked_eq hf a) (reduced_sub hf 0 a) ?_
  rw [residue_neg hf, Int.cast_neg, Int.cast_natCast, residue]

theorem exact_pow (a : UInt32) (exp : UInt64) :
    f.Exact (a.toNat ^ exp.toNat) (f.powChecked a exp) (f.pow a exp) := by
  refine .of_residue (powChecked_eq hf a exp) (reduced_pow hf a exp) ?_
  rw [residue_pow hf, Int.cast_pow, Int.cast_natCast, residue]

end Operations

/-! ## Inverses -/

/-- A residue whose product with the word is one. -/
structure IsInverse (f : Field) (a b : UInt32) : Prop where
  reduced : f.Reduced b
  mul_eq_one : f.mul a b = 1

theorem residue_eq_zero_iff {a : UInt32} : f.residue a = 0 ↔ f.modulus.toNat ∣ a.toNat :=
  ZMod.natCast_eq_zero_iff _ _

theorem reduced_inverse (hf : f.modulus ≠ 0) (n : Nat) : f.Reduced (f.inverse n) := by
  unfold inverse inv?
  split
  · exact reduced_zero hf
  · exact reduced_pow hf _ _

section Inverses

variable (hp : f.modulus.toNat.Prime)
include hp

theorem isInverse_iff {a b : UInt32} :
    f.IsInverse a b ↔ f.Reduced b ∧ f.residue a * f.residue b = 1 := by
  have hf := modulus_ne_zero_of_prime hp
  have hone : f.residue 1 = 1 := by simp [residue]
  have hreduced : f.Reduced 1 := hp.one_lt
  rw [← residue_mul hf, ← hone, residue_inj (reduced_mul hf a b) hreduced]
  exact ⟨fun h => ⟨h.reduced, h.mul_eq_one⟩, fun h => ⟨h.1, h.2⟩⟩

theorem IsInverse.unique {a b c : UInt32} (hb : f.IsInverse a b) (hc : f.IsInverse a c) :
    c = b := by
  obtain ⟨hreduced, hmul⟩ := (isInverse_iff hp).1 hb
  obtain ⟨hreduced', hmul'⟩ := (isInverse_iff hp).1 hc
  refine (residue_inj hreduced' hreduced).1 ?_
  calc f.residue c = f.residue b * f.residue a * f.residue c := by
        rw [mul_comm (f.residue b), hmul, one_mul]
    _ = f.residue b := by rw [mul_assoc, hmul', mul_one]

theorem exists_isInverse {a : UInt32} (ha : ¬ f.modulus.toNat ∣ a.toNat) :
    ∃ b, f.inv? a = some b ∧ f.IsInverse a b := by
  obtain ⟨b, hb, hreduced, hmul⟩ := exists_inv? hp (mt residue_eq_zero_iff.1 ha)
  exact ⟨b, hb, (isInverse_iff hp).2 ⟨hreduced, hmul⟩⟩

theorem inv?_eq_none_iff (a : UInt32) : f.inv? a = none ↔ f.modulus.toNat ∣ a.toNat := by
  constructor
  · intro hnone
    -- any other word has an inverse
    by_contra hndvd
    obtain ⟨b, hb, -⟩ := exists_isInverse hp hndvd
    rw [hnone] at hb
    cases hb
  · exact fun hdvd => inv?_eq_none (modulus_ne_zero_of_prime hp) (residue_eq_zero_iff.2 hdvd)

/-- A positive number below the modulus has an inverse. -/
theorem isInverse_inverse {n : Nat} (hpos : 0 < n) (hlt : n < f.modulus.toNat) :
    f.IsInverse (UInt32.ofNat n) (f.inverse n) := by
  refine (isInverse_iff hp).2 ⟨reduced_inverse (modulus_ne_zero_of_prime hp) n, ?_⟩
  rw [residue, UInt32.toNat_ofNat_of_lt' (hlt.trans f.modulus.toNat_lt)]
  exact mul_residue_inverse hp hpos hlt

end Inverses

/-! ## Tables of inverses -/

@[simp] theorem length_inverseTable (f : Field) (degree : Nat) :
    (f.inverseTable degree).length = degree := by
  rw [inverseTable, List.length_map, List.length_range]

/-- The entries are what Newton's identities divide by. -/
theorem getElem?_inverseTable (f : Field) {degree i : Nat} (hi : i < degree) :
    (f.inverseTable degree)[i]? = some (f.inverse (i + 1)) := by
  rw [inverseTable, List.getElem?_map, List.getElem?_range hi, Option.map_some]

end Field

namespace InverseTables

/-- Every table kept is the one of its modulus and length. -/
def Sound (tables : InverseTables) : Prop :=
  ∀ (modulus : UInt32) (degree : UInt64) (table : List UInt32),
    tables[(modulus, degree)]? = some table → table = Field.inverseTable ⟨modulus⟩ degree.toNat

theorem sound_empty : Sound ∅ := by
  intro modulus degree table h
  simp at h

theorem Sound.request_fst {tables : InverseTables} (h : tables.Sound) (f : Field)
    (degree : UInt64) : (tables.request f degree).1 = f.inverseTable degree.toNat := by
  unfold request
  split
  · -- it was kept
    rename_i table hkept
    exact h _ _ _ hkept
  · rfl

theorem Sound.request_snd {tables : InverseTables} (h : tables.Sound) (f : Field)
    (degree : UInt64) : Sound (tables.request f degree).2 := by
  unfold request
  split
  · exact h
  · intro modulus degree' table hkept
    rw [Std.HashMap.getElem?_insert] at hkept
    split at hkept
    · -- the table made for this request
      rename_i hkey
      obtain ⟨rfl, rfl⟩ := Prod.mk.inj (eq_of_beq hkey)
      exact (Option.some.inj hkept).symm
    · -- one that was there before
      exact h _ _ _ hkept

theorem Sound.foldl_request {tables : InverseTables} (h : tables.Sound)
    (requests : List (Field × UInt64)) :
    Sound (requests.foldl (fun tables asked => (tables.request asked.1 asked.2).2) tables) := by
  induction requests generalizing tables with
  | nil => exact h
  | cons asked requests ih => exact ih (h.request_snd asked.1 asked.2)

/-- Whatever was requested before, a table is the one of its modulus and length. -/
theorem request_after (requests : List (Field × UInt64)) (f : Field) (degree : UInt64) :
    ((after requests).request f degree).1 = f.inverseTable degree.toNat :=
  (sound_empty.foldl_request requests).request_fst f degree

end InverseTables

namespace Field

variable {f : Field}

/-- **The operations of a field are exact.** Whatever the modulus, as long as it is not zero, and
whatever words the operands and the exponent are, no step of an operation leaves the words of 64
bits, and the answer is the integer result reduced by the modulus. If the modulus is prime, its
multiples are the words without an inverse, and the inverse of any other word is the only residue
whose product with it is one. Then, whatever tables were requested before, entry `i` of a table
with fewer entries than the modulus is the inverse of `i + 1`. -/
theorem arithmetic_exact (hf : f.modulus ≠ 0) :
    (∀ a b : UInt32,
      f.Exact (a.toNat + b.toNat) (f.addChecked a b) (f.add a b) ∧
      f.Exact (a.toNat - b.toNat) (f.subChecked a b) (f.sub a b) ∧
      f.Exact (a.toNat * b.toNat) (f.mulChecked a b) (f.mul a b) ∧
      f.Exact (-a.toNat) (f.negChecked a) (f.neg a) ∧
      ∀ exp : UInt64, f.Exact (a.toNat ^ exp.toNat) (f.powChecked a exp) (f.pow a exp)) ∧
    (∀ a, f.invChecked? a = .ok (f.inv? a)) ∧
    (f.modulus.toNat.Prime →
      (∀ a, (f.inv? a = none ↔ f.modulus.toNat ∣ a.toNat) ∧
        (¬ f.modulus.toNat ∣ a.toNat →
          ∃ b, f.inv? a = some b ∧ f.IsInverse a b ∧ ∀ c, f.IsInverse a c → c = b)) ∧
      ∀ (requests : List (Field × UInt64)) (degree : UInt64), degree.toNat < f.modulus.toNat →
        ((InverseTables.after requests).request f degree).1.length = degree.toNat ∧
        ∀ i < degree.toNat,
          ((InverseTables.after requests).request f degree).1[i]? = some (f.inverse (i + 1)) ∧
          f.IsInverse (.ofNat (i + 1)) (f.inverse (i + 1))) := by
  refine ⟨fun a b => ⟨exact_add hf a b, exact_sub hf a b, exact_mul hf a b, exact_neg hf a,
    exact_pow hf a⟩, invChecked?_eq hf, fun hp => ⟨fun a => ⟨inv?_eq_none_iff hp a, fun ha => ?_⟩,
      fun requests degree hlt => ?_⟩⟩
  · obtain ⟨b, hb, hinverse⟩ := exists_isInverse hp ha
    exact ⟨b, hb, hinverse, fun c hc => hinverse.unique hp hc⟩
  · rw [InverseTables.request_after]
    refine ⟨length_inverseTable f _, fun i hi => ⟨getElem?_inverseTable f hi, ?_⟩⟩
    exact isInverse_inverse hp (Nat.succ_pos i) (by omega)

/-- Modulo the largest prime of 32 bits, two words above it: `4 * 4`, and `0 - 4`. Modulo two, `3`
has an inverse and `4` has none. Modulo thirteen, a table requested again has the inverse of `2` as
its second entry. -/
theorem arithmetic_exact_largest :
    (Field.mk 4294967291).modulus ≠ 0 ∧
    (Field.mk 4294967291).mulChecked 4294967295 4294967295 = .ok 16 ∧
    (Field.mk 4294967291).subChecked 0 4294967295 = .ok 4294967287 ∧
    Nat.Prime 2 ∧ (Field.mk 2).inv? 3 = some 1 ∧ (Field.mk 2).inv? 4 = none ∧
    Nat.Prime 13 ∧ ((InverseTables.after [(⟨13⟩, 3)]).request ⟨13⟩ 3).1[1]? = some 7 := by
  have hf : (Field.mk 4294967291).modulus ≠ 0 := by decide
  have hp2 : (Field.mk 2).modulus.toNat.Prime := Nat.prime_two
  have hp13 : (Field.mk 13).modulus.toNat.Prime := by decide
  obtain ⟨-, -, hmul, -⟩ := (arithmetic_exact hf).1 4294967295 4294967295
  obtain ⟨-, hsub, -⟩ := (arithmetic_exact hf).1 0 4294967295
  obtain ⟨hinv, -⟩ := (arithmetic_exact (modulus_ne_zero_of_prime hp2)).2.2 hp2
  obtain ⟨b, hb, -, hunique⟩ := (hinv 3).2 (by decide)
  obtain ⟨-, htable⟩ := (arithmetic_exact (modulus_ne_zero_of_prime hp13)).2.2 hp13
  obtain ⟨hentry, hinverse⟩ := (htable [(⟨13⟩, 3)] 3 (by decide)).2 1 (by decide)
  refine ⟨hf, hmul.ends, hsub.ends, hp2, ?_, (hinv 4).1.2 (by decide), hp13, ?_⟩
  · rw [hb, hunique 1 ⟨by decide, by decide⟩]
  · rw [hentry, IsInverse.unique hp13 hinverse (c := 7) ⟨by decide, by decide⟩]

end Field

end LossSketch
