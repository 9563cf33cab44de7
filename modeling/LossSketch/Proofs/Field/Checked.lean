import LossSketch.Proofs.Field.Residue

/-!
# Arithmetic that must fit its word

Words of 64 bits wrap around. Here the operations of `Field` are run again, step by step, in
arithmetic that stops where a step does not fit.

* `Word.ofInt` is the word that an integer is, and `Word.add`, `sub`, `mul` and `rem` are the
  operations whose exact result has to be one. `Word.add_eq` and its companions say when they agree
  with the operations that wrap.
* `Field.addChecked`, `subChecked`, `mulChecked`, `negChecked`, `powChecked` and `invChecked?` run
  the operations of the same names on them.
* `Field.addChecked_eq` and its companions: whatever the operands and the modulus, as long as it is
  not zero, no step stops, and the answer is that of the operation which wraps.
-/

namespace LossSketch

namespace Word

/-- Why a step of a computation on words has no answer. -/
inductive Fault
  | overflow
  | underflow
  | zeroDivisor
  /-- A loop has used up the steps that it was allowed. -/
  | unfinished
  deriving DecidableEq

/-- The word that an integer is. -/
def ofInt (n : Int) : Except Fault UInt64 :=
  if n < 0 then .error .underflow
  else if n < 2 ^ 64 then .ok (UInt64.ofNat n.toNat)
  else .error .overflow

def add (x y : UInt64) : Except Fault UInt64 := ofInt (x.toNat + y.toNat)

def sub (x y : UInt64) : Except Fault UInt64 := ofInt (x.toNat - y.toNat)

def mul (x y : UInt64) : Except Fault UInt64 := ofInt (x.toNat * y.toNat)

def rem (x y : UInt64) : Except Fault UInt64 :=
  if y = 0 then .error .zeroDivisor else .ok (x % y)

theorem ofInt_toNat (x : UInt64) : ofInt x.toNat = .ok x := by
  have hlt : (x.toNat : Int) < 2 ^ 64 := by exact_mod_cast x.toNat_lt
  rw [ofInt, if_neg (by omega), if_pos hlt, Int.toNat_natCast, UInt64.ofNat_toNat]

theorem add_eq {x y : UInt64} (h : x.toNat + y.toNat < 2 ^ 64) : add x y = .ok (x + y) := by
  rw [add, ← ofInt_toNat (x + y), UInt64.toNat_add, Nat.mod_eq_of_lt h, Int.natCast_add]

theorem sub_eq {x y : UInt64} (h : y ≤ x) : sub x y = .ok (x - y) := by
  rw [sub, ← ofInt_toNat (x - y), UInt64.toNat_sub_of_le _ _ h,
    Int.natCast_sub (UInt64.le_iff_toNat_le.1 h)]

theorem mul_eq {x y : UInt64} (h : x.toNat * y.toNat < 2 ^ 64) : mul x y = .ok (x * y) := by
  rw [mul, ← ofInt_toNat (x * y), UInt64.toNat_mul, Nat.mod_eq_of_lt h, Int.natCast_mul]

theorem rem_eq {x y : UInt64} (h : y ≠ 0) : rem x y = .ok (x % y) := by
  rw [rem, if_neg h]

/-- Words of 32 bits have a sum of 64. -/
theorem toNat_add_toNat_lt (a b : UInt32) : a.toUInt64.toNat + b.toUInt64.toNat < 2 ^ 64 := by
  have ha := a.toNat_lt
  have hb := b.toNat_lt
  rw [UInt32.toNat_toUInt64, UInt32.toNat_toUInt64]
  omega

/-- Even the greatest words of 32 bits have a product of 64. -/
theorem toNat_mul_toNat_lt (a b : UInt32) : a.toUInt64.toNat * b.toUInt64.toNat < 2 ^ 64 := by
  rw [UInt32.toNat_toUInt64, UInt32.toNat_toUInt64]
  calc a.toNat * b.toNat ≤ (2 ^ 32 - 1) * (2 ^ 32 - 1) :=
        Nat.mul_le_mul (Nat.le_of_lt_succ a.toNat_lt) (Nat.le_of_lt_succ b.toNat_lt)
    _ < 2 ^ 64 := by decide

/-! ## Bits of an exponent -/

theorem toNat_half (x : UInt64) : (x >>> 1).toNat = x.toNat / 2 := by
  rw [UInt64.toNat_shiftRight, Nat.shiftRight_eq_div_pow]
  rfl

theorem lowest_bit_iff (x : UInt64) : x &&& 1 = 1 ↔ x.toNat % 2 = 1 := by
  rw [← UInt64.toNat_inj, UInt64.toNat_and, ← Nat.and_one_is_mod]
  rfl

end Word

namespace Field

variable (f : Field)

/-! ## The operations, step by step -/

def reduceChecked (x : UInt64) : Except Word.Fault UInt32 :=
  UInt64.toUInt32 <$> Word.rem x f.modulus.toUInt64

def addChecked (a b : UInt32) : Except Word.Fault UInt32 := do
  f.reduceChecked (← Word.add a.toUInt64 b.toUInt64)

/-- The modulus is added before the residue of `b` is taken off. -/
def subChecked (a b : UInt32) : Except Word.Fault UInt32 := do
  let raised ← Word.add a.toUInt64 f.modulus.toUInt64
  let taken ← Word.rem b.toUInt64 f.modulus.toUInt64
  f.reduceChecked (← Word.sub raised taken)

def mulChecked (a b : UInt32) : Except Word.Fault UInt32 := do
  f.reduceChecked (← Word.mul a.toUInt64 b.toUInt64)

def negChecked (a : UInt32) : Except Word.Fault UInt32 :=
  f.subChecked 0 a

/-- `acc * base ^ exp`. The base is squared once more after the last bit of the exponent. -/
def mulPowChecked (acc base : UInt32) (exp : UInt64) : Except Word.Fault UInt32 :=
  if exp = 0 then .ok acc
  else do
    let acc ← (if exp &&& 1 = 1 then f.mulChecked acc base else .ok acc)
    let base ← f.mulChecked base base
    mulPowChecked acc base (exp >>> 1)
termination_by exp.toNat
decreasing_by
  rename_i h
  have hne : exp.toNat ≠ 0 := fun h0 => h (UInt64.toNat_inj.1 h0)
  rw [Word.toNat_half]
  omega

def powChecked (base : UInt32) (exp : UInt64) : Except Word.Fault UInt32 := do
  let one ← f.reduceChecked 1
  let base ← f.reduceChecked base.toUInt64
  f.mulPowChecked one base exp

def invChecked? (a : UInt32) : Except Word.Fault (Option UInt32) := do
  let a ← f.reduceChecked a.toUInt64
  if a = 0 then return none
  else
    let exp ← Word.sub f.modulus.toUInt64 2
    some <$> f.powChecked a exp

/-! ## No step stops -/

section Operations

variable {f} (hf : f.modulus ≠ 0)
include hf

theorem toUInt64_modulus_ne_zero : f.modulus.toUInt64 ≠ 0 := by
  intro h0
  have hpos := modulus_toNat_pos hf
  rw [← UInt32.toNat_toUInt64, h0] at hpos
  exact absurd hpos (by decide)

theorem reduceChecked_eq (x : UInt64) : f.reduceChecked x = .ok (f.reduce x) := by
  rw [reduceChecked, Word.rem_eq (toUInt64_modulus_ne_zero hf)]
  rfl

theorem addChecked_eq (a b : UInt32) : f.addChecked a b = .ok (f.add a b) := by
  rw [addChecked, Word.add_eq (Word.toNat_add_toNat_lt a b)]
  exact reduceChecked_eq hf _

theorem subChecked_eq (a b : UInt32) : f.subChecked a b = .ok (f.sub a b) := by
  have hraised := Word.toNat_add_toNat_lt a f.modulus
  have htaken : b.toUInt64 % f.modulus.toUInt64 ≤ a.toUInt64 + f.modulus.toUInt64 := by
    -- the residue taken off is below the modulus added
    have hmod := Nat.mod_lt b.toNat (modulus_toNat_pos hf)
    rw [UInt64.le_iff_toNat_le, UInt64.toNat_mod, UInt64.toNat_add, Nat.mod_eq_of_lt hraised,
      UInt32.toNat_toUInt64, UInt32.toNat_toUInt64, UInt32.toNat_toUInt64]
    omega
  rw [subChecked, Word.add_eq hraised, Word.rem_eq (toUInt64_modulus_ne_zero hf)]
  show (Word.sub _ _ >>= _) = _
  rw [Word.sub_eq htaken, UInt64.sub_eq_add_neg, UInt64.add_assoc, ← UInt64.sub_eq_add_neg]
  exact reduceChecked_eq hf _

theorem mulChecked_eq (a b : UInt32) : f.mulChecked a b = .ok (f.mul a b) := by
  rw [mulChecked, Word.mul_eq (Word.toNat_mul_toNat_lt a b)]
  exact reduceChecked_eq hf _

theorem negChecked_eq (a : UInt32) : f.negChecked a = .ok (f.neg a) :=
  subChecked_eq hf 0 a

theorem mulPowChecked_eq (acc base : UInt32) (exp : UInt64) :
    f.mulPowChecked acc base exp = .ok (f.mulPow acc base exp.toNat) := by
  fun_induction mulPowChecked f acc base exp with
  | case1 acc base =>
    rw [mulPow]
    rfl
  | case2 acc base exp h ih =>
    -- the lowest bit says whether the base is multiplied in, the others are left for the next round
    have hne : exp.toNat ≠ 0 := fun h0 => h (UInt64.toNat_inj.1 h0)
    have hbit : (if exp &&& 1 = 1 then f.mulChecked acc base else .ok acc) =
        .ok (if exp.toNat % 2 = 1 then f.mul acc base else acc) := by
      simp only [Word.lowest_bit_iff]
      split
      · exact mulChecked_eq hf acc base
      · rfl
    rw [hbit, mulChecked_eq hf, mulPow, if_neg hne, ← Word.toNat_half, ← ih]
    rfl

theorem powChecked_eq (base : UInt32) (exp : UInt64) :
    f.powChecked base exp = .ok (f.pow base exp) := by
  rw [powChecked, reduceChecked_eq hf, reduceChecked_eq hf]
  exact mulPowChecked_eq hf _ _ _

theorem invChecked?_eq (a : UInt32) : f.invChecked? a = .ok (f.inv? a) := by
  rw [invChecked?, reduceChecked_eq hf, inv?]
  show (if f.reduce a.toUInt64 = 0 then _ else _) = _
  split
  · rfl
  · rename_i hne
    -- only modulo one would the exponent be negative, and there all residues are zero
    have hpos : (f.reduce a.toUInt64).toNat ≠ 0 := fun h0 => hne (UInt32.toNat_inj.1 h0)
    have hlt : (f.reduce a.toUInt64).toNat < f.modulus.toNat := reduced_reduce hf _
    have hexp : 2 ≤ f.modulus.toUInt64 := by
      rw [UInt64.le_iff_toNat_le, UInt32.toNat_toUInt64]
      show 2 ≤ f.modulus.toNat
      omega
    rw [Word.sub_eq hexp]
    show (some <$> f.powChecked _ _) = _
    rw [powChecked_eq hf]
    rfl

end Operations

end Field

end LossSketch
