/-!
# Arithmetic modulo a 32-bit word

* `Field` is the modulus. It is meant to be a prime, and the operations are total for any word.
* `Field.reduce`, `add`, `sub`, `mul`, `neg`, `pow` take operands that need not be reduced and
  answer a residue. Sums and products of two 32-bit words are formed in 64 bits, where none of them
  wraps, and reduced once.
* `Field.inv?` raises to the power `modulus - 2`, which inverts every nonzero residue of a prime.

The lemmas `toNat_*` read each operation as the operation of the same name on natural numbers.
-/

namespace LossSketch

/-- The integers modulo `modulus`. -/
structure Field where
  modulus : UInt32
  deriving DecidableEq

namespace Field

variable (f : Field)

/-- The residue of any 64-bit word. -/
def reduce (x : UInt64) : UInt32 :=
  (x % f.modulus.toUInt64).toUInt32

/-- The residue of the sum. -/
def add (a b : UInt32) : UInt32 :=
  f.reduce (a.toUInt64 + b.toUInt64)

/-- The residue of the difference. -/
def sub (a b : UInt32) : UInt32 :=
  f.reduce (a.toUInt64 + (f.modulus.toUInt64 - b.toUInt64 % f.modulus.toUInt64))

/-- The residue of the product. -/
def mul (a b : UInt32) : UInt32 :=
  f.reduce (a.toUInt64 * b.toUInt64)

/-- The residue of the opposite. -/
def neg (a : UInt32) : UInt32 :=
  f.sub 0 a

/-- `acc * base ^ exp`, by squaring `base` and halving `exp`. -/
def mulPow (acc base : UInt32) (exp : Nat) : UInt32 :=
  if exp = 0 then acc
  else mulPow (if exp % 2 = 1 then f.mul acc base else acc) (f.mul base base) (exp / 2)
termination_by exp

/-- The residue of `base ^ exp`; a zeroth power is the residue of `1`. -/
def pow (base : UInt32) (exp : UInt64) : UInt32 :=
  f.mulPow (f.reduce 1) (f.reduce base.toUInt64) exp.toNat

/-- The inverse of `a`, for a prime modulus; a multiple of the modulus has none. -/
def inv? (a : UInt32) : Option UInt32 :=
  if f.reduce a.toUInt64 = 0 then none
  else some (f.pow (f.reduce a.toUInt64) (f.modulus.toUInt64 - 2))

/-! ## The operations on natural numbers -/

@[simp] theorem toNat_reduce (x : UInt64) (h : f.modulus ≠ 0) :
    (f.reduce x).toNat = x.toNat % f.modulus.toNat := by
  have hm : 0 < f.modulus.toNat := by
    refine Nat.pos_of_ne_zero fun h0 => h ?_
    exact UInt32.toNat_inj.1 (by simpa using h0)
  have := Nat.mod_lt x.toNat hm
  have := f.modulus.toNat_lt
  simp only [reduce, UInt64.toNat_toUInt32, UInt64.toNat_mod, UInt32.toNat_toUInt64]
  omega

theorem toNat_add (a b : UInt32) (h : f.modulus ≠ 0) :
    (f.add a b).toNat = (a.toNat + b.toNat) % f.modulus.toNat := by
  have := a.toNat_lt
  have := b.toNat_lt
  rw [add, toNat_reduce f _ h, UInt64.toNat_add, UInt32.toNat_toUInt64, UInt32.toNat_toUInt64,
    Nat.mod_eq_of_lt (by omega : a.toNat + b.toNat < 2 ^ 64)]

theorem toNat_mul (a b : UInt32) (h : f.modulus ≠ 0) :
    (f.mul a b).toNat = a.toNat * b.toNat % f.modulus.toNat := by
  have ha := a.toNat_lt
  have hb := b.toNat_lt
  have hab : a.toNat * b.toNat < 2 ^ 64 :=
    Nat.lt_of_le_of_lt (Nat.mul_le_mul (Nat.le_of_lt_succ ha) (Nat.le_of_lt_succ hb)) (by decide)
  rw [mul, toNat_reduce f _ h, UInt64.toNat_mul, UInt32.toNat_toUInt64, UInt32.toNat_toUInt64,
    Nat.mod_eq_of_lt hab]

theorem toNat_sub (a b : UInt32) (h : f.modulus ≠ 0) :
    (f.sub a b).toNat =
      (a.toNat + (f.modulus.toNat - b.toNat % f.modulus.toNat)) % f.modulus.toNat := by
  have hm : 0 < f.modulus.toNat := by
    refine Nat.pos_of_ne_zero fun h0 => h ?_
    exact UInt32.toNat_inj.1 (by simpa using h0)
  have hb := Nat.mod_lt b.toNat hm
  have := a.toNat_lt
  have := f.modulus.toNat_lt
  have hle : b.toUInt64 % f.modulus.toUInt64 ≤ f.modulus.toUInt64 := by
    rw [UInt64.le_iff_toNat_le]
    simp only [UInt64.toNat_mod, UInt32.toNat_toUInt64]
    omega
  rw [sub, toNat_reduce f _ h, UInt64.toNat_add, UInt64.toNat_sub_of_le _ _ hle]
  simp only [UInt64.toNat_mod, UInt32.toNat_toUInt64]
  rw [Nat.mod_eq_of_lt
    (by omega : a.toNat + (f.modulus.toNat - b.toNat % f.modulus.toNat) < 2 ^ 64)]

end Field

end LossSketch
