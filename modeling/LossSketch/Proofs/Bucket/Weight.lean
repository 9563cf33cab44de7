import Mathlib.Algebra.Group.PUnit
import LossSketch.Bucket.Cell
import LossSketch.Proofs.Field.Residue

/-!
# Buckets as elements of a group

A bucket of any kind is an integer together with an element of a commutative group: nothing for a
counting bucket, a word under exclusive or for an invertible one, and a class modulo the modulus for
a summing one.

* `Kind.Weight` is that second group, and `Cell.weight` places a bucket into the product.
* `Cell.weight_add`, `Cell.weight_sub` — adding and subtracting buckets is adding and subtracting
  weights.
* `Cell.weight_inj` — buckets whose field sums are reduced have different weights, so an equation
  between weights is one between buckets.
-/

namespace LossSketch

/-- A word as an element of the group of exclusive or. -/
structure XorSum where
  word : UInt32

namespace XorSum

instance : Zero XorSum := ⟨⟨0⟩⟩

instance : Add XorSum := ⟨fun a b => ⟨a.word ^^^ b.word⟩⟩

instance : Neg XorSum := ⟨fun a => a⟩

instance : AddCommGroup XorSum where
  add_assoc a b c := congrArg mk (UInt32.xor_assoc a.word b.word c.word)
  zero_add a := congrArg mk UInt32.zero_xor
  add_zero a := congrArg mk UInt32.xor_zero
  neg_add_cancel a := congrArg mk UInt32.xor_self
  add_comm a b := congrArg mk (UInt32.xor_comm a.word b.word)
  nsmul := nsmulRec
  zsmul := zsmulRec

/-- Every word is its own opposite. -/
theorem sub_eq_add (a b : XorSum) : a - b = a + b := sub_eq_add_neg a b

end XorSum

namespace Kind

variable (f : Field)

/-- The group in which a kind records its keys. -/
def Weight : Kind → Type
  | counting => Unit
  | invertible => XorSum
  | summing => ZMod f.modulus.toNat

instance : (kind : Kind) → AddCommGroup (kind.Weight f)
  | counting => inferInstanceAs (AddCommGroup Unit)
  | invertible => inferInstanceAs (AddCommGroup XorSum)
  | summing => inferInstanceAs (AddCommGroup (ZMod f.modulus.toNat))

/-- The element of the group that a record stands for. -/
def weigh : (kind : Kind) → kind.Digest → kind.Weight f
  | counting, _ => ()
  | invertible, word => ⟨word⟩
  | summing, word => f.residue word

@[simp] theorem weigh_blank (kind : Kind) : kind.weigh f kind.blank = 0 := by
  cases kind with
  | counting => rfl
  | invertible => rfl
  | summing => exact Field.residue_zero

variable {f} (hf : f.modulus ≠ 0)
include hf

theorem weigh_join (kind : Kind) (a b : kind.Digest) :
    kind.weigh f (kind.join f a b) = kind.weigh f a + kind.weigh f b := by
  cases kind with
  | counting => rfl
  | invertible => rfl
  | summing => exact Field.residue_add hf a b

theorem weigh_cancel (kind : Kind) (a b : kind.Digest) :
    kind.weigh f (kind.cancel f a b) = kind.weigh f a - kind.weigh f b := by
  cases kind with
  | counting => rfl
  | invertible => exact (XorSum.sub_eq_add ⟨a⟩ ⟨b⟩).symm
  | summing => exact Field.residue_sub hf a b

/-- A key weighs as much as its canonical form. -/
theorem weigh_digest_canonical (kind : Kind) (key : UInt32) :
    kind.weigh f (kind.digest f (kind.canonical f key)) = kind.weigh f (kind.digest f key) := by
  cases kind with
  | counting => rfl
  | invertible => rfl
  | summing =>
    show f.residue (f.reduce (f.reduce key.toUInt64).toUInt64) = f.residue (f.reduce key.toUInt64)
    rw [Field.residue_reduce_word hf]

/-- The canonical form is canonical. -/
theorem canonical_canonical (kind : Kind) (key : UInt32) :
    kind.canonical f (kind.canonical f key) = kind.canonical f key := by
  cases kind with
  | counting => rfl
  | invertible => rfl
  | summing => exact Field.reduce_eq_self hf (Field.reduced_reduce hf _)

end Kind

namespace Cell

variable {kind : Kind}

/-- The number of keys and the weight of their record. -/
def weight (f : Field) (c : Cell kind) : Int × kind.Weight f := (c.count, kind.weigh f c.digest)

/-- The field sum of the bucket, if it keeps one, is below the modulus. -/
def Reduced (f : Field) (c : Cell kind) : Prop :=
  ∀ sum, c.fieldSum? = some sum → f.Reduced sum

@[simp] theorem weight_fst (f : Field) (c : Cell kind) : (c.weight f).1 = c.count := rfl

@[simp] theorem weight_empty (f : Field) : (empty : Cell kind).weight f = 0 :=
  Prod.ext rfl (Kind.weigh_blank f kind)

variable {f : Field} (hf : f.modulus ≠ 0)
include hf

theorem weight_add (a b : Cell kind) : (a.add f b).weight f = a.weight f + b.weight f :=
  Prod.ext rfl (Kind.weigh_join hf kind a.digest b.digest)

theorem weight_sub (a b : Cell kind) : (a.sub f b).weight f = a.weight f - b.weight f :=
  Prod.ext rfl (Kind.weigh_cancel hf kind a.digest b.digest)

theorem weight_insert (c : Cell kind) (key : UInt32) :
    (c.insert f key).weight f = c.weight f + (single f key : Cell kind).weight f :=
  weight_add hf c _

theorem weight_delete (c : Cell kind) (key : UInt32) :
    (c.delete f key).weight f = c.weight f - (single f key : Cell kind).weight f :=
  weight_sub hf c _

theorem weight_single_canonical (key : UInt32) :
    (single f (kind.canonical f key) : Cell kind).weight f = (single f key : Cell kind).weight f :=
  Prod.ext rfl (Kind.weigh_digest_canonical hf kind key)

/-! ## Field sums stay reduced -/

theorem reduced_empty : (empty : Cell kind).Reduced f := by
  cases kind <;> rintro sum ⟨⟩
  exact Field.reduced_zero hf

theorem reduced_add (a b : Cell kind) : (a.add f b).Reduced f := by
  cases kind <;> rintro sum ⟨⟩
  exact Field.reduced_add hf _ _

theorem reduced_sub (a b : Cell kind) : (a.sub f b).Reduced f := by
  cases kind <;> rintro sum ⟨⟩
  exact Field.reduced_sub hf _ _

theorem reduced_single (key : UInt32) : (single f key : Cell kind).Reduced f := by
  cases kind <;> rintro sum ⟨⟩
  exact Field.reduced_reduce hf _

omit hf

/-- Buckets with reduced field sums are determined by their weights. -/
theorem weight_inj {a b : Cell kind} (ha : a.Reduced f) (hb : b.Reduced f)
    (h : a.weight f = b.weight f) : a = b := by
  obtain ⟨count, digest⟩ := a
  obtain ⟨count', digest'⟩ := b
  have hcount : count = count' := congrArg Prod.fst h
  -- equal counts, and in each kind the record is read off its weight
  have hweigh : kind.weigh f digest = kind.weigh f digest' := congrArg Prod.snd h
  subst hcount
  cases kind with
  | counting => rfl
  | invertible =>
    have hword : digest = digest' := congrArg XorSum.word hweigh
    rw [hword]
  | summing =>
    have hword : digest = digest' := (Field.residue_inj (ha _ rfl) (hb _ rfl)).1 hweigh
    rw [hword]

end Cell

end LossSketch
