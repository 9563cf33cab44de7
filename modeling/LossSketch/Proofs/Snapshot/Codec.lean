import LossSketch.Snapshot.Codec
import LossSketch.Word
import Mathlib.Algebra.Order.Ring.Int

/-!
# Reading words back

* `Decoder.Reads` — a decoder takes exactly some bytes off the front, whatever follows them, and
  answers a value. Words, signed words and runs of values are read back from the bytes that they are
  written as.
* `Decoder.FixedWidth` — a decoder reads any bytes at all, if there are enough of them, and answers
  a value that the bytes determine. Words and runs of values are of this form, so bytes that were
  written as something else are read as well.
* `Bytes.int64` is the number that eight bytes hold in two's complement, and `Bytes.word32` the
  unsigned one of four bytes.
-/

namespace LossSketch

namespace Bytes

/-- Writing and reading a number gives its lowest bytes back. -/
theorem toNat_ofNat (len n : Nat) : toNat (ofNat len n) = n % 256 ^ len := by
  induction len generalizing n with
  | zero => rw [Nat.pow_zero, Nat.mod_one]; rfl
  | succ len ih =>
    have hbyte : n % 2 ^ 8 = n % 256 := rfl
    rw [ofNat, toNat, ih, UInt8.toNat_ofNat', hbyte, Nat.pow_succ', Nat.mod_mul]

theorem toNat_ofNat_of_lt {len n : Nat} (h : n < 256 ^ len) : toNat (ofNat len n) = n := by
  rw [toNat_ofNat, Nat.mod_eq_of_lt h]

/-- The word of 32 bits that bytes begin with. -/
def word32 (bytes : Bytes) : UInt32 := UInt32.ofNat (toNat (bytes.take 4))

end Bytes

/-- The number that the first eight bytes hold in two's complement. -/
@[irreducible] def Bytes.int64 (bytes : Bytes) : Int := Int.bmod (toNat (bytes.take 8)) UInt64.size

theorem Bytes.signed64_int64 (bytes : Bytes) : Signed64 bytes.int64 := by
  unfold int64
  exact ⟨Int.le_bmod (by decide), Int.bmod_lt (by decide)⟩

namespace Decoder

variable {α β : Type}

theorem bind_eq_ok {d : Decoder α} {f : α → Decoder β} {bytes rest : Bytes} {b : β} :
    (d >>= f) bytes = .ok (b, rest) ↔
      ∃ a behind, d bytes = .ok (a, behind) ∧ f a behind = .ok (b, rest) := by
  show (d bytes >>= fun r => f r.1 r.2) = _ ↔ _
  cases d bytes with
  | error fault => exact ⟨nofun, nofun⟩
  | ok r =>
    constructor
    · exact fun h => ⟨r.1, r.2, rfl, h⟩
    · rintro ⟨a, behind, ⟨⟩, h⟩
      exact h

/-! ## What was written -/

/-- The decoder takes exactly these bytes off the front and answers the value. -/
def Reads (d : Decoder α) (bytes : Bytes) (a : α) : Prop :=
  ∀ rest, d (bytes ++ rest) = .ok (a, rest)

/-- What follows goes on behind the bytes that were read. -/
theorem Reads.bind_apply {d : Decoder α} {bytes : Bytes} {a : α} (h : d.Reads bytes a)
    (f : α → Decoder β) (rest : Bytes) : (d >>= f) (bytes ++ rest) = f a rest := by
  show (d (bytes ++ rest) >>= fun r => f r.1 r.2) = _
  rw [h rest]
  rfl

theorem reads_pure (a : α) : Reads (pure a : Decoder α) [] a := fun _ => rfl

theorem Reads.bind {d : Decoder α} {f : α → Decoder β} {front back : Bytes} {a : α} {b : β}
    (h : d.Reads front a) (h' : (f a).Reads back b) : (d >>= f).Reads (front ++ back) b := by
  intro rest
  rw [List.append_assoc, h.bind_apply]
  exact h' rest

theorem Reads.map {d : Decoder α} {bytes : Bytes} {a : α} (h : d.Reads bytes a) (g : α → β) :
    (g <$> d).Reads bytes (g a) := by
  intro rest
  rw [← bind_pure_comp, h.bind_apply]
  rfl

theorem reads_word {len n : Nat} (h : n < 256 ^ len) : (word len).Reads (Bytes.ofNat len n) n := by
  intro rest
  have htake : (Bytes.ofNat len n ++ rest).take len = Bytes.ofNat len n :=
    List.take_left' (Bytes.length_ofNat len n)
  have hdrop : (Bytes.ofNat len n ++ rest).drop len = rest :=
    List.drop_left' (Bytes.length_ofNat len n)
  simp only [word, htake, hdrop, Bytes.length_ofNat, Nat.lt_irrefl, if_false,
    Bytes.toNat_ofNat_of_lt h]

theorem reads_word32 (w : UInt32) :
    (UInt32.ofNat <$> word 4 : Decoder UInt32).Reads (Bytes.ofNat 4 w.toNat) w := by
  have hword : w.toNat < 256 ^ 4 := w.toNat_lt
  have hread := (reads_word hword).map UInt32.ofNat
  rwa [UInt32.ofNat_toNat] at hread

/-- A signed number is read back, if eight bytes hold it. -/
theorem reads_signed {n : Int} (h : Signed64 n) : signed.Reads (signedBytes n) n := by
  obtain ⟨hge, hlt⟩ := h
  have hnonneg : 0 ≤ n % UInt64.size := Int.emod_nonneg n (by decide)
  have hword : (n % UInt64.size).toNat < 256 ^ 8 := by
    have hmod := Int.emod_lt_of_pos n (show (0 : Int) < UInt64.size by decide)
    have hsize : (UInt64.size : Int) = (256 ^ 8 : Nat) := rfl
    omega
  -- a negative number is written as its residue, and the residue nearest to zero is read
  have hback : Int.bmod ((n % UInt64.size).toNat : Int) UInt64.size = n := by
    have hsize : (UInt64.size : Int) = 2 * 2 ^ 63 := rfl
    rw [Int.toNat_of_nonneg hnonneg, Int.emod_bmod]
    exact Int.bmod_eq_of_le (by omega) (by omega)
  intro rest
  rw [signedBytes, signed, (reads_word hword).bind_apply]
  exact congrArg (fun m => Except.ok (m, rest)) hback

/-! ## Runs of values -/

theorem timesAfter_eq (item : Decoder α) (count : Nat) (earlier : List α) :
    timesAfter item count earlier = (earlier.reverse ++ ·) <$> times item count := by
  induction count generalizing earlier with
  | zero => simp [timesAfter, times]
  | succ count ih =>
    -- on both sides the next value goes in front of what is read later
    rw [times, timesAfter, timesAfter, map_bind]
    congr 1
    funext a
    rw [ih (a :: earlier), ih [a], Functor.map_map]
    simp

theorem times_succ (item : Decoder α) (count : Nat) :
    times item (count + 1) = item >>= fun a => (a :: ·) <$> times item count := by
  rw [times, timesAfter]
  congr 1
  funext a
  rw [timesAfter_eq]
  rfl

/-- A run of values is read back, if each of them is. -/
theorem reads_times {item : Decoder α} {enc : α → Bytes} {l : List α}
    (h : ∀ a ∈ l, item.Reads (enc a) a) : (times item l.length).Reads (l.flatMap enc) l := by
  induction l with
  | nil => exact reads_pure []
  | cons a l ih =>
    rw [List.length_cons, times_succ, List.flatMap_cons]
    exact (h a List.mem_cons_self).bind
      ((ih fun b hb => h b (List.mem_cons_of_mem a hb)).map (a :: ·))

/-! ## Any bytes -/

/-- The decoder reads any bytes, if there are enough of them, and answers what they determine. -/
structure FixedWidth (d : Decoder α) (width : Nat) (value : Bytes → α) : Prop where
  short : ∀ bytes, bytes.length < width → d bytes = .error .endOfInput
  long : ∀ bytes, width ≤ bytes.length → d bytes = .ok (value bytes, bytes.drop width)

namespace FixedWidth

variable {d : Decoder α} {width : Nat} {value : Bytes → α} (h : d.FixedWidth width value)
include h

theorem value_of_ok {bytes rest : Bytes} {a : α} (hread : d bytes = .ok (a, rest)) :
    width ≤ bytes.length ∧ a = value bytes := by
  rcases Nat.lt_or_ge bytes.length width with hlt | hge
  · rw [h.short bytes hlt] at hread
    cases hread
  · rw [h.long bytes hge] at hread
    cases hread
    exact ⟨hge, rfl⟩

theorem map (g : α → β) : (g <$> d).FixedWidth width (g ∘ value) where
  short bytes hlt := by
    show (d bytes >>= fun r => pure (g r.1, r.2)) = _
    rw [h.short bytes hlt]
    rfl
  long bytes hge := by
    show (d bytes >>= fun r => pure (g r.1, r.2)) = _
    rw [h.long bytes hge]
    rfl

theorem bind {f : α → Decoder β} {width' : Nat} {value' : α → Bytes → β}
    (h' : ∀ a, (f a).FixedWidth width' (value' a)) :
    (d >>= f).FixedWidth (width + width')
      fun bytes => value' (value bytes) (bytes.drop width) where
  short bytes hlt := by
    show (d bytes >>= fun r => f r.1 r.2) = _
    rcases Nat.lt_or_ge bytes.length width with hlt' | hge
    · -- already the first decoder runs out of bytes
      rw [h.short bytes hlt']
      rfl
    · rw [h.long bytes hge]
      exact (h' _).short _ (by rw [List.length_drop]; omega)
  long bytes hge := by
    show (d bytes >>= fun r => f r.1 r.2) = _
    rw [h.long bytes (by omega)]
    refine ((h' _).long _ (by rw [List.length_drop]; omega)).trans ?_
    rw [List.drop_drop]

/-- A run of values is read from places that lie equally far apart. -/
theorem times (count : Nat) : (times d count).FixedWidth (width * count)
    fun bytes => (List.range count).map fun i => value (bytes.drop (width * i)) := by
  induction count with
  | zero => exact ⟨fun bytes hlt => absurd hlt (Nat.not_lt_zero _), fun bytes _ => rfl⟩
  | succ count ih =>
    rw [times_succ, Nat.mul_succ, Nat.add_comm]
    have hrun := h.bind fun a => ih.map (a :: ·)
    refine ⟨hrun.short, fun bytes hge => (hrun.long bytes hge).trans ?_⟩
    -- the places of the later values are counted from behind the first
    simp only [Function.comp_apply, List.drop_drop, List.range_succ_eq_map, List.map_cons,
      List.map_map, Nat.mul_zero, List.drop_zero, Nat.add_comm width]
    rfl

end FixedWidth

theorem fixedWidth_pure (a : α) : (pure a : Decoder α).FixedWidth 0 fun _ => a :=
  ⟨fun _ hlt => absurd hlt (Nat.not_lt_zero _), fun _ _ => rfl⟩

theorem fixedWidth_word (len : Nat) :
    (word len).FixedWidth len fun bytes => Bytes.toNat (bytes.take len) where
  short bytes hlt := by
    have hfront : (bytes.take len).length < len := by rw [List.length_take]; omega
    exact if_pos hfront
  long bytes hge := by
    have hfront : ¬ (bytes.take len).length < len := by rw [List.length_take]; omega
    exact if_neg hfront

theorem fixedWidth_word32 :
    (UInt32.ofNat <$> word 4 : Decoder UInt32).FixedWidth 4 Bytes.word32 :=
  (fixedWidth_word 4).map UInt32.ofNat

theorem fixedWidth_signed : signed.FixedWidth 8 Bytes.int64 := by
  unfold Bytes.int64
  exact (fixedWidth_word 8).bind fun n => fixedWidth_pure (Int.bmod n UInt64.size)

end Decoder

@[simp] theorem length_signedBytes (n : Int) : (signedBytes n).length = 8 :=
  Bytes.length_ofNat 8 _

end LossSketch
