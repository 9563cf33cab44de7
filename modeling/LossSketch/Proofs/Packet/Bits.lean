import Mathlib.Tactic.Ring
import LossSketch.Packet.Window

/-!
# The bits of a window

A packet is a number, least significant byte first, and the window at bit `offset` is the number
that is left of it after a division by `2 ^ offset`, modulo `2 ^ width`.

* `Bytes.toNat_drop` and `Bytes.toNat_take` — parts of a packet are quotients and remainders.
* `Window.exists_collect` — the loop over the bytes collects the bits of the window, and never runs
  past the end of a packet that holds it. By `Window.collect_eq_none` it does so in every other one.
* `Window.exists_bits?` — the bits are those of the number that the packet spells.
-/

namespace LossSketch

/-! ## Parts of a packet -/

namespace Bytes

theorem toNat_drop (n : Nat) (bytes : Bytes) : toNat (bytes.drop n) = toNat bytes / 256 ^ n := by
  induction n generalizing bytes with
  | zero => rw [List.drop_zero, Nat.pow_zero, Nat.div_one]
  | succ n ih =>
    cases bytes with
    | nil => rw [List.drop_nil, toNat, Nat.zero_div]
    | cons byte bytes =>
      have hbyte := byte.toNat_lt
      rw [List.drop_succ_cons, ih, toNat, Nat.pow_succ', ← Nat.div_div_eq_div_mul,
        Nat.add_mul_div_left _ _ (by decide), Nat.div_eq_of_lt hbyte, Nat.zero_add]

theorem toNat_take (n : Nat) (bytes : Bytes) : toNat (bytes.take n) = toNat bytes % 256 ^ n := by
  induction n generalizing bytes with
  | zero => rw [List.take_zero, Nat.pow_zero, Nat.mod_one, toNat]
  | succ n ih =>
    cases bytes with
    | nil => rw [List.take_nil, toNat, Nat.zero_mod]
    | cons byte bytes =>
      have hbyte := byte.toNat_lt
      rw [List.take_succ_cons, toNat, toNat, ih, Nat.pow_succ', Nat.mod_mul,
        Nat.add_mul_mod_self_left, Nat.mod_eq_of_lt hbyte, Nat.add_mul_div_left _ _ (by decide),
        Nat.div_eq_of_lt hbyte, Nat.zero_add]

/-- Skipping bytes, and then bits of the first byte, skips bits of the number. -/
theorem toNat_drop_bits (bytes : Bytes) (offset : Nat) :
    toNat (bytes.drop (offset / 8)) / 2 ^ (offset % 8) = toNat bytes / 2 ^ offset := by
  have hoffset : 256 ^ (offset / 8) * 2 ^ (offset % 8) = 2 ^ offset := by
    rw [show 256 = 2 ^ 8 from rfl, ← Nat.pow_mul, ← Nat.pow_add, Nat.div_add_mod]
  rw [toNat_drop, Nat.div_div_eq_div_mul, hoffset]

end Bytes

namespace Window

variable {w : Window} {bytes : Bytes} {skip filled : Nat} {value : UInt64}

/-! ## The loop over the bytes -/

/-- Shifting a byte into the word puts its bits above those that are there. Nothing is cut off at
the end of the word. -/
theorem toNat_or_shiftLeft (byte : UInt8) (hskip : skip < 8) (hfilled : filled < 32)
    (hvalue : value.toNat < 2 ^ filled) :
    (value ||| (byte >>> UInt8.ofNat skip).toUInt64 <<< UInt64.ofNat filled).toNat =
      value.toNat + byte.toNat / 2 ^ skip * 2 ^ filled := by
  have hbyte : byte.toNat / 2 ^ skip < 2 ^ 8 :=
    Nat.lt_of_le_of_lt (Nat.div_le_self _ _) byte.toNat_lt
  have hfits : byte.toNat / 2 ^ skip * 2 ^ filled < 2 ^ 64 := by
    have hle : 2 ^ filled ≤ 2 ^ 32 := Nat.pow_le_pow_right (by decide) hfilled.le
    exact Nat.lt_of_lt_of_le (Nat.mul_lt_mul_of_lt_of_le hbyte hle (by decide)) (by decide)
  -- shifts take the distance modulo the width of what is shifted
  have hskip64 : skip % 2 ^ 8 % 8 = skip := by omega
  have hfilled64 : filled % 2 ^ 64 % 64 = filled := by omega
  rw [UInt64.toNat_or, UInt64.toNat_shiftLeft, UInt8.toNat_toUInt64, UInt8.toNat_shiftRight,
    UInt8.toNat_ofNat', UInt64.toNat_ofNat', hskip64, hfilled64, Nat.shiftRight_eq_div_pow,
    Nat.shiftLeft_eq, Nat.mod_eq_of_lt hfits, ← Nat.shiftLeft_eq, Nat.or_comm,
    ← Nat.shiftLeft_add_eq_or_of_lt hvalue, Nat.add_comm]

/-- What is there grows by the bits of the byte that belong to the window. -/
theorem add_shift_lt (byte : UInt8) (hskip : skip < 8) {present : Nat}
    (hpresent : present < 2 ^ filled) :
    present + byte.toNat / 2 ^ skip * 2 ^ filled < 2 ^ (filled + (8 - skip)) := by
  have hbyte : byte.toNat / 2 ^ skip < 2 ^ (8 - skip) := by
    rw [Nat.div_lt_iff_lt_mul (Nat.two_pow_pos skip), ← Nat.pow_add, Nat.sub_add_cancel hskip.le]
    exact byte.toNat_lt
  calc present + byte.toNat / 2 ^ skip * 2 ^ filled
      < 2 ^ filled + byte.toNat / 2 ^ skip * 2 ^ filled := Nat.add_lt_add_right hpresent _
    _ = (byte.toNat / 2 ^ skip + 1) * 2 ^ filled := by ring
    _ ≤ 2 ^ (8 - skip) * 2 ^ filled := Nat.mul_le_mul_right _ hbyte
    _ = 2 ^ (filled + (8 - skip)) := by rw [← Nat.pow_add, Nat.add_comm]

/-- The bits ahead are those of the first byte and, above them, those of the bytes behind it. -/
theorem toNat_cons_shift (byte : UInt8) (bytes : Bytes) (hskip : skip < 8) (filled : Nat) :
    Bytes.toNat (byte :: bytes) / 2 ^ skip * 2 ^ filled =
      byte.toNat / 2 ^ skip * 2 ^ filled +
        Bytes.toNat bytes / 2 ^ 0 * 2 ^ (filled + (8 - skip)) := by
  have hpow : 256 = 2 ^ skip * 2 ^ (8 - skip) := by
    rw [← Nat.pow_add, Nat.add_sub_cancel' hskip.le]
  rw [Bytes.toNat, hpow, Nat.mul_assoc, Nat.add_mul_div_left _ _ (Nat.two_pow_pos skip),
    Nat.pow_zero, Nat.div_one, Nat.pow_add]
  ring

/-- **The loop collects the bits of the window** from bytes that hold the rest of it, and asks for
no byte behind them. What it answers has further bits of the last byte above those of the window. -/
theorem exists_collect (hskip : skip < 8) (hvalue : value.toNat < 2 ^ filled)
    (hlength : w.width.toNat + skip ≤ filled + 8 * bytes.length) :
    ∃ result, w.collect bytes skip filled value = some result ∧
      result.toNat % 2 ^ w.width.toNat =
        (value.toNat + Bytes.toNat bytes / 2 ^ skip * 2 ^ filled) % 2 ^ w.width.toNat := by
  -- the number that is there together with the bytes ahead is what no round changes
  induction bytes generalizing skip filled value with
  | nil =>
    have hfull : ¬filled < w.width.toNat := by
      rw [List.length_nil] at hlength
      omega
    refine ⟨value, by rw [collect, if_neg hfull], ?_⟩
    rw [Bytes.toNat, Nat.zero_div, Nat.zero_mul, Nat.add_zero]
  | cons byte bytes ih =>
    rw [collect]
    by_cases hopen : filled < w.width.toNat
    · -- one more byte; those behind it are read from their lowest bit
      have hnext := toNat_or_shiftLeft byte hskip (hopen.trans_le w.width_le) hvalue
      have hbelow := add_shift_lt byte hskip hvalue
      rw [List.length_cons] at hlength
      obtain ⟨result, hresult, hmod⟩ := ih (show 0 < 8 by decide) (hnext ▸ hbelow) (by omega)
      refine ⟨result, by rw [if_pos hopen, hresult], ?_⟩
      rw [hmod, hnext, toNat_cons_shift byte bytes hskip filled, Nat.add_assoc]
    · -- the window is full, and the bytes ahead lie above it
      have hdvd : 2 ^ w.width.toNat ∣ 2 ^ filled := Nat.pow_dvd_pow 2 (Nat.not_lt.1 hopen)
      refine ⟨value, if_neg hopen, ?_⟩
      rw [Nat.add_mod, Nat.mod_eq_zero_of_dvd (hdvd.mul_left _), Nat.add_zero, Nat.mod_mod]

/-- Where the bytes end inside the window, the loop asks for one behind them. Only the first byte has
bits to skip, and none are there before it. -/
theorem collect_eq_none (hskip : skip < 8) (hstart : skip = 0 ∨ filled = 0)
    (hlength : filled + 8 * bytes.length < w.width.toNat + skip) :
    w.collect bytes skip filled value = none := by
  have hpos := w.width_pos
  induction bytes generalizing skip filled value with
  | nil =>
    rw [List.length_nil] at hlength
    rw [collect, if_pos (by omega)]
  | cons byte bytes ih =>
    rw [List.length_cons] at hlength
    rw [collect, if_pos (by omega), ih (by decide) (Or.inl rfl) (by omega)]

/-! ## Windows of a packet -/

/-- The mask leaves the lowest bits, of which a word of 32 has room for all. -/
theorem toNat_mask (w : Window) (value : UInt64) :
    (value &&& ((1 <<< w.width.toUInt64) - 1)).toUInt32.toNat =
      value.toNat % 2 ^ w.width.toNat := by
  have hwidth := w.width_le
  have hpow : 2 ^ w.width.toNat ≤ 2 ^ 32 := Nat.pow_le_pow_right (by decide) hwidth
  have hbit : ((1 : UInt64) <<< w.width.toUInt64).toNat = 2 ^ w.width.toNat := by
    rw [UInt64.toNat_shiftLeft, UInt32.toNat_toUInt64, Nat.mod_eq_of_lt (by omega : _ < 64),
      Nat.shiftLeft_eq, UInt64.toNat_one, Nat.one_mul, Nat.mod_eq_of_lt (by omega)]
  have hone : (1 : UInt64) ≤ 1 <<< w.width.toUInt64 := by
    rw [UInt64.le_iff_toNat_le, hbit]
    exact Nat.one_le_two_pow
  have hlt := Nat.mod_lt value.toNat (Nat.two_pow_pos w.width.toNat)
  rw [UInt64.toNat_toUInt32, UInt64.toNat_and, UInt64.toNat_sub_of_le _ _ hone, hbit,
    UInt64.toNat_one, Nat.and_two_pow_sub_one_eq_mod, Nat.mod_eq_of_lt (by omega)]

/-- **The bits of the window** at an offset are those of the number that the packet spells, if the
packet holds the window. -/
theorem exists_bits? {packet : Bytes} {offset : Nat}
    (h : offset + w.width.toNat ≤ 8 * packet.length) :
    ∃ bits, w.bits? packet offset = some bits ∧
      bits.toNat = packet.toNat / 2 ^ offset % 2 ^ w.width.toNat := by
  have hwidth := w.width_le
  have hlength : w.width.toNat + offset % 8 ≤ 0 + 8 * (packet.drop (offset / 8)).length := by
    rw [List.length_drop]
    omega
  have hempty : (0 : UInt64).toNat < 2 ^ 0 := by decide
  obtain ⟨result, hresult, hmod⟩ := exists_collect (Nat.mod_lt offset (by decide)) hempty hlength
  refine ⟨_, by rw [bits?, hresult, Option.map_some], ?_⟩
  rw [toNat_mask, hmod, UInt64.toNat_zero, Nat.zero_add, Nat.pow_zero, Nat.mul_one,
    Bytes.toNat_drop_bits]

theorem bits?_eq_none {packet : Bytes} {offset : Nat}
    (h : 8 * packet.length < offset + w.width.toNat) : w.bits? packet offset = none := by
  have hpos := w.width_pos
  rw [bits?, collect_eq_none (Nat.mod_lt offset (by decide)) (Or.inr rfl), Option.map_none]
  rw [List.length_drop]
  omega

end Window

end LossSketch
