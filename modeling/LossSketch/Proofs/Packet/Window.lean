import LossSketch.Proofs.Error
import LossSketch.Proofs.Packet.Bits
import LossSketch.Proofs.Session

/-!
# Fingerprints that a session reads

* `Session.Usable.view` is the window of a usable session, and `Session.Usable.window_eq` says that
  it is the one that the session reads through.
* `Window.key` is the fingerprint at an offset, for packets that hold the window there, and
  `Window.read_eq_ok` says that they are read without error. `Window.exists_readAll` says that no
  others are.
* `Window.key_lt` — fingerprints are below the modulus.
* `Window.read_window` — a fingerprint is the number in the window, brought below the modulus.
* `Window.readChecked_window` — so it is in words, unless the end of the window is none.
  `Window.readChecked_edge` is a window behind the last word. `Window.lastOffsetChecked?_of_lt` —
  the last offset is the same in words.
* `Session.Admits` — packets of the length of the session hold the window at an offset.
-/

namespace LossSketch

namespace Window

variable {w : Window}

/-- The packet holds the window at an offset. -/
def Within (w : Window) (offset : Nat) (packet : Bytes) : Prop :=
  offset + w.width.toNat ≤ 8 * packet.length

instance (w : Window) (offset : Nat) (packet : Bytes) : Decidable (w.Within offset packet) :=
  inferInstanceAs (Decidable (_ ≤ _))

/-- The number that the window at bit `offset` spells. -/
def bitsAt (w : Window) (packet : Bytes) (offset : Nat) : Nat :=
  (Bytes.toNat ((packet.drop (offset / 8)).take (w.bytesNeeded offset - offset / 8))
    >>> (offset % 8)) % (1 <<< w.width.toNat)

/-- The bytes that the window touches have all of its bits. -/
theorem bitsAt_eq (w : Window) (packet : Bytes) (offset : Nat) :
    w.bitsAt packet offset = packet.toNat / 2 ^ offset % 2 ^ w.width.toNat := by
  -- the bytes touched are at least as long as the bits skipped with those of the window
  have htouched : offset % 8 + w.width.toNat ≤ 8 * (w.bytesNeeded offset - offset / 8) := by
    unfold bytesNeeded
    omega
  have hsplit : 256 ^ (w.bytesNeeded offset - offset / 8) = 2 ^ (offset % 8) *
      2 ^ (8 * (w.bytesNeeded offset - offset / 8) - offset % 8) := by
    rw [← Nat.pow_add, Nat.add_sub_cancel' (by omega), Nat.pow_mul]
  rw [bitsAt, Nat.shiftLeft_eq, Nat.one_mul, Nat.shiftRight_eq_div_pow, Bytes.toNat_take, hsplit,
    Nat.mod_mul_right_div_self, Nat.mod_mod_of_dvd _ (Nat.pow_dvd_pow 2 (by omega)),
    Bytes.toNat_drop_bits]

/-- The fingerprint at an offset. -/
def key (w : Window) (offset : Nat) (packet : Bytes) : UInt32 := w.settle (w.bitsAt packet offset)

theorem read_eq_ok {offset : Nat} {packet : Bytes} (h : w.Within offset packet) :
    w.read packet offset = .ok (w.key offset packet) := by
  have hle : w.bytesNeeded offset ≤ packet.length := by
    unfold Within at h
    unfold bytesNeeded
    omega
  -- the loop answers the same bits that the number of the packet has there
  obtain ⟨bits, hbits, hnumber⟩ := exists_bits? h
  rw [read, if_neg (Nat.not_lt.2 hle), hbits]
  show Except.ok (w.settle bits.toNat) = _
  rw [hnumber, ← bitsAt_eq, key]

/-- Packets that end inside the window are refused. -/
theorem read_eq_error {offset : Nat} {packet : Bytes} (h : ¬w.Within offset packet) :
    w.read packet offset = .error (.packetTooShort packet.length (w.bytesNeeded offset)) := by
  have hlt : packet.length < w.bytesNeeded offset := by
    unfold Within at h
    unfold bytesNeeded
    omega
  rw [read, if_pos hlt]

/-- Numbers are settled below the modulus. -/
theorem settle_lt (w : Window) (bits : Nat) : (w.settle bits).toNat < w.modulus.toNat := by
  have hmod := w.modulus.toNat_lt
  have hpos := w.two_le_modulus
  have hrem := Nat.mod_lt bits (show 0 < w.modulus.toNat by omega)
  rw [settle]
  split
  · -- below the modulus already
    rw [UInt32.toNat_ofNat']
    omega
  · split
    · -- a multiple of the modulus becomes the greatest residue
      have hone : (1 : UInt32) ≤ w.modulus := UInt32.le_iff_toNat_le.2 (by simpa using by omega)
      rw [UInt32.toNat_sub_of_le _ _ hone]
      simp
      omega
    · rw [UInt32.toNat_ofNat']
      omega

/-- Fingerprints are below the modulus. -/
theorem key_lt (w : Window) (offset : Nat) (packet : Bytes) :
    (w.key offset packet).toNat < w.modulus.toNat :=
  w.settle_lt _

theorem readAll_eq_ok {offset : Nat} {packets : List Bytes}
    (h : ∀ packet ∈ packets, w.Within offset packet) :
    w.readAll packets offset = .ok (packets.map (w.key offset)) :=
  mapM_eq_ok fun packet hpacket => read_eq_ok (h packet hpacket)

/-- Only packets that hold the window are read. -/
theorem within_of_read {offset : Nat} {packet : Bytes} {key : UInt32}
    (h : w.read packet offset = .ok key) : w.Within offset packet := by
  by_contra hshort
  rw [read_eq_error hshort] at h
  cases h

/-- Packets are read exactly if all of them hold the window. -/
theorem exists_readAll {offset : Nat} {packets : List Bytes} :
    (∃ keys, w.readAll packets offset = .ok keys) ↔ ∀ packet ∈ packets, w.Within offset packet := by
  constructor
  · rintro ⟨keys, h⟩ packet hpacket
    obtain ⟨key, hkey⟩ := exists_of_mapM_eq_ok h packet hpacket
    exact within_of_read hkey
  · exact fun h => ⟨_, readAll_eq_ok h⟩

/-! ## What a fingerprint says -/

theorem settle_of_lt {bits : UInt32} (h : bits < w.modulus) : w.settle bits.toNat = bits := by
  rw [settle, if_pos (UInt32.lt_iff_toNat_lt.1 h), UInt32.ofNat_toNat]

theorem settle_of_dvd {bits : UInt32} (h : w.modulus ≤ bits)
    (hdvd : w.modulus.toNat ∣ bits.toNat) : w.settle bits.toNat = w.modulus - 1 := by
  rw [settle, if_neg (Nat.not_lt.2 (UInt32.le_iff_toNat_le.1 h)),
    if_pos (Nat.mod_eq_zero_of_dvd hdvd)]

theorem settle_of_not_dvd {bits : UInt32} (h : w.modulus ≤ bits)
    (hndvd : ¬w.modulus.toNat ∣ bits.toNat) : w.settle bits.toNat = bits % w.modulus := by
  rw [settle, if_neg (Nat.not_lt.2 (UInt32.le_iff_toNat_le.1 h)),
    if_neg fun h0 => hndvd (Nat.dvd_of_mod_eq_zero h0), ← UInt32.toNat_mod, UInt32.ofNat_toNat]

/-- **A fingerprint is the number in the window**, brought below the modulus. Exactly the packets in
which the loop over the bytes would ask for one behind the end are refused. From every other packet
it collects the bits that the packet has there as a number, least significant byte first. They are
the fingerprint if they are below the modulus. A nonzero multiple of the modulus becomes the
greatest residue, and any other number its residue. -/
theorem read_window (w : Window) (packet : Bytes) (offset : Nat) :
    (∀ e, w.read packet offset = .error e ↔ 8 * packet.length < offset + w.width.toNat ∧
      e = .packetTooShort packet.length (w.bytesNeeded offset)) ∧
    (w.bits? packet offset = none ↔ 8 * packet.length < offset + w.width.toNat) ∧
    (offset + w.width.toNat ≤ 8 * packet.length → ∃ bits key,
      w.bits? packet offset = some bits ∧
      bits.toNat = packet.toNat / 2 ^ offset % 2 ^ w.width.toNat ∧
      w.read packet offset = .ok key ∧ key < w.modulus ∧
      (bits < w.modulus → key = bits) ∧
      (w.modulus ≤ bits → w.modulus.toNat ∣ bits.toNat → key = w.modulus - 1) ∧
      (w.modulus ≤ bits → ¬w.modulus.toNat ∣ bits.toNat → key = bits % w.modulus)) := by
  refine ⟨?_, ?_, ?_⟩
  · -- the length is checked first, and no other check can fail after it
    intro e
    by_cases hwithin : w.Within offset packet
    · rw [read_eq_ok hwithin]
      exact ⟨nofun, fun h => absurd hwithin (Nat.not_le.2 h.1)⟩
    · rw [read_eq_error hwithin]
      exact ⟨fun h => ⟨Nat.not_le.1 hwithin, (Except.error.inj h).symm⟩, fun h => by rw [h.2]⟩
  · refine ⟨fun hnone => Nat.lt_of_not_le fun hwithin => ?_, bits?_eq_none⟩
    obtain ⟨bits, hbits, -⟩ := exists_bits? hwithin
    exact absurd (hnone.symm.trans hbits) nofun
  · intro hwithin
    obtain ⟨bits, hbits, hnumber⟩ := exists_bits? hwithin
    have hread : w.read packet offset = .ok (w.settle bits.toNat) := by
      rw [read_eq_ok hwithin, key, bitsAt_eq, hnumber]
    exact ⟨bits, w.settle bits.toNat, hbits, hnumber, hread,
      UInt32.lt_iff_toNat_lt.2 (w.settle_lt _), settle_of_lt, settle_of_dvd, settle_of_not_dvd⟩

/-! ## Offsets in words -/

/-- The end of the window, rounded up to bytes, must be a word. -/
theorem bytesNeededChecked_of_lt {offset : UInt64} (h : offset.toNat + w.width.toNat + 7 < 2 ^ 64) :
    w.bytesNeededChecked offset = some (w.bytesNeeded offset.toNat) := by
  have hlast : unsigned? (offset.toNat + w.width.toNat) = some (offset.toNat + w.width.toNat) :=
    unsigned?_eq_some.2 ⟨by omega, rfl⟩
  have hraised := unsigned?_eq_some.2 ⟨h, rfl⟩
  rw [bytesNeededChecked, hlast, Option.bind_eq_bind, Option.bind_some, hraised]
  rfl

theorem readChecked_of_lt {packet : Bytes} {offset : UInt64}
    (h : offset.toNat + w.width.toNat + 7 < 2 ^ 64) :
    w.readChecked packet offset = Checked.report (w.read packet offset.toNat) := by
  rw [readChecked, bytesNeededChecked_of_lt h]
  by_cases hshort : packet.length < w.bytesNeeded offset.toNat
  · rw [read, if_pos hshort]
    exact if_pos hshort
  · exact if_neg hshort

theorem readChecked_of_le {packet : Bytes} {offset : UInt64}
    (h : 2 ^ 64 ≤ offset.toNat + w.width.toNat + 7) :
    w.readChecked packet offset = .error .overflow := by
  have hstops : w.bytesNeededChecked offset = none := by
    refine Option.eq_none_iff_forall_ne_some.2 fun needed hneeded => ?_
    obtain ⟨last, hlast, hneeded⟩ := Option.bind_eq_some_iff.1 hneeded
    obtain ⟨raised, hraised, -⟩ := Option.bind_eq_some_iff.1 hneeded
    obtain ⟨-, rfl⟩ := unsigned?_eq_some.1 hlast
    have hlt := (unsigned?_eq_some.1 hraised).1
    omega
  rw [readChecked, hstops]
  rfl

/-- The last offset is the same in words, wherever the bits of a packet are counted in one. -/
theorem lastOffsetChecked?_of_lt (w : Window) {bytes : Nat} (h : 8 * bytes < 2 ^ 64) :
    w.lastOffsetChecked? bytes = some (w.lastOffset? bytes) := by
  rw [lastOffsetChecked?, unsigned?_eq_some.2 ⟨h, rfl⟩]
  rfl

/-- **A fingerprint in words is the number in the window**, brought below the modulus. The run stops
exactly where the end of the window, rounded up to bytes, is no word, which holds for the last few
offsets only. At every other offset exactly the packets that end inside the window are refused, and
all others have the fingerprint that `read_window` describes. -/
theorem readChecked_window (w : Window) (packet : Bytes) (offset : UInt64) :
    (w.readChecked packet offset = .error .overflow ↔
      2 ^ 64 ≤ offset.toNat + w.width.toNat + 7) ∧
    (∀ e, w.readChecked packet offset = .error (.error e) ↔
      8 * packet.length < offset.toNat + w.width.toNat ∧
      offset.toNat + w.width.toNat + 7 < 2 ^ 64 ∧
      e = .packetTooShort packet.length (w.bytesNeeded offset.toNat)) ∧
    (w.bits? packet offset.toNat = none ↔ 8 * packet.length < offset.toNat + w.width.toNat) ∧
    (offset.toNat + w.width.toNat ≤ 8 * packet.length →
      offset.toNat + w.width.toNat + 7 < 2 ^ 64 → ∃ bits key,
      w.bits? packet offset.toNat = some bits ∧
      bits.toNat = packet.toNat / 2 ^ offset.toNat % 2 ^ w.width.toNat ∧
      w.readChecked packet offset = .ok key ∧ key < w.modulus ∧
      (bits < w.modulus → key = bits) ∧
      (w.modulus ≤ bits → w.modulus.toNat ∣ bits.toNat → key = w.modulus - 1) ∧
      (w.modulus ≤ bits → ¬w.modulus.toNat ∣ bits.toNat → key = bits % w.modulus)) := by
  obtain ⟨herror, hnone, hread⟩ := read_window w packet offset.toNat
  rcases Nat.lt_or_ge (offset.toNat + w.width.toNat + 7) (2 ^ 64) with hlt | hge
  · rw [readChecked_of_lt hlt]
    refine ⟨⟨fun hstops => ?_, fun hge => absurd hlt (Nat.not_lt.2 hge)⟩, fun e => ?_, hnone, ?_⟩
    · cases hr : w.read packet offset.toNat <;> rw [hr] at hstops <;> cases hstops
    · rw [Checked.report_eq_error, herror, and_iff_right hlt]
    · intro hwithin _
      obtain ⟨bits, key, hbits, hnumber, hkey, hsettled⟩ := hread hwithin
      exact ⟨bits, key, hbits, hnumber, Checked.report_eq_ok.2 hkey, hsettled⟩
  · rw [readChecked_of_le hge]
    refine ⟨⟨fun _ => hge, fun _ => rfl⟩, fun e => ⟨nofun, fun h => ?_⟩, hnone, fun _ hlt => ?_⟩
    · exact absurd h.2.1 (Nat.not_lt.2 hge)
    · exact absurd hlt (Nat.not_lt.2 hge)

/-- Four bits that begin in one byte and end in the next spell ten, twice the modulus. -/
theorem readChecked_window_alias :
    (6 : UInt64).toNat + 4 ≤ 8 * [(0x80 : UInt8), 0x02].length ∧
      (⟨4, 5, by decide, by decide, by decide⟩ : Window).readChecked [0x80, 0x02] 6 = .ok 4 := by
  obtain ⟨-, -, -, hread⟩ :=
    readChecked_window ⟨4, 5, by decide, by decide, by decide⟩ [0x80, 0x02] 6
  obtain ⟨bits, key, hbits, -, hkey, -, -, hmultiple, -⟩ := hread (by decide) (by decide)
  have hten : bits = 10 := by
    have hrun : (⟨4, 5, by decide, by decide, by decide⟩ : Window).bits? [0x80, 0x02] 6 =
      some 10 := by decide
    exact Option.some.inj (hbits.symm.trans hrun)
  subst hten
  rw [hkey, hmultiple (by decide) (by decide)]
  exact ⟨by decide, rfl⟩

/-- At the last offset the end of the window is no word. No packet holds that window, and yet a
packet of one byte is not refused as too short. -/
theorem readChecked_edge :
    8 * [(0x2a : UInt8)].length < (18446744073709551615 : UInt64).toNat + 8 ∧
      ∀ e, (⟨8, 251, by decide, by decide, by decide⟩ : Window).readChecked [0x2a]
        18446744073709551615 ≠ .error (.error e) := by
  refine ⟨by decide, fun e => ?_⟩
  rw [readChecked_of_le (by decide)]
  nofun

end Window

namespace Session

/-- Packets of the length of the session hold the window at the offset. -/
def Admits (s : Session) (offset : UInt64) : Prop :=
  offset.toNat + s.width.toNat ≤ 8 * s.packetBytes.toNat

instance (s : Session) (offset : UInt64) : Decidable (s.Admits offset) :=
  inferInstanceAs (Decidable (_ ≤ _))

/-- The window is not longer than the packets that the session asks for. -/
theorem Usable.admits_zero {s : Session} (hs : s.Usable) : s.Admits 0 := by
  have hwidth := hs.width_fits
  show 0 + s.width.toNat ≤ _
  omega

variable {s : Session} (hs : s.Usable)

/-- The window of a usable session. -/
def Usable.view : Window where
  width := s.width
  modulus := s.modulus
  width_pos := hs.width_pos
  width_le := hs.width_le
  two_le_modulus := hs.prime.two_le

/-- A usable session reads through its window. -/
theorem Usable.window_eq : s.window = .ok hs.view := by
  rw [window, Window.of, dif_pos ⟨hs.width_pos, hs.width_le⟩, dif_pos hs.prime.two_le]
  rfl

/-- The last offset of a session bounds those that it admits. -/
theorem Usable.any_lastOffset? (offset : UInt64) :
    (hs.view.lastOffset? s.packetBytes.toNat).any (offset.toNat ≤ ·) =
      decide (s.Admits offset) := by
  have hwidth := hs.width_fits
  have hfits : hs.view.width.toNat ≤ 8 * s.packetBytes.toNat := by
    show s.width.toNat ≤ _
    omega
  rw [Window.lastOffset?, if_pos hfits, Option.any_some]
  refine decide_eq_decide.2 ?_
  show offset.toNat ≤ 8 * s.packetBytes.toNat - s.width.toNat ↔ offset.toNat + s.width.toNat ≤ _
  omega

theorem Usable.reduced_key (offset : Nat) (packet : Bytes) :
    s.field.Reduced (hs.view.key offset packet) :=
  hs.view.key_lt offset packet

theorem Usable.reduced_keys (offset : Nat) (packets : List Bytes) :
    ∀ key ∈ packets.map (hs.view.key offset), s.field.Reduced key := by
  intro key hkey
  obtain ⟨packet, -, rfl⟩ := List.mem_map.1 hkey
  exact hs.reduced_key offset packet

end Session

end LossSketch
