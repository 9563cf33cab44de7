import LossSketch.Proofs.Packet.Window
import LossSketch.Proofs.Snapshot.Codec
import LossSketch.Snapshot.Layout

/-!
# What all snapshots begin with

* `Session.header` is the session, the offset and a number, and `Session.bind_read_header` says that
  these are read back, whatever the parameters are.
* `Session.checkSnapshot_eq_ok_iff` — a snapshot is refused for its session or for an offset that
  the session does not admit.
* `Decoder.read_bind_pure` and `Decoder.Reads.bind_read` go on behind what was read.
-/

namespace LossSketch

namespace Decoder

variable {α β : Type} {d : Decoder α} {bytes : Bytes}

theorem read_eq_ok {a : α} : d.read bytes = .ok a ↔ ∃ rest, d bytes = .ok (a, rest) := by
  unfold read
  cases d bytes with
  | error fault => exact ⟨nofun, nofun⟩
  | ok r =>
    constructor
    · rintro ⟨⟩
      exact ⟨r.2, rfl⟩
    · rintro ⟨rest, ⟨⟩⟩
      rfl

theorem Reads.read_eq {a : α} (h : d.Reads bytes a) : d.read bytes = .ok a :=
  read_eq_ok.2 ⟨[], by rw [← h [], List.append_nil]⟩

theorem Reads.bind_read {a : α} (h : d.Reads bytes a) (f : α → Decoder β) (rest : Bytes) :
    (d >>= f).read (bytes ++ rest) = (f a).read rest := by
  rw [read, read, h.bind_apply]

theorem read_bind_pure (g : α → β) :
    (d >>= fun a => pure (g a)).read bytes = d.read bytes >>= fun a => pure (g a) := by
  have hbind : (d >>= fun a => pure (g a)) bytes = d bytes >>= fun r => .ok (g r.1, r.2) := rfl
  rw [read, read, hbind]
  cases d bytes with
  | error fault => rfl
  | ok r => rfl

end Decoder

/-! ## Sessions -/

theorem Policy.reads_decoder (p : Policy) : decoder.Reads (Bytes.ofNat 4 p.code) p := by
  intro rest
  cases p with
  | shared => rw [decoder, (Decoder.reads_word (by decide)).bind_apply]; rfl
  | disjoint => rw [decoder, (Decoder.reads_word (by decide)).bind_apply]; rfl

namespace Session

theorem reads_decoder (s : Session) : decoder.Reads s.toBytes s := by
  intro rest
  -- all parameters are words, so their bytes hold them
  have hword32 : ∀ w : UInt32, w.toNat < 256 ^ 4 := fun w => w.toNat_lt
  have hword64 : ∀ w : UInt64, w.toNat < 256 ^ 8 := fun w => w.toNat_lt
  simp only [toBytes, List.append_assoc]
  rw [decoder, (Decoder.reads_word (hword64 _)).bind_apply,
    (Decoder.reads_word (hword32 _)).bind_apply, (Decoder.reads_word (hword32 _)).bind_apply,
    (Decoder.reads_word (hword32 _)).bind_apply, (Decoder.reads_word (hword64 _)).bind_apply,
    (Policy.reads_decoder _).bind_apply, (Decoder.reads_word (hword64 _)).bind_apply,
    (Decoder.reads_word (hword64 _)).bind_apply]
  simp only [UInt64.ofNat_toNat, UInt32.ofNat_toNat]
  rfl

variable {s : Session}

/-- A usable session refuses offsets alone. -/
theorem Usable.checkSnapshot_eq (hs : s.Usable) (offset : UInt64) : s.checkSnapshot offset =
    if s.Admits offset then .ok () else .error (.invalidConfig (.snapshotOffset offset.toNat)) := by
  rw [checkSnapshot, check_eq_ok_iff.2 hs, ok_bind, hs.window_eq, ok_bind, hs.any_lastOffset?]
  by_cases hoffset : s.Admits offset
  · rw [decide_eq_true hoffset, if_pos hoffset]
    rfl
  · rw [decide_eq_false hoffset, if_neg hoffset]
    rfl

theorem checkSnapshot_eq_ok_iff {offset : UInt64} :
    s.checkSnapshot offset = .ok () ↔ s.Usable ∧ s.Admits offset := by
  constructor
  · intro h
    -- the session is checked before the offset
    have hs : s.Usable := by
      obtain ⟨⟨⟩, hcheck, -⟩ := bind_eq_ok.1 h
      exact check_eq_ok_iff.1 hcheck
    rw [hs.checkSnapshot_eq] at h
    by_cases hoffset : s.Admits offset
    · exact ⟨hs, hoffset⟩
    · rw [if_neg hoffset] at h
      cases h
  · rintro ⟨hs, hoffset⟩
    rw [hs.checkSnapshot_eq, if_pos hoffset]

/-- What all snapshots begin with. -/
def header (s : Session) (offset : UInt64) (count : Nat) : Bytes :=
  s.toBytes ++ Bytes.ofNat 8 offset.toNat ++ Bytes.ofNat 8 count

/-- A decoder that begins with the header goes on behind it. -/
theorem bind_read_header {α : Type} (s : Session) (offset : UInt64) {count : Nat}
    (hcount : count < 2 ^ 64) (f : Session → Nat → Nat → Decoder α) (rest : Bytes) :
    (do f (← decoder) (← Decoder.word 8) (← Decoder.word 8) : Decoder α).read
      (s.header offset count ++ rest) = (f s offset.toNat count).read rest := by
  have hoffset : offset.toNat < 256 ^ 8 := offset.toNat_lt
  have hcount' : count < 256 ^ 8 := hcount
  simp only [header, List.append_assoc]
  rw [s.reads_decoder.bind_read, (Decoder.reads_word hoffset).bind_read,
    (Decoder.reads_word hcount').bind_read]

end Session

end LossSketch
