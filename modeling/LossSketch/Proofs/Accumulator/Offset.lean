import LossSketch.Proofs.Accumulator.Phase
import LossSketch.Proofs.Bucket.Image

/-!
# The offset of a buffer, used elsewhere

A buffer keeps packets that are longer than its session asks for, and chooses among the offsets at
which the shortest of its own packets holds the window. The other side and the tables of the session
go by lengths of their own.

* `Buffer.Reachable` — buffers of any packets that were kept.
* `Buffer.Reachable.exists_offset` — how such a buffer is finalized, at an offset given or chosen.
* `Buffer.chosen_offset` — the offset chosen can be used by all others exactly if the session admits
  it, which it does if some packet is no longer than the session asks for.
* `Buffer.chosen_offset_outside` — if all packets are longer, the session may not.
-/

namespace LossSketch

namespace Buffer

/-- **Buffers that can be filled**, from a new one by packets that were kept. -/
inductive Reachable : Buffer → Prop
  | new {s : Session} {b : Buffer} : Buffer.new s = .ok b → Reachable b
  | insert {b c : Buffer} {packet : Bytes} :
      Reachable b → b.insert packet = .ok c → Reachable c

theorem finalize_none_empty {s : Session} (hs : s.Usable) :
    finalize ⟨s, #[]⟩ none = finalize ⟨s, #[]⟩ (some 0) := by
  rw [finalize, finalize, bestOffset]
  simp only [hs.window_eq, ok_bind]
  rfl

namespace Reachable

/-- The session of a buffer is usable, and its packets are as long as the session asks for. -/
theorem usable_and_length_le {b : Buffer} (hb : b.Reachable) : b.session.Usable ∧
    ∀ packet ∈ b.packets.toList, b.session.packetBytes.toNat ≤ packet.length := by
  induction hb with
  | new hnew =>
    obtain ⟨⟨⟩, hcheck, hnew⟩ := bind_eq_ok.1 hnew
    cases hnew
    exact ⟨Session.check_eq_ok_iff.1 hcheck, fun packet hpacket => absurd hpacket List.not_mem_nil⟩
  | @insert b c packet _ hinsert ih =>
    unfold Buffer.insert at hinsert
    split at hinsert
    · cases hinsert
    · -- the packet kept is as long
      rename_i hlength
      cases hinsert
      refine ⟨ih.1, fun other hother => ?_⟩
      rw [Array.toList_push, List.mem_append, List.mem_singleton] at hother
      rcases hother with hmem | rfl
      · exact ih.2 other hmem
      · exact Nat.not_lt.1 hlength

variable {b : Buffer} (hb : b.Reachable)
include hb

theorem usable : b.session.Usable := hb.usable_and_length_le.1

/-- Offsets that the session admits suit all packets. -/
theorem within_of_admits {offset : UInt64} (hoffset : b.session.Admits offset) :
    ∀ packet ∈ b.packets.toList, hb.usable.view.Within offset.toNat packet := by
  intro packet hpacket
  have hlength := hb.usable_and_length_le.2 packet hpacket
  show offset.toNat + b.session.width.toNat ≤ 8 * packet.length
  unfold Session.Admits at hoffset
  omega

/-- A buffer is finalized at an offset exactly if all packets hold the window there. -/
theorem exists_finalize_some {offset : UInt64} : (∃ a, b.finalize (some offset) = .ok a) ↔
    ∀ packet ∈ b.packets.toList, hb.usable.view.Within offset.toNat packet := by
  rw [← Window.exists_readAll]
  unfold finalize
  simp only [hb.usable.window_eq, pure_bind, ok_bind]
  constructor
  · rintro ⟨a, h⟩
    obtain ⟨keys, hkeys, -⟩ := bind_eq_ok.1 h
    exact ⟨keys, hkeys⟩
  · rintro ⟨keys, hkeys⟩
    exact ⟨_, by rw [hkeys]; rfl⟩

/-- Finalizing accumulates the fingerprints at the offset given, or at one chosen that suits all
packets and is zero if there are none. -/
theorem exists_offset {choice : Option UInt64} {a : PowerSums} (h : b.finalize choice = .ok a) :
    ∃ offset : UInt64, (∀ given ∈ choice, offset = given) ∧
      (choice = none → b.packets = #[] → offset = 0) ∧
      (∀ packet ∈ b.packets.toList, hb.usable.view.Within offset.toNat packet) ∧
      a = .accumulate b.session offset
        (b.packets.toList.map (hb.usable.view.key offset.toNat)) := by
  cases choice with
  | some offset =>
    have hwithin := hb.exists_finalize_some.1 ⟨a, h⟩
    have heq := finalize_eq_ok hb.usable hwithin
    refine ⟨offset, fun given hgiven => Option.some.inj hgiven, nofun, hwithin, ?_⟩
    exact Except.ok.inj (h.symm.trans heq)
  | none =>
    -- the packets are at least as long as the window
    have hzero := hb.usable.admits_zero
    have hchosen : ∃ offset : UInt64, (b.packets = #[] → offset = 0) ∧
        (∀ packet ∈ b.packets.toList, hb.usable.view.Within offset.toNat packet) ∧
        b.finalize none = b.finalize (some offset) := by
      -- without packets nothing is scanned, and the offset is zero
      by_cases hempty : b.packets = #[]
      · refine ⟨0, fun _ => rfl, hb.within_of_admits hzero, ?_⟩
        have hsame := finalize_none_empty hb.usable
        rwa [← hempty] at hsame
      · obtain ⟨offset, hwithin, hsame⟩ :=
          exists_finalize_none hb.usable (hb.within_of_admits hzero)
        exact ⟨offset, fun h => absurd h hempty, hwithin, hsame⟩
    obtain ⟨offset, hnone, hwithin, hsame⟩ := hchosen
    refine ⟨offset, nofun, fun _ => hnone, hwithin, ?_⟩
    rw [hsame] at h
    exact Except.ok.inj (h.symm.trans (finalize_eq_ok hb.usable hwithin))

/-- The session admits the offset chosen, if some packet is no longer than it asks for or if there
are none. -/
theorem admits_of_finalize_none {a : PowerSums} (h : b.finalize none = .ok a)
    (hshort : b.packets = #[] ∨
      ∃ packet ∈ b.packets, packet.length = b.session.packetBytes.toNat) :
    b.session.Admits a.offset := by
  obtain ⟨offset, -, hnone, hwithin, rfl⟩ := hb.exists_offset h
  show offset.toNat + b.session.width.toNat ≤ _
  rcases hshort with hempty | ⟨packet, hpacket, hlength⟩
  · -- without packets the offset is zero
    rw [hnone rfl hempty]
    exact hb.usable.admits_zero
  · have hpacket := hwithin packet (Array.mem_toList_iff.2 hpacket)
    rwa [Window.Within, hlength] at hpacket

end Reachable

/-- Keeping packets one after the other fills a buffer. -/
theorem Reachable.foldlM {b c : Buffer} (hb : b.Reachable) {packets : List Bytes}
    (h : packets.foldlM Buffer.insert b = .ok c) : c.Reachable := by
  induction packets generalizing b with
  | nil => exact Except.ok.inj h ▸ hb
  | cons packet packets ih =>
    rw [List.foldlM_cons, bind_eq_ok] at h
    obtain ⟨next, hinsert, hrest⟩ := h
    exact ih (hb.insert hinsert) hrest

theorem reachable_of_length_le {s : Session} (hs : s.Usable) (packets : List Bytes)
    (h : ∀ packet ∈ packets, s.packetBytes.toNat ≤ packet.length) :
    Reachable ⟨s, packets.toArray⟩ :=
  (Reachable.new (new_eq_ok hs)).foldlM (foldlM_insert s h)

/-- **Whom the chosen offset suits.** All packets of the buffer that chose it hold the window there.
If one of them is no longer than the session asks for, or if there are none, the session admits the
offset. Where the session does, and only there, tables of the session can be built at it, and every
other buffer of the session can be finalized at it. A single other buffer can be exactly if all of
its packets hold the window. -/
theorem chosen_offset {sender : Buffer} (hsender : sender.Reachable) {a : PowerSums}
    (h : sender.finalize none = .ok a) :
    (∀ packet ∈ sender.packets,
      a.offset.toNat + sender.session.width.toNat ≤ 8 * packet.length) ∧
    ((sender.packets = #[] ∨
        ∃ packet ∈ sender.packets, packet.length = sender.session.packetBytes.toNat) →
      sender.session.Admits a.offset) ∧
    (∀ kind, (∃ t : Table kind, Table.new sender.session a.offset = .ok t) ↔
      sender.session.Admits a.offset) ∧
    (∀ receiver : Buffer, receiver.Reachable → receiver.session = sender.session →
      ((∃ r, receiver.finalize (some a.offset) = .ok r) ↔ ∀ packet ∈ receiver.packets,
        a.offset.toNat + sender.session.width.toNat ≤ 8 * packet.length)) ∧
    ((∀ receiver : Buffer, receiver.Reachable → receiver.session = sender.session →
        ∃ r, receiver.finalize (some a.offset) = .ok r) ↔ sender.session.Admits a.offset) := by
  have hs := hsender.usable
  obtain ⟨offset, -, -, hwithin, rfl⟩ := hsender.exists_offset h
  have hpackets : ∀ packet ∈ sender.packets,
      offset.toNat + sender.session.width.toNat ≤ 8 * packet.length :=
    fun packet hpacket => hwithin packet (Array.mem_toList_iff.2 hpacket)
  have htable : ∀ kind, sender.session.Admits offset →
      ∃ t : Table kind, Table.new sender.session offset = .ok t :=
    fun kind hoffset => ⟨_, Table.new_eq_ok hs hoffset⟩
  refine ⟨hpackets, hsender.admits_of_finalize_none h, fun kind => ⟨?_, htable kind⟩, ?_, ?_, ?_⟩
  · rintro ⟨t, ht⟩
    exact Table.admits_of_new ht
  · intro receiver hreceiver hsession
    have hwidth : sender.session.width = receiver.session.width := by rw [hsession]
    rw [hreceiver.exists_finalize_some, hwidth]
    simp only [Window.Within, Array.mem_toList_iff]
    rfl
  · -- the buffer of a shortest packet is one of those that must be finalized
    intro hall
    have hshortest : Reachable ⟨sender.session,
        [List.replicate sender.session.packetBytes.toNat 0].toArray⟩ := by
      refine reachable_of_length_le hs _ fun packet hpacket => ?_
      rw [List.mem_singleton.1 hpacket, List.length_replicate]
    have hwithin := hshortest.exists_finalize_some.1 (hall _ hshortest rfl) _ List.mem_cons_self
    rwa [Window.Within, List.length_replicate] at hwithin
  · intro hoffset receiver hreceiver hsession
    refine hreceiver.exists_finalize_some.2 (hreceiver.within_of_admits ?_)
    rw [hsession]
    exact hoffset

theorem chosen_offset_small : ∃ a r, finalize ⟨Session.small, #[[0, 4], [0, 8, 2]]⟩ none = .ok a ∧
    a.offset = 3 ∧ finalize ⟨Session.small, #[[5, 6], [7, 8, 9]]⟩ (some a.offset) = .ok r := by
  have hs := Session.check_eq_ok_iff.1 Session.check_small
  have hsender : Reachable ⟨Session.small, #[[0, 4], [0, 8, 2]]⟩ :=
    reachable_of_length_le hs [[0, 4], [0, 8, 2]] (by decide)
  have hreceiver : Reachable ⟨Session.small, #[[5, 6], [7, 8, 9]]⟩ :=
    reachable_of_length_le hs [[5, 6], [7, 8, 9]] (by decide)
  have hfinalize : finalize ⟨Session.small, #[[0, 4], [0, 8, 2]]⟩ none =
      .ok ⟨Session.small, 3, [11, 4], 2⟩ := by cbv
  obtain ⟨-, hshort, -, -, hall⟩ := chosen_offset hsender hfinalize
  obtain ⟨r, hr⟩ := hall.2 (hshort (.inr ⟨[0, 4], by simp, rfl⟩)) _ hreceiver rfl
  exact ⟨_, r, hfinalize, rfl, hr⟩

/-! ## Why it may not suit others -/

/-- Two packets of three bytes, of which the session asks for two. They agree in all windows of
their first two bytes, so the offset chosen lies behind these. A packet of two bytes does not hold
the window there, and no table can be built. -/
theorem chosen_offset_outside : ∃ (sender receiver : Buffer) (a : PowerSums),
    sender.Reachable ∧ receiver.Reachable ∧
      sender.session = Session.small ∧ receiver.session = Session.small ∧
      sender.finalize none = .ok a ∧ a.offset = 9 ∧ ¬ Session.small.Admits 9 ∧
      receiver.finalize (some a.offset) = .error (.packetTooShort 2 3) ∧
      ∀ kind, (Table.new Session.small a.offset : Except Error (Table kind)) =
        .error (.invalidConfig (.offsetOutside 9 8 2)) := by
  have hs := Session.check_eq_ok_iff.1 Session.check_small
  refine ⟨⟨Session.small, #[[0, 0, 1], [0, 0, 2]]⟩, ⟨Session.small, #[[0, 0]]⟩,
    ⟨Session.small, 9, [11, 4], 2⟩,
    reachable_of_length_le hs [[0, 0, 1], [0, 0, 2]] (by decide),
    reachable_of_length_le hs [[0, 0]] (by decide), rfl, rfl, by cbv, rfl, by decide,
    by cbv, fun kind => ?_⟩
  cases kind with
  | counting => decide +kernel
  | invertible => decide +kernel
  | summing => decide +kernel

end Buffer

end LossSketch
