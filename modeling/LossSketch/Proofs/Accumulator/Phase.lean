import LossSketch.Accumulator.Phase
import LossSketch.Proofs.Packet.Offset

/-!
# Buffers of packets

* `Buffer.foldlM_insert` — packets of the length of the session are kept.
* `Buffer.finalize_eq_ok` — finalizing computes the power sums of the fingerprints.
* `Buffer.exists_finalize` — it also succeeds where it chooses the offset itself.
-/

namespace LossSketch

namespace Buffer

theorem new_eq_ok {s : Session} (hs : s.Usable) : Buffer.new s = .ok ⟨s, #[]⟩ := by
  rw [new, Session.check_eq_ok_iff.2 hs]
  rfl

/-- Packets of the length of the session are kept. -/
theorem foldlM_insert (s : Session) {packets : List Bytes}
    (h : ∀ packet ∈ packets, s.packetBytes.toNat ≤ packet.length) :
    packets.foldlM insert ⟨s, #[]⟩ = .ok ⟨s, packets.toArray⟩ := by
  have hfold := foldlM_eq_ok (l := packets) (b := (⟨s, #[]⟩ : Buffer)) (f := insert)
    (g := fun b packet => { b with packets := b.packets.push packet })
    (P := fun b => b.session = s) ?_ rfl
  · -- packets are appended one after the other
    have hpush : ∀ (packets : List Bytes) (kept : Array Bytes),
        packets.foldl (fun b packet => { b with packets := b.packets.push packet })
          (⟨s, kept⟩ : Buffer) = ⟨s, kept ++ packets⟩ := by
      intro packets
      induction packets with
      | nil => simp
      | cons packet packets ih => simp [ih]
    rw [hfold.1, hpush]
    simp
  · rintro packet hpacket ⟨session, kept⟩ rfl
    exact ⟨if_neg (Nat.not_lt.2 (h packet hpacket)), rfl⟩

variable {s : Session} (hs : s.Usable) {packets : List Bytes}
include hs

/-- **Finalizing** computes the power sums of the fingerprints. -/
theorem finalize_eq_ok {offset : UInt64}
    (h : ∀ packet ∈ packets, hs.view.Within offset.toNat packet) :
    finalize ⟨s, packets.toArray⟩ (some offset) =
      .ok (.accumulate s offset (packets.map (hs.view.key offset.toNat))) := by
  unfold finalize
  simp only [hs.window_eq, pure_bind, ok_bind, Window.readAll_eq_ok h]
  rfl

/-- Finalizing at the offset chosen is finalizing without one. -/
theorem finalize_none_eq {best : Nat} (h : hs.view.bestOffset packets = .ok best) :
    finalize ⟨s, packets.toArray⟩ none = finalize ⟨s, packets.toArray⟩ (some (.ofNat best)) := by
  rw [finalize, finalize]
  simp only [bestOffset, hs.window_eq, ok_bind, h]
  rfl

/-- Without an offset, one is chosen at which all packets hold the window. -/
theorem exists_finalize_none (h : ∀ packet ∈ packets, hs.view.Within 0 packet) :
    ∃ offset : UInt64, (∀ packet ∈ packets, hs.view.Within offset.toNat packet) ∧
      finalize ⟨s, packets.toArray⟩ none = finalize ⟨s, packets.toArray⟩ (some offset) := by
  obtain ⟨offset, hbest, hwithin⟩ := Window.exists_bestOffset h
  refine ⟨.ofNat offset, fun packet hpacket => (hwithin packet hpacket).mono ?_,
    finalize_none_eq hs hbest⟩
  -- the offset is a word, which can only be lower
  rw [UInt64.toNat_ofNat']
  exact Nat.mod_le _ _

/-- Finalizing succeeds, at the offset given or at one that suits all packets. -/
theorem exists_finalize {choice : Option UInt64} (h : ∀ packet ∈ packets, hs.view.Within 0 packet)
    (hchoice : ∀ offset ∈ choice, ∀ packet ∈ packets, hs.view.Within offset.toNat packet) :
    ∃ offset : UInt64, (∀ given ∈ choice, offset = given) ∧
      (∀ packet ∈ packets, hs.view.Within offset.toNat packet) ∧
      finalize ⟨s, packets.toArray⟩ choice =
        .ok (.accumulate s offset (packets.map (hs.view.key offset.toNat))) := by
  cases choice with
  | none =>
    obtain ⟨offset, hwithin, hnone⟩ := exists_finalize_none hs h
    refine ⟨offset, fun given hgiven => absurd hgiven (Option.not_mem_none _), hwithin, ?_⟩
    rw [hnone, finalize_eq_ok hs hwithin]
  | some offset =>
    have hwithin := hchoice offset rfl
    exact ⟨offset, fun given hgiven => Option.some.inj hgiven, hwithin, finalize_eq_ok hs hwithin⟩

end Buffer

end LossSketch
