import LossSketch.Proofs.Accumulator.Decode
import LossSketch.Proofs.Accumulator.Forged
import LossSketch.Proofs.Accumulator.Offset
import LossSketch.Proofs.Trial.Transmission
import LossSketch.Trial.Run

/-!
# When a trial of power sums is correct

The difference between both ends is decoded. It holds what the receiver lacks, and, of a forging
receiver, takes out the fingerprint of the forgery.

* `Verdict.isCorrect_of_honest`, `Verdict.isCorrect_of_forged` — what is asked of decoding.
* `Transmission.Balanced.perm_of_honest`, `Transmission.Balanced.perm_of_forged` — the fingerprints
  that the receiver lacks.
* `PowerSums.lossesFrom_eq_ok_iff` — without a forgery, the packets lost are decoded if they are the
  first of their fingerprints.
* `PowerSums.lossesFrom_ne_ok_iff` — a forgery is accepted if it passes for what is missing.
* `Transmission.powerSumTrial_isCorrect` — so this is when a trial is correct.
-/

namespace LossSketch

/-! ## Verdicts -/

namespace Verdict

variable {t : Transmission} {result : Except Error (List Nat)}

/-- Of an honest receiver the losses must be decoded. -/
theorem isCorrect_of_honest (h : t.forged = none) :
    (of t result).isCorrect = true ↔ result = .ok t.lost := by
  unfold of
  rw [h]
  cases result with
  | error e => exact ⟨nofun, nofun⟩
  | ok indices =>
    dsimp only
    split
    · rename_i heq
      exact ⟨fun _ => congrArg _ heq, fun _ => rfl⟩
    · rename_i hne
      exact ⟨nofun, fun heq => absurd (Except.ok.inj heq) hne⟩

/-- A forging receiver must be refused. -/
theorem isCorrect_of_forged {r : Nat} (h : t.forged = some r) :
    (of t result).isCorrect = true ↔ ∀ indices, result ≠ .ok indices := by
  unfold of
  rw [h]
  cases result with
  | error e => exact ⟨fun _ => nofun, fun _ => rfl⟩
  | ok indices => exact ⟨nofun, fun hne => absurd rfl (hne indices)⟩

end Verdict

/-! ## What the receiver lacks -/

namespace Transmission

namespace Balanced

variable {count packetBytes : Nat} {forging : Bool} {t : Transmission}
  (h : t.Balanced count packetBytes forging) (key : Bytes → UInt32)
include h

/-- An honest receiver lacks what was lost. -/
theorem perm_of_honest (hhonest : t.forged = none) :
    (t.received.map key ++ keysAt (t.sent.map key) t.lost).Perm (t.sent.map key) := by
  have hperm := h.perm_reported key
  rwa [reported, hhonest] at hperm

/-- A forging receiver also lacks the packet that it replaced, and has the forgery. -/
theorem perm_of_forged {r : Nat} (hforged : t.forged = some r) :
    (t.received.map key ++ keysAt (t.sent.map key) (r :: t.lost)).Perm
      (key (forgery packetBytes) :: t.sent.map key) := by
  have hr : r < (t.sent.map key).length := by
    rw [List.length_map, h.length_sent]
    exact h.lt_of_mem_forged r hforged
  have hreported : (t.reported packetBytes).map key =
      (t.sent.map key).set r (key (forgery packetBytes)) := by
    rw [reported, hforged]
    exact List.map_set
  -- the packet replaced is not lost
  have hlost : keysAt ((t.reported packetBytes).map key) t.lost =
      keysAt (t.sent.map key) t.lost := by
    refine List.map_congr_left fun i hi => ?_
    have hne : r ≠ i := fun heq => h.not_mem_lost r hforged (heq ▸ hi)
    rw [hreported, List.getD_eq_getElem?_getD, List.getD_eq_getElem?_getD,
      List.getElem?_set_ne hne]
  have hperm := h.perm_reported key
  rw [hlost, hreported] at hperm
  have hset := (t.sent.map key).getD_set_perm_cons r (key (forgery packetBytes))
  rw [List.getElem?_eq_getElem hr, Option.getD_some, ← List.getD_eq_getElem _ 0 hr] at hset
  exact List.perm_middle.trans ((hperm.cons _).trans hset)

/-- All packets have the length of the session. -/
theorem length_of_mem_received {packet : Bytes} (hpacket : packet ∈ t.received) :
    packet.length = packetBytes := by
  have hreported := subset_of_perm_kept (List.Perm.of_eq h.received_eq) hpacket
  rw [reported] at hreported
  split at hreported
  · exact (h.of_mem_sent packet hreported).1
  · rcases List.mem_or_eq_of_mem_set hreported with hsent | rfl
    · exact (h.of_mem_sent packet hsent).1
    · exact List.length_replicate

end Balanced

end Transmission

/-! ## What the difference decodes into -/

namespace PowerSums

variable {s : Session} {offset : UInt64}

/-- Losses that are more than the degree are never decoded. -/
theorem lossesFrom_ne_ok_of_lt {sent seen : List UInt32} {diff : PowerSums}
    (hdiff : (accumulate s offset sent).subtract (accumulate s offset seen) = .ok diff)
    {lost : Nat} (hlength : seen.length + lost = sent.length) (hlt : s.degree.toNat < lost)
    (log : List Bytes) (indices : List Nat) : diff.lossesFrom log ≠ .ok indices := by
  intro hlosses
  rw [subtract_eq_ok] at hdiff
  cases hdiff
  -- the count of the difference is that of the losses
  obtain ⟨n, hsize, -⟩ := bind_eq_ok.1 hlosses
  obtain ⟨hcount, hle⟩ := size_eq_ok_iff.1 hsize
  dsimp only at hcount hle
  omega

section Log

variable (hs : s.Usable) {log : List Bytes}
  (hwithin : ∀ packet ∈ log, hs.view.Within offset.toNat packet)
  {seen : List UInt32} {diff : PowerSums}
  (hdiff : (accumulate s offset (log.map (hs.view.key offset.toNat))).subtract
    (accumulate s offset seen) = .ok diff)
include hwithin hdiff

/-- The packets lost are decoded exactly if they are the first of their fingerprints. -/
theorem lossesFrom_eq_ok_iff {lost : List Nat} (hascending : lost.Pairwise (· < ·))
    (hlt : ∀ i ∈ lost, i < log.length)
    (hperm : (seen ++ keysAt (log.map (hs.view.key offset.toNat)) lost).Perm
      (log.map (hs.view.key offset.toNat))) (hle : lost.length ≤ s.degree.toNat) :
    diff.lossesFrom log = .ok lost ↔ ∀ i ∈ lost, ∀ j < i, j ∉ lost →
      (log.map (hs.view.key offset.toNat)).getD j 0 ≠
        (log.map (hs.view.key offset.toNat)).getD i 0 := by
  rw [subtract_accumulate hs.modulus_ne_zero offset hperm] at hdiff
  cases hdiff
  obtain ⟨found, hfound, hmatches⟩ := exists_lossesFrom hs hwithin (coe_le_of_perm_append hperm)
    (by rwa [length_keysAt])
  -- what is found is the lowest of its fingerprints, and there is one such list
  rw [← lowest_keysAt_iff hascending (by simpa using hlt), hfound, Except.ok.injEq]
  constructor
  · rintro rfl
    exact hmatches.lowest
  · exact hmatches.lowest.unique

/-- A difference with a forgery is refused exactly if the forgery has none of the fingerprints that
are missing. -/
theorem lossesFrom_ne_ok_iff {missing : List UInt32} {mark : UInt32}
    (hmark : s.field.Reduced mark) (hperm : (seen ++ missing).Perm
      (mark :: log.map (hs.view.key offset.toNat))) (hle : missing.length ≤ s.degree.toNat) :
    (∀ indices, diff.lossesFrom log ≠ .ok indices) ↔ mark ∉ missing := by
  constructor
  · -- the forgery passes for one of the missing packets, and the others decode
    intro hrefused hmem
    have hothers : (seen ++ missing.erase mark).Perm (log.map (hs.view.key offset.toNat)) :=
      (List.perm_cons mark).1 ((List.perm_middle.symm.trans
        ((List.perm_cons_erase hmem).symm.append_left seen)).trans hperm)
    rw [subtract_accumulate hs.modulus_ne_zero offset hothers] at hdiff
    cases hdiff
    obtain ⟨found, hfound, -⟩ := exists_lossesFrom hs hwithin (coe_le_of_perm_append hothers)
      (List.length_erase_le.trans hle)
    exact hrefused _ hfound
  · -- what is decoded reproduces the difference, which accounts for the forgery
    intro hmem indices hlosses
    obtain ⟨keys, hkeys⟩ := exists_reproduces_of_lossesFrom hlosses
    obtain ⟨key, hkey, hresidue⟩ :=
      List.mem_map.1 (Multiset.mem_coe.1 (hkeys.residue_mem hdiff hs hperm hle))
    have hreduced : s.field.Reduced key := by
      rcases List.mem_cons.1 (hperm.subset (List.mem_append_right seen hkey)) with rfl | hsent
      · exact hmark
      · exact hs.reduced_keys _ log key hsent
    exact hmem ((Field.residue_inj hreduced hmark).1 hresidue ▸ hkey)

end Log

end PowerSums

/-! ## Trials -/

/-- Both ends are finalized at one offset, and the difference is decoded. -/
theorem powerSumResult_eq_ok {s : Session} (hs : s.Usable) {t : Transmission}
    (hsent : ∀ packet ∈ t.sent, s.packetBytes.toNat ≤ packet.length)
    (hreceived : ∀ packet ∈ t.received, s.packetBytes.toNat ≤ packet.length)
    {whole part diff : PowerSums} (hwhole : Buffer.finalize ⟨s, t.sent.toArray⟩ none = .ok whole)
    (hpart : Buffer.finalize ⟨s, t.received.toArray⟩ (some whole.offset) = .ok part)
    (hdiff : whole.subtract part = .ok diff) :
    powerSumResult s t = .ok (part, diff.lossesFrom t.sent) := by
  rw [powerSumResult, Buffer.new_eq_ok hs, ok_bind, Buffer.foldlM_insert s hsent, ok_bind,
    Buffer.foldlM_insert s hreceived, ok_bind, hwhole, ok_bind, hpart, ok_bind, hdiff]
  rfl

/-- A trial is the verdict on a result. -/
theorem exists_powerSumTrial_of_result {s : Session} {t : Transmission} {received : PowerSums}
    {result : Except Error (List Nat)} (h : powerSumResult s t = .ok (received, result)) :
    ∃ trial, powerSumTrial s t = .ok trial ∧ trial.verdict = .of t result := by
  refine ⟨⟨(Verdict.of t result).message?.toList, received.toBytes.length, .of t result⟩, ?_, rfl⟩
  rw [powerSumTrial, h]
  rfl

namespace Transmission

/-- **A trial of power sums never fails.** Both ends are finalized at an offset that the session
admits, and the difference of their power sums is decoded. -/
theorem Balanced.exists_powerSumTrial {s : Session} (hs : s.Usable) {count : Nat} {forging : Bool}
    {t : Transmission} (h : t.Balanced count s.packetBytes.toNat forging) :
    ∃ (blank sender : Buffer) (offset : UInt64) (diff : PowerSums) (trial : Trial),
      Buffer.new s = .ok blank ∧ t.sent.foldlM Buffer.insert blank = .ok sender ∧
      sender.finalize none =
        .ok (.accumulate s offset (t.sent.map (hs.view.key offset.toNat))) ∧
      s.Admits offset ∧
      (PowerSums.accumulate s offset (t.sent.map (hs.view.key offset.toNat))).subtract
        (.accumulate s offset (t.received.map (hs.view.key offset.toNat))) = .ok diff ∧
      powerSumTrial s t = .ok trial ∧ trial.verdict = .of t (diff.lossesFrom t.sent) := by
  have hsent : ∀ packet ∈ t.sent, s.packetBytes.toNat ≤ packet.length :=
    fun packet hpacket => (h.of_mem_sent packet hpacket).1.ge
  have hreceived : ∀ packet ∈ t.received, s.packetBytes.toNat ≤ packet.length :=
    fun packet hpacket => (h.length_of_mem_received hpacket).ge
  -- the sender chooses the offset
  have hreachable := Buffer.reachable_of_length_le hs t.sent hsent
  obtain ⟨offset, hwithin, hnone⟩ :=
    Buffer.exists_finalize_none hs (hreachable.within_of_admits hs.admits_zero)
  have hwhole := hnone.trans (Buffer.finalize_eq_ok hs hwithin)
  have hadmits : s.Admits offset := by
    refine hreachable.admits_of_finalize_none hwhole ?_
    by_cases hnil : t.sent = []
    · exact .inl (by rw [hnil])
    · obtain ⟨packet, hpacket⟩ := List.exists_mem_of_ne_nil _ hnil
      exact .inr ⟨packet, List.mem_toArray.2 hpacket, (h.of_mem_sent packet hpacket).1⟩
  -- the receiver takes it over
  have hpart := Buffer.finalize_eq_ok hs
    ((Buffer.reachable_of_length_le hs t.received hreceived).within_of_admits hadmits)
  have hdiff := PowerSums.subtract_eq_ok s offset (t.sent.map (hs.view.key offset.toNat))
    (t.received.map (hs.view.key offset.toNat))
  obtain ⟨trial, htrial, hverdict⟩ := exists_powerSumTrial_of_result
    (powerSumResult_eq_ok hs hsent hreceived hwhole hpart hdiff)
  exact ⟨_, _, offset, _, trial, Buffer.new_eq_ok hs, Buffer.foldlM_insert s hsent, hwhole, hadmits,
    hdiff, htrial, hverdict⟩

/-- **When a trial of power sums is correct.** Let a transmission be drawn for a checked session,
from any source. The trial succeeds, at the offset that the sender chooses for its log.

An honest receiver's losses are reported as they are exactly if they are not more than the degree
and no packet before a lost one has its fingerprint without being lost too. With fewer losses than
the degree, a forging receiver is refused exactly if the forgery has neither the fingerprint of a
lost packet nor that of the packet that it replaced. With more losses, it always is. -/
theorem powerSumTrial_isCorrect {σ : Type} [WordSource σ] {s : Session} (hs : s.check = .ok ())
    {count : Nat} {chance : Chance} {forging : Bool} {source rest : σ} {t : Transmission}
    (ht : draw count s.packetBytes.toNat chance forging source = some (t, rest)) :
    ∃ (blank sender : Buffer) (whole : PowerSums) (keys : List UInt32) (mark : UInt32)
      (trial : Trial),
      Buffer.new s = .ok blank ∧ t.sent.foldlM Buffer.insert blank = .ok sender ∧
      sender.finalize none = .ok whole ∧
      (s.window >>= fun w => w.readAll t.sent whole.offset.toNat) = .ok keys ∧
      (s.window >>= fun w => w.read (forgery s.packetBytes.toNat) whole.offset.toNat) = .ok mark ∧
      powerSumTrial s t = .ok trial ∧
      (t.forged = none → (trial.verdict.isCorrect = true ↔ t.lost.length ≤ s.degree.toNat ∧
        ∀ i ∈ t.lost, ∀ j < i, j ∉ t.lost → keys.getD j 0 ≠ keys.getD i 0)) ∧
      (∀ r, t.forged = some r → t.lost.length < s.degree.toNat →
        (trial.verdict.isCorrect = true ↔
          (∀ i ∈ t.lost, keys.getD i 0 ≠ mark) ∧ keys.getD r 0 ≠ mark)) ∧
      (∀ r, t.forged = some r → s.degree.toNat < t.lost.length →
        trial.verdict.isCorrect = true) := by
  have hu := Session.check_eq_ok_iff.1 hs
  have h := balanced_of_draw ht
  obtain ⟨blank, sender, offset, diff, trial, hblank, hsender, hwhole, hadmits, hdiff, htrial,
    hverdict⟩ := h.exists_powerSumTrial hu
  have hwithin : ∀ packet : Bytes, packet.length = s.packetBytes.toNat →
      hu.view.Within offset.toNat packet := by
    intro packet hpacket
    rwa [Window.Within, hpacket]
  have hlog : ∀ packet ∈ t.sent, hu.view.Within offset.toNat packet :=
    fun packet hpacket => hwithin packet (h.of_mem_sent packet hpacket).1
  -- losses beyond the degree are never decoded
  have hmany : s.degree.toNat < t.lost.length → ∀ indices, diff.lossesFrom t.sent ≠ .ok indices :=
    fun hlt => PowerSums.lossesFrom_ne_ok_of_lt hdiff (by simpa using h.length_received) hlt t.sent
  refine ⟨blank, sender, _, t.sent.map (hu.view.key offset.toNat),
    hu.view.key offset.toNat (forgery s.packetBytes.toNat), trial, hblank, hsender, hwhole, ?_, ?_,
    htrial, fun hhonest => ?_, fun r hforged hlt => ?_, fun r hforged hlt => ?_⟩
  · rw [hu.window_eq, ok_bind]
    exact Window.readAll_eq_ok hlog
  · rw [hu.window_eq, ok_bind]
    exact Window.read_eq_ok (hwithin _ List.length_replicate)
  · rw [hverdict, Verdict.isCorrect_of_honest hhonest]
    by_cases hle : t.lost.length ≤ s.degree.toNat
    · rw [and_iff_right hle]
      exact PowerSums.lossesFrom_eq_ok_iff hu hlog hdiff h.lost_ascending
        (fun i hi => h.length_sent ▸ h.lt_of_mem_lost i hi) (h.perm_of_honest _ hhonest) hle
    · exact ⟨fun hok => absurd hok (hmany (Nat.not_le.1 hle) _), fun hok => absurd hok.1 hle⟩
  · rw [hverdict, Verdict.isCorrect_of_forged hforged,
      PowerSums.lossesFrom_ne_ok_iff hu hlog hdiff (hu.reduced_key _ _)
        (h.perm_of_forged _ hforged) (by simpa using hlt)]
    rw [notMem_keysAt, List.forall_mem_cons, and_comm]
  · rw [hverdict, Verdict.isCorrect_of_forged hforged]
    exact hmany hlt

/-- Four packets are drawn, of which the last is lost and the second replaced by a forgery. The
forgery has the fingerprint of the first packet, but that one is not missing, and so it is
refused. -/
theorem powerSumTrial_isCorrect_seeded : ∃ (t : Transmission) (rest : Stream) (trial : Trial),
    draw 4 2 (.below 4611686018427387904) true (Stream.seeded 1) = some (t, rest) ∧
      t.sent = [[177, 234], [107, 216], [101, 3], [66, 220]] ∧ t.lost = [3] ∧ t.forged = some 1 ∧
      powerSumTrial Session.small t = .ok trial ∧ trial.verdict.isCorrect = true := by
  have hdrawn : (draw 4 2 (.below 4611686018427387904) true (Stream.seeded 1)).map
      (fun r => (r.1.sent, r.1.lost, r.1.forged)) =
        some ([[177, 234], [107, 216], [101, 3], [66, 220]], [3], some 1) := by decide +kernel
  obtain ⟨⟨t, rest⟩, ht, hfields⟩ := Option.map_eq_some_iff.1 hdrawn
  obtain ⟨hsent, hlost, hforged⟩ : t.sent = [[177, 234], [107, 216], [101, 3], [66, 220]] ∧
      t.lost = [3] ∧ t.forged = some 1 := by simpa using hfields
  obtain ⟨blank, sender, whole, keys, mark, trial, hblank, hsender, hwhole, hkeys, hmark, htrial, -,
    hrefused, -⟩ := powerSumTrial_isCorrect Session.check_small ht
  rw [hsent] at hsender hkeys
  -- the window is the first byte, so the fingerprints are these modulo thirteen
  obtain rfl : whole = ⟨Session.small, 0, [9, 5], 4⟩ := by
    have hbuffer : (do
        let sender ← [[177, 234], [107, 216], [101, 3], [66, 220]].foldlM Buffer.insert
          (← Buffer.new Session.small)
        sender.finalize none) = .ok whole := by
      rw [hblank, ok_bind, hsender, ok_bind, hwhole]
    exact Except.ok.inj (hbuffer.symm.trans (by cbv))
  obtain rfl : keys = [8, 3, 10, 1] := Except.ok.inj (hkeys.symm.trans (by cbv))
  obtain rfl : mark = 8 := Except.ok.inj (hmark.symm.trans (by cbv))
  have hcorrect := (hrefused 1 hforged (by rw [hlost]; decide)).2
    ⟨by rw [hlost]; decide, by decide⟩
  exact ⟨t, rest, trial, ht, hsent, hlost, hforged, htrial, hcorrect⟩

end Transmission

end LossSketch
