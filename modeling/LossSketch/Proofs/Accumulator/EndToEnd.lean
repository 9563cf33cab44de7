import LossSketch.Proofs.Accumulator.Decode
import LossSketch.Proofs.Accumulator.Phase

/-!
# Losses from power sums, end to end

* `PowerSums.lossesFrom_difference` — from the power sums of a log and those of the packets that
  arrived, the losses are found, up to packets of the same fingerprint.
-/

namespace LossSketch

namespace PowerSums

/-- **The losses are found.** Let a sender keep its log and a receiver those packets that are not
lost, in any order, and let both compute their power sums at one offset, given or chosen by the
sender. Then the difference and the log decode into as many packets as were lost, with the
fingerprints of the lost packets, and these are the first packets of the log with each fingerprint.
If all fingerprints differ, they are the lost packets. -/
theorem lossesFrom_difference {s : Session} (hs : s.check = .ok ()) {log : List Bytes}
    (hlog : ∀ packet ∈ log, s.packetBytes.toNat ≤ packet.length) {lost : Finset Nat}
    (hlost : ∀ i ∈ lost, i < log.length) (hdegree : lost.card ≤ s.degree.toNat)
    {arrived : List Bytes} (harrived : arrived.Perm (kept log lost)) {choice : Option UInt64}
    (hchoice : ∀ offset ∈ choice, ∀ packet ∈ log,
      offset.toNat + s.width.toNat ≤ 8 * packet.length) :
    ∃ (blank sent received : Buffer) (whole part diff : PowerSums) (keys : List UInt32)
      (indices : List Nat),
      Buffer.new s = .ok blank ∧
      log.foldlM Buffer.insert blank = .ok sent ∧
      arrived.foldlM Buffer.insert blank = .ok received ∧
      sent.finalize choice = .ok whole ∧ (∀ offset ∈ choice, whole.offset = offset) ∧
      received.finalize (some whole.offset) = .ok part ∧
      whole.subtract part = .ok diff ∧
      (s.window >>= fun w => w.readAll log whole.offset.toNat) = .ok keys ∧
      diff.lossesFrom log = .ok indices ∧
      indices.Pairwise (· < ·) ∧ (∀ i ∈ indices, i < log.length) ∧
      indices.length = lost.card ∧
      (keysAt keys indices).Perm (keysAt keys lost.sort) ∧
      (∀ key, indices.filter (fun i => keys.getD i 0 = key) =
        ((List.range log.length).filter fun i => keys.getD i 0 = key).take
          ((keysAt keys lost.sort).count key)) ∧
      (keys.Nodup → indices = lost.sort) := by
  have hu := Session.check_eq_ok_iff.1 hs
  -- a checked session has windows that its packets hold at the lowest offset
  have hfits : ∀ packet ∈ log, hu.view.Within 0 packet := by
    intro packet hpacket
    have hlength := hlog packet hpacket
    have hwidth := hu.width_fits
    show 0 + s.width.toNat ≤ 8 * packet.length
    omega
  have hsub := subset_of_perm_kept harrived
  obtain ⟨offset, hgiven, hwithin, hwhole⟩ := Buffer.exists_finalize hu hfits hchoice
  have hpart := Buffer.finalize_eq_ok hu fun packet hpacket => hwithin packet (hsub hpacket)
  have hperm := perm_kept_append hlost harrived (hu.view.key offset.toNat)
  have hdiff := subtract_accumulate hu.modulus_ne_zero offset hperm
  -- what is left of the power sums are those of the lost packets, which decode
  have hle := coe_le_of_perm_append hperm
  have hcard : (keysAt (log.map (hu.view.key offset.toNat)) lost.sort).length = lost.card := by
    rw [length_keysAt, Finset.length_sort]
  obtain ⟨found, hfound, hmatches⟩ := exists_lossesFrom hu hwithin hle (hcard.trans_le hdegree)
  -- what is found carries exactly the fingerprints asked for
  have hkeys : (keysAt (log.map (hu.view.key offset.toNat)) (found.map Prod.snd)).Perm
      (keysAt (log.map (hu.view.key offset.toNat)) lost.sort) := by
    rw [keysAt_map_snd fun e he => hmatches.sublist.subset he]
    refine Multiset.coe_eq_coe.1 (hmatches.coe_eq ?_)
    rwa [List.zipIdx_map_fst]
  have hpairwise := pairwise_map_snd hmatches.sublist
  have hlength : (log.map (hu.view.key offset.toNat)).length = log.length := List.length_map _
  have hlt : ∀ i ∈ found.map Prod.snd, i < log.length := by
    intro i hi
    obtain ⟨e, he, rfl⟩ := List.mem_map.1 hi
    exact hlength ▸ List.snd_lt_of_mem_zipIdx (hmatches.sublist.subset he)
  refine ⟨_, _, _, _, _, _, _, found.map Prod.snd, Buffer.new_eq_ok hu,
    Buffer.foldlM_insert s hlog,
    Buffer.foldlM_insert s fun packet hpacket => hlog packet (hsub hpacket), hwhole, hgiven, hpart,
    hdiff, ?_, hfound, hpairwise, hlt, ?_, hkeys, fun key => ?_, fun hnodup => ?_⟩
  · rw [hu.window_eq, ok_bind]
    exact Window.readAll_eq_ok hwithin
  · rw [← hcard, ← hkeys.length_eq, length_keysAt]
  · rw [hmatches.lowest.filter_eq, hlength, Multiset.coe_count]
  · exact eq_sort_of_perm_keysAt hnodup hpairwise (hlength ▸ hlt) (hlength ▸ hlost) hkeys

theorem lossesFrom_difference_small : ∃ (whole part diff : PowerSums) (indices : List Nat),
    whole.subtract part = .ok diff ∧
      diff.lossesFrom [[1, 2], [3, 4], [5, 6], [3, 7]] = .ok indices ∧ indices.length = 2 := by
  have hlog : ∀ packet ∈ ([[1, 2], [3, 4], [5, 6], [3, 7]] : List Bytes),
      Session.small.packetBytes.toNat ≤ packet.length := by decide
  have hlost : ∀ i ∈ ({1, 3} : Finset Nat),
      i < ([[1, 2], [3, 4], [5, 6], [3, 7]] : List Bytes).length := by decide
  have hdegree : ({1, 3} : Finset Nat).card ≤ Session.small.degree.toNat := by decide
  have harrived : ([[5, 6], [1, 2]] : List Bytes).Perm
      (kept [[1, 2], [3, 4], [5, 6], [3, 7]] {1, 3}) := by decide
  have hchoice : ∀ offset ∈ some (0 : UInt64),
      ∀ packet ∈ ([[1, 2], [3, 4], [5, 6], [3, 7]] : List Bytes),
        offset.toNat + Session.small.width.toNat ≤ 8 * packet.length := by
    rintro offset ⟨⟩
    decide
  obtain ⟨-, -, -, whole, part, diff, -, indices, -, -, -, -, -, -, hdiff, -, hindices, -, -,
    hlength, -⟩ := lossesFrom_difference Session.check_small hlog hlost hdegree harrived hchoice
  exact ⟨whole, part, diff, indices, hdiff, hindices, hlength⟩

end PowerSums

end LossSketch
