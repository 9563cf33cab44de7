import LossSketch.Proofs.Accumulator.Decode
import LossSketch.Proofs.Accumulator.Phase
import LossSketch.Proofs.Losses.EndToEnd

/-!
# Tables and power sums find the same losses

Peeling takes keys out of buckets, and then a candidate for each of them. Decoding power sums scans
the log for roots of a polynomial. Both come to the lowest indices of each fingerprint.

* `Table.Decoded.lowest` — so does an accepted answer to which the solver adds nothing.
* `Table.indices_eq_of_bySolving` — so it lists what the power sums of the same packets decode into.
-/

namespace LossSketch

namespace Table

variable {kind : Kind}

/-- The pool offers candidates that are recorded as they are under their own keys. -/
theorem getD_ofCandidates_eq {diff : Table kind} {candidates : List UInt32}
    (hcanonical : ∀ key ∈ candidates, diff.canonical key = key) (key : UInt32) :
    (Pool.ofCandidates diff candidates).getD key [] =
      (List.range candidates.length).filter fun i => candidates.getD i 0 = key := by
  rw [Pool.getD_ofCandidates, filter_range]
  congr 1
  refine List.filter_congr fun e he => ?_
  rw [hcanonical e.1 (List.fst_mem_of_mem_zipIdx he)]

/-- **Peeling alone finds the lowest candidates.** An accepted answer to which the solver adds
nothing lists the first candidates of each key, as many as the difference holds of it. -/
theorem Decoded.lowest {diff : Table kind} {candidates : List UInt32}
    (hcanonical : ∀ key ∈ candidates, diff.canonical key = key) (hdiff : diff.WellFormed)
    {held : Multiset UInt32} (hheld : diff.Holds held) (hle : held ≤ candidates)
    {taken chosen : List Nat} {r : Losses}
    (h : diff.Decoded candidates (Multiset.card held) taken chosen r) (hsolved : r.bySolving = 0) :
    Lowest candidates held r.indices where
  ascending := h.pairwise_indices
  filter_eq key := by
    -- nothing is accepted but the candidates taken for the peeled keys
    have hperm := h.perm
    rw [h.chosen_eq_nil hsolved, originals, List.map_nil, List.append_nil] at hperm
    -- and the keys that were peeled are those held
    have hcount : diff.peel.recovered.count key = held.count key := by
      rw [← h.keysAt_indices_eq hcanonical hdiff hheld hle hsolved, Multiset.coe_count,
        ← keysAt_taken hcanonical h.taken_eq]
      exact ((hperm.map _).count_eq key).symm
    -- of each key the lowest candidates are taken
    have htaken := Pool.filter_takeAll (Pool.names_ofCandidates diff candidates) h.taken_eq key
    have hself : taken.filter (fun i => diff.canonical (candidates.getD i 0) = key) =
        taken.filter fun i => candidates.getD i 0 = key := by
      refine List.filter_congr fun i hi => ?_
      have hlt := Pool.lt_of_mem_takeAll h.taken_eq hi
      rw [hcanonical _ (List.getD_eq_getElem _ _ hlt ▸ List.getElem_mem hlt)]
    rw [hself, getD_ofCandidates_eq hcanonical, hcount] at htaken
    -- both sides are ascending, and list the same candidates
    refine (h.pairwise_indices.filter _).eq_of_mem_iff
      ((List.pairwise_lt_range.filter _).sublist (List.take_sublist _ _)) fun i => ?_
    rw [← htaken]
    exact (hperm.filter _).mem_iff

/-- **Tables and power sums find the same losses.** Let a receiver insert the packets of a log that
are not lost into a table and into a buffer, in any order, and let no more be lost than the degree.
Then the power sums of the log without those of the receiver decode. Whenever the table and the log
decode without any help of the solver, they come to the same indices, even where packets of the log
share a fingerprint. -/
theorem indices_eq_of_bySolving (kind : Kind) {s : Session} (hs : s.check = .ok ())
    {offset : UInt64} (hoffset : offset.toNat + s.width.toNat ≤ 8 * s.packetBytes.toNat)
    {log : List Bytes} (hlog : ∀ packet ∈ log, s.packetBytes.toNat ≤ packet.length)
    {lost : Finset Nat} (hlost : ∀ i ∈ lost, i < log.length) (hdegree : lost.card ≤ s.degree.toNat)
    {arrived : List Bytes} (harrived : arrived.Perm (kept log lost)) :
    ∃ (start received : Table kind) (blank sent got : Buffer) (whole part diff : PowerSums)
      (indices : List Nat),
      Table.new s offset = .ok start ∧
      arrived.foldlM (fun t packet => Prod.snd <$> t.insertPacket packet) start = .ok received ∧
      Buffer.new s = .ok blank ∧
      log.foldlM Buffer.insert blank = .ok sent ∧
      arrived.foldlM Buffer.insert blank = .ok got ∧
      sent.finalize (some offset) = .ok whole ∧
      got.finalize (some offset) = .ok part ∧
      whole.subtract part = .ok diff ∧
      diff.lossesFrom log = .ok indices ∧
      ∀ solver r, received.lossesFrom log solver = .ok r → r.bySolving = 0 →
        r.indices = indices := by
  have hu := Session.check_eq_ok_iff.1 hs
  have hwithin : ∀ packet ∈ log, hu.view.Within offset.toNat packet := by
    intro packet hpacket
    have hlength := hlog packet hpacket
    show offset.toNat + s.width.toNat ≤ 8 * packet.length
    omega
  have hsub := subset_of_perm_kept harrived
  have hwithin' : ∀ packet ∈ arrived, hu.view.Within offset.toNat packet :=
    fun packet hpacket => hwithin packet (hsub hpacket)
  have hperm := perm_kept_append hlost harrived (hu.view.key offset.toNat)
  have hle := coe_le_of_perm_append hperm
  -- the power sums decode into the lowest packets of each fingerprint
  have hcard : (keysAt (log.map (hu.view.key offset.toNat)) lost.sort).length = lost.card := by
    rw [length_keysAt, Finset.length_sort]
  obtain ⟨found, hfound, hmatches⟩ :=
    PowerSums.exists_lossesFrom hu hwithin hle (hcard.trans_le hdegree)
  -- and so does the table, where peeling finds everything
  obtain ⟨diff, hdiff, hwell, -, hheld, hcanonical⟩ :=
    exists_difference hu offset hperm kind (hu.reduced_keys offset.toNat log)
  refine ⟨Table.blank s offset, _, _, _, _, _, _, _, found.map Prod.snd, new_eq_ok hu hoffset,
    foldlM_insertPacket hu hwithin', Buffer.new_eq_ok hu, Buffer.foldlM_insert s hlog,
    Buffer.foldlM_insert s fun packet hpacket => hlog packet (hsub hpacket),
    Buffer.finalize_eq_ok hu hwithin, Buffer.finalize_eq_ok hu hwithin',
    PowerSums.subtract_accumulate hu.modulus_ne_zero offset hperm, hfound,
    fun solver r hr hsolved => ?_⟩
  have hread := mapM_fingerprint hu hwithin
    (session_tabulate kind s offset (arrived.map (hu.view.key offset.toNat)))
    (offset_tabulate kind s offset _)
  have hlosses := lossesFrom_eq hu offset hperm (List.length_map _) hread hdiff solver
  obtain ⟨taken, chosen, hdecoded⟩ := losses_eq_ok hwell (hlosses.symm.trans hr)
  exact (hdecoded.lowest hcanonical hwell hheld hle hsolved).unique hmatches.lowest

/-- The first and the third packet share a fingerprint. The third is lost, and both decoders find
the first instead. -/
theorem indices_eq_of_bySolving_small : ∃ (received : Table .invertible) (diff : PowerSums),
    [[5, 6], [1, 2], [3, 4]].foldlM (fun t packet => Prod.snd <$> t.insertPacket packet)
        (Table.blank Session.small 0) = .ok received ∧
      received.lossesFrom [[1, 2], [3, 4], [1, 9], [5, 6]] (Program.firstSolution · none) =
        .ok ⟨[0], 1, 0⟩ ∧
      diff.lossesFrom [[1, 2], [3, 4], [1, 9], [5, 6]] = .ok [0] := by
  have hoffset : (0 : UInt64).toNat + Session.small.width.toNat ≤
      8 * Session.small.packetBytes.toNat := by decide
  have hlog : ∀ packet ∈ ([[1, 2], [3, 4], [1, 9], [5, 6]] : List Bytes),
      Session.small.packetBytes.toNat ≤ packet.length := by decide
  have hlost : ∀ i ∈ ({2} : Finset Nat),
      i < ([[1, 2], [3, 4], [1, 9], [5, 6]] : List Bytes).length := by decide
  have hdegree : ({2} : Finset Nat).card ≤ Session.small.degree.toNat := by decide
  have harrived : ([[5, 6], [1, 2], [3, 4]] : List Bytes).Perm
      (kept [[1, 2], [3, 4], [1, 9], [5, 6]] {2}) := by decide
  obtain ⟨start, received, -, -, -, -, -, diff, indices, hnew, hreceived, -, -, -, -, -, -,
    hindices, hagree⟩ := indices_eq_of_bySolving .invertible Session.check_small hoffset hlog hlost
      hdegree harrived
  have hstart : (Table.new Session.small 0 : Except Error (Table .invertible)) =
      .ok (Table.blank Session.small 0) := by decide +kernel
  obtain rfl : start = Table.blank Session.small 0 := Except.ok.inj (hnew.symm.trans hstart)
  -- peeling finds the lost packet, and the solver has nothing to add
  have hinsert : [[5, 6], [1, 2], [3, 4]].foldlM
      (fun t packet => Prod.snd <$> t.insertPacket packet) (Table.blank Session.small 0) =
        .ok (small .invertible [5, 1, 3]) := by decide +kernel
  obtain rfl : received = small .invertible [5, 1, 3] :=
    Except.ok.inj (hreceived.symm.trans hinsert)
  have hlosses : (small .invertible [5, 1, 3]).lossesFrom [[1, 2], [3, 4], [1, 9], [5, 6]]
      (Program.firstSolution · none) = .ok ⟨[0], 1, 0⟩ := by cbv
  refine ⟨_, diff, hreceived, hlosses, ?_⟩
  rw [hindices, ← hagree _ _ hlosses rfl]

end Table

end LossSketch
