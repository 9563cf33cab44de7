import LossSketch.Proofs.Losses.Checked
import LossSketch.Proofs.Packet.Window

/-!
# Losses from tables, end to end

* `Table.losses_accepted` — nothing false is accepted, whatever the difference and the solver.
  `Table.lossesChecked_accepted` says so in words, and `Table.lossesChecked_wraps` that sums that
  wrap let something false through.
* `Table.exists_lossesFrom` — the losses of an honest receiver are found: as many packets as were
  lost, which reproduce what the two tables differ in.
* `Session.RoomFor` — a log is short enough for words. `Table.lossesFromChecked_honest` — the losses
  are then found in words, and a longer log may stop the run. `Table.lossesFromChecked_stops` is one
  that does.
-/

namespace LossSketch

namespace Table

variable {kind : Kind}

/-! ## Any difference -/

/-- **Nothing false is accepted.** Whatever the difference and the answers of the solver, an
accepted answer lists candidates once each, as many as expected, and inserting them gives back a
difference of counts or of field sums. -/
theorem losses_accepted {diff : Table kind} (hdiff : diff.WellFormed) {candidates : List UInt32}
    {expected : Nat} {solver : Solver} {r : Losses}
    (h : diff.losses candidates expected solver = .ok r) :
    r.indices.Pairwise (· < ·) ∧ (∀ i ∈ r.indices, i < candidates.length) ∧
      r.indices.length = r.byPeeling + r.bySolving ∧ r.indices.length = expected ∧
      (kind ≠ .invertible → (keysAt candidates r.indices).foldl insert diff.emptied = diff) := by
  obtain ⟨taken, chosen, hdecoded⟩ := losses_eq_ok hdiff h
  have hlength := hdecoded.length_indices
  refine ⟨hdecoded.pairwise_indices, fun i hi => hdecoded.lt_length hi, ?_,
    hlength.trans hdecoded.length_eq, fun hkind => hdecoded.foldl_insert_eq hdiff hkind⟩
  rw [hlength, hdecoded.losses_eq]

/-- **Nothing false is accepted in words**, whatever the difference and the answers of the solver.
Let sums out of range stop the test of an answer, or let there be room for the candidates. Then an
accepted answer lists candidates once each, as many as expected, of which peeling found as many as
it took out. Inserting them in words gives back a difference of counts or of field sums. -/
theorem lossesChecked_accepted {diff : Table kind} (hdiff : diff.WellFormed) (hfits : diff.Fits)
    {candidates : List UInt32} {expected : Nat} {overflow : Overflow}
    (hrange : overflow = .stops ∨ diff.RoomFor candidates.length) {solver : CheckedSolver}
    {r : Losses} (h : diff.lossesChecked overflow candidates expected solver = .ok r) :
    r.indices.Pairwise (· < ·) ∧ (∀ i ∈ r.indices, i < candidates.length) ∧
      r.indices.length = r.byPeeling + r.bySolving ∧ r.indices.length = expected ∧
      r.byPeeling = diff.peel.recovered.length ∧
      (kind ≠ .invertible →
        (keysAt candidates r.indices).foldlM insertChecked diff.emptied = some diff) := by
  obtain ⟨solver', hrefines⟩ := exists_lossesChecked_refines hdiff hrange hfits expected solver
  have hlosses := hrefines.eq_ok h
  obtain ⟨hascending, hlt, hlength, hexpected, hinsert⟩ := losses_accepted hdiff hlosses
  obtain ⟨taken, chosen, hdecoded⟩ := losses_eq_ok hdiff hlosses
  exact ⟨hascending, hlt, hlength, hexpected, hdecoded.byPeeling_eq,
    fun hkind => foldlM_insertChecked_emptied hdiff hfits (hinsert hkind)⟩

/-- The key 1 is peeled, and the other two are left to the solver. -/
theorem lossesChecked_accepted_small : ∃ r, (small .summing [1, 2, 5]).lossesChecked .stops
    [5, 11, 2, 1] 3 (Program.firstSolutionChecked · none) = .ok r ∧
      r.byPeeling = 1 ∧ r.bySolving = 2 ∧
      (keysAt [5, 11, 2, 1] r.indices).foldlM insertChecked (small .summing [1, 2, 5]).emptied =
        some (small .summing [1, 2, 5]) := by
  have hwell := wellFormed_small .summing [1, 2, 5]
  have hfits : (small .summing [1, 2, 5]).Fits := by decide +kernel
  have hroom : (small .summing [1, 2, 5]).RoomFor ([5, 11, 2, 1] : List UInt32).length := by
    decide +kernel
  have hcanonical : ∀ key ∈ [5, 11, 2, 1], (small .summing [1, 2, 5]).canonical key = key :=
    List.forall_iff_forall_mem.1 (by decide)
  have hpeel : (small .summing [1, 2, 5]).peel.recovered = [1] := by decide +kernel
  have hresidual : (small .summing [1, 2, 5]).peel.residual.Fits := by decide +kernel
  -- words are wide enough, and on numbers of any size an answer is accepted
  obtain ⟨r, hr⟩ := exists_losses hcanonical hwell (holds_small .summing [1, 2, 5]) (by decide)
  have hrun := (lossesChecked_refines_of_range hwell (Or.inl rfl) hfits hresidual 3).eq_report
    (not_not.2 hroom)
  rw [show (small .summing [1, 2, 5]).losses [5, 11, 2, 1] 3 _ = _ from hr] at hrun
  obtain ⟨-, -, hlength, hexpected, hpeeled, hinsert⟩ :=
    lossesChecked_accepted hwell hfits (Or.inl rfl) hrun
  rw [hpeel, List.length_singleton] at hpeeled
  exact ⟨r, hrun, hpeeled, by rw [hexpected, hpeeled] at hlength; omega, hinsert (by decide)⟩

/-- With sums that wrap, candidates are accepted that a solver names, and inserting them does not
give back the difference. -/
theorem lossesChecked_wraps : ∃ (diff : Table .summing) (solver : CheckedSolver) (r : Losses),
    diff.WellFormed ∧ diff.Fits ∧
    diff.lossesChecked .wraps (List.replicate 129 1) 129 solver = .ok r ∧
    (keysAt (List.replicate 129 1) r.indices).foldlM insertChecked diff.emptied ≠ some diff := by
  let values : List Int := List.replicate 129 1 ++ [4294967302]
  have hsolve : (crowdProgram 33554432 4328521728 33554462 1 129 129).solveChecked .wraps
      (fun _ => .ok (some values)) = .ok (List.range 129) :=
    Program.solveChecked_eq_ok_iff.2 ⟨by decide +kernel, values, rfl, isSolutionChecked_crowded,
      selected_crowded, List.length_range⟩
  have hsolved : (List.range 129).map (fun i => (List.range 129).toArray.getD i 0) =
      List.range 129 := by
    decide +kernel
  have hsorted : (List.range 129).mergeSort (· ≤ ·) = List.range 129 :=
    List.mergeSort_of_pairwise (by decide +kernel)
  have hrun : crowded.lossesChecked .wraps (List.replicate 129 1) 129
      (fun _ => .ok (some values)) = .ok ⟨List.range 129, 0, 129⟩ := by
    refine (lossesChecked_crowd (by decide) (by decide) (by decide) (by decide) (by decide)
      129 129 _ _).trans ?_
    rw [hsolve]
    show Except.ok (⟨List.mergeSort (List.map _ (List.range 129)) _, 0, List.length _⟩ : Losses) = _
    rw [hsolved, hsorted, List.length_range]
  refine ⟨crowded, _, _, wellFormed_crowded, fits_crowded, hrun, ?_⟩
  rw [keysAt_range_crowded, foldlM_insertChecked_eq wellFormed_crowded.emptied (fits_replicate _)]
  intro hinsert
  split at hinsert
  · refine not_madeUpBy_crowded fun b _ => ?_
    rw [Option.some.inj hinsert]
    exact ⟨rfl, rfl⟩
  · cases hinsert

/-! ## Tables of packets -/

/-- The tables of a session and an offset read the same fingerprints of a log. -/
theorem mapM_fingerprint {s : Session} (hs : s.Usable) {offset : UInt64} {log : List Bytes}
    (h : ∀ packet ∈ log, hs.view.Within offset.toNat packet) {t : Table kind}
    (hsession : t.session = s) (hoffset : t.offset = offset) :
    log.mapM t.fingerprint = .ok (log.map (hs.view.key offset.toNat)) := by
  subst hsession hoffset
  exact mapM_eq_ok fun packet hpacket => fingerprint_eq_ok hs (h packet hpacket)

/-- They do so in words, where the bits of a packet are counted in one. -/
theorem mapM_fingerprintChecked {s : Session} (hs : s.Usable)
    (hbits : s.packetBytes.toNat * 8 < 2 ^ 64) {offset : UInt64} (hadmits : s.Admits offset)
    {log : List Bytes} (h : ∀ packet ∈ log, hs.view.Within offset.toNat packet) {t : Table kind}
    (hsession : t.session = s) (hoffset : t.offset = offset) :
    log.mapM t.fingerprintChecked = .ok (log.map (hs.view.key offset.toNat)) := by
  subst hsession hoffset
  exact mapM_eq_ok fun packet hpacket =>
    fingerprintChecked_eq_ok hs hbits hadmits (h packet hpacket)

/-- Inserting packets is inserting their fingerprints. -/
theorem foldlM_insertPacket {t : Table kind} (hs : t.session.Usable) {packets : List Bytes}
    (h : ∀ packet ∈ packets, hs.view.Within t.offset.toNat packet) :
    packets.foldlM (fun t packet => Prod.snd <$> t.insertPacket packet) t =
      .ok ((packets.map (hs.view.key t.offset.toNat)).foldl insert t) := by
  -- inserting keeps the session and the offset, which the fingerprints depend on
  have hfold := foldlM_eq_ok (l := packets) (b := t)
    (f := fun t packet => Prod.snd <$> insertPacket t packet)
    (g := fun u packet => u.insert (hs.view.key t.offset.toNat packet))
    (P := fun u => u.session = t.session ∧ u.offset = t.offset) ?_ ⟨rfl, rfl⟩
  · rw [hfold.1, List.foldl_map]
  · rintro packet hpacket ⟨session, offset, cells⟩ ⟨rfl, rfl⟩
    refine ⟨?_, rfl, rfl⟩
    have hread := fingerprint_eq_ok (t := ⟨t.session, t.offset, cells⟩) hs (h packet hpacket)
    rw [insertPacket, hread]
    rfl

section

variable {s : Session} (hs : s.Usable) (offset : UInt64) {keys others held : List UInt32}
  (hperm : (others ++ held).Perm keys)
include hs hperm

/-- The table of the keys of a log without that of some of them holds the others, and records them
as they are. -/
theorem exists_difference (kind : Kind) (hreduced : ∀ key ∈ keys, s.field.Reduced key) :
    ∃ diff : Table kind,
      (tabulate kind s offset keys).subtract (tabulate kind s offset others) = .ok diff ∧
      diff.WellFormed ∧ diff.session = s ∧ diff.Holds held ∧
      ∀ key ∈ keys, diff.canonical key = key := by
  have hsent := wellFormed_tabulate kind offset keys hs
  have hreceived := wellFormed_tabulate kind offset others hs
  have hsession : (tabulate kind s offset others).session =
      (tabulate kind s offset keys).session := by
    rw [session_tabulate, session_tabulate]
  have hoffset : (tabulate kind s offset others).offset = (tabulate kind s offset keys).offset := by
    rw [offset_tabulate, offset_tabulate]
  obtain ⟨diff, hdiff, hwell, hdsession, -, -⟩ :=
    exists_subtract hsent hreceived (checkAlike_self hsession hoffset)
  refine ⟨diff, hdiff, hwell, hdsession.trans (session_tabulate _ _ _ _), ?_,
    fun key hkey => canonical_eq_self hwell.usable fun _ => ?_⟩
  · -- the difference holds what did not arrive
    refine Holds.of_subtract hsent hreceived hsession hoffset hdiff ?_
      (holds_tabulate kind offset others hs)
    rw [Multiset.coe_add, Multiset.coe_eq_coe.2 hperm]
    exact holds_tabulate kind offset keys hs
  · rw [hdsession, session_tabulate]
    exact hreduced key hkey

/-- What a receiver lacks of the keys of a log decodes into as many of them. -/
theorem exists_decoded (kind : Kind) (hreduced : ∀ key ∈ keys, s.field.Reduced key) :
    ∃ (diff : Table kind) (taken chosen : List Nat) (r : Losses),
      (tabulate kind s offset keys).subtract (tabulate kind s offset others) = .ok diff ∧
      diff.losses keys held.length (Program.firstSolution · none) = .ok r ∧
      diff.WellFormed ∧ diff.Decoded keys held.length taken chosen r ∧
      (r.bySolving = 0 → (keysAt keys r.indices).Perm held) := by
  obtain ⟨diff, hdiff, hwell, -, hheld, hcanonical⟩ :=
    exists_difference hs offset hperm kind hreduced
  have hle := coe_le_of_perm_append hperm
  -- the difference decodes, and where peeling found everything it found what is held
  obtain ⟨r, hr⟩ := exists_losses hcanonical hwell hheld hle
  rw [Multiset.coe_card] at hr
  obtain ⟨taken, chosen, hdecoded⟩ := losses_eq_ok hwell hr
  exact ⟨diff, taken, chosen, r, hdiff, hr, hwell, hdecoded, fun hsolved =>
    Multiset.coe_eq_coe.1 (hdecoded.keysAt_indices_eq hcanonical hwell hheld hle hsolved)⟩

/-- A receiver of other keys of a log decodes what it lacks. -/
theorem lossesFrom_eq {log : List Bytes} (hlength : keys.length = log.length)
    (hkeys : log.mapM (tabulate kind s offset others).fingerprint = .ok keys) {diff : Table kind}
    (hdiff : (tabulate kind s offset keys).subtract (tabulate kind s offset others) = .ok diff)
    (solver : Solver) : (tabulate kind s offset others).lossesFrom log solver =
      diff.losses keys held.length solver := by
  have hwell := wellFormed_tabulate kind offset others hs
  -- the counts of the received table tell how many packets are missing
  have hcount : (log.length : Int) - (tabulate kind s offset others).keyCount = held.length := by
    rw [(holds_tabulate kind offset others hs).keyCount hwell, Multiset.coe_card, ← hlength,
      ← hperm.length_eq, List.length_append]
    push_cast
    ring
  have hsent : keys.foldl insert (blank s offset) = tabulate kind s offset keys := rfl
  simp only [lossesFrom, hkeys, hcount, emptied_tabulate, ok_bind]
  rw [if_neg (by omega), hsent, hdiff, ok_bind, Int.toNat_natCast]

end

/-- What a receiver of some packets of a log decodes. -/
theorem exists_lossesFrom (kind : Kind) {s : Session} (hs : s.Usable) (offset : UInt64)
    {log : List Bytes} (hlog : ∀ packet ∈ log, hs.view.Within offset.toNat packet)
    {lost : Finset Nat} (hlost : ∀ i ∈ lost, i < log.length) {arrived : List Bytes}
    (harrived : arrived.Perm (kept log lost)) {keys others : List UInt32}
    (hkeys : keys = log.map (hs.view.key offset.toNat))
    (hothers : others = arrived.map (hs.view.key offset.toNat)) :
    ∃ (diff : Table kind) (r : Losses),
      (tabulate kind s offset keys).subtract (tabulate kind s offset others) = .ok diff ∧
      (tabulate kind s offset others).lossesFrom log (Program.firstSolution · none) = .ok r ∧
      diff.WellFormed ∧
      r.indices.Pairwise (· < ·) ∧ (∀ i ∈ r.indices, i < log.length) ∧
      r.indices.length = lost.card ∧ r.indices.length = r.byPeeling + r.bySolving ∧
      r.byPeeling = diff.peel.recovered.length ∧
      diff.MadeUpBy (keysAt keys r.indices) ∧
      (r.bySolving = 0 → (keysAt keys r.indices).Perm (keysAt keys lost.sort)) ∧
      ((∀ other : Finset Nat, (∀ i ∈ other, i < log.length) →
        diff.MadeUpBy (keysAt keys other.sort) → other = lost) → r.indices = lost.sort) := by
  subst hkeys hothers
  have hperm := perm_kept_append hlost harrived (hs.view.key offset.toNat)
  obtain ⟨diff, taken, chosen, r, hdiff, hr, hwell, hdecoded, hpeeled⟩ :=
    exists_decoded hs offset hperm kind (hs.reduced_keys offset.toNat log)
  have hmade := hdecoded.madeUpBy hwell
  have hlt : ∀ i ∈ r.indices, i < log.length := fun i hi => by simpa using hdecoded.lt_length hi
  refine ⟨diff, r, hdiff, ?_, hwell, hdecoded.pairwise_indices, hlt, ?_, ?_, hdecoded.byPeeling_eq,
    hmade, hpeeled, fun honly => ?_⟩
  · -- the receiver forms this very difference
    rw [← hr]
    exact lossesFrom_eq hs offset hperm (List.length_map _)
      (mapM_fingerprint hs hlog (session_tabulate _ _ _ _) (offset_tabulate _ _ _ _)) hdiff _
  · rw [hdecoded.length_indices, hdecoded.length_eq, length_keysAt, Finset.length_sort]
  · rw [hdecoded.length_indices, hdecoded.losses_eq]
  · -- the indices found are a set that reproduces the difference
    have hsort := sort_toFinset hdecoded.pairwise_indices
    rw [← honly r.indices.toFinset (fun i hi => hlt i (List.mem_toFinset.1 hi))
      (hsort.symm ▸ hmade), hsort]

/-! ## Tables of packets in words -/

end Table

/-- Words are wide enough for the tables of `n` packets and for the programs of their differences.
Each packet can put one for each hash function into the count of a bucket, and into its sum less
than the modulus for each, and the modulus is taken off as often as the bucket counts. -/
def Session.RoomFor (s : Session) (kind : Kind) (n : Nat) : Prop :=
  (s.hashes.toNat : Int) * n < 2 ^ 63 ∧
    (kind = .summing → (s.modulus.toNat : Int) * (2 * (s.hashes.toNat * n)) < 2 ^ 63)

instance (s : Session) (kind : Kind) (n : Nat) : Decidable (s.RoomFor kind n) :=
  inferInstanceAs (Decidable (_ ∧ _))

namespace Table

section

variable {kind : Kind} {s : Session} {n : Nat} (h : s.RoomFor kind n)
include h

/-- There is room for some of `n` keys in each bucket. -/
theorem fits_of_roomFor {t : Table kind} (hsession : t.session = s) {keys : Multiset UInt32}
    (hkeys : t.Holds keys) (hle : Multiset.card keys ≤ n) : t.Fits := by
  have hmul := Nat.mul_le_mul_left s.hashes.toNat hle
  have hroom := h.1
  refine hkeys.fits ?_
  rw [hsession]
  omega

/-- There is room for the `n` keys in the program of some of them. -/
theorem roomFor_of_roomFor {t : Table kind} (hsession : t.session = s) {keys : Multiset UInt32}
    (hkeys : t.Holds keys) (hle : Multiset.card keys ≤ n) : t.RoomFor n := by
  subst hsession
  refine ⟨h.1, fun hkind b _ => lt_of_le_of_lt ?_ (h.2 hkind)⟩
  have hmul := Int.ofNat_le.2 (Nat.mul_le_mul_left t.session.hashes.toNat hle)
  have hcount := hkeys.count_le b
  push_cast at hmul
  exact mul_le_mul_of_nonneg_left (by omega) (Int.natCast_nonneg _)

end

section

variable {kind : Kind} {s : Session} (hs : s.Usable) (offset : UInt64)
include hs

/-- Inserting the keys of a log stops only where there is no room for it. -/
theorem insertChecked_refines {keys : List UInt32} {n : Nat} (hle : keys.length ≤ n) :
    Checked.Refines (¬ s.RoomFor kind n)
      (Checked.step (keys.foldlM insertChecked (blank s offset : Table kind)))
      (.ok (tabulate kind s offset keys)) := by
  rw [foldlM_insertChecked_blank hs]
  refine (Checked.Refines.step_ite _ _).mono (mt fun h => ?_)
  exact fits_of_roomFor h (session_tabulate _ _ _ _) (holds_tabulate kind offset keys hs) hle

/-- So does counting keys of the log. -/
theorem keyCountChecked_tabulate_refines {keys : List UInt32} {n : Nat} (hle : keys.length ≤ n) :
    Checked.Refines (¬ s.RoomFor kind n)
      (Checked.step (tabulate kind s offset keys).keyCountChecked)
      (.ok (tabulate kind s offset keys).keyCount) := by
  have hkeys := holds_tabulate kind offset keys hs
  refine (keyCountChecked_refines fun c hc => ?_).mono (mt fun h => ?_)
  · obtain ⟨b, hb, rfl⟩ := Array.mem_iff_getElem.1 hc
    exact cell_of_lt hb ▸ hkeys.count_nonneg b
  · -- the counts of all buckets come to one for each key and hash function
    have hroom := h.1
    have hmul := Nat.mul_le_mul_left s.hashes.toNat hle
    rw [hkeys.total (wellFormed_tabulate kind offset keys hs), session_tabulate, Multiset.coe_card]
    constructor <;> omega

/-- A receiver that decodes the keys of a log in words makes the tables that it would make on
numbers of any size. -/
theorem exists_peelChecked {keys others : List UInt32} {log : List Bytes} {overflow : Overflow}
    {solver : CheckedSolver}
    (hkeys : log.mapM (tabulate kind s offset others).fingerprintChecked = .ok keys)
    {diff : Table kind}
    (hdiff : (tabulate kind s offset keys).subtract (tabulate kind s offset others) = .ok diff)
    (hwell : diff.WellFormed) {r : Losses}
    (h : (tabulate kind s offset others).lossesFromChecked overflow log solver = .ok r) :
    (tabulate kind s offset keys).Fits ∧
      (tabulate kind s offset keys).subtractChecked (tabulate kind s offset others) = .ok diff ∧
      diff.peelChecked = some diff.peel := by
  obtain ⟨keys', sent, diff', p, hkeys', hsent, hdiff', hp⟩ := exists_of_lossesFromChecked h
  obtain rfl := Except.ok.inj (hkeys.symm.trans hkeys')
  rw [emptied_tabulate, foldlM_insertChecked_blank hs] at hsent
  split at hsent
  · rename_i hfits
    obtain rfl := Option.some.inj hsent
    obtain ⟨hsubtract, hwords⟩ := subtractChecked_eq_ok_iff.1 hdiff'
    obtain rfl := Except.ok.inj (hdiff.symm.trans hsubtract)
    obtain ⟨rfl, -⟩ := (peelChecked_eq_some hwell hwords).1 hp
    exact ⟨hfits, hdiff', hp⟩
  · cases hsent

variable {keys others held : List UInt32} (hperm : (others ++ held).Perm keys)
include hperm

omit hs in
/-- A difference that holds what a receiver lacks stops only where there is no room for the log. -/
theorem lossesChecked_held_refines {diff : Table kind} (hdiff : diff.WellFormed)
    (hsession : diff.session = s) (hheld : diff.Holds held) (hfits : diff.Fits)
    (hcanonical : ∀ key ∈ keys, diff.canonical key = key) {overflow : Overflow}
    (hrange : overflow = .stops ∨ s.RoomFor kind keys.length) :
    Checked.Refines (¬ s.RoomFor kind keys.length)
      (diff.lossesChecked overflow keys held.length (Program.firstSolutionChecked · none))
      (diff.losses keys held.length (Program.firstSolution · none)) := by
  have hroom : s.RoomFor kind keys.length → diff.RoomFor keys.length := fun h =>
    roomFor_of_roomFor h hsession hheld (Multiset.card_le_card (coe_le_of_perm_append hperm))
  -- what peeling leaves is held as well
  have hle := coe_le_of_perm_append hperm
  rw [← map_canonical_eq_self hcanonical] at hle
  have hresidual := (recovered_le hdiff hheld hle).2.fits_residual hdiff hfits
  exact (lossesChecked_refines_of_range hdiff (hrange.imp_right hroom) hfits hresidual
    held.length).mono (mt hroom)

/-- A receiver of other keys of a log decodes in words what it decodes on numbers of any size, or
stops where there is no room. -/
theorem lossesFromChecked_refines (hreduced : ∀ key ∈ keys, s.field.Reduced key) {log : List Bytes}
    (hlength : keys.length = log.length)
    (hkeys : log.mapM (tabulate kind s offset others).fingerprint = .ok keys)
    (hkeysChecked : log.mapM (tabulate kind s offset others).fingerprintChecked = .ok keys)
    {overflow : Overflow} (hrange : overflow = .stops ∨ s.RoomFor kind log.length) :
    Checked.Refines (¬ s.RoomFor kind log.length)
      ((tabulate kind s offset others).lossesFromChecked overflow log
        (Program.firstSolutionChecked · none))
      ((tabulate kind s offset others).lossesFrom log (Program.firstSolution · none)) := by
  have hcard : others.length + held.length = log.length := by
    rw [← hlength, ← hperm.length_eq, List.length_append]
  have hcount : (log.length : Int) - (tabulate kind s offset others).keyCount = held.length := by
    rw [(holds_tabulate kind offset others hs).keyCount (wellFormed_tabulate kind offset others hs),
      Multiset.coe_card]
    omega
  have hpos := hs.hashes_pos
  obtain ⟨diff, hdiff, hwell, hsession, hheld, hcanonical⟩ :=
    exists_difference hs offset hperm kind hreduced
  rw [lossesFrom_eq hs offset hperm hlength hkeys hdiff, lossesFromChecked, hkeysChecked, ok_bind,
    emptied_tabulate]
  -- the keys of the log are inserted, the received ones are counted, and the others are expected
  refine (insertChecked_refines hs offset hlength.le).bind_step ?_
  refine (keyCountChecked_tabulate_refines hs offset (by omega)).bind_step ?_
  rw [hcount]
  refine Checked.Refines.bind_step (a := (held.length : Int)) ?_ ?_
  · refine (Checked.Refines.step_ite _ _).mono (mt fun h => ?_)
    have hroom := h.1
    have hmul := Nat.mul_le_mul_right log.length hpos
    constructor <;> omega
  dsimp only
  rw [if_neg (by omega), subtractChecked_eq, hdiff]
  by_cases hfits : diff.Fits
  · simp only [Checked.report, ok_bind, if_pos hfits, Int.toNat_natCast]
    rw [← hlength] at hrange ⊢
    exact lossesChecked_held_refines hperm hwell hsession hheld hfits hcanonical hrange
  · right
    simp only [Checked.report, ok_bind, if_neg hfits]
    exact ⟨fun h => hfits (fits_of_roomFor h hsession hheld (by rw [Multiset.coe_card]; omega)),
      rfl⟩

end

/-- **The losses of an honest receiver are found in words, or decoding stops.** Let a sender insert
its log into a table, and a receiver those packets that are not lost, in any order. Where there is
room for the log, the receiver's table and the log decode. Where there is none, let sums out of
range stop the test of answers: then decoding stops, or the log decodes as well. It decodes into as
many packets as were lost, and peeling found as many of them as it took out. They reproduce every
count and every field sum of the difference of the two tables. They have the fingerprints of the
lost packets if peeling found them all, and they are the lost packets if no others reproduce the
difference. -/
theorem lossesFromChecked_honest (kind : Kind) {s : Session} (hs : s.checkChecked = .ok ())
    {offset : UInt64} (hoffset : offset.toNat + s.width.toNat ≤ 8 * s.packetBytes.toNat)
    {log : List Bytes}
    (hlog : ∀ packet ∈ log, offset.toNat + s.width.toNat ≤ 8 * packet.length) {lost : Finset Nat}
    (hlost : ∀ i ∈ lost, i < log.length) {arrived : List Bytes}
    (harrived : arrived.Perm (kept log lost)) :
    ∃ (blank : Table kind) (keys : List UInt32), newChecked s offset = .ok blank ∧
      log.mapM blank.fingerprintChecked = .ok keys ∧
      (s.RoomFor kind log.length → ∃ received,
        arrived.foldlM (fun t packet => Prod.snd <$> t.insertPacketChecked packet) blank =
          .ok received) ∧
      ∀ received, arrived.foldlM (fun t packet => Prod.snd <$> t.insertPacketChecked packet) blank =
          .ok received →
        ∀ overflow, (overflow = .stops ∨ s.RoomFor kind log.length) →
          (¬ s.RoomFor kind log.length ∧ received.lossesFromChecked overflow log
            (Program.firstSolutionChecked · none) = .error .overflow) ∨
          ∃ sent diff p r,
            log.foldlM (fun t packet => Prod.snd <$> t.insertPacketChecked packet) blank =
              .ok sent ∧
            sent.subtractChecked received = .ok diff ∧ diff.peelChecked = some p ∧
            received.lossesFromChecked overflow log (Program.firstSolutionChecked · none) = .ok r ∧
            r.indices.Pairwise (· < ·) ∧ (∀ i ∈ r.indices, i < log.length) ∧
            r.indices.length = lost.card ∧ r.indices.length = r.byPeeling + r.bySolving ∧
            r.byPeeling = p.recovered.length ∧
            diff.MadeUpBy (keysAt keys r.indices) ∧
            (r.bySolving = 0 → (keysAt keys r.indices).Perm (keysAt keys lost.sort)) ∧
            ((∀ other : Finset Nat, (∀ i ∈ other, i < log.length) →
              diff.MadeUpBy (keysAt keys other.sort) → other = lost) →
              r.indices = lost.sort) := by
  obtain ⟨hu, hbits⟩ := Session.checkChecked_eq_ok.1 hs
  have hwithin : ∀ packet ∈ arrived, hu.view.Within offset.toNat packet :=
    fun packet hpacket => hlog packet (subset_of_perm_kept harrived hpacket)
  have hperm := perm_kept_append hlost harrived (hu.view.key offset.toNat)
  let keys : List UInt32 := log.map (hu.view.key offset.toNat)
  let others : List UInt32 := arrived.map (hu.view.key offset.toNat)
  have hlength : keys.length = log.length := List.length_map _
  have hnew : Table.new s offset = .ok (blank s offset : Table kind) := new_eq_ok hu hoffset
  -- inserting packets stops if a count of their table is no word
  have hsend := foldlM_insertPacketChecked_blank hu kind hbits hoffset hlog
  have hreceive := foldlM_insertPacketChecked_blank hu kind hbits hoffset hwithin
  refine ⟨blank s offset, keys, newChecked_eq_ok_iff.2 ⟨hbits, hnew⟩,
    mapM_fingerprintChecked hu hbits hoffset hlog rfl rfl, fun hroom => ?_,
    fun received hreceived overflow hrange => ?_⟩
  · -- no more packets arrive than were sent
    have hle : others.length ≤ log.length :=
      calc others.length ≤ (others ++ keysAt keys lost.sort).length := by
            rw [List.length_append]
            exact Nat.le_add_right _ _
        _ = keys.length := hperm.length_eq
        _ = log.length := hlength
    have hfits := fits_of_roomFor hroom (session_tabulate _ _ _ _)
      (holds_tabulate kind offset others hu) hle
    exact ⟨_, hreceive.trans (congrArg Checked.step (if_pos hfits))⟩
  · rw [hreceive] at hreceived
    split at hreceived
    · obtain rfl : tabulate kind s offset others = received := Except.ok.inj hreceived
      obtain ⟨diff, r, hdiff, hr, hwell, hascending, hlt, hcard, hlengths, hpeeled, hmade⟩ :=
        exists_lossesFrom kind hu offset hlog hlost harrived rfl rfl
      have hsession := session_tabulate kind s offset others
      have hoffset' := offset_tabulate kind s offset others
      have hkeys := mapM_fingerprintChecked hu hbits hoffset hlog hsession hoffset'
      rcases lossesFromChecked_refines hu offset hperm (hu.reduced_keys offset.toNat log) hlength
        (mapM_fingerprint hu hlog hsession hoffset') hkeys hrange with hexact | hstops
      · right
        rw [hr] at hexact
        obtain ⟨hfits, hdiff', hp⟩ := exists_peelChecked hu offset hkeys hdiff hwell hexact
        exact ⟨_, diff, diff.peel, r, hsend.trans (congrArg Checked.step (if_pos hfits)), hdiff',
          hp, hexact, hascending, hlt, hcard, hlengths, hpeeled, hmade⟩
      · exact Or.inl hstops
    · cases hreceived

/-- Of four packets the second arrives. The last is found by peeling, and the other two by the
search. -/
theorem lossesFromChecked_honest_small : ∃ (start received : Table .summing) (r : Losses),
    newChecked Session.small 0 = .ok start ∧ Session.small.RoomFor .summing 4 ∧
      [[11, 0]].foldlM (fun t packet => Prod.snd <$> t.insertPacketChecked packet) start =
        .ok received ∧
      received.lossesFromChecked .stops [[5, 0], [11, 0], [2, 0], [1, 0]]
        (Program.firstSolutionChecked · none) = .ok r ∧
      r.indices.length = 3 ∧ r.byPeeling = 1 ∧ r.bySolving = 2 := by
  let log : List Bytes := [[5, 0], [11, 0], [2, 0], [1, 0]]
  have hs : Session.small.checkChecked = .ok () := by decide +kernel
  have hoffset : (0 : UInt64).toNat + Session.small.width.toNat ≤
      8 * Session.small.packetBytes.toNat := by decide
  have hlog : ∀ packet ∈ log,
      (0 : UInt64).toNat + Session.small.width.toNat ≤ 8 * packet.length := by decide
  have hlost : ∀ i ∈ ({0, 2, 3} : Finset Nat), i < log.length := by decide
  have harrived : ([[11, 0]] : List Bytes).Perm (kept log {0, 2, 3}) := by decide
  have hroom : Session.small.RoomFor .summing log.length := by decide
  obtain ⟨start, keys, hnew, -, hgoes, hdecodes⟩ :=
    lossesFromChecked_honest .summing hs hoffset hlog hlost harrived
  obtain ⟨received, hreceived⟩ := hgoes hroom
  obtain ⟨sent, diff, p, r, hsent, hdiff, hpeel, hrun, -, -, hcard, hlengths, hpeeled, -⟩ :=
    (hdecodes received hreceived .stops (Or.inl rfl)).resolve_left fun hstops => hstops.1 hroom
  -- the tables on the way are known
  have hstart : newChecked Session.small 0 = .ok (blank Session.small 0 : Table .summing) := by
    decide +kernel
  obtain rfl := Except.ok.inj (hstart.symm.trans hnew)
  have hall : log.foldlM (fun t packet => Prod.snd <$> t.insertPacketChecked packet)
      (blank Session.small 0) = .ok (small .summing [5, 11, 2, 1]) := by
    decide +kernel
  obtain rfl := Except.ok.inj (hall.symm.trans hsent)
  have hone : [[11, 0]].foldlM (fun t packet => Prod.snd <$> t.insertPacketChecked packet)
      (blank Session.small 0) = .ok (small .summing [11]) := by
    decide +kernel
  obtain rfl := Except.ok.inj (hone.symm.trans hreceived)
  have hrest : (small .summing [5, 11, 2, 1]).subtractChecked (small .summing [11]) =
      .ok (small .summing [5, 2, 1]) := by
    decide +kernel
  obtain rfl := Except.ok.inj (hrest.symm.trans hdiff)
  obtain ⟨rfl, -⟩ := (peelChecked_eq_some (wellFormed_small _ _) (by decide +kernel)).1 hpeel
  have hrecovered : (small .summing [5, 2, 1]).peel.recovered = [1] := by decide +kernel
  rw [hrecovered, List.length_singleton] at hpeeled
  have hthree : ({0, 2, 3} : Finset Nat).card = 3 := rfl
  exact ⟨_, _, r, hnew, hroom, hreceived, hrun, hcard, hpeeled, by omega⟩

/-- Where there is no room, decoding may stop. Of 129 packets with 2 ^ 24 hash functions none
arrives. -/
theorem lossesFromChecked_stops : ∃ (s : Session) (start : Table .summing) (log : List Bytes),
    s.checkChecked = .ok () ∧ newChecked s 0 = .ok start ∧ log.length = 129 ∧
      (∀ packet ∈ log, s.width.toNat ≤ 8 * packet.length) ∧
      start.lossesFromChecked .stops log (Program.firstSolutionChecked · none) =
        .error .overflow := by
  let log : List Bytes := List.replicate 129 [0xe8, 3]
  have hu : (Session.crowded 16777216).Usable := Session.usable_crowded (by decide)
  obtain ⟨sum, -, hsent⟩ := exists_foldlM_insertChecked_heavy
  have hview : hu.view = (⟨16, 4294967291, by decide, by decide, by decide⟩ : Window) := rfl
  have hlog : ∀ packet ∈ log, hu.view.Within (0 : UInt64).toNat packet := by
    intro packet hpacket
    rw [List.eq_of_mem_replicate hpacket, hview]
    decide
  have hkeys : log.mapM (blank (.crowded 16777216) 0 : Table .summing).fingerprintChecked =
      .ok (List.replicate 129 1000) := by
    have hkey : (⟨16, 4294967291, by decide, by decide, by decide⟩ : Window).key 0 [0xe8, 3] =
        1000 := by
      decide
    rw [mapM_fingerprintChecked hu (by decide) (by decide) hlog rfl rfl, List.map_replicate, hview]
    exact congrArg (fun key => Except.ok (List.replicate 129 key)) hkey
  obtain ⟨sum', hsum', hdiff⟩ := exists_subtractChecked_heavy sum
  refine ⟨.crowded 16777216, blank (.crowded 16777216) 0, log,
    Session.checkChecked_eq_ok.2 ⟨hu, by decide⟩, newChecked_heavy, List.length_replicate, ?_, ?_⟩
  · intro packet hpacket
    rw [List.eq_of_mem_replicate hpacket]
    decide
  · have hcount : (blank (.crowded 16777216) 0 : Table .summing).keyCountChecked = some 0 := by
      decide +kernel
    have hexpected : signed? ((List.length log : Nat) - 0) = some 129 := by
      rw [List.length_replicate]
      decide
    exact (lossesFromChecked_eq hkeys hsent hcount hexpected (by decide) hdiff _ _).trans
      (lossesChecked_heavy hsum' .stops 129)

end Table

end LossSketch
