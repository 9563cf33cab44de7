import LossSketch.Proofs.Accumulator.Offset
import LossSketch.Proofs.Accumulator.PowerSums
import LossSketch.Proofs.Snapshot.Header

/-!
# Power sums and their snapshots

* `PowerSums.WellFormed` lists what power sums need to be read back from their snapshot, at an
  offset that the session admits. `PowerSums.wellFormed_of_ofBytes` — nothing else is ever read.
* `PowerSums.Reachable` — power sums that can be computed, combined or read.
* `PowerSums.restored_iff_admits` — those are read back exactly where the session admits their
  offset, and refused for it elsewhere.
* `PowerSums.not_restored` — nothing that computes power sums holds the offset against the session.
-/

namespace LossSketch

namespace PowerSums

/-- What power sums need to be read back from their snapshot, at an offset that the session
admits. -/
structure WellFormed (a : PowerSums) : Prop where
  checked : a.session.check = .ok ()
  length_eq : a.sums.length = a.session.degree.toNat
  reduced : ∀ sum ∈ a.sums, a.session.field.Reduced sum
  fits : Signed64 a.count

theorem WellFormed.usable {a : PowerSums} (h : a.WellFormed) : a.session.Usable :=
  Session.check_eq_ok_iff.1 h.checked

theorem checkSums_eq_ok_iff {a : PowerSums} : a.checkSums = .ok () ↔
    a.sums.length = a.session.degree.toNat ∧ ∀ sum ∈ a.sums, a.session.field.Reduced sum := by
  have hany : a.sums.any (a.session.modulus ≤ ·) = false ↔
      ∀ sum ∈ a.sums, a.session.field.Reduced sum := by
    rw [List.any_eq_false]
    refine forall₂_congr fun sum _ => ?_
    rw [decide_eq_true_iff, UInt32.not_le]
    exact UInt32.lt_iff_toNat_lt
  unfold checkSums
  -- the number of sums is compared first
  split
  · rename_i hlength
    exact ⟨nofun, fun h => absurd h.1 hlength⟩
  · rename_i hlength
    rw [and_iff_right (not_not.1 hlength), ← hany]
    cases a.sums.any (a.session.modulus ≤ ·) with
    | false => exact ⟨fun _ => rfl, fun _ => rfl⟩
    | true => exact ⟨nofun, nofun⟩

/-- The sums and their number, as they are written behind the header. -/
def body (a : PowerSums) : Bytes :=
  a.sums.flatMap (fun sum => Bytes.ofNat 4 sum.toNat) ++ signedBytes a.count

theorem toBytes_eq (a : PowerSums) :
    a.toBytes = a.session.header a.offset a.sums.length ++ a.body :=
  List.append_assoc _ _ _

/-- Reads as many sums, and then their number. -/
def bodyDecoder (length : Nat) : Decoder (List UInt32 × Int) := do
  let sums ← Decoder.times (UInt32.ofNat <$> Decoder.word 4) length
  let count ← Decoder.signed
  return (sums, count)

theorem reads_bodyDecoder {a : PowerSums} (h : Signed64 a.count) :
    (bodyDecoder a.sums.length).Reads a.body (a.sums, a.count) := by
  refine (Decoder.reads_times fun sum _ => Decoder.reads_word32 sum).bind ?_
  have hcount := (Decoder.reads_signed h).map (Prod.mk a.sums)
  rwa [← bind_pure_comp] at hcount

/-- Behind the header, as many sums are read as it says, and then their number. -/
theorem ofBytes_header (s : Session) (offset : UInt64) {length : Nat} (hlength : length < 2 ^ 64)
    (rest : Bytes) : ofBytes (s.header offset length ++ rest) = do
      let r ← (bodyDecoder length).read rest
      s.checkSnapshot offset
      checkSums ⟨s, offset, r.1, r.2⟩
      return ⟨s, offset, r.1, r.2⟩ := by
  have hdecoder : decoder.read (s.header offset length ++ rest) =
      (bodyDecoder length).read rest >>= fun r => pure ⟨s, offset, r.1, r.2⟩ := by
    rw [decoder, s.bind_read_header offset hlength, UInt64.ofNat_toNat, ← Decoder.read_bind_pure,
      bodyDecoder]
    simp only [bind_assoc, pure_bind]
  rw [ofBytes, hdecoder, bind_assoc]
  simp only [pure_bind]

/-- **Power sums are read back** from their snapshot exactly if the session admits their offset. -/
theorem ofBytes_toBytes {a : PowerSums} (h : a.WellFormed) : ofBytes a.toBytes =
    if a.session.Admits a.offset then .ok a
    else .error (.invalidConfig (.snapshotOffset a.offset.toNat)) := by
  have hlength : a.sums.length < 2 ^ 64 := by
    rw [h.length_eq]
    exact a.session.degree.toNat_lt
  rw [toBytes_eq, ofBytes_header _ _ hlength, (reads_bodyDecoder h.fits).read_eq, ok_bind,
    h.usable.checkSnapshot_eq]
  split
  · rw [ok_bind]
    show (a.checkSums >>= fun _ => pure a) = .ok a
    rw [checkSums_eq_ok_iff.2 ⟨h.length_eq, h.reduced⟩]
    rfl
  · rfl

/-- Nothing is read from any bytes that is not well formed, at an offset that its session admits. -/
theorem wellFormed_of_ofBytes {bytes : Bytes} {a : PowerSums} (h : ofBytes bytes = .ok a) :
    a.WellFormed ∧ a.session.Admits a.offset := by
  obtain ⟨a', hdecoder, h⟩ := bind_eq_ok.1 h
  obtain ⟨⟨⟩, hsession, h⟩ := bind_eq_ok.1 h
  obtain ⟨⟨⟩, hsums, h⟩ := bind_eq_ok.1 h
  obtain rfl : a' = a := Except.ok.inj h
  obtain ⟨hs, hoffset⟩ := Session.checkSnapshot_eq_ok_iff.1 hsession
  obtain ⟨hlength, hreduced⟩ := checkSums_eq_ok_iff.1 hsums
  refine ⟨⟨Session.check_eq_ok_iff.2 hs, hlength, hreduced, ?_⟩, hoffset⟩
  -- the number was read from eight bytes
  obtain ⟨rest, hdecoder⟩ := Decoder.read_eq_ok.1 hdecoder
  obtain ⟨session, _, -, hdecoder⟩ := Decoder.bind_eq_ok.1 hdecoder
  obtain ⟨offset, _, -, hdecoder⟩ := Decoder.bind_eq_ok.1 hdecoder
  obtain ⟨length, _, -, hdecoder⟩ := Decoder.bind_eq_ok.1 hdecoder
  obtain ⟨sums, _, -, hdecoder⟩ := Decoder.bind_eq_ok.1 hdecoder
  obtain ⟨count, _, hread, hdecoder⟩ := Decoder.bind_eq_ok.1 hdecoder
  obtain ⟨-, hcount⟩ := Decoder.fixedWidth_signed.value_of_ok hread
  have hfits : Signed64 count := hcount ▸ Bytes.signed64_int64 _
  cases hdecoder
  exact hfits

/-! ## Power sums that can be computed -/

/-- **Power sums that can be computed**: from fingerprints, or from the packets of a buffer, at an
offset given or chosen; those read from any bytes, and differences. Their number is a word of 64
bits with a sign, so what would leave that range computes no power sums. -/
inductive Reachable : PowerSums → Prop
  | ofKeys {s : Session} {offset : UInt64} {keys : List UInt32} {a : PowerSums} :
      PowerSums.ofKeys s offset keys = .ok a → Signed64 a.count → Reachable a
  | finalize {b : Buffer} {choice : Option UInt64} {a : PowerSums} :
      b.Reachable → b.finalize choice = .ok a → Signed64 a.count → Reachable a
  | ofBytes {bytes : Bytes} {a : PowerSums} : PowerSums.ofBytes bytes = .ok a → Reachable a
  | subtract {a b d : PowerSums} :
      Reachable a → Reachable b → a.subtract b = .ok d → Signed64 d.count → Reachable d

theorem wellFormed_accumulate {s : Session} (hs : s.Usable) (offset : UInt64) {keys : List UInt32}
    (hfits : Signed64 (accumulate s offset keys).count) :
    (accumulate s offset keys).WellFormed where
  checked := Session.check_eq_ok_iff.2 hs
  length_eq := Field.length_powerSums _ _
  reduced := fun _ hsum => Field.reduced_of_mem_powerSums hs.modulus_ne_zero hsum
  fits := hfits

/-- Differences of well-formed power sums are well formed. -/
theorem WellFormed.subtract {a b d : PowerSums} (ha : a.WellFormed) (hb : b.WellFormed)
    (hd : a.subtract b = .ok d) (hfits : Signed64 d.count) : d.WellFormed := by
  obtain ⟨⟨⟩, halike, hd⟩ := bind_eq_ok.1 hd
  cases hd
  refine ⟨ha.checked, ?_, fun sum hsum => ?_, hfits⟩
  · -- both have as many sums, since their sessions agree on the degree
    show (a.sums.zipWith a.session.field.sub b.sums).length = _
    rw [List.length_zipWith, hb.length_eq, (Session.sizes_eq_of_checkAligned halike).2,
      ha.length_eq, Nat.min_self]
  · obtain ⟨i, hi, rfl⟩ := List.getElem_of_mem hsum
    rw [List.getElem_zipWith]
    exact Field.reduced_sub ha.usable.modulus_ne_zero _ _

/-- **Every way to power sums makes well-formed ones.** -/
theorem Reachable.wellFormed {a : PowerSums} (h : a.Reachable) : a.WellFormed := by
  induction h with
  | ofKeys hkeys hfits =>
    obtain ⟨hs, rfl⟩ := eq_accumulate_of_ofKeys hkeys
    exact wellFormed_accumulate hs _ hfits
  | finalize hb hfinalize hfits =>
    obtain ⟨offset, -, -, -, rfl⟩ := hb.exists_offset hfinalize
    exact wellFormed_accumulate hb.usable offset hfits
  | ofBytes hread => exact (wellFormed_of_ofBytes hread).1
  | subtract _ _ hd hfits ih ihother => exact ih.subtract ihother hd hfits

/-- **Power sums survive their snapshot where the session admits their offset.** The session is
usable, there are as many sums as its degree, and all of them are in the field. Reading the snapshot
gives the power sums back if packets of the length of the session hold the window at the offset;
otherwise it is refused for the offset. -/
theorem restored_iff_admits {a : PowerSums} (h : a.Reachable) :
    a.session.check = .ok () ∧ a.sums.length = a.session.degree.toNat ∧
      (∀ sum ∈ a.sums, sum < a.session.modulus) ∧
      (a.offset.toNat + a.session.width.toNat ≤ 8 * a.session.packetBytes.toNat →
        ofBytes a.toBytes = .ok a) ∧
      (8 * a.session.packetBytes.toNat < a.offset.toNat + a.session.width.toNat →
        ofBytes a.toBytes = .error (.invalidConfig (.snapshotOffset a.offset.toNat))) := by
  have hwell := h.wellFormed
  refine ⟨hwell.checked, hwell.length_eq, hwell.reduced, fun hoffset => ?_, fun hoffset => ?_⟩
  · have hadmits : a.session.Admits a.offset := hoffset
    rw [ofBytes_toBytes hwell, if_pos hadmits]
  · have hrefused : ¬ a.session.Admits a.offset := Nat.not_le.2 hoffset
    rw [ofBytes_toBytes hwell, if_neg hrefused]

theorem restored_iff_admits_overdrawn : ∃ d : PowerSums,
    (accumulate Session.small 8 [10]).subtract (accumulate Session.small 8 [3, 5]) = .ok d ∧
      d.count = -1 ∧ ofBytes d.toBytes = .ok d := by
  have hs := Session.check_eq_ok_iff.1 Session.check_small
  have hsubtract : (accumulate Session.small 8 [10]).subtract (accumulate Session.small 8 [3, 5]) =
      .ok ⟨Session.small, 8, [2, 1], -1⟩ := by decide +kernel
  have hreachable : Reachable ⟨Session.small, 8, [2, 1], -1⟩ :=
    .subtract (.ofKeys (ofKeys_eq_ok hs 8 [10]) (by decide))
      (.ofKeys (ofKeys_eq_ok hs 8 [3, 5]) (by decide)) hsubtract (by decide)
  obtain ⟨-, -, -, hrestored, -⟩ := restored_iff_admits hreachable
  exact ⟨_, hsubtract, rfl, hrestored (by decide)⟩

/-! ## Why some are refused -/

/-- A window of eight bits at offset nine ends behind the second byte, which is the last that the
session asks for. The buffer of longer packets chooses this offset, the buffer without packets takes
it when it is given, and so do fingerprints. None of the three is read back. -/
theorem not_restored : ∃ chosen given computed : PowerSums,
    Buffer.finalize ⟨Session.small, #[[0, 0, 1], [0, 0, 2]]⟩ none = .ok chosen ∧
      Buffer.finalize ⟨Session.small, #[]⟩ (some 9) = .ok given ∧
      ofKeys Session.small 9 [10] = .ok computed ∧
      ∀ a ∈ [chosen, given, computed], a.Reachable ∧
        ofBytes a.toBytes = .error (.invalidConfig (.snapshotOffset 9)) := by
  have hs := Session.check_eq_ok_iff.1 Session.check_small
  have hlong : Buffer.Reachable ⟨Session.small, #[[0, 0, 1], [0, 0, 2]]⟩ :=
    Buffer.reachable_of_length_le hs [[0, 0, 1], [0, 0, 2]] (by decide)
  have hchosen : Buffer.finalize ⟨Session.small, #[[0, 0, 1], [0, 0, 2]]⟩ none =
      .ok ⟨Session.small, 9, [11, 4], 2⟩ := by cbv
  have hgiven : Buffer.finalize ⟨Session.small, #[]⟩ (some 9) =
      .ok ⟨Session.small, 9, [0, 0], 0⟩ := by decide +kernel
  have hcomputed : ofKeys Session.small 9 [10] = .ok ⟨Session.small, 9, [10, 9], 1⟩ := by
    decide +kernel
  refine ⟨_, _, _, hchosen, hgiven, hcomputed, ?_⟩
  simp only [List.mem_cons, List.not_mem_nil, or_false, forall_eq_or_imp, forall_eq]
  exact ⟨⟨.finalize hlong hchosen (by decide), by decide +kernel⟩,
    ⟨.finalize (.new (Buffer.new_eq_ok hs)) hgiven (by decide), by decide +kernel⟩,
    ⟨.ofKeys hcomputed (by decide), by decide +kernel⟩⟩

end PowerSums

end LossSketch
