import LossSketch.Accumulator.Decode
import LossSketch.Proofs.Accumulator.PowerSums

/-!
# Packets that were never sent

* `PowerSums.Reproduces` — fingerprints have the power sums, and are as many as they say. Whatever
  is decoded, with a log or without, comes from such fingerprints.
* `PowerSums.Reproduces.not_forged` — if fingerprints reproduce a difference of power sums, nothing
  was taken out that was not put in, as long as not more than the degree was left in.
* `PowerSums.not_decoded_of_forged` — so a receiver that reports packets never sent is caught.
-/

namespace LossSketch

/-- The classes of fingerprints. -/
def Field.residues (f : Field) (keys : List UInt32) : Multiset (ZMod f.modulus.toNat) :=
  keys.map f.residue

@[simp] theorem Field.card_residues (f : Field) (keys : List UInt32) :
    Multiset.card (f.residues keys) = keys.length := by
  rw [residues, Multiset.coe_card, List.length_map]

namespace PowerSums

variable {a : PowerSums}

/-- The fingerprints have the power sums, and are as many as they say. -/
structure Reproduces (a : PowerSums) (keys : List UInt32) : Prop where
  length_eq : (keys.length : Int) = a.count
  powerSums_eq : a.session.field.powerSums a.session.degree.toNat keys = a.sums

/-! ## What decoding accepts -/

theorem powerSums_of_checkReproduced {keys : List UInt32} (h : a.checkReproduced keys = .ok ()) :
    a.session.field.powerSums a.session.degree.toNat keys = a.sums := by
  unfold checkReproduced at h
  split at h
  · assumption
  · cases h

/-- A scan for roots ends with the number of packets asked for. -/
theorem length_le_of_matchRoots {f : Field} {poly : Monic} {w : Window} {offset wanted : Nat}
    {log : List (Bytes × Nat)} {taken : List UInt32} {found : List (UInt32 × Nat)}
    (h : matchRoots f poly w offset log wanted taken = .ok found) : found.length ≤ wanted := by
  induction log generalizing wanted taken found with
  | nil =>
    cases h
    exact Nat.zero_le _
  | cons e log ih =>
    obtain ⟨packet, i⟩ := e
    cases wanted with
    | zero =>
      cases h
      exact Nat.le_refl _
    | succ wanted =>
      rw [matchRoots] at h
      obtain ⟨key, -, h⟩ := bind_eq_ok.1 h
      split at h
      · -- taken, so one fewer is asked for of the others
        obtain ⟨others, hothers, h⟩ := bind_eq_ok.1 h
        cases h
        exact Nat.succ_le_succ (ih hothers)
      · exact ih h

/-- Losses are answered only for fingerprints that reproduce the power sums. -/
theorem exists_reproduces_of_lossesFrom {log : List Bytes} {indices : List Nat}
    (h : a.lossesFrom log = .ok indices) : ∃ keys, a.Reproduces keys := by
  unfold lossesFrom at h
  obtain ⟨n, hn, h⟩ := bind_eq_ok.1 h
  obtain ⟨window, -, h⟩ := bind_eq_ok.1 h
  obtain ⟨found, hfound, h⟩ := bind_eq_ok.1 h
  split at h
  · cases h
  · rename_i hlength
    obtain ⟨⟨⟩, hcheck, -⟩ := bind_eq_ok.1 h
    have hle := length_le_of_matchRoots hfound
    refine ⟨found.map Prod.fst, ?_, powerSums_of_checkReproduced hcheck⟩
    rw [List.length_map, ← (size_eq_ok_iff.1 hn).1]
    omega

/-- Elements are answered only if they reproduce the power sums. -/
theorem reproduces_elements {keys : List UInt32} (h : a.elements = .ok keys) :
    a.Reproduces keys := by
  unfold elements at h
  obtain ⟨n, hn, h⟩ := bind_eq_ok.1 h
  dsimp only at h
  split at h
  · cases h
  · rename_i hlength
    obtain ⟨⟨⟩, hcheck, h⟩ := bind_eq_ok.1 h
    cases h
    refine ⟨?_, powerSums_of_checkReproduced hcheck⟩
    rw [not_not.1 hlength, (size_eq_ok_iff.1 hn).1]

/-! ## What can be reproduced -/

section Difference

variable {s : Session} {offset : UInt64} {sent seen : List UInt32} {diff : PowerSums}
  (hdiff : (accumulate s offset sent).subtract (accumulate s offset seen) = .ok diff)
  {keys : List UInt32} (h : diff.Reproduces keys)
include hdiff h

/-- Fingerprints that reproduce a difference make up, together with what was taken out and not put
in, as many elements as were left in. -/
theorem Reproduces.card_add :
    Multiset.card (s.field.residues keys + (s.field.residues seen - s.field.residues sent)) =
      Multiset.card (s.field.residues sent - s.field.residues seen) := by
  rw [subtract_eq_ok] at hdiff
  cases hdiff
  have hlength : (keys.length : Int) = sent.length - seen.length := h.length_eq
  -- what both have counts on both sides
  have hsent := congrArg Multiset.card
    (Multiset.sub_add_inter (s.field.residues sent) (s.field.residues seen))
  have hseen := congrArg Multiset.card
    (Multiset.sub_add_inter (s.field.residues seen) (s.field.residues sent))
  rw [Multiset.card_add, Field.card_residues] at hsent hseen
  rw [Multiset.inter_comm] at hseen
  rw [Multiset.card_add, Field.card_residues]
  omega

/-- They also have the same power sums. -/
theorem Reproduces.powerSum_add_eq (hs : s.Usable) {k : Nat} (hk : k < s.degree.toNat) :
    powerSum (s.field.residues keys + (s.field.residues seen - s.field.residues sent)) (k + 1) =
      powerSum (s.field.residues sent - s.field.residues seen) (k + 1) := by
  rw [subtract_eq_ok] at hdiff
  cases hdiff
  have hf := hs.modulus_ne_zero
  have hsums : s.field.powerSums s.degree.toNat keys =
      (s.field.powerSums s.degree.toNat sent).zipWith s.field.sub
        (s.field.powerSums s.degree.toNat seen) := h.powerSums_eq
  obtain ⟨word, hword⟩ : ∃ word, (s.field.powerSums s.degree.toNat keys)[k]? = some word :=
    ⟨_, List.getElem?_eq_getElem (by rwa [Field.length_powerSums])⟩
  have hkeys : s.field.residue word = powerSum (s.field.residues keys) (k + 1) :=
    Field.sumsPowers_powerSums hf s.degree.toNat keys k word hword
  rw [hsums] at hword
  have hsub : s.field.residue word = powerSum (s.field.residues sent) (k + 1) -
      powerSum (s.field.residues seen) (k + 1) :=
    (Field.sumsPowers_powerSums hf s.degree.toNat sent).residue_zipWith_sub hf
      (Field.sumsPowers_powerSums hf s.degree.toNat seen) hword
  -- what both have cancels
  have hsent := congrArg (powerSum · (k + 1))
    (Multiset.sub_add_inter (s.field.residues sent) (s.field.residues seen))
  have hseen := congrArg (powerSum · (k + 1))
    (Multiset.sub_add_inter (s.field.residues seen) (s.field.residues sent))
  rw [Multiset.inter_comm] at hseen
  simp only [powerSum_add] at hsent hseen
  rw [powerSum_add, ← hkeys, hsub, ← hsent, ← hseen]
  ring

/-- **Nothing was taken out that was not put in**, if fingerprints reproduce the difference and not
more than the degree was left in. -/
theorem Reproduces.not_forged (hs : s.Usable)
    (hle : Multiset.card (s.field.residues sent - s.field.residues seen) ≤ s.degree.toNat) :
    s.field.residues seen - s.field.residues sent = 0 := by
  have : Fact s.field.modulus.toNat.Prime := ⟨hs.prime⟩
  have hdegree := hs.degree_lt
  have hne : ∀ k < s.degree.toNat, ((k + 1 : Nat) : ZMod s.field.modulus.toNat) ≠ 0 := by
    intro k hk
    rw [Ne, ZMod.natCast_eq_zero_iff]
    exact Nat.not_dvd_of_pos_of_lt (Nat.succ_pos k) (lt_of_le_of_lt hk hdegree)
  have hcard := h.card_add hdiff
  have heq := eq_of_powerSum hne (fun k hk => h.powerSum_add_eq hdiff hs hk) hcard
    (hcard.trans_le hle)
  -- what was taken out and not put in would be part of what was put in and not taken out
  ext x
  have hcount := congrArg (Multiset.count x) heq
  rw [Multiset.count_add, Multiset.count_sub, Multiset.count_sub] at hcount
  rw [Multiset.count_sub, Multiset.count_zero]
  omega

/-- One element that was taken out beside others is the same as one of those that are missing, if
fingerprints reproduce the difference and not more than the degree are missing. -/
theorem Reproduces.residue_mem (hs : s.Usable) {missing : List UInt32} {mark : UInt32}
    (hperm : (seen ++ missing).Perm (mark :: sent)) (hle : missing.length ≤ s.degree.toNat) :
    s.field.residue mark ∈ s.field.residues missing := by
  have hresidues : s.field.residues seen + s.field.residues missing =
      s.field.residue mark ::ₘ s.field.residues sent := by
    have hmap := hperm.map s.field.residue
    rw [List.map_append] at hmap
    exact Multiset.coe_eq_coe.2 hmap
  have hsub : s.field.residues sent - s.field.residues seen ≤ s.field.residues missing := by
    rw [tsub_le_iff_left, hresidues]
    exact Multiset.le_cons_self _ _
  have hcard := Multiset.card_le_card hsub
  rw [Field.card_residues] at hcard
  -- nothing seen was not sent, so the element is left when what was seen is cancelled
  have hseen := tsub_eq_zero_iff_le.1 (h.not_forged hdiff hs (hcard.trans hle))
  obtain ⟨rest, hrest⟩ := Multiset.le_iff_exists_add.1 hseen
  rw [hrest, ← Multiset.add_cons] at hresidues
  rw [add_left_cancel hresidues]
  exact Multiset.mem_cons_self _ _

end Difference

/-- **Packets never sent are caught.** If a receiver took in fingerprints that the sender did not
put in, and misses not more than the degree, then the difference is never decoded, with any log or
without one. -/
theorem not_decoded_of_forged {s : Session} {offset : UInt64} {sent seen : List UInt32}
    {a b : PowerSums} (ha : ofKeys s offset sent = .ok a) (hb : ofKeys s offset seen = .ok b)
    (hforged : s.field.residues seen - s.field.residues sent ≠ 0)
    (hle : Multiset.card (s.field.residues sent - s.field.residues seen) ≤ s.degree.toNat) :
    ∃ diff, a.subtract b = .ok diff ∧ (∀ log indices, diff.lossesFrom log ≠ .ok indices) ∧
      ∀ keys, diff.elements ≠ .ok keys := by
  obtain ⟨hs, rfl⟩ := eq_accumulate_of_ofKeys ha
  obtain ⟨-, rfl⟩ := eq_accumulate_of_ofKeys hb
  have hdiff := subtract_eq_ok s offset sent seen
  refine ⟨_, hdiff, fun log indices hlosses => ?_, fun keys helements => ?_⟩
  · obtain ⟨keys, hkeys⟩ := exists_reproduces_of_lossesFrom hlosses
    exact hforged (hkeys.not_forged hdiff hs hle)
  · exact hforged ((reproduces_elements helements).not_forged hdiff hs hle)

/-- The receiver misses five and seven, and reports nine. -/
theorem not_decoded_of_forged_small : ∃ a b diff : PowerSums,
    ofKeys Session.small 0 [5, 7] = .ok a ∧ ofKeys Session.small 0 [9] = .ok b ∧
      a.subtract b = .ok diff ∧ ∀ keys, diff.elements ≠ .ok keys := by
  have hs := Session.check_eq_ok_iff.1 Session.check_small
  have ha := ofKeys_eq_ok hs 0 [5, 7]
  have hb := ofKeys_eq_ok hs 0 [9]
  obtain ⟨diff, hdiff, -, helements⟩ :=
    not_decoded_of_forged ha hb (by decide) (by decide)
  exact ⟨_, _, diff, ha, hb, hdiff, helements⟩

end PowerSums

end LossSketch
