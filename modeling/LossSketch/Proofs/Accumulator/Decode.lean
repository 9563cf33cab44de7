import LossSketch.Accumulator.Decode
import LossSketch.Proofs.Accumulator.PowerSums
import LossSketch.Proofs.Packet.Log
import LossSketch.Proofs.Packet.Window

/-!
# Decoding power sums

* `PowerSums.Matches` — entries of a log are chosen for a multiset of fingerprints, the first of
  each fingerprint, as many as asked for.
* `PowerSums.exists_matchRoots` — scanning a log for roots makes such a choice.
* `PowerSums.exists_lossesFrom` — so the power sums of some fingerprints of a log decode.
-/

namespace LossSketch

namespace PowerSums

/-- The entries chosen keep their order, and are the first of each fingerprint, as many as asked
for. -/
structure Matches (entries : List (UInt32 × Nat)) (needed : Multiset UInt32)
    (found : List (UInt32 × Nat)) : Prop where
  sublist : found.Sublist entries
  filter_eq : ∀ key, found.filter (fun e => e.1 = key) =
    (entries.filter fun e => e.1 = key).take (needed.count key)

namespace Matches

variable {entries found : List (UInt32 × Nat)} {needed : Multiset UInt32}

theorem none (entries : List (UInt32 × Nat)) : Matches entries 0 [] where
  sublist := List.nil_sublist _
  filter_eq _ := by rw [Multiset.count_zero, List.take_zero, List.filter_nil]

/-- An entry with a fingerprint asked for is chosen. -/
theorem take {key : UInt32} (h : Matches entries (needed.erase key) found) (hmem : key ∈ needed)
    (i : Nat) : Matches ((key, i) :: entries) needed ((key, i) :: found) where
  sublist := h.sublist.cons_cons _
  filter_eq other := by
    by_cases hne : key = other
    · -- one more is asked for of this fingerprint, and the entry is the first that has it
      subst hne
      have hcount : needed.count key = (needed.erase key).count key + 1 := by
        rw [Multiset.count_erase_self]
        have := Multiset.count_pos.2 hmem
        omega
      rw [List.filter_cons_of_pos (by simp), List.filter_cons_of_pos (by simp), h.filter_eq, hcount,
        List.take_succ_cons]
    · rw [List.filter_cons_of_neg (by simpa using hne),
        List.filter_cons_of_neg (by simpa using hne), h.filter_eq,
        Multiset.count_erase_of_ne (Ne.symm hne)]

/-- An entry with another fingerprint is left out. -/
theorem skip {key : UInt32} (h : Matches entries needed found) (hmem : key ∉ needed) (i : Nat) :
    Matches ((key, i) :: entries) needed found where
  sublist := h.sublist.cons _
  filter_eq other := by
    by_cases hne : key = other
    · -- none is asked for, here and later
      subst hne
      rw [h.filter_eq, Multiset.count_eq_zero.2 hmem, List.take_zero, List.take_zero]
    · rw [h.filter_eq, List.filter_cons_of_neg (by simpa using hne)]

/-- Entries that have all that is asked for have exactly it chosen from them. -/
theorem coe_eq (h : Matches entries needed found)
    (hle : needed ≤ (entries.map Prod.fst : List UInt32)) :
    ((found.map Prod.fst : List UInt32) : Multiset UInt32) = needed := by
  have hcount : ∀ (l : List (UInt32 × Nat)) (key : UInt32),
      (l.map Prod.fst).count key = (l.filter fun e => e.1 = key).length := by
    intro l key
    rw [List.count, List.countP_map, List.countP_eq_length_filter]
    rfl
  ext key
  have hkey := Multiset.count_le_of_le key hle
  rw [Multiset.coe_count, hcount] at hkey
  rw [Multiset.coe_count, hcount, h.filter_eq, List.length_take, Nat.min_eq_left hkey]

/-- The indices of the entries chosen are the lowest of each fingerprint. -/
theorem lowest {keys : List UInt32} (h : Matches keys.zipIdx needed found) :
    Lowest keys needed (found.map Prod.snd) where
  ascending := pairwise_map_snd h.sublist
  filter_eq key := by
    rw [filter_map_snd fun e he => h.sublist.subset he, h.filter_eq, filter_range, List.map_take]

end Matches

/-- **Scanning a log for roots** chooses the first packets of each fingerprint asked for, if the
roots left are the fingerprints asked for, as often as they are asked for. -/
theorem exists_matchRoots {f : Field} {poly : Monic} {w : Window} {offset : Nat}
    {log : List (Bytes × Nat)} (hwithin : ∀ e ∈ log, w.Within offset e.1) {needed : Multiset UInt32}
    {taken : List UInt32} (hle : needed ≤ (log.map fun e => w.key offset e.1 : List UInt32))
    (hroots : ∀ e ∈ log, poly.multiplicity f (w.key offset e.1) =
      needed.count (w.key offset e.1) + taken.count (w.key offset e.1)) :
    ∃ found, matchRoots f poly w offset log (Multiset.card needed) taken = .ok found ∧
      Matches (log.map fun e => (w.key offset e.1, e.2)) needed found := by
  induction log generalizing needed taken with
  | nil =>
    obtain rfl : needed = 0 := Multiset.le_zero.1 hle
    exact ⟨[], rfl, Matches.none _⟩
  | cons e log ih =>
    obtain ⟨packet, i⟩ := e
    -- the scan ends once nothing more is asked for
    rcases Multiset.empty_or_exists_mem needed with rfl | ⟨key, hkey⟩
    · exact ⟨[], rfl, Matches.none _⟩
    have hcard : Multiset.card needed = Multiset.card needed - 1 + 1 := by
      have := Multiset.card_pos_iff_exists_mem.2 ⟨key, hkey⟩
      omega
    have hrest : ∀ e ∈ log, w.Within offset e.1 := fun e he => hwithin e (List.mem_cons_of_mem _ he)
    have hroot : poly.multiplicity f (w.key offset packet) =
        needed.count (w.key offset packet) + taken.count (w.key offset packet) :=
      hroots (packet, i) List.mem_cons_self
    rw [List.map_cons, ← Multiset.cons_coe] at hle
    rw [List.map_cons, hcard, matchRoots,
      Window.read_eq_ok (hwithin (packet, i) List.mem_cons_self)]
    simp only [ok_bind]
    by_cases hmem : w.key offset packet ∈ needed
    · -- taken, since the root is not used up
      have hpos := Multiset.count_pos.2 hmem
      rw [if_pos (by omega), ← Nat.pred_eq_sub_one, ← Multiset.card_erase_of_mem hmem]
      -- one fewer is asked for of the fingerprint just taken
      have hleft : ∀ e ∈ log, poly.multiplicity f (w.key offset e.1) =
          (needed.erase (w.key offset packet)).count (w.key offset e.1) +
            (w.key offset packet :: taken).count (w.key offset e.1) := by
        intro e he
        rw [hroots e (List.mem_cons_of_mem _ he)]
        by_cases hne : w.key offset e.1 = w.key offset packet
        · rw [hne, Multiset.count_erase_self, List.count_cons_self]
          omega
        · rw [Multiset.count_erase_of_ne hne, List.count_cons_of_ne (Ne.symm hne)]
      obtain ⟨found, hfound, hmatches⟩ := ih hrest (Multiset.erase_le_iff_le_cons.2 hle) hleft
      exact ⟨(w.key offset packet, i) :: found, by rw [hfound]; rfl, hmatches.take hmem i⟩
    · -- passed over: either not a root, or used up
      have hzero := Multiset.count_eq_zero.2 hmem
      rw [if_neg (by omega), ← hcard]
      obtain ⟨found, hfound, hmatches⟩ := ih hrest ((Multiset.le_cons_of_notMem hmem).1 hle)
        fun e he => hroots e (List.mem_cons_of_mem _ he)
      exact ⟨found, hfound, hmatches.skip hmem i⟩

/-- **Power sums of fingerprints of a log decode**, as long as these are not more than the degree.
The first packets of each fingerprint are found. -/
theorem exists_lossesFrom {s : Session} (hs : s.Usable) {offset : UInt64} {log : List Bytes}
    (hwithin : ∀ packet ∈ log, hs.view.Within offset.toNat packet) {held : List UInt32}
    (hle : (held : Multiset UInt32) ≤ (log.map (hs.view.key offset.toNat) : List UInt32))
    (hdegree : held.length ≤ s.degree.toNat) :
    ∃ found, (accumulate s offset held).lossesFrom log = .ok (found.map Prod.snd) ∧
      Matches (log.map (hs.view.key offset.toNat)).zipIdx held found := by
  have hreduced : ∀ key ∈ held, s.field.Reduced key := fun key hkey =>
    hs.reduced_keys _ log key (Multiset.mem_coe.1 (Multiset.mem_of_le hle hkey))
  have hzip : log.zipIdx.map (fun e => (hs.view.key offset.toNat e.1, e.2)) =
      (log.map (hs.view.key offset.toNat)).zipIdx := List.zipIdx_map.symm
  have hfst : log.zipIdx.map (fun e => hs.view.key offset.toNat e.1) =
      log.map (hs.view.key offset.toNat) := by
    rw [← List.zipIdx_map_fst 0 (log.map _), ← hzip, List.map_map]
    rfl
  -- no fingerprint is taken yet, and the roots are those held
  have hroots : ∀ e ∈ log.zipIdx, ((accumulate s offset held).polynomial held.length).multiplicity
      s.field (hs.view.key offset.toNat e.1) =
        (held : Multiset UInt32).count (hs.view.key offset.toNat e.1) +
          [].count (hs.view.key offset.toNat e.1) := by
    intro e _
    rw [multiplicity_accumulate hs offset hreduced hdegree (hs.reduced_key _ e.1),
      Multiset.coe_count, List.count_nil, add_zero]
  obtain ⟨found, hfound, hmatches⟩ := exists_matchRoots
    (fun e he => hwithin e.1 (List.fst_mem_of_mem_zipIdx he)) (hfst.symm ▸ hle) hroots
  rw [hzip] at hmatches
  rw [Multiset.coe_card] at hfound
  -- what is found reproduces the power sums, since it is what is held in another order
  have hperm : (found.map Prod.fst).Perm held := by
    refine Multiset.coe_eq_coe.1 (hmatches.coe_eq ?_)
    rwa [List.zipIdx_map_fst]
  have hlength : ¬ found.length < held.length := by
    rw [← hperm.length_eq, List.length_map]
    exact lt_irrefl _
  have hcheck : (accumulate s offset held).checkReproduced (found.map Prod.fst) = .ok () := by
    unfold checkReproduced
    exact if_pos (Field.powerSums_perm hs.modulus_ne_zero hperm _)
  have hwindow : (accumulate s offset held).session.window = .ok hs.view := hs.window_eq
  have hscan : matchRoots (accumulate s offset held).session.field
      ((accumulate s offset held).polynomial held.length) hs.view
      (accumulate s offset held).offset.toNat log.zipIdx held.length [] = .ok found := hfound
  refine ⟨found, ?_, hmatches⟩
  rw [lossesFrom, size_accumulate hdegree, ok_bind, hwindow, ok_bind, hscan, ok_bind,
    if_neg hlength, hcheck]
  rfl

end PowerSums

end LossSketch
