import Mathlib.Data.Finset.Card
import LossSketch.Packet.Offset
import LossSketch.Proofs.Packet.Window

/-!
# The offset chosen

* `repeats_eq` — the elements that occurred before and those that are new make up a list, so by
  `repeats_perm` their order does not matter.
* `Window.Within.mono` — a window that lies inside a packet can be moved to a lower offset.
* `Window.LowestBest` names the lowest of the offsets at which the packets have the most different
  fingerprints, and `Window.exists_improveOffset` says that the scan finds it, although it does not
  look at every offset.
* `Window.exists_bestOffset` — if all packets are as long as the window, an offset is chosen at
  which all of them hold it.
* `Window.bestOffset_perm` — the choice does not depend on the order of the packets.
* `Window.bestOffset_lowestBest` — which offset is chosen, and when there is none.
-/

namespace LossSketch

/-! ## Elements that occurred before -/

theorem repeatsAfter_eq (seen : Std.HashSet UInt32) (count : Nat) (keys : List UInt32) :
    repeatsAfter seen count keys + (keys.filter fun key => !seen.contains key).toFinset.card =
      count + keys.length := by
  induction keys generalizing seen count with
  | nil => rfl
  | cons key keys ih =>
    rw [repeatsAfter, List.length_cons]
    by_cases hseen : seen.contains key
    · -- one more that occurred before
      have hrest := ih seen (count + 1)
      rw [if_pos hseen, List.filter_cons_of_neg (by simpa using hseen)]
      omega
    · -- it is new, and counts as earlier from here on
      have hrest := ih (seen.insert key) count
      have hnew : insert key (keys.filter fun other => !seen.contains other).toFinset =
          insert key (keys.filter fun other => !(seen.insert key).contains other).toFinset := by
        ext other
        simp only [Finset.mem_insert, List.mem_toFinset, List.mem_filter,
          Std.HashSet.contains_insert]
        by_cases hother : other = key
        · simp [hother]
        · simp [hother, Ne.symm hother]
      rw [if_neg hseen, List.filter_cons_of_pos (by simpa using hseen), List.toFinset_cons, hnew,
        Finset.card_insert_of_notMem (by simp)]
      omega

/-- The elements that occurred before and the different ones make up the list. -/
theorem repeats_eq (keys : List UInt32) : repeats keys + keys.toFinset.card = keys.length := by
  have hall := repeatsAfter_eq ∅ 0 keys
  rwa [List.filter_eq_self.2 (by simp), Nat.zero_add] at hall

theorem repeats_perm {keys others : List UInt32} (h : keys.Perm others) :
    repeats keys = repeats others := by
  have hkeys := repeats_eq keys
  have hothers := repeats_eq others
  rw [List.toFinset_eq_of_perm _ _ h, h.length_eq] at hkeys
  omega

/-! ## Offsets that suit all packets -/

namespace Window

variable {w : Window}

theorem Within.mono {offset lower : Nat} {packet : Bytes} (h : w.Within offset packet)
    (hle : lower ≤ offset) : w.Within lower packet :=
  (Nat.add_le_add_right hle _).trans h

theorem collisions_eq_ok {offset : Nat} {packets : List Bytes}
    (h : ∀ packet ∈ packets, w.Within offset packet) :
    w.collisions packets offset = .ok (repeats (packets.map (w.key offset))) := by
  rw [collisions, readAll_eq_ok h]
  rfl

/-- Offsets up to the last one of the shortest packet suit all packets. -/
theorem within_of_lastOffset? {packets : List Bytes} {shortest last : Nat}
    (hmin : (packets.map List.length).min? = some shortest)
    (hlast : w.lastOffset? shortest = some last) {offset : Nat} (hoffset : offset ≤ last) :
    ∀ packet ∈ packets, w.Within offset packet := by
  intro packet hpacket
  have hshort := (List.min?_eq_some_iff.1 hmin).2 packet.length (List.mem_map_of_mem hpacket)
  unfold lastOffset? at hlast
  split at hlast
  · cases hlast
    unfold Within
    omega
  · cases hlast

/-! ## The scan -/

/-- By how many the packets outnumber the different fingerprints at an offset. -/
def surplus (w : Window) (packets : List Bytes) (offset : Nat) : Nat :=
  packets.length - (packets.map (w.key offset)).toFinset.card

theorem repeats_keys (w : Window) (packets : List Bytes) (offset : Nat) :
    repeats (packets.map (w.key offset)) = w.surplus packets offset := by
  have hrepeats := repeats_eq (packets.map (w.key offset))
  rw [List.length_map] at hrepeats
  unfold surplus
  omega

/-- The packets have the most different fingerprints at the offset, of those that are tried, and
fewer at every lower one. -/
structure LowestBest (w : Window) (packets : List Bytes) (tried : List Nat) (offset : Nat) :
    Prop where
  mem : offset ∈ tried
  least : ∀ other ∈ tried, w.surplus packets offset ≤ w.surplus packets other
  lowest : ∀ other ∈ tried, other < offset → w.surplus packets offset < w.surplus packets other

section Scan

variable {packets : List Bytes} {tried : List Nat} {best next offset : Nat}

/-- Nothing improves on an offset at which all fingerprints are different. -/
theorem LowestBest.of_surplus_eq_zero (h : w.surplus packets best = 0)
    (hascending : ∀ other ∈ tried, best < other) :
    w.LowestBest packets (best :: tried) best where
  mem := List.mem_cons_self
  least _ _ := h.trans_le (Nat.zero_le _)
  lowest other hother hlt := by
    rcases List.mem_cons.1 hother with rfl | hother
    · exact absurd hlt (Nat.lt_irrefl _)
    · exact absurd hlt (Nat.lt_asymm (hascending other hother))

/-- An offset need not be looked at any more once a later one is better. -/
theorem LowestBest.of_better (h : w.LowestBest packets (next :: tried) offset)
    (hbetter : w.surplus packets next < w.surplus packets best) :
    w.LowestBest packets (best :: next :: tried) offset := by
  have hbest := (h.least next List.mem_cons_self).trans_lt hbetter
  refine ⟨List.mem_cons_of_mem _ h.mem, fun other hother => ?_, fun other hother hlt => ?_⟩
  · rcases List.mem_cons.1 hother with rfl | hother
    · exact hbest.le
    · exact h.least other hother
  · rcases List.mem_cons.1 hother with rfl | hother
    · exact hbest
    · exact h.lowest other hother hlt

/-- Nor one that is no better than an earlier one. -/
theorem LowestBest.of_not_better (h : w.LowestBest packets (best :: tried) offset)
    (hascending : best < next) (hnot : w.surplus packets best ≤ w.surplus packets next) :
    w.LowestBest packets (best :: next :: tried) offset := by
  have hsub : best :: tried ⊆ best :: next :: tried :=
    ((List.sublist_cons_self next tried).cons_cons best).subset
  have hbest := h.least best List.mem_cons_self
  refine ⟨hsub h.mem, fun other hother => ?_, fun other hother hlt => ?_⟩
  · rcases List.mem_cons.1 hother with rfl | hother
    · exact hbest
    rcases List.mem_cons.1 hother with rfl | hother
    · exact hbest.trans hnot
    · exact h.least other (List.mem_cons_of_mem _ hother)
  · rcases List.mem_cons.1 hother with rfl | hother
    · exact h.lowest other List.mem_cons_self hlt
    rcases List.mem_cons.1 hother with rfl | hother
    · -- it lies above the earlier one, which is worse than what was found behind both
      exact (h.lowest best List.mem_cons_self (hascending.trans hlt)).trans_le hnot
    · exact h.lowest other (List.mem_cons_of_mem _ hother) hlt

/-- **The scan finds the lowest of the best offsets**, though it ends at the first one at which all
fingerprints are different. -/
theorem exists_improveOffset (hascending : (best :: tried).Pairwise (· < ·))
    (hwithin : ∀ offset ∈ best :: tried, ∀ packet ∈ packets, w.Within offset packet) :
    ∃ offset, w.improveOffset packets tried best (w.surplus packets best) = .ok offset ∧
      w.LowestBest packets (best :: tried) offset := by
  -- what is still to be tried competes with the best offset so far, which lies below it
  induction tried generalizing best with
  | nil => exact ⟨best, rfl, by simp, by simp, by simp⟩
  | cons next tried ih =>
    obtain ⟨hbest, hrest⟩ := List.pairwise_cons.1 hascending
    unfold improveOffset
    split
    · -- the scan ends, whatever lies ahead
      rename_i hzero
      exact ⟨best, rfl, LowestBest.of_surplus_eq_zero hzero hbest⟩
    · rw [collisions_eq_ok (hwithin next (by simp)), repeats_keys]
      simp only [ok_bind]
      split
      · -- the next offset is better, and everything ahead lies above it as well
        rename_i hbetter
        obtain ⟨offset, hscan, hoffset⟩ :=
          ih hrest fun o ho => hwithin o (List.mem_cons_of_mem _ ho)
        exact ⟨offset, hscan, hoffset.of_better hbetter⟩
      · -- the best one so far is kept
        rename_i hnot
        have hsublist := (List.sublist_cons_self next tried).cons_cons best
        obtain ⟨offset, hscan, hoffset⟩ :=
          ih (hascending.sublist hsublist) fun o ho => hwithin o (hsublist.subset ho)
        exact ⟨offset, hscan,
          hoffset.of_not_better (hbest next List.mem_cons_self) (Nat.le_of_not_lt hnot)⟩

/-- Every offset up to the last one of the shortest packet competes for the choice. -/
theorem exists_bestOffset_of_fits {shortest : Nat}
    (hmin : (packets.map List.length).min? = some shortest)
    (hfits : w.width.toNat ≤ 8 * shortest) :
    ∃ offset, w.bestOffset packets = .ok offset ∧
      w.LowestBest packets (List.range (8 * shortest - w.width.toNat + 1)) offset := by
  have hlast : w.lastOffset? shortest = some (8 * shortest - w.width.toNat) := if_pos hfits
  -- the scan starts with offset zero as the best one
  have htried : List.range (8 * shortest - w.width.toNat + 1) =
      0 :: List.range' 1 (8 * shortest - w.width.toNat) := by
    rw [List.range_eq_range', List.range'_succ]
  have hwithin : ∀ offset ∈ 0 :: List.range' 1 (8 * shortest - w.width.toNat),
      ∀ packet ∈ packets, w.Within offset packet := by
    intro offset hoffset
    rw [← htried, List.mem_range, Nat.lt_succ_iff] at hoffset
    exact within_of_lastOffset? hmin hlast hoffset
  obtain ⟨offset, hscan, hoffset⟩ := exists_improveOffset (htried ▸ List.pairwise_lt_range) hwithin
  refine ⟨offset, ?_, htried ▸ hoffset⟩
  unfold bestOffset
  simp only [hmin, hlast]
  rw [collisions_eq_ok (hwithin 0 List.mem_cons_self), repeats_keys]
  exact hscan

end Scan

/-- **An offset is chosen** at which all packets hold the window, if they are as long as it. -/
theorem exists_bestOffset {packets : List Bytes} (h : ∀ packet ∈ packets, w.Within 0 packet) :
    ∃ offset, w.bestOffset packets = .ok offset ∧ ∀ packet ∈ packets, w.Within offset packet := by
  unfold bestOffset
  cases hmin : (packets.map List.length).min? with
  | none =>
    obtain rfl := List.map_eq_nil_iff.1 (List.min?_eq_none_iff.1 hmin)
    exact ⟨0, rfl, fun packet hpacket => absurd hpacket List.not_mem_nil⟩
  | some shortest =>
    -- the window fits into the shortest packet, so there is a last offset
    obtain ⟨packet, hpacket, hlength⟩ := List.mem_map.1 (List.min?_eq_some_iff.1 hmin).1
    have hfits : w.width.toNat ≤ 8 * shortest := by
      have hwithin := h packet hpacket
      rwa [Within, Nat.zero_add, hlength] at hwithin
    obtain ⟨offset, hchosen, hoffset⟩ := exists_bestOffset_of_fits hmin hfits
    refine ⟨offset, ?_, ?_⟩
    · rw [← hchosen, bestOffset, hmin]
    · exact within_of_lastOffset? hmin (if_pos hfits)
        (Nat.lt_succ_iff.1 (List.mem_range.1 hoffset.mem))

/-! ## The order of the packets -/

theorem collisions_perm {packets others : List Bytes} (h : packets.Perm others) {offset : Nat}
    (hwithin : ∀ packet ∈ packets, w.Within offset packet) :
    w.collisions packets offset = w.collisions others offset := by
  rw [collisions_eq_ok hwithin, collisions_eq_ok fun packet hpacket =>
    hwithin packet (h.mem_iff.2 hpacket), repeats_perm (h.map _)]

/-- The scan looks at the numbers of collisions only. -/
theorem improveOffset_congr {packets others : List Bytes} {untried : List Nat}
    (h : ∀ offset ∈ untried, w.collisions packets offset = w.collisions others offset)
    (best least : Nat) :
    w.improveOffset packets untried best least = w.improveOffset others untried best least := by
  induction untried generalizing best least with
  | nil => rfl
  | cons next untried ih =>
    have hrest := ih fun offset hoffset => h offset (List.mem_cons_of_mem _ hoffset)
    rw [improveOffset, improveOffset, h next List.mem_cons_self]
    simp only [hrest]

/-- **The order of the packets does not matter** for the choice of an offset. -/
theorem bestOffset_perm {packets others : List Bytes} (h : packets.Perm others) :
    w.bestOffset packets = w.bestOffset others := by
  have hmin : (others.map List.length).min? = (packets.map List.length).min? := by
    refine Option.ext fun shortest => ?_
    rw [List.min?_eq_some_iff, List.min?_eq_some_iff]
    simp only [(h.map List.length).mem_iff]
  rw [bestOffset, bestOffset, hmin]
  cases hshortest : (packets.map List.length).min? with
  | none => rfl
  | some shortest =>
    cases hlast : w.lastOffset? shortest with
    | none => simp only [hlast]
    | some last =>
      -- only offsets that suit all packets are tried
      have hsame : ∀ offset ≤ last, w.collisions packets offset = w.collisions others offset :=
        fun offset hoffset => collisions_perm h (within_of_lastOffset? hshortest hlast hoffset)
      have hscan : ∀ best least, w.improveOffset packets (List.range' 1 last) best least =
          w.improveOffset others (List.range' 1 last) best least := by
        refine improveOffset_congr fun offset hoffset => hsame offset ?_
        have := List.mem_range'_1.1 hoffset
        omega
      simp only [hlast, hsame 0 (Nat.zero_le _), hscan]

/-! ## What is chosen -/

theorem bestOffset_eq_error {packets : List Bytes} {shortest : Nat}
    (hmin : (packets.map List.length).min? = some shortest)
    (hshort : 8 * shortest < w.width.toNat) :
    w.bestOffset packets = .error (.packetTooShort shortest (w.bytesNeeded 0)) := by
  have hlast : w.lastOffset? shortest = none := if_neg (Nat.not_le.2 hshort)
  unfold bestOffset
  simp only [hmin, hlast]

/-- **The lowest of the best offsets is chosen** among all at which the shortest packet holds the
window: the packets outnumber the different fingerprints there by as little as anywhere, and by more
at every lower offset. All packets can be read at each of these offsets. No offset is chosen exactly
if there are packets and the shortest of them does not hold the window. The order of the packets
does not matter. -/
theorem bestOffset_lowestBest (w : Window) (packets : List Bytes) :
    (∀ shortest, (packets.map List.length).min? = some shortest → w.width.toNat ≤ 8 * shortest →
      (∀ offset ≤ 8 * shortest - w.width.toNat,
        w.readAll packets offset = .ok (packets.map (w.key offset))) ∧
      ∃ offset, w.bestOffset packets = .ok offset ∧
        w.LowestBest packets (List.range (8 * shortest - w.width.toNat + 1)) offset) ∧
    (∀ e, w.bestOffset packets = .error e ↔ ∃ shortest,
      (packets.map List.length).min? = some shortest ∧ 8 * shortest < w.width.toNat ∧
        e = .packetTooShort shortest (w.bytesNeeded 0)) ∧
    ∀ others, packets.Perm others → w.bestOffset others = w.bestOffset packets := by
  refine ⟨fun shortest hmin hfits => ⟨fun offset hoffset => ?_, ?_⟩, fun e => ⟨fun h => ?_, ?_⟩,
    fun others hperm => (bestOffset_perm hperm).symm⟩
  · exact readAll_eq_ok (within_of_lastOffset? hmin (if_pos hfits) hoffset)
  · exact exists_bestOffset_of_fits hmin hfits
  · cases hmin : (packets.map List.length).min? with
    | none =>
      -- without packets there is nothing to refuse
      rw [bestOffset, hmin] at h
      cases h
    | some shortest =>
      rcases Nat.lt_or_ge (8 * shortest) w.width.toNat with hshort | hfits
      · rw [bestOffset_eq_error hmin hshort] at h
        exact ⟨shortest, rfl, hshort, (Except.error.inj h).symm⟩
      · obtain ⟨offset, hchosen, -⟩ := exists_bestOffset_of_fits hmin hfits
        rw [hchosen] at h
        cases h
  · rintro ⟨shortest, hmin, hshort, rfl⟩
    exact bestOffset_eq_error hmin hshort

/-- At the first offset the packets read 1 and 65522, which stand for the same residue. One bit
later they read 0 and 65529, so the scan ends there. -/
theorem bestOffset_lowestBest_alias :
    ([[1, 0, 0], [0xf2, 0xff, 1, 0]].map (List.length : Bytes → Nat)).min? = some 3 ∧ 16 ≤ 8 * 3 ∧
      (⟨16, 65521, by decide, by decide, by decide⟩ : Window).bestOffset
        [[1, 0, 0], [0xf2, 0xff, 1, 0]] = .ok 1 := by
  obtain ⟨hchoice, -, -⟩ := bestOffset_lowestBest
    ⟨16, 65521, by decide, by decide, by decide⟩ [[1, 0, 0], [0xf2, 0xff, 1, 0]]
  obtain ⟨-, offset, hchosen, hoffset⟩ := hchoice 3 (by decide) (by decide)
  have hfirst := hoffset.least 1 (by decide)
  have hsecond := hoffset.lowest 1 (by decide)
  have hnone : surplus ⟨16, 65521, by decide, by decide, by decide⟩
    [[1, 0, 0], [0xf2, 0xff, 1, 0]] 1 = 0 := by decide
  have hsome : surplus ⟨16, 65521, by decide, by decide, by decide⟩
    [[1, 0, 0], [0xf2, 0xff, 1, 0]] 0 = 1 := by decide
  -- offset zero has a repeat, and those above one are not the lowest without any
  have hone : offset = 1 := by
    rcases Nat.lt_trichotomy offset 1 with hlt | heq | hgt
    · obtain rfl : offset = 0 := by omega
      rw [hsome, hnone] at hfirst
      exact absurd hfirst (by decide)
    · exact heq
    · have := hsecond hgt
      omega
  exact ⟨by decide, by decide, hone ▸ hchosen⟩

end Window

end LossSketch
