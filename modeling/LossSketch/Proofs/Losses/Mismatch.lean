import LossSketch.Proofs.Losses.Checked

/-!
# A wrong expectation

* `Table.losses_of_ne` — when a difference holds another number of candidates than expected, the
  error says so, with a number found that is on the right side of the expected one.
* `Table.losses_mismatch` — the same of a table that candidates were inserted into.
* `Table.lossesChecked_mismatch` — the same in words, unless decoding stops.
  `Table.lossesChecked_stops` is a table at which it does.

Where peeling takes everything out, or the search finds what is left, the number found is that of
the candidates held. Where more is peeled than expected the search is not asked, and the number
found is that of the peeled ones alone.
-/

namespace LossSketch

namespace Table

variable {kind : Kind} {diff : Table kind} {candidates : List UInt32} {expected : Nat}
  {taken : List Nat}

/-! ## Where the number is compared -/

section

variable (hcheck : diff.checkLosses = .ok ())
  (htaken : (Pool.ofCandidates diff candidates).takeAll diff.peel.recovered = .ok taken)
  (solver : Solver)
include hcheck htaken

/-- When everything is peeled, its number is compared. -/
theorem losses_of_isComplete_ne (hcomplete : diff.peel.isComplete = true)
    (hne : taken.length ≠ expected) : diff.losses candidates expected solver =
      .error (.cardinalityMismatch expected taken.length) := by
  simp only [losses, hcheck, htaken, ok_bind]
  rw [if_pos hcomplete, if_pos hne]
  rfl

variable (hcomplete : ¬ diff.peel.isComplete = true)
  (hresidual : diff.peel.residual.checkLosses = .ok ())
include hcomplete hresidual

/-- When something is left, no more than expected may be peeled. -/
theorem losses_of_lt (hlt : expected < taken.length) : diff.losses candidates expected solver =
    .error (.cardinalityMismatch expected taken.length) := by
  simp only [losses, hcheck, htaken, hresidual, ok_bind]
  rw [if_neg hcomplete, if_pos hlt]
  rfl

/-- What solving for the rest says of the number is said of all candidates. -/
theorem losses_of_solve_error (hle : taken.length ≤ expected) {found : Nat}
    (hsolve : (diff.peel.residual.program ((candidatesLeft candidates taken).map Prod.fst)
      (expected - taken.length)).solve solver =
        .error (.cardinalityMismatch (expected - taken.length) found)) :
    diff.losses candidates expected solver =
      .error (.cardinalityMismatch expected (found + taken.length)) := by
  simp only [losses, hcheck, htaken, hresidual, ofDifference_eq hresidual, hsolve, ok_bind]
  rw [if_neg hcomplete, if_neg (Nat.not_lt.2 hle)]
  rfl

end

/-! ## Differences that hold another number of candidates -/

/-- **Another number than expected is an error**, and the number found is above or below the
expected one as the number held is. -/
theorem losses_of_ne (hdiff : diff.WellFormed) {held : Multiset UInt32} (hheld : diff.Holds held)
    (hle : held ≤ (candidates.map diff.canonical : List UInt32))
    (hne : expected ≠ Multiset.card held) :
    ∃ found, diff.losses candidates expected (Program.firstSolution · none) =
        .error (.cardinalityMismatch expected found) ∧
      (found < expected ↔ Multiset.card held < expected) ∧
      (expected < found ↔ expected < Multiset.card held) := by
  have hwell := (peels_peel diff).wellFormed hdiff
  have hresidual := (recovered_le hdiff hheld hle).2.checkLosses hwell
  have hcheck := hheld.checkLosses hdiff
  obtain ⟨taken, htaken⟩ := exists_taken hdiff hheld hle
  by_cases hcomplete : diff.peel.isComplete = true
  · -- all candidates that are held were peeled
    have hlength := length_taken hdiff hheld hle htaken hcomplete
    rw [← hlength] at hne ⊢
    exact ⟨_, losses_of_isComplete_ne hcheck htaken _ hcomplete hne.symm, Iff.rfl, Iff.rfl⟩
  · obtain ⟨chosen, hcard, hsolve⟩ := exists_solve_left hdiff hheld hle htaken
      (expected - taken.length)
    rcases Nat.lt_or_ge expected taken.length with hlt | hge
    · -- some of those that are held are too many already
      exact ⟨_, losses_of_lt hcheck htaken _ hcomplete hresidual hlt, by omega, by omega⟩
    · -- the others are found, and counted with the peeled ones
      rw [if_neg (by omega)] at hsolve
      exact ⟨_, losses_of_solve_error hcheck htaken _ hcomplete hresidual hge hsolve, by omega,
        by omega⟩

/-! ## Tables of candidates -/

/-- What a table records of some of the candidates. -/
theorem map_canonical_le (t : Table kind) {held : Finset Nat}
    (hlt : ∀ i ∈ held, i < candidates.length) {keys : List UInt32}
    (hkeys : keys.Perm (keysAt candidates held.sort)) :
    (keys : Multiset UInt32).map t.canonical ≤ (candidates.map t.canonical : List UInt32) := by
  have hperm := perm_keysAt_append (Finset.sort_nodup held (· ≤ ·))
    fun i hi => hlt i ((Finset.mem_sort _).1 hi)
  exact Multiset.map_le_map
    (coe_le_of_perm_append (List.perm_append_comm.trans ((hkeys.append_right _).trans hperm)))

/-- The table of some of the candidates, in any order, holds another number than expected. -/
theorem losses_mismatch {s : Session} {offset : UInt64} (hs : s.Usable) {held : Finset Nat}
    (hlt : ∀ i ∈ held, i < candidates.length) {keys : List UInt32}
    (hkeys : keys.Perm (keysAt candidates held.sort)) (hne : expected ≠ held.card) :
    ∃ found, (tabulate kind s offset keys).losses candidates expected
        (Program.firstSolution · none) = .error (.cardinalityMismatch expected found) ∧
      ((Error.cardinalityMismatch expected found).isTooFew = true ↔ held.card < expected) ∧
      ((Error.cardinalityMismatch expected found).isTooMany = true ↔ expected < held.card) := by
  have hdiff := wellFormed_tabulate kind offset keys hs
  -- the table holds the keys as it records them, which are recorded of some of the candidates
  have hheld := (holds_map_canonical_iff hdiff.usable).2 (holds_tabulate kind offset keys hs)
  have hle := map_canonical_le (tabulate kind s offset keys) hlt hkeys
  have hcard : keys.length = held.card := by
    rw [hkeys.length_eq, length_keysAt, Finset.length_sort]
  obtain ⟨found, hlosses, htooFew, htooMany⟩ := losses_of_ne hdiff hheld hle
    (by rwa [Multiset.card_map, Multiset.coe_card, hcard])
  rw [Multiset.card_map, Multiset.coe_card, hcard] at htooFew htooMany
  exact ⟨found, hlosses, decide_eq_true_iff.trans htooFew, decide_eq_true_iff.trans htooMany⟩

/-- **A wrong expectation is always reported in words, in the right direction, or decoding stops.**
Let candidates be inserted in words into a new table, in any order, which goes through where they
are few enough for their number times that of hash functions to be a word. Let another number of
candidates be expected. Where there is room for the candidates, decoding fails with the two numbers,
which are too few exactly when fewer were inserted than expected, and too many exactly when more
were. Where there is none, let sums out of range stop the test of answers: then decoding stops, or
it fails so as well. -/
theorem lossesChecked_mismatch {s : Session} {offset : UInt64} {start : Table kind}
    (hstart : newChecked s offset = .ok start) {held : Finset Nat}
    (hlt : ∀ i ∈ held, i < candidates.length) {keys : List UInt32}
    (hkeys : keys.Perm (keysAt candidates held.sort)) (hne : expected ≠ held.card) :
    (s.hashes.toNat * held.card < 2 ^ 63 → ∃ t, keys.foldlM insertChecked start = some t) ∧
    ∀ t, keys.foldlM insertChecked start = some t →
      ∀ overflow, (overflow = .stops ∨ t.RoomFor candidates.length) →
        (¬ t.RoomFor candidates.length ∧ t.lossesChecked overflow candidates expected
          (Program.firstSolutionChecked · none) = .error .overflow) ∨
        ∃ found, t.lossesChecked overflow candidates expected
            (Program.firstSolutionChecked · none) =
              .error (.error (.cardinalityMismatch expected found)) ∧
          ((Error.cardinalityMismatch expected found).isTooFew = true ↔ held.card < expected) ∧
          ((Error.cardinalityMismatch expected found).isTooMany = true ↔ expected < held.card) := by
  obtain ⟨hs, rfl⟩ := eq_blank_of_new (newChecked_eq_ok_iff.1 hstart).2
  have hdiff := wellFormed_tabulate kind offset keys hs
  have hheld := holds_tabulate kind offset keys hs
  have hcard : keys.length = held.card := by
    rw [hkeys.length_eq, length_keysAt, Finset.length_sort]
  have hinsert : keys.foldlM insertChecked (blank s offset : Table kind) = _ :=
    foldlM_insertChecked_blank hs offset keys
  refine ⟨fun hroom => ?_, fun t ht overflow hrange => ?_⟩
  · have hfits : (tabulate kind s offset keys).Fits := hheld.fits (by
      rwa [session_tabulate, Multiset.coe_card, hcard])
    exact ⟨_, hinsert.trans (if_pos hfits)⟩
  · rw [hinsert] at ht
    split at ht
    · rename_i hfits
      obtain rfl := Option.some.inj ht
      -- what is left of the keys is counted in words as well
      have hleft := (recovered_le hdiff ((holds_map_canonical_iff hdiff.usable).2 hheld)
        (map_canonical_le (tabulate kind s offset keys) hlt hkeys)).2
      have hresidual := hleft.fits_residual hdiff hfits
      obtain ⟨found, hlosses, hsize⟩ : ∃ found, (tabulate kind s offset keys).losses candidates
          expected (Program.firstSolution · none) = .error (.cardinalityMismatch expected found) ∧
          _ := losses_mismatch hs hlt hkeys hne
      rcases lossesChecked_refines_of_range hdiff hrange hfits hresidual expected with
        hexact | hstops
      · right
        refine ⟨found, hexact.trans ?_, hsize⟩
        rw [hlosses]
        rfl
      · exact Or.inl hstops
    · cases ht

/-- The key 1 is peeled, and the other two are found by the search, one more than are expected. -/
theorem lossesChecked_mismatch_small : ∃ (start t : Table .summing) (p : Peeled .summing)
    (found : Nat), newChecked Session.small 0 = .ok start ∧
      [2, 5, 1].foldlM insertChecked start = some t ∧ t.peelChecked = some p ∧
      p.recovered = [1] ∧ t.RoomFor 4 ∧
      t.lossesChecked .stops [5, 11, 2, 1] 2 (Program.firstSolutionChecked · none) =
        .error (.error (.cardinalityMismatch 2 found)) ∧
      (Error.cardinalityMismatch 2 found).isTooMany = true := by
  have hstart : newChecked Session.small 0 = .ok (blank Session.small 0 : Table .summing) := by
    decide +kernel
  have hlt : ∀ i ∈ [0, 2, 3].toFinset, i < ([5, 11, 2, 1] : List UInt32).length := by decide
  have hsort : [0, 2, 3].toFinset.sort = [0, 2, 3] :=
    (List.toFinset_sort (· ≤ ·) (by decide)).2 (by decide)
  have hkeys : ([2, 5, 1] : List UInt32).Perm
      (keysAt [5, 11, 2, 1] [0, 2, 3].toFinset.sort) := by
    rw [hsort]
    decide
  have hne : 2 ≠ [0, 2, 3].toFinset.card := by decide
  obtain ⟨hgoes, hreports⟩ := lossesChecked_mismatch hstart hlt hkeys hne
  obtain ⟨t, ht⟩ := hgoes (by decide)
  have hsmall : [2, 5, 1].foldlM insertChecked (blank Session.small 0 : Table .summing) =
      some (small .summing [2, 5, 1]) := by
    decide +kernel
  obtain rfl := Option.some.inj (hsmall.symm.trans ht)
  have hroom : (small .summing [2, 5, 1]).RoomFor 4 := by decide +kernel
  have hpeel : (small .summing [2, 5, 1]).peelChecked = some (small .summing [2, 5, 1]).peel :=
    (peelChecked_eq_some (wellFormed_small _ _) (by decide +kernel)).2 ⟨rfl, by decide +kernel⟩
  obtain ⟨found, hlosses, -, htooMany⟩ :=
    (hreports _ ht .stops (Or.inl rfl)).resolve_left fun hstops => hstops.1 hroom
  exact ⟨_, _, _, found, hstart, ht, hpeel, by decide +kernel, hroom, hlosses,
    htooMany.2 (by decide)⟩

/-- Where there is no room, decoding may stop. Of 129 packets with 2 ^ 24 hash functions, 128 are
expected, and no mismatch is reported. -/
theorem lossesChecked_stops : ∃ (s : Session) (start t : Table .summing),
    newChecked s 0 = .ok start ∧ (List.replicate 129 1000).foldlM insertChecked start = some t ∧
      (List.replicate 129 (1000 : UInt32)).length ≠ 128 ∧
      t.lossesChecked .stops (List.replicate 129 1000) 128 (Program.firstSolutionChecked · none) =
        .error .overflow := by
  obtain ⟨sum, hsum, htable⟩ := exists_foldlM_insertChecked_heavy
  have hne : (List.replicate 129 (1000 : UInt32)).length ≠ 128 := by
    rw [List.length_replicate]
    decide
  exact ⟨_, _, _, newChecked_heavy, htable, hne, lossesChecked_heavy hsum .stops 128⟩

end Table

end LossSketch
