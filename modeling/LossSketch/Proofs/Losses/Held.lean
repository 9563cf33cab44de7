import LossSketch.Proofs.Losses.Decoded
import LossSketch.Proofs.Program.Enumeration

/-!
# Differences that hold candidates decode

* `Table.recovered_le` and `Table.exists_taken` — peeling finds keys that are held, and each of them
  has a candidate. `Table.exists_solve_left` — a search that does not give up finds as many others.
* `Table.exists_losses` — so a difference that holds some of the candidates decodes.
* `Table.Decoded.keysAt_indices_eq` — where the search has nothing left to find, the accepted
  candidates carry the keys that the difference holds.
-/

namespace LossSketch

/-- Taking candidates out of a list leaves the candidates left. -/
theorem perm_keysAt_append_candidatesLeft {candidates : List UInt32} {taken : List Nat}
    (hnodup : taken.Nodup) (hlt : ∀ i ∈ taken, i < candidates.length) :
    (keysAt candidates taken ++ (candidatesLeft candidates taken).map Prod.fst).Perm
      candidates := by
  rw [candidatesLeft_eq]
  exact perm_keysAt_append hnodup hlt

namespace Table

variable {kind : Kind}

/-! ## Differences that hold candidates -/

section

variable {diff : Table kind} {candidates : List UInt32}

/-- The candidates taken are recorded as the peeled keys. -/
theorem map_canonical_taken {taken : List Nat}
    (htaken : (Pool.ofCandidates diff candidates).takeAll diff.peel.recovered = .ok taken) :
    (keysAt candidates taken).map diff.canonical = diff.peel.recovered := by
  rw [← Pool.map_takeAll (Pool.names_ofCandidates diff candidates) htaken, keysAt, List.map_map]
  rfl

/-- What is held and not peeled is recorded of candidates left. -/
theorem sub_recovered_le {held : Multiset UInt32}
    (hle : held ≤ (candidates.map diff.canonical : List UInt32)) {taken : List Nat}
    (htaken : (Pool.ofCandidates diff candidates).takeAll diff.peel.recovered = .ok taken) :
    held - diff.peel.recovered ≤
      (((candidatesLeft candidates taken).map Prod.fst).map diff.canonical : List UInt32) := by
  have hnames := Pool.names_ofCandidates diff candidates
  have hperm := perm_keysAt_append_candidatesLeft (Pool.nodup_takeAll hnames htaken)
    fun _ hi => Pool.lt_of_mem_takeAll htaken hi
  -- the candidates taken and those left are all candidates, and the former are the peeled keys
  have hmap := hperm.map diff.canonical
  rw [List.map_append, map_canonical_taken htaken] at hmap
  rw [tsub_le_iff_left, Multiset.coe_add, Multiset.coe_eq_coe.2 hmap]
  exact hle

variable (hdiff : diff.WellFormed) {held : Multiset UInt32} (hheld : diff.Holds held)
  (hle : held ≤ (candidates.map diff.canonical : List UInt32))
include hdiff hheld hle

/-- Only keys that are held are peeled. -/
theorem recovered_le : (diff.peel.recovered : Multiset UInt32) ≤ held ∧
    diff.peel.residual.Holds (held - diff.peel.recovered) := by
  refine (peels_peel diff).holds hdiff hheld fun key hkey => ?_
  -- what candidates are recorded as is canonical
  obtain ⟨candidate, -, rfl⟩ := List.mem_map.1 (Multiset.mem_of_le hle hkey)
  exact Kind.canonical_canonical hdiff.usable.modulus_ne_zero kind candidate

/-- Every peeled key has a candidate. -/
theorem exists_taken :
    ∃ taken, (Pool.ofCandidates diff candidates).takeAll diff.peel.recovered = .ok taken := by
  refine Pool.exists_takeAll fun key => ?_
  -- of each key no more are peeled than are held, and so than there are candidates
  rw [Pool.length_getD_ofCandidates, ← Multiset.coe_count, ← Multiset.coe_count]
  exact Multiset.count_le_of_le key ((recovered_le hdiff hheld hle).1.trans hle)

/-- The candidates taken and the keys left over are together as many as the keys that are held. -/
theorem length_taken_add {taken : List Nat}
    (htaken : (Pool.ofCandidates diff candidates).takeAll diff.peel.recovered = .ok taken) :
    taken.length + Multiset.card (held - (diff.peel.recovered : Multiset UInt32)) =
      Multiset.card held := by
  have hlength := congrArg List.length (map_canonical_taken htaken)
  rw [List.length_map, length_keysAt] at hlength
  rw [hlength, ← Multiset.coe_card, ← Multiset.card_add,
    add_tsub_cancel_of_le (recovered_le hdiff hheld hle).1]

/-- Where peeling takes everything out, it takes a candidate for each key that is held. -/
theorem length_taken {taken : List Nat}
    (htaken : (Pool.ofCandidates diff candidates).takeAll diff.peel.recovered = .ok taken)
    (hcomplete : diff.peel.isComplete = true) : taken.length = Multiset.card held := by
  have hnone := (madeUpBy_nil_of_isEmpty hcomplete).length_eq ((peels_peel diff).wellFormed hdiff)
    (recovered_le hdiff hheld hle).2
  rw [← length_taken_add hdiff hheld hle htaken, ← hnone]
  rfl

/-- The keys left over are a solution, so the search finds one, and it has their number, whatever
number is expected. -/
theorem exists_solve_left {taken : List Nat}
    (htaken : (Pool.ofCandidates diff candidates).takeAll diff.peel.recovered = .ok taken)
    (expected : Nat) :
    ∃ chosen : List Nat, taken.length + chosen.length = Multiset.card held ∧
      (diff.peel.residual.program ((candidatesLeft candidates taken).map Prod.fst) expected).solve
        (Program.firstSolution · none) =
      if chosen.length = expected then .ok chosen
      else .error (.cardinalityMismatch expected chosen.length) := by
  have hresidual := (recovered_le hdiff hheld hle).2
  have hwell := (peels_peel diff).wellFormed hdiff
  have hcanonical : diff.peel.residual.canonical = diff.canonical := by
    funext key
    rw [canonical, canonical, (peels_peel diff).session_eq]
  have hcard := length_taken_add hdiff hheld hle htaken
  -- what is left is held by some of the candidates left
  obtain ⟨indices, hascending, hlt, hkeys⟩ := exists_keysAt_eq (sub_recovered_le hle htaken)
  rw [List.length_map] at hlt
  rw [keysAt_map hlt, ← Multiset.map_coe, ← hcanonical] at hkeys
  have hmade := Holds.madeUpBy hwell
    ((holds_map_canonical_iff hwell.usable).1 (hkeys.symm ▸ hresidual))
  have hselects : (diff.peel.residual.program ((candidatesLeft candidates taken).map Prod.fst)
      expected).Selects indices := (Program.selects_program_iff hwell).2
    ⟨eligible_of_madeUpBy hwell hascending hlt hmade, hmade⟩
  rcases Program.solve_cases (check_program hwell _ expected) with
    ⟨chosen, hfirst, hsolve⟩ | ⟨-, hno⟩
  · -- whatever is found makes up what is left, which fixes the number of keys
    have hfound := ((Program.selects_program_iff hwell).1 hfirst.selects).2
    have hchosen := hfound.length_eq hwell hresidual
    rw [length_keysAt] at hchosen
    exact ⟨chosen, by omega, hsolve⟩
  · exact absurd hselects (hno indices)

end

section

variable {diff : Table kind} {candidates : List UInt32}
  (hcanonical : ∀ key ∈ candidates, diff.canonical key = key)
include hcanonical

theorem map_canonical_eq_self : candidates.map diff.canonical = candidates := by
  conv_rhs => rw [← List.map_id candidates]
  exact List.map_congr_left hcanonical

/-- The candidates taken carry the peeled keys themselves. -/
theorem keysAt_taken {taken : List Nat}
    (htaken : (Pool.ofCandidates diff candidates).takeAll diff.peel.recovered = .ok taken) :
    keysAt candidates taken = diff.peel.recovered := by
  rw [← map_canonical_taken htaken, ← keysAt_map fun _ hi => Pool.lt_of_mem_takeAll htaken hi,
    map_canonical_eq_self hcanonical]

variable (hdiff : diff.WellFormed) {held : Multiset UInt32} (hheld : diff.Holds held)
  (hle : held ≤ candidates)
include hdiff hheld hle

/-- **A difference that holds some of the candidates decodes** into as many of them. -/
theorem exists_losses :
    ∃ r, diff.losses candidates (Multiset.card held) (Program.firstSolution · none) = .ok r := by
  rw [← map_canonical_eq_self hcanonical] at hle
  have hwell := (peels_peel diff).wellFormed hdiff
  have hresidual := (recovered_le hdiff hheld hle).2.checkLosses hwell
  have hcheck := hheld.checkLosses hdiff
  obtain ⟨taken, htaken⟩ := exists_taken hdiff hheld hle
  by_cases hcomplete : diff.peel.isComplete = true
  · -- nothing is left, so every key that is held was peeled
    have hlength := length_taken hdiff hheld hle htaken hcomplete
    exact ⟨_, hlength ▸ losses_of_isComplete hcheck htaken hcomplete _⟩
  · obtain ⟨chosen, hcard, hsolve⟩ := exists_solve_left hdiff hheld hle htaken
      (Multiset.card held - taken.length)
    rw [if_pos (by omega)] at hsolve
    exact ⟨_, losses_of_solve hcheck htaken hcomplete hresidual (by omega) hsolve⟩

/-- Where the solver has nothing to add, the accepted candidates carry the keys that the difference
holds. -/
theorem Decoded.keysAt_indices_eq {taken chosen : List Nat} {r : Losses}
    (h : diff.Decoded candidates (Multiset.card held) taken chosen r) (hsolved : r.bySolving = 0) :
    (keysAt candidates r.indices : Multiset UInt32) = held := by
  have hchosen := h.chosen_eq_nil hsolved
  have hperm := h.perm_keysAt
  have hlength := h.length_eq
  -- the accepted candidates carry the peeled keys, which are as many as are held
  rw [hchosen, originals, List.map_nil, keysAt_taken hcanonical h.taken_eq] at hperm
  rw [Multiset.coe_eq_coe.2 hperm]
  rw [← map_canonical_eq_self hcanonical] at hle
  refine Multiset.eq_of_le_of_card_le (recovered_le hdiff hheld hle).1 ?_
  rw [← hlength, hchosen, ← length_keysAt candidates taken, keysAt_taken hcanonical h.taken_eq]
  exact le_rfl

end

end Table

end LossSketch
