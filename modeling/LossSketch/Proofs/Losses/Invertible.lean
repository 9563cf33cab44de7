import LossSketch.Proofs.Losses.Held

/-!
# What an answer for an invertible table reproduces

The program of a difference has rows for counts and for sums in the field. What an invertible bucket
records of its keys is not linear, so no row speaks of it.

* `Table.Decoded.cell_eq_iff` — the accepted candidates give a bucket back exactly where the solved
  ones among them give back what peeling left of it.
* `Table.losses_rebuilt` — so every count is given back, and the records of all buckets that peeling
  emptied.
* `Table.losses_not_rebuilt` — other records may differ.
-/

namespace LossSketch

namespace Table

variable {kind : Kind}

/-- Nothing is accepted unless what peeling leaves passes the check of a difference. -/
theorem checkLosses_residual {diff : Table kind} {candidates : List UInt32} {expected : Nat}
    {solver : Solver} {r : Losses} (h : diff.losses candidates expected solver = .ok r) :
    diff.peel.residual.checkLosses = .ok () := by
  rw [losses, bind_eq_ok] at h
  obtain ⟨⟨⟩, -, h⟩ := h
  obtain ⟨taken, -, h⟩ := bind_eq_ok.1 h
  split at h
  · -- nothing is left
    rename_i hcomplete
    rw [checkLosses_eq_ok_iff]
    intro c hc
    obtain ⟨b, hb, rfl⟩ := Array.getElem_of_mem hc
    rw [← cell_of_lt hb, isEmpty_eq_true_iff.1 hcomplete b hb]
    exact ⟨Int.le_refl 0, fun _ => rfl⟩
  · -- what is left is checked
    obtain ⟨⟨⟩, hresidual, -⟩ := bind_eq_ok.1 h
    exact hresidual

namespace Decoded

variable {diff : Table kind} {candidates : List UInt32} {expected : Nat} {taken chosen : List Nat}
  {r : Losses} (h : diff.Decoded candidates expected taken chosen r) (hdiff : diff.WellFormed)
include h hdiff

/-- **A bucket is given back** exactly where the solved candidates give back what peeling left. -/
theorem cell_eq_iff (b : Nat) :
    ((keysAt candidates r.indices).foldl insert diff.emptied).cell b = diff.cell b ↔
      ((keysAt candidates (originals candidates taken chosen)).foldl insert diff.emptied).cell b =
        diff.peel.residual.cell b := by
  have hpeel := peels_peel diff
  have hwell := hpeel.wellFormed hdiff
  -- the accepted candidates bring what the solved ones and the taken ones bring
  have hrebuilt : (((keysAt candidates r.indices).foldl insert diff.emptied).cell b).weight
      diff.session.field =
        (((keysAt candidates (originals candidates taken chosen)).foldl insert diff.emptied).cell
          b).weight diff.session.field +
        ((keysAt candidates taken).map fun key => diff.session.share kind key b).sum := by
    rw [weight_foldl_insert_emptied _ hdiff, weight_foldl_insert_emptied _ hdiff,
      ← List.sum_append, ← List.map_append]
    exact ((h.perm_keysAt).map _).sum_eq
  rw [cell_eq_iff_weight hdiff (WellFormed.foldl_insert _ hdiff.emptied)
      (session_foldl_insert _ _),
    cell_eq_iff_weight hwell (WellFormed.foldl_insert _ hdiff.emptied)
      ((session_foldl_insert _ _).trans hpeel.session_eq.symm), hpeel.session_eq, hrebuilt,
    h.weight_taken hdiff b, add_left_inj]

/-- The solved candidates give back every count that peeling left. -/
theorem count_solved {b : Nat} (hb : b < diff.cells.size) :
    (((keysAt candidates (originals candidates taken chosen)).foldl insert diff.emptied).cell
      b).count = (diff.peel.residual.cell b).count := by
  rw [count_foldl_insert hdiff, (h.weight_chosen hdiff hb).1]

end Decoded

/-- **What an answer for an invertible table reproduces.** The accepted candidates are some that
carry the peeled keys and some that the solver found. They give back every count. They give back the
record of a bucket exactly where the solved ones among them give back what peeling left of it, so in
every bucket that peeling emptied, and in all buckets if nothing was left to the solver. -/
theorem losses_rebuilt {diff : Table .invertible} (hdiff : diff.WellFormed)
    {candidates : List UInt32} {expected : Nat} {solver : Solver} {r : Losses}
    (h : diff.losses candidates expected solver = .ok r) :
    ∃ taken solved : List Nat, (taken ++ solved).Perm r.indices ∧
      taken.length = r.byPeeling ∧ solved.length = r.bySolving ∧
      keysAt candidates taken = diff.peel.recovered ∧
      (∀ b < diff.cells.size,
        (((keysAt candidates r.indices).foldl insert diff.emptied).cell b).count =
          (diff.cell b).count) ∧
      (∀ b, ((keysAt candidates r.indices).foldl insert diff.emptied).cell b = diff.cell b ↔
        ((keysAt candidates solved).foldl insert diff.emptied).cell b =
          diff.peel.residual.cell b) ∧
      (∀ b < diff.cells.size, (diff.peel.residual.cell b).count = 0 →
        ((keysAt candidates r.indices).foldl insert diff.emptied).cell b = diff.cell b) ∧
      (r.bySolving = 0 → (keysAt candidates r.indices).foldl insert diff.emptied = diff) := by
  obtain ⟨taken, chosen, hdecoded⟩ := losses_eq_ok hdiff h
  have hresidual := checkLosses_residual h
  have hwell := WellFormed.foldl_insert (keysAt candidates r.indices) hdiff.emptied
  -- where peeling left no count, neither side of the equivalence has anything
  have hempty : ∀ b < diff.cells.size, (diff.peel.residual.cell b).count = 0 →
      ((keysAt candidates r.indices).foldl insert diff.emptied).cell b = diff.cell b := by
    intro b hb hcount
    have hsolved := hdecoded.count_solved hdiff hb
    rw [hdecoded.cell_eq_iff hdiff b, cell_eq_empty_of_checkLosses hresidual hcount]
    exact (holds_foldl_insert hdiff _).cell_eq_empty
      (WellFormed.foldl_insert _ hdiff.emptied) (hsolved.trans hcount)
  refine ⟨taken, originals candidates taken chosen, hdecoded.perm.symm, ?_, ?_,
    keysAt_taken (fun _ _ => rfl) hdecoded.taken_eq, fun b hb => ?_, hdecoded.cell_eq_iff hdiff,
    hempty, fun hnone => ?_⟩
  · rw [hdecoded.losses_eq]
  · rw [hdecoded.losses_eq, originals, List.length_map]
  · exact (hdecoded.madeUpBy hdiff b hb).1
  · -- nothing is solved for, so peeling left no count anywhere
    have hchosen := hdecoded.chosen_eq_nil hnone
    refine ext_of_weight hdiff hwell (session_foldl_insert _ _) (offset_foldl_insert _ _)
      fun b hb => congrArg _ (hempty b hb ?_)
    rw [← hdecoded.count_solved hdiff hb, hchosen]
    show (diff.emptied.cell b).count = 0
    rw [cell_emptied]
    rfl

theorem losses_rebuilt_small : ∃ r, (small .invertible [6, 12, 7]).losses [6, 7, 12] 3
    (Program.firstSolution · none) = .ok r ∧ ∀ b < 4,
      (((keysAt [6, 7, 12] r.indices).foldl insert (small .invertible [6, 12, 7]).emptied).cell
        b).count = ((small .invertible [6, 12, 7]).cell b).count := by
  have hwell := wellFormed_small .invertible [6, 12, 7]
  have hcanonical : ∀ key ∈ [6, 7, 12], (small .invertible [6, 12, 7]).canonical key = key :=
    fun _ _ => rfl
  obtain ⟨r, hr⟩ := exists_losses hcanonical hwell (holds_small .invertible [6, 12, 7]) (by decide)
  obtain ⟨-, -, -, -, -, -, hcount, -⟩ := losses_rebuilt hwell hr
  exact ⟨r, hr, fun b hb => hcount b (hwell.size_eq ▸ hb)⟩

/-! ## Why records may differ -/

/-- Six, seven and seventeen are sent to the same two buckets, so peeling takes none of them out of
a table of six and seven, and the counts suit any two of them. The search finds seven and seventeen,
whose record is another. -/
theorem losses_not_rebuilt : (small .invertible [6, 7]).WellFormed ∧
    (small .invertible [6, 7]).losses [6, 7, 17] 2 (Program.firstSolution · none) =
      .ok ⟨[1, 2], 0, 2⟩ ∧
    (keysAt [6, 7, 17] [1, 2]).foldl insert (small .invertible [6, 7]).emptied ≠
      small .invertible [6, 7] := by
  refine ⟨wellFormed_small .invertible [6, 7], ?_, by decide +kernel⟩
  cbv

end Table

end LossSketch
