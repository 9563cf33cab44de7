import LossSketch.Proofs.Bucket.Peel
import LossSketch.Proofs.Error
import LossSketch.Proofs.Losses.Pool
import LossSketch.Proofs.Program.Exact
import LossSketch.Proofs.Program.Solution

/-!
# How a difference is decoded

* `Table.Decoded` — candidates are taken for the peeled keys, and chosen candidates among those left
  make up what peeling left. `Table.losses_eq_ok` says that an accepted answer comes about so.
* `Table.Decoded.madeUpBy` — the accepted candidates make up the difference, and
  `Table.Decoded.foldl_insert_eq` — inserting them gives back a counting or a summing one.
  `Table.Decoded.byPeeling_eq` — as many were found by peeling as it took out.
-/

namespace LossSketch

namespace Table

variable {kind : Kind}

/-! ## How an accepted answer comes about -/

/-- The candidates that were chosen among those left, as indices of all candidates. -/
def originals (candidates : List UInt32) (taken chosen : List Nat) : List Nat :=
  chosen.map fun i => ((candidatesLeft candidates taken).map Prod.snd).getD i 0

/-- Candidates are taken for the peeled keys, and candidates chosen among those left make up what
peeling left of the difference. -/
structure Decoded (diff : Table kind) (candidates : List UInt32) (expected : Nat)
    (taken chosen : List Nat) (r : Losses) : Prop where
  taken_eq : (Pool.ofCandidates diff candidates).takeAll diff.peel.recovered = .ok taken
  eligible : diff.peel.residual.Eligible ((candidatesLeft candidates taken).map Prod.fst) chosen
  madeUp : diff.peel.residual.MadeUpBy
    (keysAt ((candidatesLeft candidates taken).map Prod.fst) chosen)
  length_eq : taken.length + chosen.length = expected
  losses_eq : r = ⟨(taken ++ originals candidates taken chosen).mergeSort (· ≤ ·), taken.length,
    chosen.length⟩

/-- Nothing makes up a table whose buckets are all empty. -/
theorem madeUpBy_nil_of_isEmpty {t : Table kind} (h : t.isEmpty = true) : t.MadeUpBy [] := by
  intro b hb
  rw [List.foldl_nil, cell_emptied, isEmpty_eq_true_iff.1 h b hb]
  exact ⟨rfl, rfl⟩

/-- An accepted answer takes candidates for the peeled keys and chooses the others. -/
theorem losses_eq_ok {diff : Table kind} (hdiff : diff.WellFormed) {candidates : List UInt32}
    {expected : Nat} {solver : Solver} {r : Losses}
    (h : diff.losses candidates expected solver = .ok r) :
    ∃ taken chosen, diff.Decoded candidates expected taken chosen r := by
  rw [losses, bind_eq_ok] at h
  obtain ⟨⟨⟩, -, h⟩ := h
  obtain ⟨taken, htaken, h⟩ := bind_eq_ok.1 h
  split at h
  · -- peeling took everything out, and nothing is chosen
    rename_i hcomplete
    split at h
    · cases h
    · rename_i hlength
      cases h
      refine ⟨taken, [], htaken, ⟨List.Pairwise.nil, fun i hi => absurd hi List.not_mem_nil⟩,
        madeUpBy_nil_of_isEmpty hcomplete, not_not.1 hlength, ?_⟩
      rw [originals, List.map_nil, List.append_nil]
      rfl
  · -- the solver chooses among the candidates left
    obtain ⟨⟨⟩, hresidual, h⟩ := bind_eq_ok.1 h
    split at h
    · cases h
    · rename_i hlength
      have hwell := (peels_peel diff).wellFormed hdiff
      obtain ⟨program, hprogram, h⟩ := bind_eq_ok.1 h
      obtain rfl := Except.ok.inj ((ofDifference_eq hresidual _ _).symm.trans hprogram)
      obtain ⟨selected, hselected, h⟩ := bind_eq_ok.1 h
      obtain ⟨-, values, -, hsolution, hvalues, hcount⟩ :=
        Program.solve_eq_ok_iff.1 (mapError_eq_ok.1 hselected)
      -- its answer is the assignment of a selection, which is what was selected
      obtain ⟨chosen, hchosen, rfl, hmade⟩ := (isSolution_program_iff hwell _ _ _).1 hsolution
      rw [hchosen.selected_assignment] at hvalues
      subst hvalues
      cases h
      refine ⟨taken, chosen, htaken, hchosen, hmade, ?_, ?_⟩
      · have hcount' : chosen.length = expected - taken.length := hcount
        omega
      · simp [originals, Array.getD_eq_getD_getElem?]

/-- Where peeling takes everything out, the candidates of the peeled keys are the answer. -/
theorem losses_of_isComplete {diff : Table kind} {candidates : List UInt32} {taken : List Nat}
    (hcheck : diff.checkLosses = .ok ())
    (htaken : (Pool.ofCandidates diff candidates).takeAll diff.peel.recovered = .ok taken)
    (hcomplete : diff.peel.isComplete = true) (solver : Solver) :
    diff.losses candidates taken.length solver =
      .ok ⟨taken.mergeSort (· ≤ ·), taken.length, 0⟩ := by
  rw [losses, bind_eq_ok]
  refine ⟨(), hcheck, bind_eq_ok.2 ⟨taken, htaken, ?_⟩⟩
  rw [if_pos hcomplete, if_neg (not_not.2 rfl)]
  rfl

/-- Where peeling leaves something, the candidates that solve for it are added. -/
theorem losses_of_solve {diff : Table kind} {candidates : List UInt32} {expected : Nat}
    {solver : Solver} {taken chosen : List Nat} (hcheck : diff.checkLosses = .ok ())
    (htaken : (Pool.ofCandidates diff candidates).takeAll diff.peel.recovered = .ok taken)
    (hcomplete : ¬ diff.peel.isComplete = true)
    (hresidual : diff.peel.residual.checkLosses = .ok ()) (hle : taken.length ≤ expected)
    (hsolve : (diff.peel.residual.program ((candidatesLeft candidates taken).map Prod.fst)
      (expected - taken.length)).solve solver = .ok chosen) :
    diff.losses candidates expected solver =
      .ok ⟨(taken ++ originals candidates taken chosen).mergeSort (· ≤ ·), taken.length,
        chosen.length⟩ := by
  rw [losses, bind_eq_ok]
  refine ⟨(), hcheck, bind_eq_ok.2 ⟨taken, htaken, ?_⟩⟩
  rw [if_neg hcomplete]
  -- what is left passes its check, and its program is the one that was solved
  refine bind_eq_ok.2 ⟨(), hresidual, ?_⟩
  rw [if_neg (Nat.not_lt.2 hle)]
  refine bind_eq_ok.2 ⟨_, ofDifference_eq hresidual _ _, ?_⟩
  refine bind_eq_ok.2 ⟨chosen, mapError_eq_ok.2 hsolve, ?_⟩
  simp [originals, Array.getD_eq_getD_getElem?, pure, Except.pure]

/-! ## Indices -/

namespace Decoded

variable {diff : Table kind} {candidates : List UInt32} {expected : Nat} {taken chosen : List Nat}
  {r : Losses} (h : diff.Decoded candidates expected taken chosen r)
include h

theorem indices_eq :
    r.indices = (taken ++ originals candidates taken chosen).mergeSort (· ≤ ·) := by
  rw [h.losses_eq]

theorem perm : r.indices.Perm (taken ++ originals candidates taken chosen) := by
  rw [h.indices_eq]
  exact List.mergeSort_perm _ _

/-- A candidate is taken for each peeled key. -/
theorem byPeeling_eq : r.byPeeling = diff.peel.recovered.length := by
  have hnames := Pool.map_takeAll (Pool.names_ofCandidates diff candidates) h.taken_eq
  rw [h.losses_eq, ← hnames, List.length_map]

/-- Where the solver adds nothing, no candidate was chosen. -/
theorem chosen_eq_nil (hsolved : r.bySolving = 0) : chosen = [] := by
  rw [h.losses_eq] at hsolved
  exact List.length_eq_zero_iff.1 hsolved

/-- A chosen candidate is one of those left. -/
theorem lt_of_mem_chosen {i : Nat} (hi : i ∈ chosen) :
    i < (candidatesLeft candidates taken).length := by
  obtain ⟨e, he, rfl⟩ := List.mem_map.1 (h.eligible.decided i hi)
  have hget := (mem_possible.1 he).1
  simpa using (List.getElem?_eq_some_iff.1 hget).1

theorem getD_chosen {i : Nat} (hi : i ∈ chosen) :
    candidates[((candidatesLeft candidates taken).map Prod.snd).getD i 0]? =
        some (((candidatesLeft candidates taken).map Prod.fst).getD i 0) ∧
      ((candidatesLeft candidates taken).map Prod.snd).getD i 0 ∉ taken := by
  have hlt := h.lt_of_mem_chosen hi
  rw [List.getD_eq_getElem _ _ (by simpa using hlt), List.getD_eq_getElem _ _ (by simpa using hlt),
    List.getElem_map, List.getElem_map]
  exact mem_candidatesLeft.1 (List.getElem_mem hlt)

/-- The keys of the chosen candidates, by their indices among all candidates. -/
theorem keysAt_originals : keysAt ((candidatesLeft candidates taken).map Prod.fst) chosen =
    keysAt candidates (originals candidates taken chosen) := by
  rw [keysAt, keysAt, originals, List.map_map]
  refine List.map_congr_left fun i hi => ?_
  rw [Function.comp_apply, List.getD_eq_getElem?_getD (l := candidates), (h.getD_chosen hi).1,
    Option.getD_some]

theorem nodup_originals : (originals candidates taken chosen).Nodup := by
  refine List.Nodup.map_on ?_ (h.eligible.ascending.imp Nat.ne_of_lt)
  intro i hi j hj hij
  have hlti := h.lt_of_mem_chosen hi
  have hltj := h.lt_of_mem_chosen hj
  rw [List.getD_eq_getElem _ _ (by simpa using hlti),
    List.getD_eq_getElem _ _ (by simpa using hltj)] at hij
  have hnodup := (pairwise_candidatesLeft candidates taken).imp Nat.ne_of_lt
  exact (List.Nodup.getElem_inj_iff hnodup).1 hij

/-- Nothing is taken twice, chosen twice, or both. -/
theorem nodup : (taken ++ originals candidates taken chosen).Nodup := by
  refine List.Nodup.append (Pool.nodup_takeAll (Pool.names_ofCandidates _ _) h.taken_eq)
    h.nodup_originals ?_
  -- candidates are chosen among those that are not taken
  intro i htaken hi
  obtain ⟨j, hj, rfl⟩ := List.mem_map.1 hi
  exact (h.getD_chosen hj).2 htaken

theorem pairwise_indices : r.indices.Pairwise (· < ·) := by
  -- sorted, and without duplicates
  have hle : r.indices.Pairwise (· ≤ ·) := by
    rw [h.indices_eq]
    have hsorted : ((taken ++ originals candidates taken chosen).mergeSort (· ≤ ·)).Pairwise
        fun a b => decide (a ≤ b) = true :=
      List.pairwise_mergeSort (by simpa using fun a b c => Nat.le_trans)
        (by simpa using Nat.le_total) _
    simpa using hsorted
  have hnodup : r.indices.Pairwise (· ≠ ·) := (h.perm.nodup_iff).2 h.nodup
  exact (hle.and hnodup).imp fun hij => Nat.lt_of_le_of_ne hij.1 hij.2

theorem lt_length {i : Nat} (hi : i ∈ r.indices) : i < candidates.length := by
  rcases List.mem_append.1 (h.perm.mem_iff.1 hi) with htaken | hchosen
  · -- taken for a peeled key
    exact Pool.lt_of_mem_takeAll h.taken_eq htaken
  · -- chosen among those left
    obtain ⟨j, hj, rfl⟩ := List.mem_map.1 hchosen
    exact (List.getElem?_eq_some_iff.1 (h.getD_chosen hj).1).1

theorem length_indices : r.indices.length = taken.length + chosen.length := by
  rw [h.perm.length_eq, List.length_append, originals, List.length_map]

theorem perm_keysAt : (keysAt candidates r.indices).Perm
    (keysAt candidates (originals candidates taken chosen) ++ keysAt candidates taken) := by
  rw [← keysAt_append]
  exact (h.perm.trans List.perm_append_comm).map _

/-! ## Tables -/

variable (hdiff : diff.WellFormed)
include hdiff

/-- What is left of a bucket and the candidates taken put the bucket together. -/
theorem weight_taken (b : Nat) : (diff.cell b).weight diff.session.field =
    (diff.peel.residual.cell b).weight diff.session.field +
      ((keysAt candidates taken).map fun key => diff.session.share kind key b).sum := by
  have hnames := Pool.map_takeAll (Pool.names_ofCandidates diff candidates) h.taken_eq
  -- a taken candidate and its peeled key have one canonical form, and so one share
  have hshares : (diff.peel.recovered.map fun key => diff.session.share kind key b) =
      (keysAt candidates taken).map fun key => diff.session.share kind key b := by
    rw [← hnames, keysAt, List.map_map, List.map_map]
    exact List.map_congr_left fun i _ => Session.share_canonical hdiff.usable kind _ b
  rw [(peels_peel diff).weight hdiff b, hshares]

/-- The chosen candidates make up what is left, also read as buckets of the difference. -/
theorem weight_chosen {b : Nat} (hb : b < diff.cells.size) :
    (diff.peel.residual.cell b).count =
        diff.arrivals (keysAt candidates (originals candidates taken chosen)) b ∧
      (kind ≠ .invertible → (diff.peel.residual.cell b).weight diff.session.field =
        ((keysAt candidates (originals candidates taken chosen)).map fun key =>
          diff.session.share kind key b).sum) := by
  have hwell := (peels_peel diff).wellFormed hdiff
  have hsession := (peels_peel diff).session_eq
  have hsize := (peels_peel diff).size_eq
  have hmade := h.madeUp
  rw [h.keysAt_originals] at hmade
  refine ⟨?_, fun hkind => ?_⟩
  · -- counts are arrivals
    rw [← ((madeUpBy_iff hwell _).1 hmade b (hsize ▸ hb)).1]
    simp only [arrivals, bucketsOf_congr hsession]
  · -- what is left is what the chosen candidates insert
    have hweight := weight_foldl_insert_emptied
      (keysAt candidates (originals candidates taken chosen)) hwell b
    rw [hmade.foldl_insert_eq hwell hkind] at hweight
    rwa [hsession] at hweight

/-- The accepted candidates arrive as often as the buckets count. -/
theorem arrivals_eq {b : Nat} (hb : b < diff.cells.size) :
    (diff.arrivals (keysAt candidates r.indices) b : Int) = (diff.cell b).count := by
  have hcount := congrArg Prod.fst (h.weight_taken hdiff b)
  rw [Prod.fst_add, sum_share_fst, Cell.weight_fst, Cell.weight_fst,
    (h.weight_chosen hdiff hb).1] at hcount
  rw [arrivals_perm diff (h.perm_keysAt), arrivals_append, hcount, Nat.cast_add]

/-- A counting or a summing difference is what the accepted candidates insert. -/
theorem foldl_insert_eq (hkind : kind ≠ .invertible) :
    (keysAt candidates r.indices).foldl insert diff.emptied = diff := by
  refine ext_of_weight hdiff (WellFormed.foldl_insert _ hdiff.emptied) (session_foldl_insert _ _)
    (offset_foldl_insert _ _) fun b hb => ?_
  refine (weight_foldl_insert_emptied (keysAt candidates r.indices) hdiff b).trans ?_
  rw [h.weight_taken hdiff b, (h.weight_chosen hdiff hb).2 hkind, ← List.sum_append,
    ← List.map_append]
  exact ((h.perm_keysAt).map _).sum_eq

/-- The accepted candidates reproduce every count and every field sum. -/
theorem madeUpBy : diff.MadeUpBy (keysAt candidates r.indices) := by
  intro b hb
  rw [count_foldl_insert hdiff]
  refine ⟨h.arrivals_eq hdiff hb, ?_⟩
  -- an invertible bucket has no field sum to reproduce
  by_cases hkind : kind = .invertible
  · subst hkind
    rfl
  · rw [h.foldl_insert_eq hdiff hkind]

end Decoded

end Table

end LossSketch
