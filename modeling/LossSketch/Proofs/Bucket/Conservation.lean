import LossSketch.Proofs.Bucket.Stuck
import LossSketch.Proofs.Snapshot.Table

/-!
# Peeling any table

Nothing here supposes that a table holds keys. Its counts may be negative and its records may be
anything that the kind can record, as in a snapshot that somebody made up.

* `Peels.exists_buckets` — every key is taken out of a bucket of its own that counts something when
  the run starts.
* `Peels.foldl_insert_eq` — inserting the keys taken out gives the table back.
* `Table.wellFormed_of_ofBytes` — a snapshot that is read gives a well-formed table.
* `Table.peel_conserves` — what peeling any well-formed table comes to.
-/

namespace LossSketch

/-! ## What a run keeps -/

namespace Peels

variable {kind : Kind} {t r : Table kind} {keys : List UInt32} (h : Peels t keys r)
  (ht : t.WellFormed)
include h ht

/-- **One key per bucket.** Every key is taken out of a bucket of its own, which counts something
when the run starts. -/
theorem exists_buckets : ∃ buckets : List Nat, buckets.Nodup ∧ (∀ b ∈ buckets, b ∈ t.positives) ∧
    List.Forall₂ (fun key b => b ∈ t.bucketsOf key) keys buckets := by
  induction h with
  | done t => exact ⟨[], List.nodup_nil, fun _ hb => absurd hb List.not_mem_nil, .nil⟩
  | @step t r i key keys hpure _ ih =>
    obtain ⟨buckets, hnodup, hpositive, hkeys⟩ := ih (ht.delete key)
    -- the bucket of the first key counts nothing any more, so no later key comes out of it
    have hfresh : i ∉ buckets := fun hmem =>
      Table.not_mem_positives_delete ht hpure (hpositive i hmem)
    refine ⟨i :: buckets, List.nodup_cons.2 ⟨hfresh, hnodup⟩, fun b hb => ?_,
      .cons (Table.pureKey?_eq_some hpure).2.2 hkeys⟩
    rcases List.mem_cons.1 hb with rfl | hmem
    · exact Table.mem_positives_of_pureKey? ht hpure
    · exact Table.positives_delete_subset ht key (hpositive b hmem)

/-- No count rises in a run, and none falls by more than all deletions together. -/
theorem count_bounds (b : Nat) : (r.cell b).count ≤ (t.cell b).count ∧
    (t.cell b).count ≤ (r.cell b).count + t.session.hashes.toNat * keys.length := by
  induction h with
  | done t => exact ⟨Int.le_refl _, by simp⟩
  | @step t r i key keys _ _ ih =>
    obtain ⟨hle, hge⟩ := ih (ht.delete key)
    have hdelete := Table.count_delete ht key b
    -- a key is sent to a bucket no more often than there are hash functions
    have hsent : (t.bucketsOf key).count b ≤ t.session.hashes.toNat := by
      have hlength := List.count_le_length (a := b) (l := t.bucketsOf key)
      rwa [Table.bucketsOf, Session.length_bucketsOf] at hlength
    have hsession : (t.delete key).session = t.session := rfl
    rw [hsession] at hge
    rw [List.length_cons]
    push_cast
    rw [Int.mul_add]
    omega

/-- **Nothing is lost.** Inserting the keys taken out into what is left gives the table back. -/
theorem foldl_insert_eq : keys.foldl Table.insert r = t := by
  have hr := h.wellFormed ht
  -- what is left weighs with these keys what the table weighed
  refine Table.ext_of_weight ht (Table.WellFormed.foldl_insert keys hr)
    ((Table.session_foldl_insert keys r).trans h.session_eq)
    ((Table.offset_foldl_insert keys r).trans h.offset_eq)
    fun b _ => ?_
  have hinsert := Table.weight_foldl_insert keys hr b
  rw [h.session_eq] at hinsert
  exact hinsert.trans (h.weight ht b).symm

end Peels

namespace Table

variable {kind : Kind}

/-! ## Tables of snapshots -/

/-- A snapshot that is read gives a well-formed table, whatever its counts and records are. -/
theorem wellFormed_of_ofBytes {bytes : Bytes} {t : Table kind} (h : ofBytes bytes = .ok t) :
    t.WellFormed :=
  (storable_of_ofBytes h).toWellFormed

/-! ## Peeling -/

/-- A table of empty buckets is the empty table like it. -/
theorem eq_emptied_of_isEmpty {t : Table kind} (ht : t.WellFormed) (h : t.isEmpty = true) :
    t = t.emptied := by
  refine ext_of_weight ht.emptied ht rfl rfl fun b hb => ?_
  have hlt : b < t.cells.size := by simpa [emptied] using hb
  rw [isEmpty_eq_true_iff.1 h b hlt, cell_emptied]

/-- **Peeling any well-formed table ends and loses nothing.** The loop of walks comes to what
peeling answers. Every key is taken out of a bucket of its own that counted something, so there are
no more keys than such buckets. Counts only fall, by no more than the keys taken out can take away.
Inserting these keys into what is left gives the table back, or into an empty table if nothing is
left. No bucket that is left with a count of one names a key that is sent there. -/
theorem peel_conserves {t : Table kind} (ht : t.WellFormed) :
    (∀ keys r, Walks t keys r ↔ keys = t.peel.recovered ∧ r = t.peel.residual) ∧
    (∃ buckets : List Nat, buckets.Nodup ∧
      (∀ b ∈ buckets, b < t.cells.size ∧ 0 < (t.cell b).count) ∧
      List.Forall₂ (fun key b => b ∈ t.bucketsOf key) t.peel.recovered buckets) ∧
    t.peel.recovered.length ≤ t.cells.countP (0 < ·.count) ∧
    t.peel.recovered.length ≤ t.session.buckets.toNat ∧
    (∀ b, (t.peel.residual.cell b).count ≤ (t.cell b).count ∧ (t.cell b).count ≤
      (t.peel.residual.cell b).count + t.session.hashes.toNat * t.peel.recovered.length) ∧
    t.peel.recovered.foldl insert t.peel.residual = t ∧
    (t.peel.isComplete = true → t.peel.recovered.foldl insert t.emptied = t) ∧
    ∀ b key, (t.peel.residual.cell b).count = 1 → (t.peel.residual.cell b).key? = some key →
      b ∉ t.peel.residual.bucketsOf key := by
  have hpeel := peels_peel t
  obtain ⟨buckets, hnodup, hpositive, hkeys⟩ := hpeel.exists_buckets ht
  have hlength : t.peel.recovered.length ≤ t.cells.countP (0 < ·.count) := by
    have hcard := hpeel.card_positives_add_length_le ht
    rw [card_positives t] at hcard
    omega
  have hsize : t.cells.countP (0 < ·.count) ≤ t.session.buckets.toNat :=
    ht.size_eq ▸ Array.countP_le_size
  have hback := hpeel.foldl_insert_eq ht
  refine ⟨walks_iff ht, ⟨buckets, hnodup, fun b hb => mem_positives.1 (hpositive b hb), hkeys⟩,
    hlength, hlength.trans hsize, hpeel.count_bounds ht, hback, fun hcomplete => ?_,
    fun b key hcount hkey hmem => ?_⟩
  · -- nothing is left
    have hempty := eq_emptied_of_isEmpty (hpeel.wellFormed ht) hcomplete
    rw [hpeel.emptied_eq] at hempty
    rwa [hempty] at hback
  · -- a bucket that names a key of its own would be pure
    have hstuck := stuck_peel ht b
    rw [pureKey?, if_pos hcount, hkey, Option.filter_some,
      if_pos (List.contains_iff_mem.2 hmem)] at hstuck
    cases hstuck

end Table

end LossSketch
