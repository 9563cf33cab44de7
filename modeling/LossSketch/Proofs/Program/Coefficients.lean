import LossSketch.Program.Difference
import LossSketch.Proofs.Bucket.Rebuild
import LossSketch.Proofs.Program.Rows

/-!
# The coefficients of a difference table

* `rowTotal_decisionEntries_count` and `rowTotal_decisionEntries_sum` — the coefficients of a
  candidate in the rows of a bucket are how often it is sent there, and that many times its residue.
* `meets_rowBounds_iff` — the rows demand the counts and, behind them, the field sums.
-/

namespace LossSketch

/-! ## Tallies -/

/-- A tally names what the list holds, and together the tallies count it. -/
theorem sum_tallies (l : List Nat) (b : Nat) (c : Int) :
    ((tallies l).map fun e => if e.1 = b then (e.2 : Int) * c else 0).sum = l.count b * c := by
  induction l with
  | nil => simp [tallies]
  | cons i rest ih =>
    rw [List.count_cons, Nat.cast_add, add_mul, ← ih, tallies]
    cases htallies : tallies rest with
    | nil => by_cases hib : i = b <;> simp [hib]
    | cons e others =>
      obtain ⟨j, n⟩ := e
      -- the head of the list joins the first tally, or starts one
      by_cases hij : i = j
      · by_cases hjb : j = b
        · simp only [hij, hjb, if_true, List.map_cons, List.sum_cons, beq_self_eq_true]
          push_cast
          ring
        · simp [hij, hjb]
      · simp only [hij, if_false, List.map_cons, List.sum_cons]
        by_cases hib : i = b
        · simp [hib, add_comm]
        · simp [hib]

theorem mem_of_mem_tallies {l : List Nat} {e : Nat × Nat} (he : e ∈ tallies l) : e.1 ∈ l := by
  induction l generalizing e with
  | nil => cases he
  | cons i rest ih =>
    unfold tallies at he
    -- the head is tallied by itself or joins the tally that follows
    cases htallies : tallies rest with
    | nil =>
      rw [htallies] at he
      simp_all
    | cons d others =>
      obtain ⟨j, n⟩ := d
      rw [htallies] at he ih
      by_cases hij : i = j
      · rcases List.mem_cons.1 (by simpa [hij] using he) with rfl | hmem
        · simp [hij]
        · exact List.mem_cons_of_mem _ (ih (List.mem_cons_of_mem _ hmem))
      · rcases List.mem_cons.1 (by simpa only [hij, if_false] using he) with rfl | hmem
        · exact List.mem_cons_self
        · exact List.mem_cons_of_mem _ (ih hmem)

namespace Table

variable {kind : Kind}

/-! ## Decision columns -/

theorem sum_incidences (t : Table kind) (key : UInt32) (b : Nat) (c : Int) :
    ((t.incidences key).map fun e => if e.1 = b then (e.2 : Int) * c else 0).sum =
      (t.bucketsOf key).count b * c := by
  rw [incidences, sum_tallies, (List.mergeSort_perm _ _).count_eq]

theorem mem_bucketsOf_of_mem_incidences {t : Table kind} {key : UInt32} {e : Nat × Nat}
    (he : e ∈ t.incidences key) : e.1 ∈ t.bucketsOf key :=
  (List.mergeSort_perm _ _).mem_iff.1 (mem_of_mem_tallies he)

/-- In the row of a bucket's count, a candidate counts as often as it is sent to the bucket. -/
theorem rowTotal_decisionEntries_count (t : Table kind) (key : UInt32) {b : Nat}
    (hb : b < t.cells.size) : rowTotal (t.decisionEntries key) b = (t.bucketsOf key).count b := by
  rw [decisionEntries, rowTotal_flatMap, ← mul_one ((t.bucketsOf key).count b : Int),
    ← sum_incidences]
  congr 1
  refine List.map_congr_left ?_
  rintro ⟨j, n⟩ -
  by_cases hkind : kind = .summing
  · simp [hkind, show ¬ t.cells.size + j = b by omega]
  · simp [hkind]

section

variable {t : Table kind} (ht : t.WellFormed)
include ht

/-- In the row of a bucket's sum, it counts that often with its residue. -/
theorem rowTotal_decisionEntries_sum (hkind : kind = .summing) (key : UInt32) (b : Nat) :
    rowTotal (t.decisionEntries key) (t.cells.size + b) =
      (t.bucketsOf key).count b * (key % t.session.modulus).toNat := by
  rw [decisionEntries, rowTotal_flatMap, ← sum_incidences]
  congr 1
  refine List.map_congr_left ?_
  rintro ⟨j, n⟩ he
  have hlt : j < t.cells.size := ht.lt_size (mem_bucketsOf_of_mem_incidences he)
  simp [hkind, show ¬ j = t.cells.size + b by omega]

theorem lt_of_mem_decisionEntries {key : UInt32} {e : Nat × Int}
    (he : e ∈ t.decisionEntries key) :
    e.1 < t.cells.size ∨ kind = .summing ∧ e.1 < t.cells.size + t.cells.size := by
  obtain ⟨⟨j, n⟩, hj, hmem⟩ := List.mem_flatMap.1 he
  have hlt : j < t.cells.size := ht.lt_size (mem_bucketsOf_of_mem_incidences hj)
  by_cases hkind : kind = .summing
  · simp only [if_pos hkind, List.mem_pair] at hmem
    refine Or.inr ⟨hkind, ?_⟩
    rcases hmem with rfl | rfl
    · exact Nat.lt_add_right _ hlt
    · exact Nat.add_lt_add_left hlt _
  · simp only [if_neg hkind, List.mem_singleton] at hmem
    exact Or.inl (hmem ▸ hlt)

end

/-! ## Rows -/

theorem getElem?_rowBounds_count (t : Table kind) {b : Nat} (hb : b < t.cells.size) :
    t.rowBounds[b]? = some (.fixed (t.cell b).count) := by
  rw [rowBounds, List.getElem?_append_left (by simpa using hb), List.getElem?_map,
    Array.getElem?_toList, Array.getElem?_eq_getElem hb, cell_of_lt hb, Option.map_some]

theorem getElem?_rowBounds_sum (t : Table kind) (b : Nat) : t.rowBounds[t.cells.size + b]? =
    t.cells[b]?.bind fun c => c.fieldSum?.map fun sum => .fixed sum.toNat := by
  have hlength : (t.cells.toList.map fun c => Bound.fixed c.count).length = t.cells.size := by
    simp
  rw [rowBounds, List.getElem?_append_right (by omega), hlength, Nat.add_sub_cancel_left]
  cases kind with
  | counting => simp [Cell.fieldSum?, Kind.fieldSum?]
  | invertible => simp [Cell.fieldSum?, Kind.fieldSum?]
  | summing => simp [Cell.fieldSum?, Kind.fieldSum?, Option.map_eq_bind]

theorem length_rowBounds (t : Table kind) :
    t.rowBounds.length = if kind = .summing then t.cells.size + t.cells.size else t.cells.size := by
  rw [rowBounds, List.length_append, List.length_map, Array.length_toList]
  cases kind <;> simp [Cell.fieldSum?, Kind.fieldSum?]

/-- The rows are met when the first come to the counts, and those behind them to the field sums. -/
theorem meets_rowBounds_iff (t : Table kind) (sum : Nat → Int) :
    Meets t.rowBounds sum ↔ ∀ b < t.cells.size, sum b = (t.cell b).count ∧
      ∀ s, (t.cell b).fieldSum? = some s → sum (t.cells.size + b) = s.toNat := by
  constructor
  · -- each row says one thing of its bucket
    intro h b hb
    constructor
    · have hadmits := h b _ (getElem?_rowBounds_count t hb)
      simpa [Bound.admits] using hadmits
    · intro s hs
      have hrow : t.rowBounds[t.cells.size + b]? = some (.fixed s.toNat) := by
        rw [getElem?_rowBounds_sum, Array.getElem?_eq_getElem hb, ← cell_of_lt hb,
          Option.bind_some, hs, Option.map_some]
      have hadmits := h _ _ hrow
      simpa [Bound.admits] using hadmits
  · -- and every row is the row of a bucket
    intro h row bound hbound
    rcases Nat.lt_or_ge row t.cells.size with hlt | hge
    · rw [getElem?_rowBounds_count t hlt] at hbound
      obtain rfl := Option.some.inj hbound
      simp [Bound.admits, (h row hlt).1]
    · obtain ⟨b, rfl⟩ := Nat.exists_eq_add_of_le hge
      rw [getElem?_rowBounds_sum] at hbound
      obtain ⟨c, hc, hbound⟩ := Option.bind_eq_some_iff.1 hbound
      obtain ⟨s, hs, rfl⟩ := Option.map_eq_some_iff.1 hbound
      obtain ⟨hb, rfl⟩ := Array.getElem?_eq_some_iff.1 hc
      rw [← cell_of_lt hb] at hs
      simp [Bound.admits, (h b hb).2 s hs]

end Table

end LossSketch
