import Mathlib.Data.Finset.Sort
import Mathlib.Data.List.GetD
import LossSketch.Proofs.Program.Coefficients

/-!
# The program of a difference table is exact

* `Table.program` is the program that `Program.ofDifference` answers for a table that passes its
  check, and `Table.check_program` says that it has the required form.
* `Table.assignment` gives the decisions of a selection, and to each auxiliary column the number of
  times that the residues of the selected candidates wrap around the modulus.
* `Table.isSolution_program_iff` — the solutions are the assignments of the selections that make up
  the table.
* `Program.ofDifference_exact` — the same, read from the selections.
-/

namespace LossSketch

/-! ## Values of a function -/

/-- Values for the members of a list without duplicates are the values of a function. -/
theorem exists_eq_map_of_nodup {α : Type} [DecidableEq α] {l : List α} (hnodup : l.Nodup)
    {values : List Int} (hlength : l.length = values.length) :
    ∃ value : α → Int, values = l.map value := by
  refine ⟨fun a => values.getD (l.idxOf a) 0, List.ext_getElem (by simp [hlength]) ?_⟩
  intro i hi hi'
  have hlt : i < l.length := by omega
  rw [List.getElem_map, hnodup.idxOf_getElem i hlt, List.getD_eq_getElem _ _ hi]

theorem filterMap_ite_eq_map_filter {α β : Type} (l : List α) (p : α → Prop) [DecidablePred p]
    (f : α → β) : (l.filterMap fun a => if p a then some (f a) else none) =
      (l.filter fun a => p a).map f := by
  induction l with
  | nil => rfl
  | cons a l ih => by_cases ha : p a <;> simp [ha, ih]

/-- Decisions pick out a part of a sum. -/
theorem sum_map_mul_ite {α : Type} (l : List α) (f : α → Int) (p : α → Prop) [DecidablePred p] :
    (l.map fun a => f a * if p a then 1 else 0).sum = ((l.filter fun a => p a).map f).sum := by
  induction l with
  | nil => rfl
  | cons a l ih =>
    rw [List.map_cons, List.sum_cons, ih]
    by_cases ha : p a <;> simp [ha]

/-- The decisions of value one pick out a part of what is decided. -/
theorem filter_zip_map {α : Type} (l : List α) (f : α → Nat) (value : α → Int) (rest : List Int) :
    (((l.map f).zip (l.map value ++ rest)).filter fun (_, v) => v = 1).map Prod.fst =
      (l.filter fun a => value a = 1).map f := by
  induction l with
  | nil => rfl
  | cons a l ih => by_cases ha : value a = 1 <;> simp_all

/-- In a list without duplicates a sum that only one member adds to is what it adds. -/
theorem sum_map_eq_ite_mem {α : Type} [DecidableEq α] {l : List α} (hnodup : l.Nodup) (a : α)
    (f : α → Int) (hother : ∀ a', a' ≠ a → a' ∈ l → f a' = 0) :
    (l.map f).sum = if a ∈ l then f a else 0 := by
  rw [List.sum_map_eq_nsmul_single a f hother, hnodup.count]
  split <;> simp

theorem forall₂_append_iff {α β : Type} {R : α → β → Prop} {l l' : List α} {v v' : List β}
    (hlength : l.length = v.length) :
    List.Forall₂ R (l ++ l') (v ++ v') ↔ List.Forall₂ R l v ∧ List.Forall₂ R l' v' := by
  constructor
  · intro h
    have htake := List.forall₂_take l.length h
    have hdrop := List.forall₂_drop l.length h
    rw [List.take_left, List.take_left' hlength.symm] at htake
    rw [List.drop_left, List.drop_left' hlength.symm] at hdrop
    exact ⟨htake, hdrop⟩
  · exact fun h => List.rel_append h.1 h.2

namespace Table

variable {kind : Kind}

/-! ## The program -/

/-- The candidates that have a decision column, each with its index. -/
def possible (t : Table kind) (candidates : List UInt32) : List (UInt32 × Nat) :=
  candidates.zipIdx.filter fun (key, _) => t.mayHold key

/-- The buckets that have an auxiliary column, each with its index. -/
def wrapping (t : Table kind) : List (Cell kind × Nat) :=
  if kind = .summing then t.cells.toList.zipIdx.filter fun (c, _) => 0 < c.count else []

/-- The decision column of a candidate. -/
def decisionColumn (t : Table kind) (e : UInt32 × Nat) : Column := ⟨.binary, t.decisionEntries e.1⟩

/-- The auxiliary column of a bucket. -/
def wrapColumn (t : Table kind) (e : Cell kind × Nat) : Column :=
  ⟨.integer 0 e.1.count, [(t.cells.size + e.2, -(t.session.modulus.toNat : Int))]⟩

/-- The program of a table that passes its check. -/
def program (t : Table kind) (candidates : List UInt32) (expected : Nat) : Program where
  rows := t.rowBounds
  columns := (t.possible candidates).map t.decisionColumn ++ t.wrapping.map t.wrapColumn
  candidates := (t.possible candidates).map Prod.snd
  expected := expected

theorem wrapColumns_eq (t : Table kind) : t.wrapColumns = t.wrapping.map t.wrapColumn := by
  rw [wrapColumns, wrapping]
  split
  · exact filterMap_ite_eq_map_filter _ (fun e : Cell kind × Nat => 0 < e.1.count) t.wrapColumn
  · rfl

theorem ofDifference_eq {t : Table kind} (hcheck : t.checkLosses = .ok ())
    (candidates : List UInt32) (expected : Nat) :
    Program.ofDifference t candidates expected = .ok (t.program candidates expected) := by
  rw [Program.ofDifference, hcheck, wrapColumns_eq]
  rfl

theorem mem_possible {t : Table kind} {candidates : List UInt32} {e : UInt32 × Nat} :
    e ∈ t.possible candidates ↔ candidates[e.2]? = some e.1 ∧ t.mayHold e.1 = true := by
  rw [possible, List.mem_filter, List.mem_zipIdx_iff_getElem?]

theorem pairwise_possible (t : Table kind) (candidates : List UInt32) :
    ((t.possible candidates).map Prod.snd).Pairwise (· < ·) :=
  pairwise_map_snd List.filter_sublist

theorem mem_wrapping {t : Table kind} {e : Cell kind × Nat} : e ∈ t.wrapping ↔
    kind = .summing ∧ e.2 < t.cells.size ∧ e.1 = t.cell e.2 ∧ 0 < e.1.count := by
  unfold wrapping
  split
  · -- in a summing table, the buckets that count something
    rename_i hkind
    rw [List.mem_filter, List.mem_zipIdx_iff_getElem?, Array.getElem?_toList,
      Array.getElem?_eq_some_iff, decide_eq_true_eq]
    constructor
    · rintro ⟨⟨hb, hc⟩, hcount⟩
      exact ⟨hkind, hb, by rw [cell_of_lt hb, hc], hcount⟩
    · rintro ⟨-, hb, hc, hcount⟩
      exact ⟨⟨hb, by rw [hc, cell_of_lt hb]⟩, hcount⟩
  · rename_i hkind
    simp [hkind]

theorem nodup_wrapping (t : Table kind) : t.wrapping.Nodup := by
  unfold wrapping
  split
  · exact List.Nodup.of_map Prod.snd ((pairwise_map_snd List.filter_sublist).imp Nat.ne_of_lt)
  · exact List.nodup_nil

/-- The program has the form that every program must have. -/
theorem check_program {t : Table kind} (ht : t.WellFormed) (candidates : List UInt32)
    (expected : Nat) : (t.program candidates expected).check = .ok () := by
  rw [Program.check_eq_ok_iff]
  refine ⟨?_, ?_, ?_⟩
  · -- ranges
    intro c hc
    rcases List.mem_append.1 hc with hc | hc
    · obtain ⟨e, -, rfl⟩ := List.mem_map.1 hc
      exact Int.zero_le_ofNat 1
    · obtain ⟨e, he, rfl⟩ := List.mem_map.1 hc
      exact (mem_wrapping.1 he).2.2.2.le
  · -- rows of the entries
    intro c hc entry hentry
    show entry.1 < t.rowBounds.length
    rw [length_rowBounds]
    rcases List.mem_append.1 hc with hc | hc
    · obtain ⟨e, -, rfl⟩ := List.mem_map.1 hc
      rcases lt_of_mem_decisionEntries ht hentry with hlt | ⟨hkind, hlt⟩
      · split <;> omega
      · rwa [if_pos hkind]
    · obtain ⟨e, he, rfl⟩ := List.mem_map.1 hc
      obtain ⟨hkind, hlt, -, -⟩ := mem_wrapping.1 he
      rw [List.mem_singleton.1 hentry, if_pos hkind]
      exact Nat.add_lt_add_left hlt _
  · -- decisions come first
    rw [Program.decisionsInOrder_iff]
    show (List.map Prod.snd _).length ≤ (List.map _ _ ++ _).length ∧ _
    refine ⟨by simp, ?_, pairwise_possible t candidates⟩
    intro c hc
    have htake : (t.program candidates expected).columns.take
        ((t.possible candidates).map Prod.snd).length =
          (t.possible candidates).map t.decisionColumn := by
      rw [program, List.take_left' (by simp)]
    obtain ⟨e, -, rfl⟩ := List.mem_map.1 (htake ▸ hc)
    rfl

/-! ## Assignments -/

/-- How many times the residues of keys wrap around the modulus before they come to the field sum
of a bucket. -/
def wraps (t : Table kind) (keys : List UInt32) (e : Cell kind × Nat) : Int :=
  ((t.residues keys e.2 : Int) - (e.1.fieldSum?.getD 0).toNat) / t.session.modulus.toNat

/-- The decisions that choose candidates: one for a chosen one, zero for any other. -/
def decisions (t : Table kind) (candidates : List UInt32) (chosen : List Nat) : List Int :=
  (t.possible candidates).map fun e => if e.2 ∈ chosen then 1 else 0

/-- The values of all columns when candidates are chosen. -/
def assignment (t : Table kind) (candidates : List UInt32) (chosen : List Nat) : List Int :=
  t.decisions candidates chosen ++ t.wrapping.map (t.wraps (keysAt candidates chosen))

/-- Indices of candidates in ascending order, each with a decision column. -/
structure Eligible (t : Table kind) (candidates : List UInt32) (chosen : List Nat) : Prop where
  ascending : chosen.Pairwise (· < ·)
  decided : ∀ i ∈ chosen, i ∈ (t.possible candidates).map Prod.snd

namespace Eligible

variable {t : Table kind} {candidates : List UInt32} {chosen : List Nat}
  (h : t.Eligible candidates chosen)
include h

theorem map_snd_filter : ((t.possible candidates).filter fun e => e.2 ∈ chosen).map Prod.snd =
    chosen := by
  have hsorted := (pairwise_possible t candidates).sublist (List.filter_sublist.map Prod.snd :
    (((t.possible candidates).filter fun e => e.2 ∈ chosen).map Prod.snd).Sublist _)
  -- both lists ascend, so it is enough that they have the same members
  refine Program.eq_of_ascending hsorted h.ascending fun i => ⟨fun hi => ?_, fun hi => ?_⟩
  · obtain ⟨e, he, rfl⟩ := List.mem_map.1 hi
    simpa using (List.mem_filter.1 he).2
  · obtain ⟨e, he, rfl⟩ := List.mem_map.1 (h.decided i hi)
    exact List.mem_map_of_mem (List.mem_filter.2 ⟨he, by simpa using hi⟩)

theorem map_fst_filter : ((t.possible candidates).filter fun e => e.2 ∈ chosen).map Prod.fst =
    keysAt candidates chosen := by
  have hnumbered : ∀ e ∈ (t.possible candidates).filter fun e => e.2 ∈ chosen,
      e ∈ candidates.zipIdx :=
    fun e he => (List.mem_filter.1 (List.mem_filter.1 he).1).1
  rw [← keysAt_map_snd hnumbered, h.map_snd_filter]

/-- Decisions sum over the chosen candidates. -/
theorem sum_decisions (f : UInt32 → Int) :
    ((t.possible candidates).map fun e => f e.1 * if e.2 ∈ chosen then 1 else 0).sum =
      ((keysAt candidates chosen).map f).sum := by
  rw [sum_map_mul_ite, ← h.map_fst_filter, List.map_map]
  rfl

/-- What is selected is what was chosen. -/
theorem selected_append (expected : Nat) (rest : List Int) :
    (t.program candidates expected).selected (t.decisions candidates chosen ++ rest) = chosen := by
  rw [Program.selected, program, decisions, filter_zip_map]
  conv_rhs => rw [← h.map_snd_filter]
  congr 2
  funext e
  by_cases he : e.2 ∈ chosen <;> simp [he]

theorem selected_assignment (expected : Nat) :
    (t.program candidates expected).selected (t.assignment candidates chosen) = chosen :=
  h.selected_append expected _

end Eligible

/-- Binary values of the decision columns choose the candidates of value one. -/
theorem exists_eligible (t : Table kind) (candidates : List UInt32) {values : List Int}
    (hbinary : List.Forall₂ (fun _ value => value = 0 ∨ value = 1) (t.possible candidates) values) :
    ∃ chosen, t.Eligible candidates chosen ∧ values = t.decisions candidates chosen := by
  have hsnd := (pairwise_possible t candidates).imp Nat.ne_of_lt
  obtain ⟨value, rfl⟩ := exists_eq_map_of_nodup (List.Nodup.of_map Prod.snd hsnd) hbinary.length_eq
  refine ⟨((t.possible candidates).filter fun e => value e = 1).map Prod.snd, ⟨?_, ?_⟩, ?_⟩
  · exact (pairwise_possible t candidates).sublist (List.filter_sublist.map _)
  · exact fun i hi => List.map_subset _ (List.filter_subset_self _) hi
  · -- a column is decided for when its candidate is chosen
    refine List.map_congr_left fun e he => ?_
    have hvalue : value e = 0 ∨ value e = 1 := by
      rw [List.forall₂_map_right_iff, List.forall₂_same] at hbinary
      exact hbinary e he
    have hmem : e.2 ∈ ((t.possible candidates).filter fun e => value e = 1).map Prod.snd ↔
        value e = 1 := by
      constructor
      · intro hi
        obtain ⟨d, hd, hde⟩ := List.mem_map.1 hi
        obtain ⟨hd, hone⟩ := List.mem_filter.1 hd
        -- one index belongs to one candidate
        obtain rfl : d = e := List.inj_on_of_nodup_map hsnd hd he hde
        simpa using hone
      · intro hone
        exact List.mem_map_of_mem (List.mem_filter.2 ⟨he, by simpa using hone⟩)
    simp only [hmem]
    rcases hvalue with h0 | h1
    · simp [h0]
    · simp [h1]

/-! ## Rows -/

/-- No auxiliary column touches the row of a count. -/
theorem lhs_wrapping_count (t : Table kind) (w : Cell kind × Nat → Int) {b : Nat}
    (hb : b < t.cells.size) : lhs (t.wrapping.map t.wrapColumn) (t.wrapping.map w) b = 0 := by
  rw [lhs_map]
  refine List.sum_eq_zero fun x hx => ?_
  obtain ⟨e, -, rfl⟩ := List.mem_map.1 hx
  simp [wrapColumn, show ¬ t.cells.size + e.2 = b by omega]

/-- In the row of a sum, the auxiliary column of that bucket takes off multiples of the modulus. -/
theorem lhs_wrapping_sum (t : Table kind) (w : Cell kind × Nat → Int) (b : Nat) :
    lhs (t.wrapping.map t.wrapColumn) (t.wrapping.map w) (t.cells.size + b) =
      if (t.cell b, b) ∈ t.wrapping then -(t.session.modulus.toNat : Int) * w (t.cell b, b)
      else 0 := by
  -- a bucket has one auxiliary column, which touches no other row
  have hother : ∀ e, e ≠ (t.cell b, b) → e ∈ t.wrapping →
      rowTotal (t.wrapColumn e).entries (t.cells.size + b) * w e = 0 := by
    intro e hne he
    have hj : e.2 ≠ b := by
      rintro rfl
      exact hne (Prod.ext (mem_wrapping.1 he).2.2.1 rfl)
    simp [wrapColumn, hj]
  rw [lhs_map, sum_map_eq_ite_mem t.nodup_wrapping _ _ hother]
  by_cases hmem : (t.cell b, b) ∈ t.wrapping <;> simp [hmem, wrapColumn]

/-- The sums of the rows, when candidates are chosen and the auxiliary columns have any values. -/
theorem lhs_program {t : Table kind} (ht : t.WellFormed) {candidates : List UInt32}
    {chosen : List Nat} (h : t.Eligible candidates chosen) (expected : Nat)
    (w : Cell kind × Nat → Int) {b : Nat} (hb : b < t.cells.size) :
    lhs (t.program candidates expected).columns (t.decisions candidates chosen ++ t.wrapping.map w)
        b = t.arrivals (keysAt candidates chosen) b ∧
      (kind = .summing →
        lhs (t.program candidates expected).columns
            (t.decisions candidates chosen ++ t.wrapping.map w) (t.cells.size + b) =
          t.residues (keysAt candidates chosen) b +
            if (t.cell b, b) ∈ t.wrapping then -(t.session.modulus.toNat : Int) * w (t.cell b, b)
            else 0) := by
  have hlength : ((t.possible candidates).map t.decisionColumn).length =
      (t.decisions candidates chosen).length := by simp [decisions]
  constructor
  · -- the row of the count
    have harrivals : (t.arrivals (keysAt candidates chosen) b : Int) =
        ((keysAt candidates chosen).map fun key =>
          rowTotal (t.decisionEntries key) b).sum := by
      simp only [rowTotal_decisionEntries_count t _ hb]
      rw [arrivals, Nat.cast_list_sum, List.map_map]
      rfl
    rw [program, lhs_append hlength, lhs_wrapping_count t w hb, decisions, lhs_map, harrivals,
      ← h.sum_decisions, add_zero]
    rfl
  · -- the row of the field sum
    intro hkind
    have hresidues : (t.residues (keysAt candidates chosen) b : Int) =
        ((keysAt candidates chosen).map fun key =>
          rowTotal (t.decisionEntries key) (t.cells.size + b)).sum := by
      simp only [rowTotal_decisionEntries_sum ht hkind]
      rw [residues, Nat.cast_list_sum, List.map_map]
      simp only [Function.comp_def, Nat.cast_mul]
    rw [program, lhs_append hlength, lhs_wrapping_sum, decisions, lhs_map, hresidues,
      ← h.sum_decisions]
    rfl

theorem isSome_fieldSum? (hkind : kind = .summing) (c : Cell kind) :
    c.fieldSum? = some (c.fieldSum?.getD 0) := by
  subst hkind
  rfl

theorem eq_summing_of_fieldSum? {c : Cell kind} {sum : UInt32} (h : c.fieldSum? = some sum) :
    kind = .summing := by
  cases kind with
  | counting => cases h
  | invertible => cases h
  | summing => rfl

/-- Decisions are in their ranges, so the auxiliary columns decide whether the values fit. -/
theorem fits_program_iff (t : Table kind) (candidates : List UInt32) (chosen : List Nat)
    (expected : Nat) (w : Cell kind × Nat → Int) :
    Fits (t.program candidates expected).columns
        (t.decisions candidates chosen ++ t.wrapping.map w) ↔
      ∀ e ∈ t.wrapping, 0 ≤ w e ∧ w e ≤ e.1.count := by
  have hdecisions : List.Forall₂
      (fun (c : Column) value => c.range.lower ≤ value ∧ value ≤ c.range.upper)
      ((t.possible candidates).map t.decisionColumn) (t.decisions candidates chosen) := by
    rw [decisions, List.forall₂_map_left_iff, List.forall₂_map_right_iff, List.forall₂_same]
    intro e _
    show 0 ≤ ite _ _ _ ∧ ite _ _ _ ≤ (1 : Int)
    split <;> simp
  -- and the values of the auxiliary columns fit one by one
  have hwraps : List.Forall₂
      (fun (c : Column) value => c.range.lower ≤ value ∧ value ≤ c.range.upper)
      (t.wrapping.map t.wrapColumn) (t.wrapping.map w) ↔
        ∀ e ∈ t.wrapping, 0 ≤ w e ∧ w e ≤ e.1.count := by
    rw [List.forall₂_map_left_iff, List.forall₂_map_right_iff, List.forall₂_same]
    rfl
  rw [← hwraps, Fits, program, forall₂_append_iff (by simp [decisions])]
  exact and_iff_right hdecisions

/-- Chosen candidates and values of the auxiliary columns solve the program when those values are in
their ranges, the arrivals are the counts, and the residues, less the multiples of the modulus that
are taken off, are the field sums. -/
theorem isSolution_append_iff {t : Table kind} (ht : t.WellFormed) {candidates : List UInt32}
    {chosen : List Nat} (h : t.Eligible candidates chosen) (expected : Nat)
    (w : Cell kind × Nat → Int) :
    (t.program candidates expected).isSolution
        (t.decisions candidates chosen ++ t.wrapping.map w) = true ↔
      (∀ e ∈ t.wrapping, 0 ≤ w e ∧ w e ≤ e.1.count) ∧
      ∀ b < t.cells.size, (t.arrivals (keysAt candidates chosen) b : Int) = (t.cell b).count ∧
        ∀ sum, (t.cell b).fieldSum? = some sum →
          ((t.residues (keysAt candidates chosen) b : Int) +
            if (t.cell b, b) ∈ t.wrapping then -(t.session.modulus.toNat : Int) * w (t.cell b, b)
            else 0) = sum.toNat := by
  have hform := Program.check_eq_ok_iff.1 (check_program ht candidates expected)
  rw [Program.isSolution_iff, fits_program_iff]
  refine and_congr_right fun _ => ?_
  -- every entry names a row, and the rows are those of the counts and of the field sums
  show InRows _ _ ∧ Meets t.rowBounds _ ↔ _
  rw [and_iff_right hform.2.1, meets_rowBounds_iff]
  refine forall₂_congr fun b hb => ?_
  obtain ⟨hcount, hsum⟩ := lhs_program ht h expected w hb
  rw [hcount]
  refine and_congr_right fun _ => forall₂_congr fun sum hsome => ?_
  rw [hsum (eq_summing_of_fieldSum? hsome)]

/-! ## Exactness -/

section Exactness

variable {t : Table kind} (ht : t.WellFormed)
include ht

/-- Where keys make up the table, the multiples of the modulus that are taken off a sum come out
even, and a bucket wraps at most once per key. -/
theorem wraps_of_madeUpBy {keys : List UInt32} (hmade : t.MadeUpBy keys) {e : Cell kind × Nat}
    (he : e ∈ t.wrapping) :
    (t.residues keys e.2 : Int) + -(t.session.modulus.toNat : Int) * t.wraps keys e =
        (e.1.fieldSum?.getD 0).toNat ∧
      0 ≤ t.wraps keys e ∧ t.wraps keys e ≤ e.1.count := by
  obtain ⟨c, b⟩ := e
  obtain ⟨hkind, hb, hc, -⟩ := mem_wrapping.1 he
  obtain rfl : c = t.cell b := hc
  have hsome := isSome_fieldSum? hkind (t.cell b)
  obtain ⟨hcount, hdvd⟩ := (madeUpBy_iff ht keys).1 hmade b hb
  have hreduced : ((t.cell b).fieldSum?.getD 0).toNat < t.session.modulus.toNat :=
    ht.reduced_cell b _ hsome
  obtain ⟨q, hq⟩ := hdvd _ hsome
  have hle := residues_le ht keys b
  have hpos : (0 : Int) < t.session.modulus.toNat := by omega
  -- the quotient is exact, since keys that make up the table reproduce its field sums
  have hwraps : t.wraps keys (t.cell b, b) = q := by
    rw [wraps, hq, Int.mul_ediv_cancel_left _ hpos.ne']
  rw [hwraps]
  refine ⟨?_, ?_, ?_⟩
  · show (t.residues keys b : Int) + _ = _
    rw [neg_mul, ← hq]
    ring
  · -- the sum is below the modulus, so the difference is more than one modulus below zero
    by_contra hneg
    have hmul := mul_le_mul_of_nonneg_left (show q ≤ -1 by omega) hpos.le
    omega
  · -- each arrival brings less than one modulus
    show q ≤ (t.cell b).count
    refine le_of_mul_le_mul_left ?_ hpos
    have hle' : (t.residues keys b : Int) ≤ t.arrivals keys b * t.session.modulus.toNat := by
      exact_mod_cast hle
    rw [← hq, ← hcount, mul_comm]
    omega

/-- A candidate of a selection that makes up the table passes the filter. -/
theorem eligible_of_madeUpBy {candidates : List UInt32} {chosen : List Nat}
    (hascending : chosen.Pairwise (· < ·)) (hlt : ∀ i ∈ chosen, i < candidates.length)
    (hmade : t.MadeUpBy (keysAt candidates chosen)) : t.Eligible candidates chosen := by
  refine ⟨hascending, fun i hi => ?_⟩
  have hbound := hlt i hi
  have hget : candidates[i]? = some candidates[i] := List.getElem?_eq_getElem hbound
  have hkey : candidates[i] ∈ keysAt candidates chosen := by
    exact List.mem_map.2 ⟨i, hi, List.getD_eq_getElem _ _ hbound⟩
  -- it arrives at each of its buckets, so none of them counts zero
  refine List.mem_map.2 ⟨(candidates[i], i), mem_possible.2 ⟨hget, ?_⟩, rfl⟩
  rw [mayHold, List.all_eq_true]
  intro b hb
  have hcount := ((madeUpBy_iff ht _).1 hmade b (ht.lt_size hb)).1
  have hpos := arrivals_pos hkey hb
  rw [decide_eq_true_eq]
  omega

/-- Choosing candidates that make up the table solves the program. -/
theorem isSolution_assignment {candidates : List UInt32} {chosen : List Nat}
    (hchosen : t.Eligible candidates chosen) (hmade : t.MadeUpBy (keysAt candidates chosen))
    (expected : Nat) :
    (t.program candidates expected).isSolution (t.assignment candidates chosen) = true := by
  rw [assignment, isSolution_append_iff ht hchosen]
  refine ⟨fun e he => (wraps_of_madeUpBy ht hmade he).2, fun b hb => ?_⟩
  obtain ⟨hcount, hdvd⟩ := (madeUpBy_iff ht _).1 hmade b hb
  refine ⟨hcount, fun sum hsome => ?_⟩
  split
  · -- the auxiliary column takes off what wraps
    rename_i hmem
    rw [(wraps_of_madeUpBy ht hmade hmem).1]
    simp [hsome]
  · -- a bucket without an auxiliary column counts nothing, so no candidate brings it anything
    rename_i hmem
    have hzero : t.arrivals (keysAt candidates chosen) b = 0 := by
      by_contra hne
      exact hmem (mem_wrapping.2 ⟨eq_summing_of_fieldSum? hsome, hb, rfl,
        show 0 < (t.cell b).count by omega⟩)
    have hresidues := residues_le ht (keysAt candidates chosen) b
    rw [hzero, Nat.zero_mul, Nat.le_zero] at hresidues
    have hlt : sum.toNat < t.session.modulus.toNat := ht.reduced_cell b _ hsome
    have hsum := hdvd sum hsome
    rw [hresidues, Nat.cast_zero, zero_sub, dvd_neg, Int.natCast_dvd_natCast] at hsum
    rw [hresidues, Nat.eq_zero_of_dvd_of_lt hsum hlt]
    rfl

/-- Decisions and values of the auxiliary columns that solve the program make up the table, and the
decisions determine those values. -/
theorem madeUpBy_of_isSolution {candidates : List UInt32} {chosen : List Nat}
    (hchosen : t.Eligible candidates chosen) {expected : Nat} {w : Cell kind × Nat → Int}
    (hsolution : (t.program candidates expected).isSolution
      (t.decisions candidates chosen ++ t.wrapping.map w) = true) :
    t.MadeUpBy (keysAt candidates chosen) ∧
      t.wrapping.map w = t.wrapping.map (t.wraps (keysAt candidates chosen)) := by
  obtain ⟨-, hrows⟩ := (isSolution_append_iff ht hchosen expected w).1 hsolution
  have hmade : t.MadeUpBy (keysAt candidates chosen) := by
    rw [madeUpBy_iff ht]
    refine fun b hb => ⟨(hrows b hb).1, fun sum hsome => ?_⟩
    have hsum := (hrows b hb).2 sum hsome
    split at hsum
    · exact ⟨w (t.cell b, b), by linarith⟩
    · exact ⟨0, by linarith⟩
  refine ⟨hmade, List.map_congr_left ?_⟩
  -- the row of the sum fixes the multiple of the modulus
  rintro ⟨c, b⟩ he
  obtain ⟨hkind, hb, hc, -⟩ := mem_wrapping.1 he
  obtain rfl : c = t.cell b := hc
  have hsum := (hrows b hb).2 _ (isSome_fieldSum? hkind _)
  rw [if_pos he, ← (wraps_of_madeUpBy ht hmade he).1] at hsum
  have hpos : (t.session.modulus.toNat : Int) ≠ 0 := by
    exact_mod_cast ht.usable.prime.ne_zero
  exact mul_left_cancel₀ (neg_ne_zero.2 hpos) (add_left_cancel hsum)

/-- The solutions are the assignments of the selections that make up the table. -/
theorem isSolution_program_iff (candidates : List UInt32) (expected : Nat) (values : List Int) :
    (t.program candidates expected).isSolution values = true ↔
      ∃ chosen, t.Eligible candidates chosen ∧ values = t.assignment candidates chosen ∧
        t.MadeUpBy (keysAt candidates chosen) := by
  constructor
  · intro hsolution
    have hfits := (Program.isSolution_iff.1 hsolution).1
    have hlength := hfits.length_eq
    rw [program, List.length_append, List.length_map, List.length_map] at hlength
    -- the values fall into decisions and values of the auxiliary columns
    rw [← List.take_append_drop (t.possible candidates).length values] at hfits hsolution ⊢
    rw [Fits, program, forall₂_append_iff (by simp; omega), List.forall₂_map_left_iff] at hfits
    obtain ⟨chosen, hchosen, hdecisions⟩ := exists_eligible t candidates (hfits.1.imp
      fun e (value : Int) (hvalue : 0 ≤ value ∧ value ≤ 1) =>
        show value = 0 ∨ value = 1 by omega)
    have hrest : t.wrapping.length = (values.drop (t.possible candidates).length).length := by
      rw [List.length_drop]
      omega
    -- the first choose candidates, and the others belong to the buckets
    obtain ⟨w, hw⟩ := exists_eq_map_of_nodup t.nodup_wrapping hrest
    rw [hdecisions, hw] at hsolution
    obtain ⟨hmade, hwraps⟩ := madeUpBy_of_isSolution ht hchosen hsolution
    exact ⟨chosen, hchosen, by rw [hdecisions, hw, hwraps, assignment], hmade⟩
  · rintro ⟨chosen, hchosen, rfl, hmade⟩
    exact isSolution_assignment ht hchosen hmade expected

end Exactness

end Table

namespace Program

variable {kind : Kind}

/-- **The program is exact.** A set of candidates is the selection of a solution when inserting them
into an empty table gives the counts and the field sums of the difference, and that solution is the
only one with this selection: its auxiliary columns are the wraps, each from zero to the count of
its bucket. -/
theorem ofDifference_exact {diff : Table kind} (hdiff : diff.WellFormed)
    (hcheck : diff.checkLosses = .ok ()) (candidates : List UInt32) (expected : Nat) :
    ∃ p, ofDifference diff candidates expected = .ok p ∧ p.check = .ok () ∧
      ∀ chosen : Finset Nat, (∀ i ∈ chosen, i < candidates.length) →
        ((∃ values, p.isSolution values = true ∧ p.selected values = chosen.sort) ↔
          diff.MadeUpBy (keysAt candidates chosen.sort)) ∧
        ∀ values, p.isSolution values = true → p.selected values = chosen.sort →
          values = diff.assignment candidates chosen.sort ∧
          ∀ e ∈ diff.wrapping, 0 ≤ diff.wraps (keysAt candidates chosen.sort) e ∧
            diff.wraps (keysAt candidates chosen.sort) e ≤ e.1.count := by
  refine ⟨diff.program candidates expected, Table.ofDifference_eq hcheck candidates expected,
    Table.check_program hdiff candidates expected, fun chosen hlt => ?_⟩
  -- a solution with this selection is the assignment of it
  have honly : ∀ values, (diff.program candidates expected).isSolution values = true →
      (diff.program candidates expected).selected values = chosen.sort →
      values = diff.assignment candidates chosen.sort ∧
        diff.MadeUpBy (keysAt candidates chosen.sort) := by
    intro values hsolution hselected
    obtain ⟨indices, hindices, rfl, hmade⟩ :=
      (Table.isSolution_program_iff hdiff candidates expected values).1 hsolution
    rw [hindices.selected_assignment] at hselected
    subst hselected
    exact ⟨rfl, hmade⟩
  refine ⟨⟨?_, ?_⟩, ?_⟩
  · rintro ⟨values, hsolution, hselected⟩
    exact (honly values hsolution hselected).2
  · intro hmade
    have heligible := Table.eligible_of_madeUpBy hdiff (Finset.sortedLT_sort chosen).pairwise
      (fun i hi => hlt i ((Finset.mem_sort _).1 hi)) hmade
    exact ⟨_, Table.isSolution_assignment hdiff heligible hmade expected,
      heligible.selected_assignment expected⟩
  · intro values hsolution hselected
    obtain ⟨hvalues, hmade⟩ := honly values hsolution hselected
    exact ⟨hvalues, fun e he => (Table.wraps_of_madeUpBy hdiff hmade he).2⟩

end Program

end LossSketch
