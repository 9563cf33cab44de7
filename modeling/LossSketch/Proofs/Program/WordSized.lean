import Mathlib.Tactic.Linarith
import LossSketch.Proofs.Program.Checked
import LossSketch.Proofs.Program.Forbid

/-!
# Programs that words are wide enough for

* `Column.weight` bounds what a column can put into a row, either way, and `Program.WordSized` says
  that in every row the weights of all columns together are a signed word.
* `Tracks` says that tallies are the sums of the settled columns with what the open ones can add.
  Settling a column and releasing it keep it, and no step of either is out of range
  (`Column.exists_settle` and `Column.exists_release`). In between, a tally is `Column.Settling` or
  `Column.Releasing`.
* `search_tracks` — so no search of such a program stops.
* `Program.isSolutionChecked_eq` and `Program.firstSolutionChecked_eq` — testing values and finding
  the first solution are exact, with words that wrap as with words that do not.
-/

namespace LossSketch

/-! ## Weights -/

/-- The greatest absolute value in the range. -/
def Range.span (range : Range) : Nat := max range.lower.natAbs range.upper.natAbs

theorem Range.natAbs_le_span {range : Range} {value : Int}
    (h : range.lower ≤ value ∧ value ≤ range.upper) : value.natAbs ≤ range.span := by
  unfold span
  omega

theorem natAbs_mul_le {value : Int} {n : Nat} (h : value.natAbs ≤ n) (k : Int) :
    (k * value).natAbs ≤ k.natAbs * n := by
  rw [Int.natAbs_mul]
  exact Nat.mul_le_mul_left _ h

theorem natAbs_add_le_add {a b m n : Int} (ha : (a.natAbs : Int) ≤ m) (hb : (b.natAbs : Int) ≤ n) :
    ((a + b).natAbs : Int) ≤ m + n :=
  (Int.ofNat_le.2 (Int.natAbs_add_le a b)).trans (add_le_add ha hb)

theorem signed64_of_le {n m : Int} (h : (n.natAbs : Int) ≤ m) (hm : m < 2 ^ 63) : Signed64 n :=
  signed64_of_natAbs_lt (Int.ofNat_lt.1 (h.trans_lt hm))

namespace Column

/-- What the entries of a column can put into a row at most, either way. -/
def weight (c : Column) (row : Nat) : Int :=
  c.totalBy (fun k => (k.natAbs * c.range.span : Nat)) row

theorem natAbs_least_le (c : Column) (k : Int) : (c.least k).natAbs ≤ k.natAbs * c.range.span := by
  have hlower := natAbs_mul_le (le_max_left c.range.lower.natAbs c.range.upper.natAbs) k
  have hupper := natAbs_mul_le (le_max_right c.range.lower.natAbs c.range.upper.natAbs) k
  unfold least Range.span
  rcases min_choice (k * c.range.lower) (k * c.range.upper) with h | h <;> rwa [h]

theorem natAbs_greatest_le (c : Column) (k : Int) :
    (c.greatest k).natAbs ≤ k.natAbs * c.range.span := by
  have hlower := natAbs_mul_le (le_max_left c.range.lower.natAbs c.range.upper.natAbs) k
  have hupper := natAbs_mul_le (le_max_right c.range.lower.natAbs c.range.upper.natAbs) k
  unfold greatest Range.span
  rcases max_choice (k * c.range.lower) (k * c.range.upper) with h | h <;> rwa [h]

/-- What the entries of a column put into a row weighs no more than they can put there. -/
theorem natAbs_totalBy_le (c : Column) {change : Int → Int}
    (h : ∀ k, (change k).natAbs ≤ k.natAbs * c.range.span) (row : Nat) :
    ((c.totalBy change row).natAbs : Int) ≤ c.weight row := by
  rw [weight, totalBy, totalBy]
  induction c.entries with
  | nil => exact le_refl _
  | cons e entries ih =>
    have he := h e.2
    rw [List.map_cons, List.map_cons, rowTotal_cons, rowTotal_cons]
    split <;> omega

theorem weight_nonneg (c : Column) (row : Nat) : 0 ≤ c.weight row :=
  le_trans (Int.natCast_nonneg _) (c.natAbs_totalBy_le
    (fun k => by simp : ∀ k : Int, (0 : Int).natAbs ≤ k.natAbs * c.range.span) row)

end Column

/-- What open columns can put into a row at most, either way. -/
def weightRest (columns : List Column) (row : Nat) : Int :=
  (columns.map fun c => c.weight row).sum

theorem weightRest_cons (c : Column) (columns : List Column) (row : Nat) :
    weightRest (c :: columns) row = c.weight row + weightRest columns row := by
  rw [weightRest, List.map_cons, List.sum_cons, weightRest]

theorem weightRest_append (columns others : List Column) (row : Nat) :
    weightRest (columns ++ others) row = weightRest columns row + weightRest others row := by
  rw [weightRest, List.map_append, List.sum_append, weightRest, weightRest]

theorem weightRest_nonneg (columns : List Column) (row : Nat) : 0 ≤ weightRest columns row := by
  induction columns with
  | nil => exact le_refl _
  | cons c columns ih =>
    rw [weightRest_cons]
    exact add_nonneg (c.weight_nonneg row) ih

theorem natAbs_leastRest_le (columns : List Column) (row : Nat) :
    ((leastRest columns row).natAbs : Int) ≤ weightRest columns row := by
  induction columns with
  | nil => exact le_refl _
  | cons c columns ih =>
    have hc := c.natAbs_totalBy_le c.natAbs_least_le row
    rw [leastRest_cons, weightRest_cons]
    omega

theorem natAbs_greatestRest_le (columns : List Column) (row : Nat) :
    ((greatestRest columns row).natAbs : Int) ≤ weightRest columns row := by
  induction columns with
  | nil => exact le_refl _
  | cons c columns ih =>
    have hc := c.natAbs_totalBy_le c.natAbs_greatest_le row
    rw [greatestRest_cons, weightRest_cons]
    omega

/-! ## Columns with one entry more -/

section Entries

variable (c : Column) (e : Nat × Int) (entries : List (Nat × Int)) (columns : List Column)
  (row : Nat)

theorem Column.totalBy_entries_cons (range : Range) (change : Int → Int) :
    (⟨range, e :: entries⟩ : Column).totalBy change row =
      (if e.1 = row then change e.2 else 0) + (⟨range, entries⟩ : Column).totalBy change row := by
  rw [totalBy, totalBy, List.map_cons, rowTotal_cons]

theorem Column.weight_entries_cons (range : Range) :
    (⟨range, e :: entries⟩ : Column).weight row =
      (if e.1 = row then ((e.2.natAbs * range.span : Nat) : Int) else 0) +
        (⟨range, entries⟩ : Column).weight row :=
  totalBy_entries_cons e entries row range _

theorem leastRest_entries_cons : leastRest (⟨c.range, e :: entries⟩ :: columns) row =
    (if e.1 = row then c.least e.2 else 0) + leastRest (⟨c.range, entries⟩ :: columns) row := by
  rw [leastRest_cons, leastRest_cons, Column.totalBy_entries_cons, add_assoc]
  rfl

theorem greatestRest_entries_cons : greatestRest (⟨c.range, e :: entries⟩ :: columns) row =
    (if e.1 = row then c.greatest e.2 else 0) +
      greatestRest (⟨c.range, entries⟩ :: columns) row := by
  rw [greatestRest_cons, greatestRest_cons, Column.totalBy_entries_cons, add_assoc]
  rfl

theorem weightRest_entries_cons : weightRest (⟨c.range, e :: entries⟩ :: columns) row =
    (if e.1 = row then ((e.2.natAbs * c.range.span : Nat) : Int) else 0) +
      weightRest (⟨c.range, entries⟩ :: columns) row := by
  rw [weightRest_cons, weightRest_cons, Column.weight_entries_cons, add_assoc]

end Entries

/-! ## Tallies -/

/-- The tally of a row is the sum of its settled columns with what the open ones can add, and words
are wide enough for all of them. -/
def TracksRow (columns : List Column) (row : Nat) (sum : Int) (t : Tally) : Prop :=
  t = ⟨sum, leastRest columns row, greatestRest columns row⟩ ∧
    sum.natAbs + weightRest columns row < 2 ^ 63

/-- The tallies are those of the rows. -/
def Tracks (columns : List Column) (sums : Nat → Int) (tallies : Array Tally) : Prop :=
  ∀ (row : Nat) (t : Tally), tallies[row]? = some t → TracksRow columns row (sums row) t

/-- Tallies are determined by the sums that they track. -/
theorem Tracks.eq {columns : List Column} {sums : Nat → Int} {tallies tallies' : Array Tally}
    (h : Tracks columns sums tallies) (h' : Tracks columns sums tallies')
    (hsize : tallies'.size = tallies.size) : tallies' = tallies := by
  refine Array.ext hsize fun row hrow hrow' => ?_
  rw [(h' row _ (Array.getElem?_eq_getElem hrow)).1, (h row _ (Array.getElem?_eq_getElem hrow')).1]

/-- Only what the columns can do together matters. -/
theorem Tracks.perm {columns others : List Column} (hperm : columns.Perm others)
    {sums : Nat → Int} {tallies : Array Tally} (h : Tracks columns sums tallies) :
    Tracks others sums tallies := by
  intro row t ht
  obtain ⟨rfl, hweight⟩ := h row t ht
  rw [weightRest, (hperm.map _).sum_eq] at hweight
  rw [TracksRow, leastRest, greatestRest, (hperm.map fun c => c.totalBy c.least row).sum_eq,
    (hperm.map fun c => c.totalBy c.greatest row).sum_eq]
  exact ⟨rfl, hweight⟩

/-- A row that can be tracked can be compared with its bound. -/
theorem TracksRow.exists_reachable {columns : List Column} {row : Nat} {sum : Int} {t : Tally}
    (h : TracksRow columns row sum t) (bound : Bound) :
    ∃ b, bound.reachableChecked t = some b := by
  obtain ⟨rfl, hweight⟩ := h
  have hleast := natAbs_leastRest_le columns row
  have hgreatest := natAbs_greatestRest_le columns row
  have hl : signed? (sum + leastRest columns row) = some (sum + leastRest columns row) :=
    signed?_of_signed64 (signed64_of_natAbs_lt (by omega))
  have hg : signed? (sum + greatestRest columns row) = some (sum + greatestRest columns row) :=
    signed?_of_signed64 (signed64_of_natAbs_lt (by omega))
  cases bound with
  | fixed value =>
    simp only [Bound.reachableChecked, hl, hg]
    exact ⟨_, (apply_ite some _ _ _).symm⟩
  | upper value =>
    simp only [Bound.reachableChecked, hl]
    exact ⟨_, rfl⟩

/-- A test of all members stops only if one of its steps does. -/
theorem exists_allM {α : Type} {l : List α} {test : α → Option Bool}
    (h : ∀ a ∈ l, ∃ b, test a = some b) : ∃ b, l.allM test = some b := by
  induction l with
  | nil => exact ⟨true, rfl⟩
  | cons a l ih =>
    obtain ⟨first, hfirst⟩ := h a List.mem_cons_self
    obtain ⟨b, hb⟩ := ih fun a ha => h a (List.mem_cons_of_mem _ ha)
    rw [List.allM, hfirst]
    cases first with
    | true => exact ⟨b, hb⟩
    | false => exact ⟨false, rfl⟩

theorem Tracks.exists_feasible {columns : List Column} {sums : Nat → Int} {tallies : Array Tally}
    (h : Tracks columns sums tallies) (c : Column) (rows : Array Bound) :
    ∃ b, c.feasibleChecked rows tallies = some b := by
  refine exists_allM ?_
  rintro ⟨row, coeff⟩ -
  dsimp only
  cases rows[row]? with
  | none => exact ⟨false, rfl⟩
  | some bound =>
    cases ht : tallies[row]? with
    | none => exact ⟨false, rfl⟩
    | some t => exact (h row t ht).exists_reachable bound

namespace Column

/-- The products of an entry are in range if its weight is. -/
theorem signed64_extremes {c : Column} {k : Int} (h : k.natAbs * c.range.span < 2 ^ 63) :
    Signed64 (k * c.range.lower) ∧ Signed64 (k * c.range.upper) := by
  have hlower := natAbs_mul_le (le_max_left c.range.lower.natAbs c.range.upper.natAbs) k
  have hupper := natAbs_mul_le (le_max_right c.range.lower.natAbs c.range.upper.natAbs) k
  rw [Range.span] at h
  exact ⟨signed64_of_natAbs_lt (by omega), signed64_of_natAbs_lt (by omega)⟩

variable {c : Column} {columns : List Column} {sums : Nat → Int} {tallies : Array Tally}
  {value : Int}

/-- An entry in another row says nothing of what is open in this one. -/
theorem tracksRow_skip {e : Nat × Int} {entries : List (Nat × Int)} {row : Nat} (hne : e.1 ≠ row)
    {sum : Int} {t : Tally} (h : TracksRow (⟨c.range, e :: entries⟩ :: columns) row sum t) :
    TracksRow (⟨c.range, entries⟩ :: columns) row sum t := by
  rwa [TracksRow, leastRest_entries_cons, greatestRest_entries_cons, weightRest_entries_cons,
    if_neg hne, if_neg hne, if_neg hne, zero_add, zero_add, zero_add] at h

/-- A column without open entries is not open. -/
theorem tracksRow_nil_iff {row : Nat} {sum : Int} {t : Tally} :
    TracksRow (⟨c.range, []⟩ :: columns) row sum t ↔ TracksRow columns row sum t := by
  simp [TracksRow, leastRest_cons, greatestRest_cons, weightRest_cons, totalBy, weight]

/-! ### Settling -/

/-- What a tally is while the column is settled: what is open of the column in the row are the
entries still to come, and the settled ones have brought the sum to where these take it on. -/
def Settling (c : Column) (columns : List Column) (sums : Nat → Int) (value : Int)
    (entries : List (Nat × Int)) (row : Nat) (t : Tally) : Prop :=
  ∃ sum, sum + rowTotal entries row * value = sums row + rowTotal c.entries row * value ∧
    TracksRow (⟨c.range, entries⟩ :: columns) row sum t

theorem Settling.settle {e : Nat × Int} {entries : List (Nat × Int)} {t : Tally}
    (h : Settling c columns sums value (e :: entries) e.1 t)
    (hvalue : value.natAbs ≤ c.range.span) :
    ∃ t', c.settleTally value e.2 t = some t' ∧ Settling c columns sums value entries e.1 t' := by
  obtain ⟨sum, hsum, rfl, hweight⟩ := h
  have hk := natAbs_mul_le hvalue e.2
  have hleast := natAbs_leastRest_le (⟨c.range, entries⟩ :: columns) e.1
  have hgreatest := natAbs_greatestRest_le (⟨c.range, entries⟩ :: columns) e.1
  rw [weightRest_entries_cons, if_pos rfl] at hweight
  rw [rowTotal_cons, if_pos rfl, add_mul] at hsum
  rw [leastRest_entries_cons, greatestRest_entries_cons, if_pos rfl, if_pos rfl]
  refine ⟨_, settleTally_eq_some.2 ⟨signed64_extremes (by omega),
    signed64_of_natAbs_lt (by omega), Tally.add?_eq ?_ ?_ ?_⟩,
    sum + e.2 * value, by omega, ?_, by omega⟩
  · exact signed64_of_natAbs_lt (by omega)
  · exact signed64_of_natAbs_lt (by omega)
  · exact signed64_of_natAbs_lt (by omega)
  · simp only [Tally.mk.injEq, true_and]
    constructor <;> omega

theorem Settling.skip {e : Nat × Int} {entries : List (Nat × Int)} {row : Nat} (hne : e.1 ≠ row)
    {t : Tally} (h : Settling c columns sums value (e :: entries) row t) :
    Settling c columns sums value entries row t := by
  obtain ⟨sum, hsum, htracks⟩ := h
  rw [rowTotal_cons, if_neg hne, zero_add] at hsum
  exact ⟨sum, hsum, tracksRow_skip hne htracks⟩

/-- **Settling a column stops at no step**, and the tallies go on to track the rows. -/
theorem exists_settle (h : Tracks (c :: columns) sums tallies)
    (hvalue : value.natAbs ≤ c.range.span) :
    ∃ settled, c.settleChecked value tallies = some settled ∧ settled.size = tallies.size ∧
      Tracks columns (fun row => sums row + rowTotal c.entries row * value) settled := by
  obtain ⟨settled, hsettled, hsize, hlast⟩ := exists_foldlM_modifyChecked
    (P := Settling c columns sums value) (fun _ _ _ h => h.settle hvalue)
    (fun _ _ _ _ hne h => h.skip hne) fun row t ht => ⟨sums row, rfl, h row t ht⟩
  refine ⟨settled, hsettled, hsize, fun row t ht => ?_⟩
  -- no entry is left to come
  obtain ⟨sum, hsum, htracks⟩ := hlast row t ht
  rw [rowTotal_nil, zero_mul, add_zero] at hsum
  subst hsum
  exact tracksRow_nil_iff.1 htracks

/-! ### Releasing -/

/-- What a tally is while the column is released: the entries still to come are settled, and the
others are open again. Together they weigh what the row has room for. -/
def Releasing (c : Column) (columns : List Column) (sums : Nat → Int) (value : Int)
    (entries : List (Nat × Int)) (row : Nat) (t : Tally) : Prop :=
  ∃ least greatest weight,
    t = ⟨sums row + rowTotal entries row * value, least, greatest⟩ ∧
      least + (⟨c.range, entries⟩ : Column).totalBy c.least row = leastRest (c :: columns) row ∧
      greatest + (⟨c.range, entries⟩ : Column).totalBy c.greatest row =
        greatestRest (c :: columns) row ∧
      weight + (⟨c.range, entries⟩ : Column).weight row = weightRest (c :: columns) row ∧
      least.natAbs ≤ weight ∧ greatest.natAbs ≤ weight ∧
      (sums row).natAbs + weightRest (c :: columns) row < 2 ^ 63

theorem Releasing.release {e : Nat × Int} {entries : List (Nat × Int)} {t : Tally}
    (h : Releasing c columns sums value (e :: entries) e.1 t)
    (hvalue : value.natAbs ≤ c.range.span) :
    ∃ t', c.releaseTally value e.2 t = some t' ∧ Releasing c columns sums value entries e.1 t' := by
  obtain ⟨least, greatest, weight, rfl, hleast, hgreatest, hsum, hl, hg, hweight⟩ := h
  have hrest : ((rowTotal entries e.1 * value).natAbs : Int) ≤
      (⟨c.range, entries⟩ : Column).weight e.1 := by
    rw [← totalBy_mul ⟨c.range, entries⟩]
    exact natAbs_totalBy_le ⟨c.range, entries⟩ (natAbs_mul_le hvalue) e.1
  rw [weight_entries_cons, if_pos rfl] at hsum
  rw [totalBy_entries_cons, if_pos rfl] at hleast hgreatest
  -- what the tally comes to weighs no more than the row, and the row has room for that
  have hsettled := natAbs_add_le_add (le_refl ((sums e.1).natAbs : Int)) hrest
  have hleast' := natAbs_add_le_add hl (Int.ofNat_le.2 (c.natAbs_least_le e.2))
  have hgreatest' := natAbs_add_le_add hg (Int.ofNat_le.2 (c.natAbs_greatest_le e.2))
  have hopen := (Int.natCast_nonneg _).trans hrest
  have hfirst := (Int.natCast_nonneg _).trans hl
  have hsums := Int.natCast_nonneg (sums e.1).natAbs
  have hk : e.2.natAbs * c.range.span < 2 ^ 63 := by
    clear hl hg hrest hsettled hleast' hgreatest'
    omega
  have hback : sums e.1 + rowTotal (e :: entries) e.1 * value + -(e.2 * value) =
      sums e.1 + rowTotal entries e.1 * value := by
    rw [rowTotal_cons, if_pos rfl]
    ring
  refine ⟨_, releaseTally_eq_some.2 ⟨signed64_extremes hk,
    signed64_of_natAbs_lt ((natAbs_mul_le hvalue e.2).trans_lt hk), Tally.add?_eq
      (hback ▸ signed64_of_le hsettled (by linarith)) (signed64_of_le hleast' (by linarith))
      (signed64_of_le hgreatest' (by linarith))⟩,
    least + c.least e.2, greatest + c.greatest e.2, weight + (e.2.natAbs * c.range.span : Nat),
    by rw [hback], by rw [← hleast, add_assoc], by rw [← hgreatest, add_assoc],
    by rw [← hsum, add_assoc], hleast', hgreatest', hweight⟩

theorem Releasing.skip {e : Nat × Int} {entries : List (Nat × Int)} {row : Nat} (hne : e.1 ≠ row)
    {t : Tally} (h : Releasing c columns sums value (e :: entries) row t) :
    Releasing c columns sums value entries row t := by
  obtain ⟨least, greatest, weight, rfl, hleast, hgreatest, hsum, hrest⟩ := h
  rw [totalBy_entries_cons, if_neg hne, zero_add] at hleast hgreatest
  rw [weight_entries_cons, if_neg hne, zero_add] at hsum
  rw [rowTotal_cons, if_neg hne, zero_add]
  exact ⟨least, greatest, weight, rfl, hleast, hgreatest, hsum, hrest⟩

/-- A settled column that is to be released is settled in all of its entries. -/
theorem releasing_of_tracksRow {row : Nat} {t : Tally}
    (h : TracksRow columns row (sums row + rowTotal c.entries row * value) t)
    (hweight : (sums row).natAbs + weightRest (c :: columns) row < 2 ^ 63) :
    Releasing c columns sums value c.entries row t := by
  obtain ⟨rfl, -⟩ := h
  exact ⟨_, _, weightRest columns row, rfl, by rw [leastRest_cons, add_comm],
    by rw [greatestRest_cons, add_comm], by rw [weightRest_cons, add_comm],
    natAbs_leastRest_le columns row, natAbs_greatestRest_le columns row, hweight⟩

/-- **Releasing a column stops at no step**, and the tallies are again as they were before. -/
theorem exists_release
    (h : Tracks columns (fun row => sums row + rowTotal c.entries row * value) tallies)
    (hvalue : value.natAbs ≤ c.range.span)
    (hweight : ∀ row < tallies.size, (sums row).natAbs + weightRest (c :: columns) row < 2 ^ 63) :
    ∃ released, c.releaseChecked value tallies = some released ∧ released.size = tallies.size ∧
      Tracks (c :: columns) sums released := by
  obtain ⟨released, hreleased, hsize, hlast⟩ := exists_foldlM_modifyChecked
    (P := Releasing c columns sums value) (fun _ _ _ h => h.release hvalue)
    (fun _ _ _ _ hne h => h.skip hne) fun row t ht =>
      releasing_of_tracksRow (h row t ht) (hweight row (Array.getElem?_eq_some_iff.1 ht).1)
  refine ⟨released, hreleased, hsize, fun row t ht => ?_⟩
  -- no entry is left to come
  obtain ⟨least, greatest, weight, rfl, hleast, hgreatest, -, -, -, hbound⟩ := hlast row t ht
  refine ⟨?_, hbound⟩
  rw [← hleast, ← hgreatest, rowTotal_nil, zero_mul, add_zero]
  simp [totalBy]

end Column

/-! ## The search -/

/-- The values of the ranges, and the value behind each range, are signed words. -/
def RangesFit (columns : List Column) : Prop :=
  ∀ c ∈ columns, Signed64 c.range.lower ∧ Signed64 (c.range.upper + 1)

instance (columns : List Column) : Decidable (RangesFit columns) :=
  inferInstanceAs (Decidable (∀ c ∈ columns, _ ∧ _))

section Search

variable {limit : Option Nat} {rows : Array Bound} {c : Column} {columns : List Column}

/-- A search comes to an outcome, and where it found nothing the tallies are as they were. -/
def Restores (tallies : Array Tally) (run : Option (Outcome (Array Tally))) : Prop :=
  ∃ out, run = some out ∧ ∀ restored nodes, out = .exhausted restored nodes → restored = tallies

theorem restores_found (tallies : Array Tally) (values : List Int) (nodes : Nat) :
    Restores tallies (some (.found values nodes)) := ⟨_, rfl, nofun⟩

theorem restores_gaveUp (tallies : Array Tally) : Restores tallies (some .gaveUp) := ⟨_, rfl, nofun⟩

theorem tryValues_tracks {sums : Nat → Int} {tallies : Array Tally} {nodes : Nat}
    (hnext : ∀ (sums : Nat → Int) (tallies : Array Tally) (nodes : Nat),
      Tracks columns sums tallies →
      Restores tallies (Program.searchChecked limit rows columns tallies nodes))
    (hrange : Signed64 c.range.lower ∧ Signed64 (c.range.upper + 1))
    (h : Tracks (c :: columns) sums tallies)
    {left : Nat} {value : Int} (hlower : c.range.lower ≤ value)
    (hleft : left ≠ 0 → value + left = c.range.upper + 1) :
    Restores tallies (Program.tryValuesChecked limit rows c
      (Program.searchChecked limit rows columns) left value tallies nodes) := by
  induction left generalizing value nodes with
  | zero =>
    refine ⟨_, rfl, ?_⟩
    rintro restored nodes' ⟨⟩
    rfl
  | succ left ih =>
    have hupper := hleft (Nat.succ_ne_zero left)
    push_cast at hupper
    have hspan : value.natAbs ≤ c.range.span := Range.natAbs_le_span ⟨hlower, by omega⟩
    have hfollowing : signed? (value + 1) = some (value + 1) :=
      signed?_of_signed64 ⟨by have := hrange.1.1; omega, by have := hrange.2.2; omega⟩
    obtain ⟨settled, hsettled, hsize, htracks⟩ := Column.exists_settle h hspan
    obtain ⟨feasible, hfeasible⟩ := htracks.exists_feasible c rows
    -- releasing the column brings the tallies back, from where the other values are tried
    obtain ⟨released, hreleased, hsize', htracks'⟩ := Column.exists_release htracks hspan
      fun row hrow => (h row _ (Array.getElem?_eq_getElem (hsize ▸ hrow))).2
    obtain rfl := h.eq htracks' (hsize'.trans hsize)
    have hrest : ∀ nodes, Restores released (Program.tryValuesChecked limit rows c
        (Program.searchChecked limit rows columns) left (value + 1) released nodes) :=
      fun nodes => ih (by omega) (by omega)
    unfold Program.tryValuesChecked
    split
    · exact restores_gaveUp released
    · simp only [hfollowing, hsettled, hfeasible, Option.bind_eq_bind, Option.bind_some]
      split
      · -- the later columns are searched
        obtain ⟨out, hout, hrestored⟩ := hnext _ _ (nodes + 1) htracks
        rw [hout, Option.bind_some]
        cases out with
        | found values nodes' => exact restores_found released _ nodes'
        | gaveUp => exact restores_gaveUp released
        | exhausted restored nodes' =>
          obtain rfl := hrestored restored nodes' rfl
          simp only [hreleased, Option.bind_some]
          exact hrest nodes'
      · rw [hreleased, Option.bind_some]
        exact hrest (nodes + 1)

/-- **No search stops** whose tallies track the rows. -/
theorem search_tracks (hranges : RangesFit columns) {sums : Nat → Int} {tallies : Array Tally}
    {nodes : Nat} (h : Tracks columns sums tallies) :
    Restores tallies (Program.searchChecked limit rows columns tallies nodes) := by
  induction columns generalizing sums tallies nodes with
  | nil => exact restores_found tallies [] nodes
  | cons c columns ih =>
    have hwidth : c.width ≠ 0 → c.range.lower + c.width = c.range.upper + 1 := by
      unfold Column.width
      omega
    exact tryValues_tracks (fun _ _ _ => ih fun c hc => hranges c (List.mem_cons_of_mem _ hc))
      (hranges c List.mem_cons_self) h le_rfl hwidth

end Search

/-! ## Programs -/

namespace Program

variable {p : Program}

/-- Words are wide enough for a program: for the sum of what all columns can put into a row, for the
values of the ranges and the one behind them, and for the number of candidates. -/
structure WordSized (p : Program) : Prop where
  rows : ∀ row < p.rows.length, weightRest p.columns row < 2 ^ 63
  ranges : RangesFit p.columns
  candidates : p.candidates.length < 2 ^ 63

/-- Taking in columns one after the other stops at no step. -/
theorem exists_spread {columns done : List Column} {tallies : Array Tally}
    (h : Tracks done (fun _ => 0) tallies)
    (hweight : ∀ row < tallies.size, weightRest (columns ++ done) row < 2 ^ 63) :
    ∃ spread, columns.foldlM (fun tallies c => c.spreadChecked tallies) tallies = some spread ∧
      spread.size = tallies.size ∧ Tracks (columns ++ done) (fun _ => 0) spread := by
  induction columns generalizing done tallies with
  | nil => exact ⟨tallies, rfl, rfl, h⟩
  | cons c columns ih =>
    have hperm : (columns ++ c :: done).Perm (c :: columns ++ done) := List.perm_middle
    have hweight' : ∀ row < tallies.size, weightRest (columns ++ c :: done) row < 2 ^ 63 := by
      intro row hrow
      rw [weightRest, (hperm.map _).sum_eq]
      exact hweight row hrow
    have hopen : Tracks done (fun row => (fun _ => 0) row + rowTotal c.entries row * 0)
        tallies := by
      simpa using h
    obtain ⟨behind, hbehind, hsize, htracks⟩ := Column.exists_release hopen (by simp)
      fun row hrow => by
        have hle := weightRest_nonneg columns row
        have hlt := hweight' row hrow
        rw [weightRest_append] at hlt
        show ((0 : Int).natAbs : Int) + _ < _
        omega
    obtain ⟨spread, hspread, hsize', htracks'⟩ := ih htracks (hsize ▸ hweight')
    refine ⟨spread, ?_, hsize'.trans hsize, htracks'.perm hperm⟩
    rw [List.foldlM_cons, Column.spreadChecked_eq]
    exact Option.bind_eq_some_iff.2 ⟨behind, hbehind, hspread⟩

theorem WordSized.exists_initialTallies (h : p.WordSized) :
    ∃ tallies, p.initialTallies = some tallies ∧ Tracks p.columns (fun _ => 0) tallies := by
  have hstart : Tracks [] (fun _ => 0) (Array.replicate p.rows.length ⟨0, 0, 0⟩) := by
    intro row t ht
    obtain ⟨hrow, rfl⟩ := Array.getElem?_eq_some_iff.1 ht
    rw [Array.getElem_replicate]
    exact ⟨rfl, by simp [weightRest]⟩
  have hweight : ∀ row < (Array.replicate p.rows.length (⟨0, 0, 0⟩ : Tally)).size,
      weightRest (p.columns ++ []) row < 2 ^ 63 := by
    simpa using h.rows
  obtain ⟨tallies, htallies, -, htracks⟩ := exists_spread hstart hweight
  exact ⟨tallies, htallies, by simpa using htracks⟩

/-- **Finding the first solution is exact** in a program that words are wide enough for. -/
theorem WordSized.firstSolutionChecked_eq (h : p.WordSized) (limit : Option Nat) :
    p.firstSolutionChecked limit = Checked.report (p.firstSolution limit) := by
  refine (firstSolutionChecked_refines p limit).eq_report_of_ne fun hstops => ?_
  by_cases hcheck : p.check = .ok ()
  · -- every step comes to a result, so the run does not stop
    obtain ⟨tallies, htallies, htracks⟩ := h.exists_initialTallies
    have hmeetable : ∃ b, p.meetableChecked tallies = some b := by
      refine exists_allM ?_
      rintro ⟨bound, t⟩ hmem
      obtain ⟨row, hrow⟩ := List.getElem?_of_mem hmem
      have ht := (List.getElem?_zip_eq_some.1 hrow).2
      rw [Array.getElem?_toList] at ht
      exact (htracks row t ht).exists_reachable bound
    obtain ⟨b, hb⟩ := hmeetable
    have hrestores : Restores tallies (searchChecked limit p.rows.toArray p.columns tallies 0) :=
      search_tracks h.ranges htracks
    obtain ⟨out, hout, -⟩ := hrestores
    simp only [firstSolutionChecked, hcheck, htallies, hb, hout, Checked.report, Checked.step,
      ok_bind] at hstops
    cases b with
    | false => cases hstops
    | true => cases out <;> cases hstops
  · obtain ⟨m, hm⟩ := exists_misuse_of_check hcheck
    rw [firstSolutionChecked, hm] at hstops
    cases hstops

/-! ## Testing values -/

/-- Words are wide enough for the sums that open columns lead to. -/
def SumsFit (columns : List Column) (sums : Array Int) : Prop :=
  ∀ (row : Nat) (sum : Int), sums[row]? = some sum →
    sum.natAbs + weightRest columns row < 2 ^ 63

section Test

variable {overflow : Overflow}

theorem addEntries_eq {next nextExact : Array Int → Option Bool} {c : Column} {value : Int}
    (hvalue : value.natAbs ≤ c.range.span) {columns : List Column}
    (hnext : ∀ sums, SumsFit columns sums → next sums = nextExact sums)
    {entries : List (Nat × Int)} {sums : Array Int}
    (h : SumsFit (⟨c.range, entries⟩ :: columns) sums) :
    addEntries overflow value next entries sums = addEntriesExact value nextExact entries sums := by
  induction entries generalizing sums with
  | nil =>
    rw [addEntriesExact, if_pos (by simp)]
    refine hnext sums fun row sum hsum => ?_
    simpa [weightRest_cons, Column.weight, Column.totalBy] using h row sum hsum
  | cons e entries ih =>
    obtain ⟨row, k⟩ := e
    unfold addEntries
    cases hsum : sums[row]? with
    | none => rw [addEntriesExact_of_none hsum]
    | some sum =>
      -- the entry and the sum with it weigh no more than what the row has room for
      have hk := natAbs_mul_le hvalue k
      have hfits := h row sum hsum
      have hnonneg := weightRest_nonneg (⟨c.range, entries⟩ :: columns) row
      simp only [weightRest_entries_cons, if_true] at hfits
      simp only [overflow.word?_of_signed64 (signed64_of_natAbs_lt
          (show (k * value).natAbs < 2 ^ 63 by omega)),
        overflow.word?_of_signed64 (signed64_of_natAbs_lt
          (show (sum + k * value).natAbs < 2 ^ 63 by omega)),
        Option.bind_eq_bind, Option.bind_some]
      rw [addEntriesExact_cons hsum]
      refine ih fun other sum' hsum' => ?_
      rw [Array.getElem?_setIfInBounds] at hsum'
      split at hsum'
      · -- the sum of this row has grown by the entry
        rename_i hrow
        subst hrow
        split at hsum'
        · obtain rfl := Option.some.inj hsum'
          omega
        · cases hsum'
      · rename_i hrow
        have hother := h other sum' hsum'
        rwa [weightRest_entries_cons, if_neg hrow, zero_add] at hother

theorem addColumns_eq (next : Array Int → Option Bool) {columns : List Column} (values : List Int)
    {sums : Array Int} (h : SumsFit columns sums) :
    addColumns overflow next (columns.zip values) sums =
      addColumnsExact next (columns.zip values) sums := by
  induction columns generalizing values sums with
  | nil => exact (if_pos rfl).symm
  | cons c columns ih =>
    cases values with
    | nil => exact (if_pos rfl).symm
    | cons value values =>
      rw [List.zip_cons_cons, addColumnsExact_cons]
      unfold addColumns
      split
      · rfl
      · rename_i hrange
        simp only [Bool.or_eq_true, decide_eq_true_eq, not_or, not_lt] at hrange
        exact addEntries_eq (Range.natAbs_le_span hrange) (fun sums => ih values) h

/-- **Testing values is exact** in a program that words are wide enough for. -/
theorem WordSized.isSolutionChecked_eq (h : p.WordSized) (overflow : Overflow)
    (values : List Int) : p.isSolutionChecked overflow values = some (p.isSolution values) := by
  unfold isSolutionChecked
  split
  · rename_i hlength
    rw [isSolution, decide_eq_false hlength, Bool.false_and, Bool.false_and]
  · rename_i hlength
    rw [addColumns_eq, addColumnsExact_eq values (not_not.1 hlength)]
    intro row sum hsum
    obtain ⟨hrow, rfl⟩ := Array.getElem?_eq_some_iff.1 hsum
    rw [Array.getElem_replicate]
    simpa using h.rows row (by simpa using hrow)

end Test

/-! ## Forbidding -/

theorem weightRest_modify_le {columns : List Column} {place : Nat}
    (hspan : ∀ c ∈ columns[place]?, c.range.span ≤ 1) (last row : Nat) :
    weightRest (columns.modify place fun c => { c with entries := c.entries ++ [(last, 1)] }) row ≤
      weightRest columns row + if last = row then 1 else 0 := by
  induction columns generalizing place with
  | nil =>
    rw [List.modify_nil]
    split <;> omega
  | cons c columns ih =>
    cases place with
    | zero =>
      have hc := hspan c rfl
      rw [List.modify_zero_cons, weightRest_cons, weightRest_cons]
      -- the entry weighs as much as the greatest value of its column
      have hweight : ({ c with entries := c.entries ++ [(last, 1)] } : Column).weight row =
          c.weight row + if last = row then (c.range.span : Int) else 0 := by
        rw [Column.weight, Column.totalBy, List.map_append, rowTotal_append, List.map_cons,
          List.map_nil, rowTotal_cons, rowTotal_nil, add_zero, Int.natAbs_one, one_mul]
        rfl
      rw [hweight]
      split <;> omega
    | succ place =>
      rw [List.modify_succ_cons, weightRest_cons, weightRest_cons]
      have hle := @ih place (by simpa using hspan)
      omega

theorem weightRest_withEntry_le {columns : List Column} {places : List Nat}
    (hspan : ∀ place ∈ places, ∀ c ∈ columns[place]?, c.range.span ≤ 1) (last row : Nat) :
    weightRest (withEntry columns (last, 1) places) row ≤
      weightRest columns row + if last = row then (places.length : Int) else 0 := by
  induction places generalizing columns with
  | nil => simp [withEntry]
  | cons place places ih =>
    have hrest : ∀ other ∈ places, ∀ c ∈ (columns.modify place fun c =>
        { c with entries := c.entries ++ [(last, 1)] })[other]?, c.range.span ≤ 1 := by
      intro other hother c hc
      rw [Option.mem_def, List.getElem?_modify, Option.map_eq_map, Option.map_eq_some_iff] at hc
      obtain ⟨old, hold, rfl⟩ := hc
      have := hspan other (List.mem_cons_of_mem _ hother) old hold
      split <;> exact this
    have hfirst := weightRest_modify_le (hspan place List.mem_cons_self) last row
    have := ih hrest
    rw [withEntry_cons, List.length_cons]
    push_cast
    split at * <;> omega

/-- A row that no entry names weighs nothing. -/
theorem weightRest_eq_zero {columns : List Column} {rows : Nat} (h : InRows columns rows) :
    weightRest columns rows = 0 := by
  refine List.sum_eq_zero fun x hx => ?_
  obtain ⟨c, hc, rfl⟩ := List.mem_map.1 hx
  exact c.totalBy_eq_zero (fun e he => (h c hc e he).ne) _

/-- Words that are wide enough for a program are wide enough when a selection is forbidden. -/
theorem WordSized.of_forbid (h : p.WordSized) (hcheck : p.check = .ok ()) {q : Program}
    {selection : List Nat} (hforbid : p.forbid selection = .ok q) : q.WordSized := by
  obtain ⟨-, hrows, horder⟩ := check_eq_ok_iff.1 hcheck
  obtain ⟨hle, hbinary, hascending⟩ := decisionsInOrder_iff.1 horder
  have hranges := map_range_of_forbid hforbid
  have hcandidates := candidates_of_forbid hforbid
  obtain ⟨places, hplaces, rfl⟩ := forbid_eq_ok_iff.1 hforbid
  obtain ⟨hmem, hnodup, rfl⟩ := (columnsOf_eq_ok_iff hascending).1 hplaces
  have hlength : selection.length ≤ p.candidates.length :=
    (List.subperm_of_subset hnodup hmem).length_le
  -- a forbidden candidate is a decision, whose value is at most one
  have hspan : ∀ place ∈ selection.map p.candidates.idxOf, ∀ c ∈ p.columns[place]?,
      c.range.span ≤ 1 := by
    intro place hplace c hc
    obtain ⟨candidate, hcandidate, rfl⟩ := List.mem_map.1 hplace
    have hlt := List.idxOf_lt_length_of_mem (hmem candidate hcandidate)
    rw [hbinary c (List.mem_of_getElem? (by rwa [List.getElem?_take_of_lt hlt]))]
    exact le_refl 1
  refine ⟨fun row hrow => ?_, fun c hc => ?_, h.candidates⟩
  · -- the old rows weigh what they did, since the entries are in the new one
    refine (weightRest_withEntry_le hspan p.rows.length row).trans_lt ?_
    rw [List.length_map]
    rcases Nat.lt_or_ge row p.rows.length with hlt | hge
    · rw [if_neg hlt.ne', add_zero]
      exact h.rows row hlt
    · -- the last row is the new one
      have hlast : row = p.rows.length := by
        have : row < p.rows.length + 1 := by simpa [addRow] using hrow
        omega
      have hsize := h.candidates
      rw [hlast, if_pos rfl, weightRest_eq_zero hrows]
      omega
  · have hrange : c.range ∈ p.columns.map Column.range := hranges ▸ List.mem_map_of_mem hc
    obtain ⟨old, hold, heq⟩ := List.mem_map.1 hrange
    exact heq ▸ h.ranges old hold

/-! ## Solving -/

theorem firstSolutionChecked_refines_sized (p : Program) (limit : Option Nat) :
    Checked.Refines (¬ p.WordSized) (p.firstSolutionChecked limit) (p.firstSolution limit) := by
  by_cases hsized : p.WordSized
  · exact Or.inl (hsized.firstSolutionChecked_eq limit)
  · exact (p.firstSolutionChecked_refines limit).mono fun _ => hsized

section

variable {overflow : Overflow} (hrange : overflow = .stops ∨ p.WordSized)
include hrange

/-- Let sums out of range stop the test of values, or let words be wide enough. Then the test is
exact, or it stops in a program that they are not wide enough for. -/
theorem isSolutionChecked_refines_of_range (values : List Int) :
    Checked.Refines (¬ p.WordSized) (Checked.step (p.isSolutionChecked overflow values))
      (.ok (p.isSolution values)) := by
  by_cases hsized : p.WordSized
  · rw [hsized.isSolutionChecked_eq overflow values]
    exact Checked.Refines.step_some _ _
  · obtain rfl := hrange.resolve_right hsized
    exact (Checked.Refines.step_of_exact fun _ h => (isSolution_of_isSolutionChecked h).symm).mono
      fun _ => hsized

/-- So is solving. -/
theorem solveChecked_refines_of_range (limit : Option Nat) :
    Checked.Refines (¬ p.WordSized) (p.solveChecked overflow (firstSolutionChecked · limit))
      (p.solve (firstSolution · limit)) :=
  solveChecked_refines (p.firstSolutionChecked_refines_sized limit)
    (isSolutionChecked_refines_of_range hrange)

/-- So is looking for another selection. -/
theorem otherThanChecked_refines_of_range (hcheck : p.check = .ok ()) (limit : Option Nat)
    (selection : List Nat) : Checked.Refines (¬ p.WordSized)
      (p.otherThanChecked overflow (firstSolutionChecked · limit) selection)
      (p.otherThan (firstSolution · limit) selection) := by
  refine otherThanChecked_refines fun q hforbid => ?_
  have hq : p.WordSized → q.WordSized := fun hsized => hsized.of_forbid hcheck hforbid
  exact (solveChecked_refines_of_range (hrange.imp_right hq) limit).mono (mt hq)

end

end Program

end LossSketch
