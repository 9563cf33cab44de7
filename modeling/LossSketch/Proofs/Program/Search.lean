import Mathlib.Algebra.Order.BigOperators.Group.List
import LossSketch.Proofs.Program.Rows
import LossSketch.Program.Search

/-!
# The search for a feasible point is exact

* `Spans` ties the reach of every row to the sums of the settled columns and the ranges of the
  others. Settling a column keeps it, and releasing the column restores the reach.
* `Completes` says that values of the columns still open solve the program together with the sums
  of those that are settled.
* `search_decides` — unless it gives up at a limit, the search finds the least completion in the
  order of the columns, or restores the reach where there is none.
-/

namespace LossSketch

/-! ## What a column can contribute -/

namespace Column

variable (c : Column)

/-- What the column's coefficients put into a row, each changed by a function. -/
def totalBy (change : Int → Int) (row : Nat) : Int :=
  rowTotal (c.entries.map fun e => (e.1, change e.2)) row

theorem totalBy_mul (value : Int) (row : Nat) :
    c.totalBy (· * value) row = rowTotal c.entries row * value :=
  rowTotal_map_mul c.entries value row

theorem totalBy_le {change change' : Int → Int} (h : ∀ k, change k ≤ change' k) (row : Nat) :
    c.totalBy change row ≤ c.totalBy change' row := by
  rw [totalBy, totalBy]
  induction c.entries with
  | nil => exact le_refl _
  | cons e entries ih =>
    rw [List.map_cons, List.map_cons, rowTotal_cons, rowTotal_cons]
    apply add_le_add _ ih
    split
    · exact h e.2
    · exact le_refl _

theorem totalBy_sub (change change' : Int → Int) (row : Nat) :
    c.totalBy (fun k => change k - change' k) row =
      c.totalBy change row - c.totalBy change' row := by
  rw [totalBy, totalBy, totalBy]
  induction c.entries with
  | nil => rfl
  | cons e entries ih =>
    simp only [List.map_cons, rowTotal_cons, ih]
    split <;> omega

theorem totalBy_neg (change : Int → Int) (row : Nat) :
    c.totalBy (fun k => -change k) row = -c.totalBy change row := by
  rw [totalBy, totalBy]
  induction c.entries with
  | nil => rfl
  | cons e entries ih =>
    simp only [List.map_cons, rowTotal_cons, ih]
    split <;> omega

/-- A row that the column has no entry in is left alone. -/
theorem totalBy_eq_zero {row : Nat} (h : ∀ e ∈ c.entries, e.1 ≠ row) (change : Int → Int) :
    c.totalBy change row = 0 := by
  apply rowTotal_eq_zero
  intro e he
  obtain ⟨e', he', rfl⟩ := List.mem_map.1 he
  exact h e' he'

variable {c}

theorem least_le {value : Int} (h : c.range.lower ≤ value ∧ value ≤ c.range.upper) (k : Int) :
    c.least k ≤ k * value := by
  unfold least
  rcases le_total 0 k with hk | hk
  · exact le_trans (min_le_left _ _) (Int.mul_le_mul_of_nonneg_left h.1 hk)
  · exact le_trans (min_le_right _ _) (Int.mul_le_mul_of_nonpos_left hk h.2)

theorem le_greatest {value : Int} (h : c.range.lower ≤ value ∧ value ≤ c.range.upper) (k : Int) :
    k * value ≤ c.greatest k := by
  unfold greatest
  rcases le_total 0 k with hk | hk
  · exact le_trans (Int.mul_le_mul_of_nonneg_left h.2 hk) (le_max_right _ _)
  · exact le_trans (Int.mul_le_mul_of_nonpos_left hk h.1) (le_max_left _ _)

/-! ## Changing the reach of the rows -/

/-- Changes that add amounts add up over the entries of a row. -/
theorem getElem?_modifyRows (change change' : Int → Int) (reach : Array Reach) (row : Nat) :
    (c.modifyRows (fun k r => ⟨r.least + change k, r.greatest + change' k⟩) reach)[row]? =
      reach[row]?.map fun r =>
        ⟨r.least + c.totalBy change row, r.greatest + c.totalBy change' row⟩ := by
  rw [modifyRows, totalBy, totalBy]
  induction c.entries generalizing reach with
  | nil => simp
  | cons e entries ih =>
    rw [List.foldl_cons, ih, Array.getElem?_modify]
    by_cases h : e.1 = row
    · simp [h, Function.comp_def, add_assoc]
    · simp [h]

theorem getElem?_spread (reach : Array Reach) (row : Nat) :
    (c.spread reach)[row]? = reach[row]?.map fun r =>
      ⟨r.least + c.totalBy c.least row, r.greatest + c.totalBy c.greatest row⟩ :=
  getElem?_modifyRows c.least c.greatest reach row

theorem getElem?_settle (value : Int) (reach : Array Reach) (row : Nat) :
    (c.settle value reach)[row]? = reach[row]?.map fun r =>
      ⟨r.least + (rowTotal c.entries row * value - c.totalBy c.least row),
        r.greatest + (rowTotal c.entries row * value - c.totalBy c.greatest row)⟩ := by
  rw [settle, getElem?_modifyRows (fun k => k * value - c.least k)
    (fun k => k * value - c.greatest k), totalBy_sub, totalBy_sub, totalBy_mul]

/-- Releasing a column undoes settling it. -/
theorem release_settle (value : Int) (reach : Array Reach) :
    c.release value (c.settle value reach) = reach := by
  apply Array.ext_getElem?
  intro row
  have hrelease := getElem?_modifyRows (c := c) (fun k => -(k * value - c.least k))
    (fun k => -(k * value - c.greatest k)) (c.settle value reach) row
  simp only [totalBy_neg, totalBy_sub, totalBy_mul, ← sub_eq_add_neg] at hrelease
  rw [release, hrelease, getElem?_settle, Option.map_map]
  cases reach[row]? <;> simp

end Column

/-! ## The reach of the rows during a search -/

/-- The least that open columns can put into a row. -/
def leastRest (columns : List Column) (row : Nat) : Int :=
  (columns.map fun c => c.totalBy c.least row).sum

/-- The most that open columns can put into a row. -/
def greatestRest (columns : List Column) (row : Nat) : Int :=
  (columns.map fun c => c.totalBy c.greatest row).sum

theorem leastRest_cons (c : Column) (columns : List Column) (row : Nat) :
    leastRest (c :: columns) row = c.totalBy c.least row + leastRest columns row := by
  rw [leastRest, List.map_cons, List.sum_cons, leastRest]

theorem greatestRest_cons (c : Column) (columns : List Column) (row : Nat) :
    greatestRest (c :: columns) row = c.totalBy c.greatest row + greatestRest columns row := by
  rw [greatestRest, List.map_cons, List.sum_cons, greatestRest]

/-- The reach of every row is the sum of the settled columns with what the open ones can add. -/
def Spans (rows : Nat) (columns : List Column) (sums : Nat → Int) (reach : Array Reach) : Prop :=
  ∀ row, reach[row]? = if row < rows then
    some ⟨sums row + leastRest columns row, sums row + greatestRest columns row⟩ else none

/-- Every row can still be met. -/
def Reachable (rows : List Bound) (reach : Array Reach) : Prop :=
  ∀ (row : Nat) (bound : Bound) (r : Reach),
    rows[row]? = some bound → reach[row]? = some r → bound.reachable r = true

/-- Values of the open columns that solve the program, given the sums of the settled ones. -/
def Completes (rows : List Bound) (columns : List Column) (sums : Nat → Int)
    (values : List Int) : Prop :=
  Fits columns values ∧ Meets rows fun row => sums row + lhs columns values row

theorem lhs_mem_reach {columns : List Column} {values : List Int} (h : Fits columns values)
    (row : Nat) :
    leastRest columns row ≤ lhs columns values row ∧
      lhs columns values row ≤ greatestRest columns row := by
  induction h with
  | nil => exact ⟨le_refl _, le_refl _⟩
  | @cons c value columns values hrange _ ih =>
    rw [leastRest_cons, greatestRest_cons, lhs_cons, ← Column.totalBy_mul]
    exact ⟨add_le_add (c.totalBy_le (Column.least_le hrange) row) ih.1,
      add_le_add (c.totalBy_le (Column.le_greatest hrange) row) ih.2⟩

/-- Only rows that can still be met have completions. -/
theorem Spans.reachable {rows : List Bound} {columns : List Column} {sums : Nat → Int}
    {reach : Array Reach} (h : Spans rows.length columns sums reach) {values : List Int}
    (hvalues : Completes rows columns sums values) : Reachable rows reach := by
  intro row bound r hbound hr
  have hlt : row < rows.length := (List.getElem?_eq_some_iff.1 hbound).1
  rw [h row, if_pos hlt] at hr
  obtain rfl := Option.some.inj hr
  -- the sum that meets the row lies between the least and the greatest
  have hadmits := hvalues.2 row bound hbound
  obtain ⟨hleast, hgreatest⟩ := lhs_mem_reach hvalues.1 row
  cases bound with
  | fixed value =>
    simp only [Bound.admits, decide_eq_true_eq] at hadmits
    simp only [Bound.reachable, Bool.and_eq_true, decide_eq_true_eq]
    omega
  | upper value =>
    simp only [Bound.admits, decide_eq_true_eq] at hadmits
    simp only [Bound.reachable, decide_eq_true_eq]
    omega

/-- With no column open, a row that can be met is met. -/
theorem Spans.completes_nil {rows : List Bound} {sums : Nat → Int} {reach : Array Reach}
    (h : Spans rows.length [] sums reach) (hreach : Reachable rows reach) :
    Completes rows [] sums [] := by
  refine ⟨.nil, fun row bound hbound => ?_⟩
  have hlt : row < rows.length := (List.getElem?_eq_some_iff.1 hbound).1
  have hmet := hreach row bound _ hbound ((h row).trans (if_pos hlt))
  show bound.admits (sums row + lhs [] [] row) = true
  rw [lhs_nil]
  -- nothing is left open, so the reach is the sum itself
  cases bound with
  | fixed value =>
    simp only [Bound.reachable, leastRest, greatestRest, List.map_nil, List.sum_nil,
      Bool.and_eq_true, decide_eq_true_eq] at hmet
    simp only [Bound.admits, decide_eq_true_eq]
    omega
  | upper value => exact hmet

/-- Settling the first open column moves its contribution to the settled sums. -/
theorem Spans.settle {rows : Nat} {c : Column} {columns : List Column} {sums : Nat → Int}
    {reach : Array Reach} (h : Spans rows (c :: columns) sums reach) (value : Int) :
    Spans rows columns (fun row => sums row + rowTotal c.entries row * value)
      (c.settle value reach) := by
  intro row
  rw [Column.getElem?_settle, h row]
  split
  · simp only [Option.map_some, Option.some.injEq, Reach.mk.injEq, leastRest_cons,
      greatestRest_cons]
    constructor <;> omega
  · rfl

/-- After settling a column only its own rows need to be looked at again. -/
theorem reachable_settle {rows : List Bound} {c : Column} {reach : Array Reach} {value : Int}
    (hreach : Reachable rows reach)
    (hfeasible : c.feasible rows.toArray (c.settle value reach) = true) :
    Reachable rows (c.settle value reach) := by
  intro row bound r hbound hr
  by_cases htouched : ∃ e ∈ c.entries, e.1 = row
  · -- a row of the column was just looked at
    obtain ⟨⟨row, coeff⟩, he, rfl⟩ := htouched
    have hrow := List.all_eq_true.1 hfeasible _ he
    simp only [List.getElem?_toArray] at hrow hbound
    rw [hbound, hr] at hrow
    exact hrow
  · -- a row without an entry of the column reaches as far as before
    push Not at htouched
    apply hreach row bound r hbound
    rw [Column.getElem?_settle, rowTotal_eq_zero htouched, Column.totalBy_eq_zero c htouched,
      Column.totalBy_eq_zero c htouched] at hr
    simpa using hr

/-- A row of the column that can still be met is one that the column finds feasible. -/
theorem feasible_of_reachable {rows : List Bound} {c : Column} {reach : Array Reach}
    (hsize : ∀ row < rows.length, ∃ r, reach[row]? = some r)
    (hrows : ∀ e ∈ c.entries, e.1 < rows.length) (hreach : Reachable rows reach) :
    c.feasible rows.toArray reach = true := by
  rw [Column.feasible, List.all_eq_true]
  rintro ⟨row, coeff⟩ he
  obtain ⟨r, hr⟩ := hsize row (hrows _ he)
  have hbound := List.getElem?_eq_getElem (hrows _ he)
  simp only [List.getElem?_toArray]
  rw [hbound, hr]
  exact hreach row _ r hbound hr

theorem Spans.exists_reach {rows : Nat} {columns : List Column} {sums : Nat → Int}
    {reach : Array Reach} (h : Spans rows columns sums reach) :
    ∀ row < rows, ∃ r, reach[row]? = some r :=
  fun row hlt => ⟨_, (h row).trans (if_pos hlt)⟩

/-! ## The search -/

/-- The same values, or less at the first column where they differ. -/
def LexLe (values other : List Int) : Prop := values = other ∨ List.Lex (· < ·) values other

theorem LexLe.cons {values other : List Int} (h : LexLe values other) (value : Int) :
    LexLe (value :: values) (value :: other) := by
  rcases h with rfl | h
  · exact Or.inl rfl
  · exact Or.inr (List.Lex.cons h)

/-- The search has settled whether there are values with a property: it found the least such values
in the order of the columns, or none exist and the reach is as it was. Only a limit can keep it from
that. -/
def Decides (limit : Option Nat) (property : List Int → Prop) (reach : Array Reach) :
    Outcome (Array Reach) → Prop
  | .found values _ => property values ∧ ∀ other, property other → LexLe values other
  | .exhausted restored _ => restored = reach ∧ ∀ values, ¬ property values
  | .gaveUp => limit ≠ none

/-- Completions whose first value is not below `value`. -/
def CompletesFrom (rows : List Bound) (c : Column) (columns : List Column) (sums : Nat → Int)
    (value : Int) (values : List Int) : Prop :=
  Completes rows (c :: columns) sums values ∧ ∀ first ∈ values.head?, value ≤ first

section Search

variable {limit : Option Nat} {rows : List Bound} {c : Column} {columns : List Column}
  {sums : Nat → Int} {reach : Array Reach}

theorem completes_cons_iff {value : Int} {values : List Int} :
    Completes rows (c :: columns) sums (value :: values) ↔
      (c.range.lower ≤ value ∧ value ≤ c.range.upper) ∧
        Completes rows columns (fun row => sums row + rowTotal c.entries row * value) values := by
  simp only [Completes, Fits, List.forall₂_cons, lhs_cons, add_assoc, and_assoc]

/-- Every completion starts with a value in the range of the first column. -/
theorem Completes.exists_cons {values : List Int} (h : Completes rows (c :: columns) sums values) :
    ∃ value rest, values = value :: rest := by
  obtain ⟨value, rest, -, -, rfl⟩ := List.forall₂_cons_left_iff.1 h.1
  exact ⟨value, rest, rfl⟩

/-- A value that no completion starts with can be passed over. -/
theorem completesFrom_succ {value : Int}
    (hnone : ∀ rest, ¬ Completes rows (c :: columns) sums (value :: rest)) :
    CompletesFrom rows c columns sums (value + 1) = CompletesFrom rows c columns sums value := by
  funext values
  refine propext ⟨fun h => ⟨h.1, fun first hfirst => ?_⟩, fun h => ⟨h.1, fun first hfirst => ?_⟩⟩
  · have := h.2 first hfirst
    omega
  · obtain ⟨first', rest, rfl⟩ := h.1.exists_cons
    obtain rfl : first' = first := Option.some.inj hfirst
    have hle := h.2 first' rfl
    -- it does not start with the value passed over
    have hne : value ≠ first' := by
      rintro rfl
      exact hnone rest h.1
    omega

/-- The least completion of the later columns, behind a value, is the least from that value on. -/
theorem completesFrom_cons {value : Int} (hvalue : c.range.lower ≤ value ∧ value ≤ c.range.upper)
    {values : List Int}
    (hvalues : Completes rows columns (fun row => sums row + rowTotal c.entries row * value) values)
    (hleast : ∀ other, Completes rows columns
      (fun row => sums row + rowTotal c.entries row * value) other → LexLe values other) :
    CompletesFrom rows c columns sums value (value :: values) ∧
      ∀ other, CompletesFrom rows c columns sums value other → LexLe (value :: values) other := by
  refine ⟨⟨completes_cons_iff.2 ⟨hvalue, hvalues⟩, fun first hfirst => ?_⟩, fun other hother => ?_⟩
  · obtain rfl : value = first := Option.some.inj hfirst
    exact le_refl _
  · -- another completion starts with a greater value, or with this one
    obtain ⟨first, rest, rfl⟩ := hother.1.exists_cons
    rcases (hother.2 first rfl).lt_or_eq with hlt | rfl
    · exact Or.inr (List.Lex.rel hlt)
    · exact (hleast rest (completes_cons_iff.1 hother.1).2).cons value

/-- If searching the later columns decides, then so does trying the values of a column in turn. -/
theorem tryValues_decides (hrows : InRows (c :: columns) rows.length)
    (hnext : ∀ (sums : Nat → Int) (reach : Array Reach) (nodes : Nat),
      Spans rows.length columns sums reach → Reachable rows reach →
      Decides limit (Completes rows columns sums) reach
        (Program.search limit rows.toArray columns reach nodes))
    (hspans : Spans rows.length (c :: columns) sums reach) (hreach : Reachable rows reach)
    (left : Nat) (value : Int) (nodes : Nat) (hlower : c.range.lower ≤ value)
    (hleft : value + left = c.range.upper + 1 ∨ (left = 0 ∧ c.range.upper < value)) :
    Decides limit (CompletesFrom rows c columns sums value) reach
      (Program.tryValues limit rows.toArray c (Program.search limit rows.toArray columns) left value
        reach nodes) := by
  induction left generalizing value nodes with
  | zero =>
    unfold Program.tryValues
    refine ⟨rfl, fun values h => ?_⟩
    obtain ⟨first, rest, rfl⟩ := h.1.exists_cons
    have hrange := (completes_cons_iff.1 h.1).1
    have hle := h.2 first rfl
    omega
  | succ left ih =>
    have hupper : value ≤ c.range.upper := by omega
    have hsettled := hspans.settle value
    -- a value that cannot be completed is passed over
    have hpass : ∀ nodes, (∀ rest, ¬ Completes rows (c :: columns) sums (value :: rest)) →
        Decides limit (CompletesFrom rows c columns sums value) reach
          (Program.tryValues limit rows.toArray c (Program.search limit rows.toArray columns) left
            (value + 1) reach nodes) := by
      intro nodes hnone
      rw [← completesFrom_succ hnone]
      exact ih (value + 1) nodes (by omega) (by omega)
    unfold Program.tryValues
    split
    · -- the limit is reached
      rename_i hlimit
      show limit ≠ none
      rintro rfl
      simp at hlimit
    · simp only
      split
      · -- the later columns are searched
        rename_i hfeasible
        have hdecided := hnext _ _ (nodes + 1) hsettled (reachable_settle hreach hfeasible)
        cases hout : Program.search limit rows.toArray columns (c.settle value reach)
            (nodes + 1) with
        | found values nodes' =>
          rw [hout] at hdecided
          exact completesFrom_cons ⟨hlower, hupper⟩ hdecided.1 hdecided.2
        | exhausted restored nodes' =>
          rw [hout] at hdecided
          obtain ⟨rfl, hnone⟩ := hdecided
          simp only [Column.release_settle]
          exact hpass nodes' fun rest h => hnone rest (completes_cons_iff.1 h).2
        | gaveUp =>
          rw [hout] at hdecided
          exact hdecided
      · -- a row of the column cannot be met any more
        rename_i hfeasible
        rw [Column.release_settle]
        apply hpass
        intro rest h
        apply hfeasible
        exact feasible_of_reachable hsettled.exists_reach (hrows c List.mem_cons_self)
          (hsettled.reachable (completes_cons_iff.1 h).2)

/-- **The search is exact.** It decides whether the columns can be completed. -/
theorem search_decides (limit : Option Nat) (rows : List Bound) (columns : List Column)
    (hrows : InRows columns rows.length) (sums : Nat → Int) (reach : Array Reach) (nodes : Nat)
    (hspans : Spans rows.length columns sums reach) (hreach : Reachable rows reach) :
    Decides limit (Completes rows columns sums) reach
      (Program.search limit rows.toArray columns reach nodes) := by
  induction columns generalizing sums reach nodes with
  | nil =>
    unfold Program.search
    refine ⟨hspans.completes_nil hreach, fun other hother => ?_⟩
    rw [List.forall₂_nil_left_iff.1 hother.1]
    exact Or.inl rfl
  | cons c columns ih =>
    -- the width counts the values of the range, and every completion starts inside it
    have hwidth : c.range.lower + c.width = c.range.upper + 1 ∨
        (c.width = 0 ∧ c.range.upper < c.range.lower) := by
      unfold Column.width
      omega
    have hfrom : CompletesFrom rows c columns sums c.range.lower =
        Completes rows (c :: columns) sums := by
      funext values
      refine propext ⟨fun h => h.1, fun h => ⟨h, fun first hfirst => ?_⟩⟩
      obtain ⟨first', rest, rfl⟩ := h.exists_cons
      obtain rfl : first' = first := Option.some.inj hfirst
      exact (completes_cons_iff.1 h).1.1
    rw [Program.search, ← hfrom]
    exact tryValues_decides hrows (ih fun c hc => hrows c (List.mem_cons_of_mem _ hc)) hspans hreach
      c.width c.range.lower nodes (le_refl _) hwidth

end Search

end LossSketch
