import Mathlib.Algebra.BigOperators.Group.List.Basic
import Mathlib.Data.List.Chain
import Mathlib.Data.List.Forall2
import Mathlib.Algebra.Order.Ring.Int
import LossSketch.Program.Basic

/-!
# What a solution of a program is

* `rowTotal` is what a list of row and amount pairs puts into a row, and `Program.lhs` is the sum of
  a row for given values of the columns.
* `Fits` says that there is one value per column, in its range, and `Meets` that every row is met.
* `Program.isSolution_iff` — a solution fits the columns and meets the rows.
* `Program.check_eq_ok_iff` — what the check of a program's form promises.
-/

namespace LossSketch

/-! ## Sums of rows -/

/-- What the pairs put into a row. -/
def rowTotal (entries : List (Nat × Int)) (row : Nat) : Int :=
  (entries.map fun e => if e.1 = row then e.2 else 0).sum

@[simp] theorem rowTotal_nil (row : Nat) : rowTotal [] row = 0 := rfl

@[simp] theorem rowTotal_cons (e : Nat × Int) (entries : List (Nat × Int)) (row : Nat) :
    rowTotal (e :: entries) row = (if e.1 = row then e.2 else 0) + rowTotal entries row := by
  rw [rowTotal, List.map_cons, List.sum_cons, rowTotal]

@[simp] theorem rowTotal_append (entries others : List (Nat × Int)) (row : Nat) :
    rowTotal (entries ++ others) row = rowTotal entries row + rowTotal others row := by
  rw [rowTotal, List.map_append, List.sum_append, rowTotal, rowTotal]

theorem rowTotal_map_mul (entries : List (Nat × Int)) (value : Int) (row : Nat) :
    rowTotal (entries.map fun (row, coeff) => (row, coeff * value)) row =
      rowTotal entries row * value := by
  induction entries with
  | nil => simp
  | cons e entries ih =>
    rw [List.map_cons, rowTotal_cons, rowTotal_cons, ih, add_mul]
    by_cases h : e.1 = row <;> simp [h]

/-- No pair outside the rows puts anything into one. -/
theorem rowTotal_eq_zero {entries : List (Nat × Int)} {row : Nat}
    (h : ∀ e ∈ entries, e.1 ≠ row) : rowTotal entries row = 0 := by
  induction entries with
  | nil => rfl
  | cons e entries ih =>
    rw [rowTotal_cons, if_neg (h e List.mem_cons_self),
      ih fun e he => h e (List.mem_cons_of_mem _ he), add_zero]

theorem rowTotal_flatMap {α : Type} (l : List α) (entries : α → List (Nat × Int)) (row : Nat) :
    rowTotal (l.flatMap entries) row = (l.map fun a => rowTotal (entries a) row).sum := by
  induction l with
  | nil => rfl
  | cons a l ih => rw [List.flatMap_cons, rowTotal_append, ih, List.map_cons, List.sum_cons]

/-- The sum of a row, for values of the columns. -/
def lhs (columns : List Column) (values : List Int) (row : Nat) : Int :=
  ((columns.zip values).map fun e => rowTotal e.1.entries row * e.2).sum

@[simp] theorem lhs_nil (values : List Int) (row : Nat) : lhs [] values row = 0 := rfl

@[simp] theorem lhs_cons (c : Column) (columns : List Column) (value : Int) (values : List Int)
    (row : Nat) : lhs (c :: columns) (value :: values) row =
      rowTotal c.entries row * value + lhs columns values row := by
  rw [lhs, List.zip_cons_cons, List.map_cons, List.sum_cons, lhs]

theorem lhs_append {columns : List Column} {values : List Int}
    (hlength : columns.length = values.length) (others : List Column) (rest : List Int)
    (row : Nat) :
    lhs (columns ++ others) (values ++ rest) row =
      lhs columns values row + lhs others rest row := by
  rw [lhs, List.zip_append hlength, List.map_append, List.sum_append, lhs, lhs]

theorem lhs_map {α : Type} (l : List α) (column : α → Column) (value : α → Int) (row : Nat) :
    lhs (l.map column) (l.map value) row =
      (l.map fun a => rowTotal (column a).entries row * value a).sum := by
  induction l with
  | nil => rfl
  | cons a l ih => rw [List.map_cons, List.map_cons, lhs_cons, ih, List.map_cons, List.sum_cons]

theorem rowTotal_contributions (columns : List Column) (values : List Int) (row : Nat) :
    rowTotal (Program.contributions columns values) row = lhs columns values row := by
  induction columns generalizing values with
  | nil => rfl
  | cons c columns ih =>
    cases values with
    | nil => rfl
    | cons value values =>
      rw [lhs_cons, ← ih, ← rowTotal_map_mul, ← rowTotal_append]
      rfl

theorem getElem?_rowSums (rows : Nat) (contributions : List (Nat × Int)) (row : Nat) :
    (Program.rowSums rows contributions)[row]? =
      if row < rows then some (rowTotal contributions row) else none := by
  have hfold : ∀ (contributions : List (Nat × Int)) (sums : Array Int),
      (contributions.foldl (fun sums (row, amount) => sums.modify row (· + amount)) sums)[row]? =
        sums[row]?.map (· + rowTotal contributions row) := by
    intro contributions
    induction contributions with
    | nil => intro sums; simp
    | cons e contributions ih =>
      intro sums
      rw [List.foldl_cons, ih, Array.getElem?_modify, rowTotal_cons]
      by_cases h : e.1 = row
      · simp [h, Function.comp_def, add_assoc]
      · simp [h]
  -- the sums start out as zero
  rw [Program.rowSums, hfold, Array.getElem?_replicate]
  split <;> simp

/-! ## Solutions -/

/-- One value per column, each in its range. -/
def Fits (columns : List Column) (values : List Int) : Prop :=
  List.Forall₂ (fun c value => c.range.lower ≤ value ∧ value ≤ c.range.upper) columns values

/-- Every row is met by its sum. -/
def Meets (rows : List Bound) (sum : Nat → Int) : Prop :=
  ∀ (row : Nat) (bound : Bound), rows[row]? = some bound → bound.admits (sum row) = true

/-- Every entry names a row. -/
def InRows (columns : List Column) (rows : Nat) : Prop :=
  ∀ c ∈ columns, ∀ e ∈ c.entries, e.1 < rows

theorem Fits.length_eq {columns : List Column} {values : List Int} (h : Fits columns values) :
    columns.length = values.length :=
  List.Forall₂.length_eq h

/-- A test of all pairs of two lists looks at them place by place. -/
theorem all_zip_iff {α β : Type} {l : List α} {m : List β} {test : α × β → Bool} :
    (l.zip m).all test = true ↔
      ∀ (i : Nat) (a : α) (b : β), l[i]? = some a → m[i]? = some b → test (a, b) = true := by
  rw [List.all_eq_true]
  constructor
  · intro h i a b ha hb
    exact h _ (List.mem_of_getElem? (List.getElem?_zip_eq_some.2 ⟨ha, hb⟩))
  · rintro h ⟨a, b⟩ hmem
    obtain ⟨i, hi⟩ := List.getElem?_of_mem hmem
    obtain ⟨ha, hb⟩ := List.getElem?_zip_eq_some.1 hi
    exact h i a b ha hb

namespace Program

variable {p : Program}

/-- The rows of a program are met by sums formed as the program forms them. -/
theorem all_admits_iff (rows : List Bound) (contributions : List (Nat × Int)) :
    ((rows.zip (rowSums rows.length contributions).toList).all
      fun (bound, sum) => bound.admits sum) = true ↔ Meets rows (rowTotal contributions) := by
  -- the sums reach as far as the rows
  have hsum : ∀ (row : Nat) (bound : Bound), rows[row]? = some bound →
      (rowSums rows.length contributions).toList[row]? = some (rowTotal contributions row) := by
    intro row bound hbound
    rw [Array.getElem?_toList, getElem?_rowSums, if_pos (List.getElem?_eq_some_iff.1 hbound).1]
  rw [all_zip_iff]
  constructor
  · intro h row bound hbound
    exact h row bound _ hbound (hsum row bound hbound)
  · intro h row bound sum hbound hget
    rw [hsum row bound hbound] at hget
    obtain rfl := Option.some.inj hget
    exact h row bound hbound

/-- A solution has a value in the range of each column, and its sums meet the rows. -/
theorem isSolution_iff {values : List Int} :
    p.isSolution values = true ↔ Fits p.columns values ∧ InRows p.columns p.rows.length ∧
      Meets p.rows (lhs p.columns values) := by
  have hlhs : lhs p.columns values = rowTotal (contributions p.columns values) :=
    funext fun row => (rowTotal_contributions _ _ _).symm
  rw [isSolution, Bool.and_eq_true, Bool.and_eq_true, all_admits_iff, hlhs, decide_eq_true_eq,
    List.all_eq_true]
  -- values and columns are looked at in pairs, which reaches every column if none is left over
  have hzip : values.length = p.columns.length →
      ((∀ e ∈ p.columns.zip values, (decide (e.1.range.lower ≤ e.2) &&
          decide (e.2 ≤ e.1.range.upper) &&
          e.1.entries.all fun e => decide (e.1 < p.rows.length)) = true) ↔
        Fits p.columns values ∧ InRows p.columns p.rows.length) := by
    intro hlength
    simp only [Bool.and_eq_true, decide_eq_true_eq, List.all_eq_true]
    constructor
    · intro h
      refine ⟨List.forall₂_iff_zip.2 ⟨hlength.symm, fun hmem => (h _ hmem).1⟩, fun c hc => ?_⟩
      obtain ⟨i, hi, rfl⟩ := List.getElem_of_mem hc
      have hi' : i < values.length := hlength ▸ hi
      have hmem : (p.columns[i], values[i]) ∈ p.columns.zip values := by
        rw [← List.getElem_zip (h := by simpa using ⟨hi, hi'⟩)]
        exact List.getElem_mem _
      exact (h _ hmem).2
    · rintro ⟨hfits, hrows⟩ ⟨c, value⟩ hmem
      exact ⟨(List.forall₂_iff_zip.1 hfits).2 hmem, hrows c (List.of_mem_zip hmem).1⟩
  constructor
  · rintro ⟨⟨hlength, hall⟩, hmeets⟩
    obtain ⟨hfits, hrows⟩ := (hzip hlength).1 hall
    exact ⟨hfits, hrows, hmeets⟩
  · rintro ⟨hfits, hrows, hmeets⟩
    have hlength := hfits.length_eq.symm
    exact ⟨⟨hlength, (hzip hlength).2 ⟨hfits, hrows⟩⟩, hmeets⟩

/-! ## Form -/

theorem ascending_iff (l : List Nat) : ascending l = true ↔ l.Pairwise (· < ·) := by
  rw [← List.isChain_iff_pairwise]
  fun_induction ascending l with
  | case1 a b rest ih => simp [ih]
  | case2 l h =>
    match l, h with
    | [], _ => simp
    | [_], _ => simp
    | a :: b :: rest, h => exact absurd rfl (h a b rest)

/-- Ascending lists are equal if they have the same members. -/
theorem eq_of_ascending {l l' : List Nat} (hl : l.Pairwise (· < ·)) (hl' : l'.Pairwise (· < ·))
    (hmem : ∀ i, i ∈ l ↔ i ∈ l') : l = l' := by
  have hperm : l.Perm l' :=
    (List.perm_ext_iff_of_nodup (hl.imp Nat.ne_of_lt) (hl'.imp Nat.ne_of_lt)).2 hmem
  exact hperm.eq_of_pairwise (fun _ _ _ _ hlt hgt => absurd hgt (Nat.lt_asymm hlt)) hl hl'

theorem decisionsInOrder_iff : p.decisionsInOrder = true ↔
    p.candidates.length ≤ p.columns.length ∧
      (∀ c ∈ p.columns.take p.candidates.length, c.range = .binary) ∧
      p.candidates.Pairwise (· < ·) := by
  simp only [decisionsInOrder, Bool.and_eq_true, decide_eq_true_eq, List.all_eq_true,
    ascending_iff, List.length_take, and_assoc]
  constructor
  · rintro ⟨hlength, hrest⟩
    exact ⟨by omega, hrest⟩
  · rintro ⟨hlength, hrest⟩
    exact ⟨by omega, hrest⟩

theorem columnMisuse?_eq_none_iff {rows : Nat} {c : Column} : columnMisuse? rows c = none ↔
    c.range.lower ≤ c.range.upper ∧ ∀ e ∈ c.entries, e.1 < rows := by
  unfold columnMisuse?
  split
  · rename_i h
    simp only [reduceCtorEq, false_iff, not_and]
    intro hle
    omega
  · rename_i h
    rw [ite_eq_right_iff]
    simp only [reduceCtorEq, imp_false, List.any_eq_true, decide_eq_true_eq, not_exists, not_and]
    exact ⟨fun hall => ⟨by omega, fun e he => by have := hall e he; omega⟩,
      fun hall e he => by have := hall.2 e he; omega⟩

/-- The check passes when no range is empty, every entry names a row, and the decisions come first,
in ascending order of their candidates. -/
theorem check_eq_ok_iff : p.check = .ok () ↔
    (∀ c ∈ p.columns, c.range.lower ≤ c.range.upper) ∧ InRows p.columns p.rows.length ∧
      p.decisionsInOrder = true := by
  have hcheck : p.check = .ok () ↔ p.misuse? = none := by
    unfold check
    cases p.misuse? <;> simp
  -- the columns come first, and the decisions last
  have hfind : p.columns.findSome? (columnMisuse? p.rows.length) = none ↔
      (∀ c ∈ p.columns, c.range.lower ≤ c.range.upper) ∧ InRows p.columns p.rows.length := by
    rw [List.findSome?_eq_none_iff]
    simp only [columnMisuse?_eq_none_iff]
    exact ⟨fun h => ⟨fun c hc => (h c hc).1, fun c hc => (h c hc).2⟩,
      fun h c hc => ⟨h.1 c hc, h.2 c hc⟩⟩
  rw [hcheck, misuse?, ← and_assoc, ← hfind]
  cases p.columns.findSome? (columnMisuse? p.rows.length) <;> simp

/-- In a program that passes its check, all values that fit the columns and meet the rows are a
solution. -/
theorem isSolution_iff_of_check (hcheck : p.check = .ok ()) {values : List Int} :
    p.isSolution values = true ↔ Fits p.columns values ∧ Meets p.rows (lhs p.columns values) := by
  rw [isSolution_iff, and_iff_right (check_eq_ok_iff.1 hcheck).2.1]

/-- What a check refuses is a misuse. -/
theorem exists_misuse_of_check (h : p.check ≠ .ok ()) : ∃ m, p.check = .error (.misuse m) := by
  unfold check at h ⊢
  cases hmisuse : p.misuse? with
  | none =>
    rw [hmisuse] at h
    exact absurd rfl h
  | some m => exact ⟨m, rfl⟩

end Program

end LossSketch
