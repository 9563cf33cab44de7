import LossSketch.Error

/-!
# Integer feasibility programs over candidate packets

* `Program` has a row per condition and a column per variable. A column lists its coefficients as
  pairs of row and coefficient. The first columns are binary decisions, one per candidate packet in
  ascending order, and the others are auxiliary.
* `Program.check` refuses a program that breaks this form.
* `Program.isSolution` tells whether values, one per column, keep every range and every row.
* `Program.selected` reads the chosen candidates off the values.

There is no objective. The number of candidates that the caller expects is no condition either; it
is compared with the selection afterwards.

Sums of rows are numbers of any size here. `Program.isSolutionChecked` forms them in words, where
they may be out of range.
-/

namespace LossSketch

/-- What a row demands of the sum of its columns. -/
inductive Bound
  | fixed (value : Int)
  | upper (value : Int)
  deriving DecidableEq

/-- Whether a sum meets the demand. -/
def Bound.admits : Bound → Int → Bool
  | fixed value, sum => sum = value
  | upper value, sum => sum ≤ value

/-- The values that a column may take. -/
inductive Range
  | binary
  | integer (lower upper : Int)
  deriving DecidableEq

namespace Range

/-- The least value. -/
def lower : Range → Int
  | binary => 0
  | integer lower _ => lower

/-- The greatest value. -/
def upper : Range → Int
  | binary => 1
  | integer _ upper => upper

end Range

/-- A variable with its coefficients, as pairs of row and coefficient. -/
structure Column where
  range : Range
  entries : List (Nat × Int)
  deriving DecidableEq

/-- A feasibility program. -/
structure Program where
  rows : List Bound
  columns : List Column
  /-- The candidate of each decision column. -/
  candidates : List Nat
  /-- How many candidates the caller expects to be selected. -/
  expected : Nat
  deriving DecidableEq

namespace Program

/-! ## Building by hand -/

/-- The program without rows and columns. -/
def empty (expected : Nat) : Program := ⟨[], [], [], expected⟩

variable (p : Program)

/-- The program with a row more; the row's index is the old number of rows. -/
def addRow (bound : Bound) : Program :=
  { p with rows := p.rows ++ [bound] }

/-- The program with an auxiliary column more. -/
def addColumn (range : Range) (entries : List (Nat × Int)) : Program :=
  { p with columns := p.columns ++ [⟨range, entries⟩] }

/-- The program with a decision column more. Decisions come before all other columns and in
ascending order of their candidates, or the program does not pass its check. -/
def addCandidate (candidate : Nat) (entries : List (Nat × Int)) : Program :=
  { p.addColumn .binary entries with candidates := p.candidates ++ [candidate] }

/-! ## Form -/

/-- What is wrong with a column of a program with so many rows. -/
def columnMisuse? (rows : Nat) (c : Column) : Option Misuse :=
  if c.range.upper < c.range.lower then some .emptyRange
  else if c.entries.any fun entry => rows ≤ entry.1 then some .missingRow
  else none

/-- Each element is below the next. -/
def ascending : List Nat → Bool
  | a :: b :: rest => a < b && ascending (b :: rest)
  | _ => true

/-- The first columns are binary, one for each candidate, and the candidates ascend. -/
def decisionsInOrder : Bool :=
  let decisions := p.columns.take p.candidates.length
  decisions.length = p.candidates.length
    && decisions.all (fun c => c.range = .binary)
    && ascending p.candidates

/-- What is wrong with the form of the program. -/
def misuse? : Option Misuse :=
  match p.columns.findSome? (columnMisuse? p.rows.length) with
  | some misuse => some misuse
  | none => if p.decisionsInOrder then none else some .decisionOrder

/-- Refuses empty ranges, entries in rows that do not exist, and decisions out of order. -/
def check : Except Error Unit :=
  match p.misuse? with
  | some misuse => .error (.misuse misuse)
  | none => .ok ()

/-! ## Values -/

/-- What the columns with these values contribute, as pairs of row and amount. -/
def contributions (columns : List Column) (values : List Int) : List (Nat × Int) :=
  (columns.zip values).flatMap fun (c, value) =>
    c.entries.map fun (row, coeff) => (row, coeff * value)

/-- The sums of `rows` rows. -/
def rowSums (rows : Nat) (contributions : List (Nat × Int)) : Array Int :=
  contributions.foldl (fun sums (row, amount) => sums.modify row (· + amount))
    (Array.replicate rows 0)

/-- Every column has a value in its range, names existing rows only, and every row is met. -/
def isSolution (values : List Int) : Bool :=
  let rows := p.rows.length
  values.length = p.columns.length
    && (p.columns.zip values).all (fun (c, value) =>
      c.range.lower ≤ value && value ≤ c.range.upper && c.entries.all (fun e => e.1 < rows))
    && (p.rows.zip (rowSums rows (contributions p.columns values)).toList).all
      (fun (bound, sum) => bound.admits sum)

/-- The candidates whose decision has value one. -/
def selected (values : List Int) : List Nat :=
  ((p.candidates.zip values).filter fun (_, value) => value = 1).map Prod.fst

end Program

end LossSketch
