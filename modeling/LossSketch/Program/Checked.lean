import LossSketch.Program.Search
import LossSketch.Program.Solution
import LossSketch.Word

/-!
# Programs in signed words

The rows of a program and the search for a feasible point are sums of products, and all of them are
signed words. Here both are formed step by step.

* `Program.isSolutionChecked` tells whether values keep every range and every row, like
  `Program.isSolution`, and says what becomes of a sum out of range.
* `Tally` keeps apart what `Reach` adds up: the sum of the settled columns of a row, and the least
  and the greatest amount that the other columns can add. `Program.searchChecked` runs the search on
  tallies, and stops at the first result out of range.
* `Program.firstSolutionChecked`, `Program.solveChecked` and `Program.otherThanChecked` are the
  operations of `Program` on top of these.
-/

namespace LossSketch

namespace Program

/-! ## Sums of rows -/

/-- Adds what the entries of a column come to at a value to the sums of their rows, and goes on with
the sums. An entry that names no row is never satisfied. -/
def addEntries (overflow : Overflow) (value : Int) (next : Array Int → Option Bool) :
    List (Nat × Int) → Array Int → Option Bool
  | [], sums => next sums
  | (row, coeff) :: entries, sums =>
    match sums[row]? with
    | none => some false
    | some sum => do
      let amount ← overflow.word? (coeff * value)
      let sum ← overflow.word? (sum + amount)
      addEntries overflow value next entries (sums.setIfInBounds row sum)

/-- Adds up what columns come to at their values, and goes on with the sums. -/
def addColumns (overflow : Overflow) (next : Array Int → Option Bool) :
    List (Column × Int) → Array Int → Option Bool
  | [], sums => next sums
  | (c, value) :: rest, sums =>
    if value < c.range.lower || c.range.upper < value then some false
    else addEntries overflow value (addColumns overflow next rest) c.entries sums

/-- Every column has a value in its range, names existing rows only, and every row is met by its
sum, which is formed in signed words. -/
def isSolutionChecked (overflow : Overflow) (p : Program) (values : List Int) : Option Bool :=
  if values.length ≠ p.columns.length then some false
  else
    addColumns overflow
      (fun sums => some ((p.rows.zip sums.toList).all fun (bound, sum) => bound.admits sum))
      (p.columns.zip values) (Array.replicate p.rows.length 0)

end Program

/-! ## Tallies of rows -/

/-- The sum of the settled columns of a row, and the least and the greatest amount that the other
columns can add. -/
structure Tally where
  settled : Int
  least : Int
  greatest : Int
  deriving DecidableEq

/-- A tally with an amount more in each place. -/
def Tally.add? (t : Tally) (settled least greatest : Int) : Option Tally := do
  let settled ← signed? (t.settled + settled)
  let least ← signed? (t.least + least)
  let greatest ← signed? (t.greatest + greatest)
  return ⟨settled, least, greatest⟩

/-- Whether some sum within reach meets the demand. The greatest sum is not formed where already the
least is too much. -/
def Bound.reachableChecked (t : Tally) : Bound → Option Bool
  | fixed value => do
    let least ← signed? (t.settled + t.least)
    if value < least then return false
    else
      let greatest ← signed? (t.settled + t.greatest)
      return value ≤ greatest
  | upper value => do
    let least ← signed? (t.settled + t.least)
    return least ≤ value

namespace Column

variable (c : Column)

/-- The least and the greatest amount that a coefficient of the column contributes. -/
def extremes (coeff : Int) : Option (Int × Int) := do
  let a ← signed? (coeff * c.range.lower)
  let b ← signed? (coeff * c.range.upper)
  return (min a b, max a b)

/-- Changes the tally of each row of the column, once for each entry. -/
def modifyTallies (change : (coeff : Int) → Tally → Option Tally) (tallies : Array Tally) :
    Option (Array Tally) :=
  c.entries.foldlM (fun tallies (row, coeff) => modifyChecked tallies row (change coeff)) tallies

/-- Takes an entry in with the whole range of the column. -/
def spreadTally (k : Int) (t : Tally) : Option Tally := do
  let (least, greatest) ← c.extremes k
  t.add? 0 least greatest

/-- Settles an entry on a value of the column. -/
def settleTally (value k : Int) (t : Tally) : Option Tally := do
  let (least, greatest) ← c.extremes k
  let amount ← signed? (k * value)
  t.add? amount (-least) (-greatest)

/-- Takes an entry back from a value of the column. -/
def releaseTally (value k : Int) (t : Tally) : Option Tally := do
  let (least, greatest) ← c.extremes k
  let amount ← signed? (k * value)
  t.add? (-amount) least greatest

/-- Takes the column in with its whole range. -/
def spreadChecked (tallies : Array Tally) : Option (Array Tally) :=
  c.modifyTallies c.spreadTally tallies

/-- Settles the column on a value. -/
def settleChecked (value : Int) (tallies : Array Tally) : Option (Array Tally) :=
  c.modifyTallies (c.settleTally value) tallies

/-- Gives the column its whole range back. -/
def releaseChecked (value : Int) (tallies : Array Tally) : Option (Array Tally) :=
  c.modifyTallies (c.releaseTally value) tallies

/-- Whether every row of the column can still be met. -/
def feasibleChecked (rows : Array Bound) (tallies : Array Tally) : Option Bool :=
  c.entries.allM fun (row, _) =>
    match rows[row]?, tallies[row]? with
    | some bound, some t => bound.reachableChecked t
    | _, _ => some false

end Column

namespace Program

/-! ## Search -/

/-- Settles a column on `left` values from `value` on, in turn, and searches on with `next`. The
value that follows is formed before the column is settled. -/
def tryValuesChecked (limit : Option Nat) (rows : Array Bound) (c : Column)
    (next : Array Tally → Nat → Option (Outcome (Array Tally))) :
    (left : Nat) → (value : Int) → Array Tally → (nodes : Nat) → Option (Outcome (Array Tally))
  | 0, _, tallies, nodes => some (.exhausted tallies nodes)
  | left + 1, value, tallies, nodes =>
    if limit.any (· ≤ nodes) then some .gaveUp
    else do
      let following ← signed? (value + 1)
      let settled ← c.settleChecked value tallies
      if ← c.feasibleChecked rows settled then
        match ← next settled (nodes + 1) with
        | .found values nodes => return .found (value :: values) nodes
        | .gaveUp => return .gaveUp
        | .exhausted settled nodes =>
          let released ← c.releaseChecked value settled
          tryValuesChecked limit rows c next left following released nodes
      else
        let released ← c.releaseChecked value settled
        tryValuesChecked limit rows c next left following released (nodes + 1)

/-- Searches for values of the columns, after `nodes` nodes. -/
def searchChecked (limit : Option Nat) (rows : Array Bound) :
    List Column → Array Tally → (nodes : Nat) → Option (Outcome (Array Tally))
  | [], _, nodes => some (.found [] nodes)
  | c :: columns, tallies, nodes =>
    tryValuesChecked limit rows c (searchChecked limit rows columns) c.width c.range.lower tallies
      nodes

variable (p : Program)

/-- The tally of every row before any column is settled. -/
def initialTallies : Option (Array Tally) :=
  p.columns.foldlM (fun tallies c => c.spreadChecked tallies)
    (Array.replicate p.rows.length ⟨0, 0, 0⟩)

/-- Whether every row can be met, given its tally. -/
def meetableChecked (tallies : Array Tally) : Option Bool :=
  (p.rows.zip tallies.toList).allM fun (bound, t) => bound.reachableChecked t

/-- The first feasible point in the order of the columns, or nothing where there is none. A limit is
the number of nodes after which the search gives up. -/
def firstSolutionChecked (limit : Option Nat) : Checked (Option (List Int)) := do
  Checked.report p.check
  let tallies ← Checked.step p.initialTallies
  if ← Checked.step (p.meetableChecked tallies) then
    match ← Checked.step (searchChecked limit p.rows.toArray p.columns tallies 0) with
    | .found values _ => return some values
    | .exhausted _ _ => return none
    | .gaveUp => throw (.error (.solver (.gaveUp (limit.getD 0))))
  else return none

end Program

/-! ## Solving -/

/-- A solver whose arithmetic may stop it. -/
abbrev CheckedSolver := Program → Checked (Option (List Int))

namespace Program

variable (p : Program)

/-- The selected candidates, in ascending order. -/
def solveChecked (overflow : Overflow) (solver : CheckedSolver) : Checked (List Nat) := do
  Checked.report p.check
  match ← solver p with
  | none => throw (.error .infeasible)
  | some values =>
    if !(← Checked.step (p.isSolutionChecked overflow values)) then
      throw (.error (.solver .violatesModel))
    let selected := p.selected values
    if selected.length ≠ p.expected then
      throw (.error (.cardinalityMismatch p.expected selected.length))
    return selected

/-- A selection of the expected size other than a given one, or nothing where there is none. -/
def otherThanChecked (overflow : Overflow) (solver : CheckedSolver) (selection : List Nat) :
    Checked (Option (List Nat)) := do
  match (← Checked.report (p.forbid selection)).solveChecked overflow solver with
  | .ok other => return some other
  | .error (.error .infeasible) => return none
  | .error halt => throw halt

end Program

end LossSketch
