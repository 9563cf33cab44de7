import LossSketch.Program.Basic

/-!
# Exhaustive search for a feasible point

* `Reach` is the least and the greatest sum that a row can still come to, given the columns that are
  settled and the ranges of the others. `Column.settle` and `Column.release` move a column from the
  one group to the other, and undo each other.
* `Program.search` settles one column after the other, each on its values in ascending order, and
  turns back as soon as some row of the column cannot be met any more. It is exact: only values that
  no completion can save are passed over.
* Every value tried is a node. With a limit, the search gives up at the first node beyond it.

What rows can come to, and the values tried, are numbers of any size here. `Program.searchChecked` is
the search in words, which stops at the first of them out of range.
-/

namespace LossSketch

/-- The least and the greatest sum that a row can still come to. -/
structure Reach where
  least : Int
  greatest : Int
  deriving DecidableEq

/-- Whether some sum within reach meets the demand. -/
def Bound.reachable : Bound → Reach → Bool
  | fixed value, r => r.least ≤ value && value ≤ r.greatest
  | upper value, r => r.least ≤ value

namespace Column

variable (c : Column)

/-- The least amount that a coefficient of the column contributes. -/
def least (coeff : Int) : Int := min (coeff * c.range.lower) (coeff * c.range.upper)

/-- The greatest amount that a coefficient of the column contributes. -/
def greatest (coeff : Int) : Int := max (coeff * c.range.lower) (coeff * c.range.upper)

/-- Changes the reach of each row of the column, once for each entry. -/
def modifyRows (change : (coeff : Int) → Reach → Reach) (reach : Array Reach) : Array Reach :=
  c.entries.foldl (fun reach (row, coeff) => reach.modify row (change coeff)) reach

/-- Takes the column in with its whole range. -/
def spread (reach : Array Reach) : Array Reach :=
  c.modifyRows (fun k r => ⟨r.least + c.least k, r.greatest + c.greatest k⟩) reach

/-- Settles the column on a value. -/
def settle (value : Int) (reach : Array Reach) : Array Reach :=
  c.modifyRows (fun k r =>
    ⟨r.least + (k * value - c.least k), r.greatest + (k * value - c.greatest k)⟩) reach

/-- Gives the column its whole range back. -/
def release (value : Int) (reach : Array Reach) : Array Reach :=
  c.modifyRows (fun k r =>
    ⟨r.least - (k * value - c.least k), r.greatest - (k * value - c.greatest k)⟩) reach

/-- Whether every row of the column can still be met. -/
def feasible (rows : Array Bound) (reach : Array Reach) : Bool :=
  c.entries.all fun (row, _) =>
    match rows[row]?, reach[row]? with
    | some bound, some r => bound.reachable r
    | _, _ => false

/-- The number of values of the column. -/
def width : Nat := (c.range.upper - c.range.lower + 1).toNat

end Column

/-- How a search ends, with the number of nodes up to there and, where it found nothing, the state
in which it leaves the rows. -/
inductive Outcome (σ : Type)
  | found (values : List Int) (nodes : Nat)
  | exhausted (state : σ) (nodes : Nat)
  | gaveUp

namespace Program

/-- Settles a column on `left` values from `value` on, in turn, and searches on with `next`. -/
def tryValues (limit : Option Nat) (rows : Array Bound) (c : Column)
    (next : Array Reach → Nat → Outcome (Array Reach)) :
    (left : Nat) → (value : Int) → Array Reach → (nodes : Nat) → Outcome (Array Reach)
  | 0, _, reach, nodes => .exhausted reach nodes
  | left + 1, value, reach, nodes =>
    if limit.any (· ≤ nodes) then .gaveUp
    else
      let settled := c.settle value reach
      if c.feasible rows settled then
        match next settled (nodes + 1) with
        | .found values nodes => .found (value :: values) nodes
        | .gaveUp => .gaveUp
        | .exhausted settled nodes =>
          tryValues limit rows c next left (value + 1) (c.release value settled) nodes
      else tryValues limit rows c next left (value + 1) (c.release value settled) (nodes + 1)

/-- Searches for values of the columns, after `nodes` nodes. -/
def search (limit : Option Nat) (rows : Array Bound) :
    List Column → Array Reach → (nodes : Nat) → Outcome (Array Reach)
  | [], _, nodes => .found [] nodes
  | c :: columns, reach, nodes =>
    tryValues limit rows c (search limit rows columns) c.width c.range.lower reach nodes

variable (p : Program)

/-- The reach of every row before any column is settled. -/
def initialReach : Array Reach :=
  p.columns.foldl (fun reach c => c.spread reach) (Array.replicate p.rows.length ⟨0, 0⟩)

/-- The first feasible point in the order of the columns, or nothing where there is none. A limit is
the number of nodes after which the search gives up. -/
def firstSolution (limit : Option Nat) : Except Error (Option (List Int)) := do
  p.check
  let reach := p.initialReach
  if (p.rows.zip reach.toList).all (fun (bound, r) => bound.reachable r) then
    match search limit p.rows.toArray p.columns reach 0 with
    | .found values _ => return some values
    | .exhausted _ _ => return none
    | .gaveUp => throw (.solver (.gaveUp (limit.getD 0)))
  else return none

end Program

end LossSketch
