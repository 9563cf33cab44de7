import LossSketch.Program.Search

/-!
# Solutions of a program

* `Solver` is anything that answers values for a program, or that there are none. Nothing that it
  answers is believed before it is checked.
* `Program.solve` checks the program, asks the solver, checks the answer, and answers the selected
  candidates, of which there must be as many as expected.
* `Program.forbid` adds a row that forbids a selection.
* `Program.otherThan` forbids a selection and solves again; nothing means that it is the only one.
-/

namespace LossSketch

/-- Answers one value per column of a program, or nothing where it is infeasible. -/
abbrev Solver := Program → Except Error (Option (List Int))

namespace Program

variable (p : Program)

/-- The selected candidates, in ascending order. -/
def solve (solver : Solver) : Except Error (List Nat) := do
  p.check
  match ← solver p with
  | none => throw .infeasible
  | some values =>
    if !p.isSolution values then throw (.solver .violatesModel)
    let selected := p.selected values
    if selected.length ≠ p.expected then
      throw (.cardinalityMismatch p.expected selected.length)
    return selected

/-- Halves the `size` places from `base` on down to the one that an ascending array has `x` at. -/
def narrow (a : Array Nat) (x : Nat) (size base : Nat) : Nat :=
  if size ≤ 1 then base
  else
    let middle := base + size / 2
    narrow a x (size - size / 2) (if x < a.getD middle 0 then base else middle)
termination_by size

/-- The decision column of a candidate, by binary search in the ascending candidates. -/
def column? (candidate : Nat) : Option Nat :=
  let a := p.candidates.toArray
  let place := narrow a candidate a.size 0
  if a[place]? = some candidate then some place else none

/-- The columns of the candidates; each must have one, and none may be listed twice. -/
def columnsOf (selection : List Nat) : Except Error (List Nat) := do
  let columns ← selection.mapM fun candidate =>
    match p.column? candidate with
    | some column => .ok column
    | none => .error (.misuse .forbidsUnknown)
  if columns.Nodup then return columns else throw (.misuse .forbidsTwice)

/-- Forbids to select all of the candidates at once. -/
def forbid (selection : List Nat) : Except Error Program := do
  let columns ← p.columnsOf selection
  let row := p.rows.length
  return { p.addRow (.upper (selection.length - 1)) with
    columns := columns.foldl (fun all column =>
      all.modify column fun c => { c with entries := c.entries ++ [(row, 1)] }) p.columns }

/-- A selection of the expected size other than a given one, or nothing where there is none. -/
def otherThan (solver : Solver) (selection : List Nat) : Except Error (Option (List Nat)) := do
  match (← p.forbid selection).solve solver with
  | .ok other => return some other
  | .error .infeasible => return none
  | .error e => throw e

end Program

end LossSketch
