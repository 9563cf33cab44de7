import Mathlib.Data.Int.Range
import Mathlib.Data.List.Perm.Subperm
import LossSketch.Proofs.Program.FirstSolution
import LossSketch.Proofs.Program.Forbid

/-!
# Whether a selection is the only one

* `Program.solutions` lists the solutions of a program, among all values in the ranges.
* `Program.Selects` — some solution selects these candidates. `Program.First` — the least solution
  does. `Program.Next` — the least of those that do not select all of a given selection does.
* `Program.solve_cases` — with a search that does not give up, solving comes to the selection of the
  least solution, and compares its size with the number expected.
* `Program.otherThan_cases` — so does looking for another selection, with the next solution.
* `Program.otherThan_decides` — it tells whether a selection is the only one of the expected size,
  unless the next solution has another size.
-/

namespace LossSketch

/-! ## All solutions -/

/-- All values in the ranges. -/
def points : List Range → List (List Int)
  | [] => [[]]
  | range :: ranges =>
    (Int.range range.lower (range.upper + 1)).flatMap fun value =>
      (points ranges).map (value :: ·)

theorem mem_points {columns : List Column} {values : List Int} :
    values ∈ points (columns.map Column.range) ↔ Fits columns values := by
  induction columns generalizing values with
  | nil => simp [points, Fits]
  | cons c columns ih =>
    simp only [List.map_cons, points, List.mem_flatMap, List.mem_map, Int.mem_range_iff, ih]
    rw [Fits, List.forall₂_cons_left_iff]
    constructor
    · rintro ⟨value, ⟨hlower, hupper⟩, rest, hrest, rfl⟩
      exact ⟨value, rest, ⟨hlower, Int.lt_add_one_iff.1 hupper⟩, hrest, rfl⟩
    · rintro ⟨value, rest, ⟨hlower, hupper⟩, hrest, rfl⟩
      exact ⟨value, ⟨hlower, Int.lt_add_one_iff.2 hupper⟩, rest, hrest, rfl⟩

namespace Program

variable {p q : Program} {selection other : List Nat}

/-- All solutions, of which there are finitely many. -/
def solutions (p : Program) : List (List Int) :=
  (points (p.columns.map Column.range)).filter p.isSolution

theorem mem_solutions {values : List Int} :
    values ∈ p.solutions ↔ p.isSolution values = true := by
  rw [solutions, List.mem_filter, mem_points, and_iff_right_iff_imp]
  exact fun h => (isSolution_iff.1 h).1

/-! ## Selections of solutions -/

/-- Some solution selects these candidates. -/
def Selects (p : Program) (selection : List Nat) : Prop :=
  ∃ values, p.isSolution values = true ∧ p.selected values = selection

/-- The least solution, in the order of the columns, selects these candidates. -/
def First (p : Program) (selection : List Nat) : Prop :=
  ∃ values, p.isSolution values = true ∧
    (∀ later, p.isSolution later = true → LexLe values later) ∧ p.selected values = selection

/-- Of the solutions that do not select all of a selection, the least selects these others. -/
def Next (p : Program) (selection other : List Nat) : Prop :=
  ∃ values, (p.isSolution values = true ∧ ¬ selection ⊆ p.selected values) ∧
    (∀ later, p.isSolution later = true ∧ ¬ selection ⊆ p.selected later → LexLe values later) ∧
    p.selected values = other

theorem selects_iff_mem : p.Selects selection ↔ selection ∈ p.solutions.map p.selected := by
  simp only [Selects, List.mem_map, mem_solutions]

instance (p : Program) (selection : List Nat) : Decidable (p.Selects selection) :=
  decidable_of_iff _ selects_iff_mem.symm

theorem First.selects (h : p.First selection) : p.Selects selection := by
  obtain ⟨values, hsolution, -, hselected⟩ := h
  exact ⟨values, hsolution, hselected⟩

theorem Next.selects (h : p.Next selection other) : p.Selects other ∧ ¬ selection ⊆ other := by
  obtain ⟨values, ⟨hsolution, hlacks⟩, -, rfl⟩ := h
  exact ⟨⟨values, hsolution, rfl⟩, hlacks⟩

theorem Next.ne (h : p.Next selection other) : other ≠ selection := by
  rintro rfl
  exact h.selects.2 (List.Subset.refl _)

theorem Selects.sublist (h : p.Selects selection) : selection.Sublist p.candidates := by
  obtain ⟨values, -, rfl⟩ := h
  exact selected_sublist p values

/-- Another selection is what solving answers once the first is forbidden. -/
theorem otherThan_of_forbid (hforbid : p.forbid selection = .ok q) (solver : Solver) :
    p.otherThan solver selection =
    match q.solve solver with
    | .ok other => .ok (some other)
    | .error .infeasible => .ok none
    | .error e => .error e := by
  rw [otherThan, hforbid, ok_bind]
  rfl

section Check

variable (hcheck : p.check = .ok ())
include hcheck

theorem Selects.pairwise (h : p.Selects selection) : selection.Pairwise (· < ·) :=
  (pairwise_candidates hcheck).sublist h.sublist

theorem Selects.nodup (h : p.Selects selection) : selection.Nodup :=
  (h.pairwise hcheck).imp Nat.ne_of_lt

/-- A selection that contains another one of its size is the same. -/
theorem Selects.eq_of_subset (h : p.Selects selection) (h' : p.Selects other)
    (hsub : selection ⊆ other) (hlength : other.length ≤ selection.length) :
    other = selection := by
  have hsubperm := List.subperm_of_subset (h.nodup hcheck) hsub
  -- both list their candidates in ascending order
  exact (hsubperm.perm_of_length_le hlength).symm.eq_of_pairwise
    (fun _ _ _ _ hlt hgt => absurd hgt (Nat.lt_asymm hlt)) (h'.pairwise hcheck)
    (h.pairwise hcheck)

/-! ## Solving with a search that does not give up -/

/-- Solving comes to the selection of the least solution, or to there being none. -/
theorem solve_cases :
    (∃ selection, p.First selection ∧ p.solve (firstSolution · none) =
      if selection.length = p.expected then .ok selection
      else .error (.cardinalityMismatch p.expected selection.length)) ∨
    (p.solve (firstSolution · none) = .error .infeasible ∧ ∀ selection, ¬ p.Selects selection) := by
  -- the search answers the least solution, which passes as a solution
  rcases firstSolution_decides hcheck with ⟨values, hvalues, hsolution, hleast⟩ | ⟨hnone, hno⟩
  · exact Or.inl ⟨p.selected values, ⟨values, hsolution, hleast, rfl⟩,
      solve_of_isSolution hcheck hvalues hsolution⟩
  · exact Or.inr ⟨solve_of_none hcheck hnone, fun _ ⟨values, hsolution, _⟩ => hno values hsolution⟩

/-! ## Looking for another selection -/

/-- Candidates that some solution selects can be forbidden, in any order. -/
theorem Selects.exists_forbid (h : p.Selects other) (hperm : selection.Perm other) :
    ∃ q, p.forbid selection = .ok q :=
  (exists_forbid_iff hcheck).2
    ⟨fun _ hc => h.sublist.subset (hperm.subset hc), hperm.nodup_iff.2 (h.nodup hcheck)⟩

variable (hforbid : p.forbid selection = .ok q)
include hforbid

theorem selects_of_forbid_iff : q.Selects other ↔ p.Selects other ∧ ¬ selection ⊆ other := by
  constructor
  · rintro ⟨values, hsolution, rfl⟩
    rw [selected_of_forbid hforbid]
    obtain ⟨hsolution, hlacks⟩ := (isSolution_forbid_iff hcheck hforbid).1 hsolution
    exact ⟨⟨values, hsolution, rfl⟩, hlacks⟩
  · rintro ⟨⟨values, hsolution, rfl⟩, hlacks⟩
    exact ⟨values, (isSolution_forbid_iff hcheck hforbid).2 ⟨hsolution, hlacks⟩,
      selected_of_forbid hforbid values⟩

theorem first_of_forbid_iff : q.First other ↔ p.Next selection other := by
  simp only [First, Next, isSolution_forbid_iff hcheck hforbid, selected_of_forbid hforbid]

/-- Looking for another selection comes to that of the next solution, or to there being none. -/
theorem otherThan_cases :
    (∃ other, p.Next selection other ∧ p.otherThan (firstSolution · none) selection =
      if other.length = p.expected then .ok (some other)
      else .error (.cardinalityMismatch p.expected other.length)) ∨
    (p.otherThan (firstSolution · none) selection = .ok none ∧
      ∀ other, p.Selects other → selection ⊆ other) := by
  -- what solving says of the program that is left is said of the solutions that lack something
  have hsolve := solve_cases (check_of_forbid hcheck hforbid)
  simp only [first_of_forbid_iff hcheck hforbid, selects_of_forbid_iff hcheck hforbid,
    expected_of_forbid hforbid] at hsolve
  rw [otherThan_of_forbid hforbid]
  rcases hsolve with ⟨other, hnext, hsolve⟩ | ⟨hsolve, hno⟩
  · refine Or.inl ⟨other, hnext, ?_⟩
    rw [hsolve]
    by_cases hsize : other.length = p.expected
    · rw [if_pos hsize, if_pos hsize]
    · rw [if_neg hsize, if_neg hsize]
  · refine Or.inr ⟨by rw [hsolve], fun other h => ?_⟩
    by_contra hlacks
    exact hno other ⟨h, hlacks⟩

end Check

/-- **Whether a selection is the only one.** Where the next solution has the expected size, or there
is no next solution, the answer is that there is no other selection of that size exactly when there
is none, and otherwise such a selection. Where it has another size there is no verdict. -/
theorem otherThan_decides (hcheck : p.check = .ok ())
    (hsolve : p.solve (firstSolution · none) = .ok selection) :
    ((∀ other, p.Next selection other → other.length = p.expected) →
      (p.otherThan (firstSolution · none) selection = .ok none ↔
        ∀ other, p.Selects other → other.length = p.expected → other = selection) ∧
      ((∃ other, p.Selects other ∧ other.length = p.expected ∧ other ≠ selection) →
        ∃ other, p.otherThan (firstSolution · none) selection = .ok (some other) ∧
          p.Selects other ∧ other.length = p.expected ∧ other ≠ selection)) ∧
    ((∃ other, p.Next selection other) ↔ ∃ other, p.Selects other ∧ ¬ selection ⊆ other) ∧
    ∀ other, p.Next selection other → other.length ≠ p.expected →
      p.otherThan (firstSolution · none) selection =
        .error (.cardinalityMismatch p.expected other.length) := by
  obtain ⟨-, values, -, hsolution, hselected, hlength⟩ := solve_eq_ok_iff.1 hsolve
  have hselects : p.Selects selection := ⟨values, hsolution, hselected⟩
  obtain ⟨q, hforbid⟩ := hselects.exists_forbid hcheck (List.Perm.refl selection)
  rcases otherThan_cases hcheck hforbid with ⟨next, hnext, hother⟩ | ⟨hother, hall⟩
  · -- there is a next solution, and it is the only one
    have honly : ∀ other, p.Next selection other → other = next := by
      rintro other ⟨values, hvalues, hleast, rfl⟩
      obtain ⟨values', hvalues', hleast', rfl⟩ := hnext
      rw [(hleast values' hvalues').antisymm (hleast' values hvalues)]
    refine ⟨fun hsize => ?_, iff_of_true ⟨next, hnext⟩ ⟨next, hnext.selects⟩, ?_⟩
    · rw [hother, if_pos (hsize next hnext)]
      refine ⟨iff_of_false nofun fun hno => ?_, fun _ => ?_⟩
      · exact hnext.ne (hno next hnext.selects.1 (hsize next hnext))
      · exact ⟨next, rfl, hnext.selects.1, hsize next hnext, hnext.ne⟩
    · intro other h hsize
      rw [honly other h] at hsize ⊢
      rw [hother, if_neg hsize]
  · -- every solution selects all of the selection, and those of its size nothing else
    have hsame : ∀ other, p.Selects other → other.length = p.expected → other = selection :=
      fun other h hsize => hselects.eq_of_subset hcheck h (hall other h) (by omega)
    have hnone : ∀ other, ¬ p.Next selection other := fun other h =>
      h.selects.2 (hall other h.selects.1)
    refine ⟨fun _ => ⟨iff_of_true hother hsame, ?_⟩, ?_, fun other h => absurd h (hnone other)⟩
    · rintro ⟨other, h, hsize, hne⟩
      exact absurd (hsame other h hsize) hne
    · exact iff_of_false (fun ⟨other, h⟩ => hnone other h) fun ⟨other, h, hlacks⟩ =>
        hlacks (hall other h)

end Program

end LossSketch
