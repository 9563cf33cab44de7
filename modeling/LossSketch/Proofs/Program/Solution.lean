import LossSketch.Program.Solution
import LossSketch.Proofs.Error
import LossSketch.Proofs.Program.Rows

/-!
# Which answers of a solver are accepted

* `Program.mem_selected` — a candidate is selected when its place has the value one, and in a
  program that passes its check there is one ascending list of these candidates
  (`Program.eq_selected_iff`).
* `Program.solve_eq_ok_iff` — a solver's answer is accepted when it is a solution with the expected
  number of candidates.
* `Program.solve_of_check`, `Program.solve_of_error`, `Program.solve_of_none`,
  `Program.solve_of_not_isSolution` and `Program.solve_of_isSolution` — what becomes of a program
  of another form, and of each answer to one that passes its check. Of a solution, only the number
  of candidates matters.
* `Program.solve_verifies` — so an answer is accepted for what it is, whatever solver gave it.
-/

namespace LossSketch

namespace Program

variable {p : Program} {solver : Solver} {values : List Int}

/-! ## Selections -/

/-- A candidate is selected when its place has the value one. -/
theorem mem_selected {c : Nat} :
    c ∈ p.selected values ↔ ∃ i : Nat, p.candidates[i]? = some c ∧ values[i]? = some 1 := by
  rw [selected]
  constructor
  · intro h
    obtain ⟨⟨d, value⟩, he, rfl⟩ := List.mem_map.1 h
    obtain ⟨hzip, hone⟩ := List.mem_filter.1 he
    obtain rfl : value = 1 := by simpa using hone
    -- a pair of the two lists stands at one place of both
    obtain ⟨i, hget⟩ := List.getElem?_of_mem hzip
    exact ⟨i, List.getElem?_zip_eq_some.1 hget⟩
  · rintro ⟨i, hget⟩
    have hzip : (c, (1 : Int)) ∈ p.candidates.zip values :=
      List.mem_of_getElem? (List.getElem?_zip_eq_some.2 hget)
    exact List.mem_map.2 ⟨(c, 1), List.mem_filter.2 ⟨hzip, rfl⟩, rfl⟩

theorem selected_sublist (p : Program) (values : List Int) :
    (p.selected values).Sublist p.candidates := by
  refine (List.filter_sublist.map Prod.fst).trans ?_
  rw [List.zip_eq_zip_take_min, List.map_fst_zip (by simp)]
  exact List.take_sublist _ _

section Check

variable (hcheck : p.check = .ok ())
include hcheck

theorem pairwise_candidates : p.candidates.Pairwise (· < ·) :=
  (decisionsInOrder_iff.1 (check_eq_ok_iff.1 hcheck).2.2).2.2

/-- What is selected is the one ascending list of the candidates whose places have the value one. -/
theorem eq_selected_iff {selection : List Nat} :
    p.selected values = selection ↔ selection.Pairwise (· < ·) ∧
      ∀ c, c ∈ selection ↔ ∃ i : Nat, p.candidates[i]? = some c ∧ values[i]? = some 1 := by
  have hascending := (pairwise_candidates hcheck).sublist (selected_sublist p values)
  constructor
  · rintro rfl
    exact ⟨hascending, fun c => mem_selected⟩
  · rintro ⟨hselection, hmem⟩
    exact eq_of_ascending hascending hselection fun c => mem_selected.trans (hmem c).symm

end Check

/-! ## Answers that are accepted -/

theorem solve_eq_ok_iff {selected : List Nat} :
    p.solve solver = .ok selected ↔ p.check = .ok () ∧ ∃ values, solver p = .ok (some values) ∧
      p.isSolution values = true ∧ p.selected values = selected ∧
      selected.length = p.expected := by
  rw [solve, bind_eq_ok]
  constructor
  · rintro ⟨⟨⟩, hcheck, h⟩
    obtain ⟨answer, hanswer, h⟩ := bind_eq_ok.1 h
    -- an answer that is not a solution, or has another number of candidates, is refused
    cases answer with
    | none => cases h
    | some values =>
      dsimp only at h
      split at h
      · cases h
      · rename_i hsolution
        split at h
        · cases h
        · rename_i hlength
          cases h
          exact ⟨hcheck, values, hanswer, by simpa using hsolution, rfl, not_not.1 hlength⟩
  · rintro ⟨hcheck, values, hanswer, hsolution, rfl, hlength⟩
    refine ⟨(), hcheck, bind_eq_ok.2 ⟨some values, hanswer, ?_⟩⟩
    simp [hsolution, hlength]
    rfl

/-! ## Each answer by itself -/

/-- A program that does not pass its check is refused whatever the solver. -/
theorem solve_of_check {e : Error} (h : p.check = .error e) : p.solve solver = .error e := by
  rw [solve, h]
  rfl

section Check

variable (hcheck : p.check = .ok ())
include hcheck

theorem solve_of_error {e : Error} (hanswer : solver p = .error e) : p.solve solver = .error e := by
  rw [solve, hcheck, ok_bind, hanswer]
  rfl

theorem solve_of_none (hanswer : solver p = .ok none) : p.solve solver = .error .infeasible := by
  rw [solve, hcheck, ok_bind, hanswer, ok_bind]
  rfl

theorem solve_of_not_isSolution (hanswer : solver p = .ok (some values))
    (hviolates : ¬ p.isSolution values = true) :
    p.solve solver = .error (.solver .violatesModel) := by
  rw [solve, hcheck, ok_bind, hanswer, ok_bind]
  dsimp only
  rw [if_pos (by simpa using hviolates)]
  rfl

theorem solve_of_isSolution (hanswer : solver p = .ok (some values))
    (hsolution : p.isSolution values = true) : p.solve solver =
      if (p.selected values).length = p.expected then .ok (p.selected values)
      else .error (.cardinalityMismatch p.expected (p.selected values).length) := by
  rw [solve, hcheck, ok_bind, hanswer, ok_bind]
  dsimp only
  rw [if_neg (by rw [hsolution]; decide), ite_not]
  rfl

end Check

/-! ## Any answer -/

/-- **A solver is not trusted.** Solving succeeds only with a program that passes its check and
values that fit its columns and meet its rows. Then it answers the ascending list of the candidates
whose places have the value one, which are as many as expected. A program that does not pass its
check is refused before any solver is asked. For every other program each kind of answer has its own
error: a failure is passed on, without a solution the program is infeasible, values that miss a
range or a row violate it, and a solution with another number of candidates than expected is a
mismatch. -/
theorem solve_verifies (p : Program) (solver : Solver) :
    (∀ selection, p.solve solver = .ok selection ↔ p.check = .ok () ∧
      ∃ values, solver p = .ok (some values) ∧
        (Fits p.columns values ∧ Meets p.rows (lhs p.columns values)) ∧
        selection.Pairwise (· < ·) ∧
        (∀ c, c ∈ selection ↔ ∃ i : Nat, p.candidates[i]? = some c ∧ values[i]? = some 1) ∧
        selection.length = p.expected) ∧
    (p.check ≠ .ok () → ∃ m, p.check = .error (.misuse m) ∧
      ∀ other : Solver, p.solve other = .error (.misuse m)) ∧
    (p.check = .ok () →
      (∀ e, solver p = .error e → p.solve solver = .error e) ∧
      (solver p = .ok none → p.solve solver = .error .infeasible) ∧
      ∀ values, solver p = .ok (some values) →
        (¬ (Fits p.columns values ∧ Meets p.rows (lhs p.columns values)) →
          p.solve solver = .error (.solver .violatesModel)) ∧
        (Fits p.columns values ∧ Meets p.rows (lhs p.columns values) →
          (p.selected values).length ≠ p.expected →
          p.solve solver =
            .error (.cardinalityMismatch p.expected (p.selected values).length))) := by
  refine ⟨fun selection => ?_, fun hmalformed => ?_, fun hcheck => ?_⟩
  · -- what is answered is the one list of the candidates with value one
    rw [solve_eq_ok_iff]
    refine and_congr_right fun hcheck => exists_congr fun values => and_congr_right fun _ => ?_
    rw [isSolution_iff_of_check hcheck, eq_selected_iff hcheck]
    exact and_congr_right fun _ => and_assoc
  · obtain ⟨m, hm⟩ := exists_misuse_of_check hmalformed
    exact ⟨m, hm, fun other => solve_of_check hm⟩
  · refine ⟨fun e => solve_of_error hcheck, solve_of_none hcheck, fun values hanswer => ?_⟩
    rw [← isSolution_iff_of_check hcheck]
    refine ⟨solve_of_not_isSolution hcheck hanswer, fun hsolution hsize => ?_⟩
    rw [solve_of_isSolution hcheck hanswer hsolution, if_neg hsize]

/-- One of two candidates is selected. -/
def either : Program :=
  (((empty 1).addRow (.fixed 1)).addCandidate 4 [(0, 1)]).addCandidate 9 [(0, 1)]

theorem solve_verifies_either : either.check = .ok () ∧
    either.solve (fun _ => .ok (some [0, 1])) = .ok [9] ∧
    either.solve (fun _ => .ok (some [0, 1, 0])) = .error (.solver .violatesModel) ∧
    either.solve (fun _ => .ok none) = .error .infeasible ∧
    (either.addColumn .binary [(1, 1)]).check ≠ .ok () ∧
    ∃ m, ∀ solver : Solver,
      (either.addColumn .binary [(1, 1)]).solve solver = .error (.misuse m) := by
  have hcheck : either.check = .ok () := by decide
  have hmalformed : (either.addColumn .binary [(1, 1)]).check ≠ .ok () := by decide
  -- the second candidate alone is a solution, and a value too many is none
  have hsolution : either.isSolution [0, 1] = true := by decide
  have hselected : either.selected [0, 1] = [9] := rfl
  have hviolates : ¬ either.isSolution [0, 1, 0] = true := by decide
  rw [isSolution_iff_of_check hcheck] at hsolution hviolates
  obtain ⟨hascending, hmem⟩ := (eq_selected_iff hcheck).1 hselected
  obtain ⟨haccepts, -, -⟩ := solve_verifies either fun _ => .ok (some [0, 1])
  obtain ⟨-, -, hrefuses⟩ := solve_verifies either fun _ => .ok (some [0, 1, 0])
  obtain ⟨-, -, hnone⟩ := solve_verifies either fun _ => .ok none
  obtain ⟨-, hbefore, -⟩ := solve_verifies (either.addColumn .binary [(1, 1)]) fun _ => .ok none
  obtain ⟨m, -, hm⟩ := hbefore hmalformed
  exact ⟨hcheck, (haccepts [9]).2 ⟨hcheck, _, rfl, hsolution, hascending, hmem, rfl⟩,
    ((hrefuses hcheck).2.2 _ rfl).1 hviolates, (hnone hcheck).2.1 rfl, hmalformed, m, hm⟩

end Program

end LossSketch
