import LossSketch.Proofs.Program.Uniqueness
import LossSketch.Proofs.Program.WordDifference

/-!
# Listing all selections

Solving a program and forbidding what it answers, over and over, lists selections until there are no
more.

* `Program.Enumerates` is a run of this loop, with the error that ends it. There is one run at most.
* `Program.Uniform` — all solutions select as many candidates as expected. Then no selection is part
  of another, so forbidding one loses no other, and the program that is left is uniform again.
* `Program.Uniform.exists_enumerates` — so the run lists every selection once.
* `Program.uniform_program` — the program of a difference table is uniform, since a table counts its
  keys.
* `Program.ofDifferenceChecked_enumerates` — all selections that make up a difference are listed,
  and a selection is known to be the only one, unless the run stops. It does so at `Program.heavy`.
-/

namespace LossSketch

namespace Program

variable {p q : Program} {solver : Solver} {selection other : List Nat}

/-! ## Runs -/

/-- The selections that solving answers when each is forbidden before the next, and what ends the
run behind them. -/
inductive Enumerates {ε : Type} (solve : Program → Except ε (List Nat)) :
    Program → List (List Nat) → ε → Prop
  | stop {p : Program} {e : ε} (hsolve : solve p = .error e) : Enumerates solve p [] e
  | next {p q : Program} {selection : List Nat} {answers : List (List Nat)} {e : ε}
      (hsolve : solve p = .ok selection) (hforbid : p.forbid selection = .ok q)
      (hrest : Enumerates solve q answers e) : Enumerates solve p (selection :: answers) e

namespace Enumerates

variable {ε : Type} {solve : Program → Except ε (List Nat)} {answers answers' : List (List Nat)}

/-- A program has one run at most. -/
theorem unique {e e' : ε} (h : Enumerates solve p answers e) (h' : Enumerates solve p answers' e') :
    answers' = answers ∧ e' = e := by
  induction h generalizing answers' with
  | stop hsolve =>
    cases h' with
    | stop hsolve' => exact ⟨rfl, Except.error.inj (hsolve'.symm.trans hsolve)⟩
    | next hsolve' _ _ => exact nomatch hsolve'.symm.trans hsolve
  | next hsolve hforbid _ ih =>
    cases h' with
    | stop hsolve' => exact nomatch hsolve'.symm.trans hsolve
    | next hsolve' hforbid' hrest' =>
      -- both runs forbid the same selection, and go on from the same program
      obtain rfl := Except.ok.inj (hsolve'.symm.trans hsolve)
      obtain rfl := Except.ok.inj (hforbid'.symm.trans hforbid)
      obtain ⟨rfl, rfl⟩ := ih hrest'
      exact ⟨rfl, rfl⟩

/-- A run in words lists what the run on numbers of any size lists, or it stops on the way. -/
theorem exists_checked {may : Prop} {P : Program → Prop} {solve : Program → Except Error (List Nat)}
    {solve' : Program → Checked (List Nat)}
    (hrefines : ∀ q, P q → Checked.Refines may (solve' q) (solve q))
    (hforbids : ∀ q r selection, P q → q.forbid selection = .ok r → P r) {e : Error}
    (h : Enumerates solve p answers e) (hp : P p) :
    ∃ run halt, Enumerates solve' p run halt ∧
      (run = answers ∧ halt = .error e ∨ may ∧ run <+: answers ∧ halt = .overflow) := by
  induction h with
  | @stop p e hsolve =>
    rcases hrefines p hp with hexact | ⟨hmay, hstops⟩
    · rw [hsolve] at hexact
      exact ⟨[], .error e, .stop hexact, Or.inl ⟨rfl, rfl⟩⟩
    · exact ⟨[], .overflow, .stop hstops, Or.inr ⟨hmay, List.prefix_rfl, rfl⟩⟩
  | @next p q selection answers e hsolve hforbid _ ih =>
    rcases hrefines p hp with hexact | ⟨hmay, hstops⟩
    · -- the same selection is forbidden in both runs
      rw [hsolve] at hexact
      obtain ⟨run, halt, hrun, hends⟩ := ih (hforbids p q selection hp hforbid)
      refine ⟨selection :: run, halt, .next hexact hforbid hrun, ?_⟩
      rcases hends with ⟨rfl, rfl⟩ | ⟨hmay, hprefix, rfl⟩
      · exact Or.inl ⟨rfl, rfl⟩
      · exact Or.inr ⟨hmay, List.cons_prefix_cons.2 ⟨rfl, hprefix⟩, rfl⟩
    · exact ⟨[], .overflow, .stop hstops, Or.inr ⟨hmay, List.nil_prefix, rfl⟩⟩

end Enumerates

/-! ## Selections of one size -/

/-- Every solution selects as many candidates as expected. -/
def Uniform (p : Program) : Prop :=
  ∀ selection, p.Selects selection → selection.length = p.expected

namespace Uniform

variable (huniform : p.Uniform) (hcheck : p.check = .ok ())
include huniform hcheck

/-- No selection is part of another. -/
theorem subset_iff (h : p.Selects selection) (h' : p.Selects other) :
    selection ⊆ other ↔ other = selection := by
  constructor
  · intro hsub
    have hlength := (huniform other h').trans (huniform selection h).symm
    exact h.eq_of_subset hcheck h' hsub hlength.le
  · rintro rfl
    exact List.Subset.refl _

/-- Solving answers a selection as long as there is one. -/
theorem solve_cases :
    (∃ selection, p.Selects selection ∧ p.solve (firstSolution · none) = .ok selection) ∨
    (p.solve (firstSolution · none) = .error .infeasible ∧ ∀ selection, ¬ p.Selects selection) := by
  refine (Program.solve_cases hcheck).imp_left fun ⟨selection, hfirst, hsolve⟩ => ?_
  rw [if_pos (huniform selection hfirst.selects)] at hsolve
  exact ⟨selection, hfirst.selects, hsolve⟩

section Forbid

variable (h : p.Selects selection) (hforbid : p.forbid selection = .ok q)
include h hforbid

/-- Forbidding a selection leaves the others. -/
theorem selects_of_forbid_iff : q.Selects other ↔ p.Selects other ∧ other ≠ selection := by
  rw [Program.selects_of_forbid_iff hcheck hforbid]
  exact and_congr_right fun h' => not_congr (huniform.subset_iff hcheck h h')

theorem of_forbid : q.Uniform := by
  intro other h'
  rw [expected_of_forbid hforbid]
  exact huniform other ((huniform.selects_of_forbid_iff hcheck h hforbid).1 h').1

end Forbid

end Uniform

/-- There are fewer solutions once a selection is forbidden. -/
theorem length_solutions_lt (hcheck : p.check = .ok ()) (h : p.Selects selection)
    (hforbid : p.forbid selection = .ok q) : q.solutions.length < p.solutions.length := by
  obtain ⟨values, hsolution, rfl⟩ := h
  -- the ranges are the same, so the solutions that are left stand among the old ones
  have hsolutions : q.solutions =
      p.solutions.filter fun later => ¬ p.selected values ⊆ p.selected later := by
    rw [solutions, solutions, map_range_of_forbid hforbid, List.filter_filter]
    refine List.filter_congr fun later _ => ?_
    rw [Bool.eq_iff_iff, isSolution_forbid_iff hcheck hforbid, Bool.and_eq_true,
      decide_eq_true_eq, and_comm]
  rw [hsolutions]
  refine List.length_filter_lt_length_iff_exists.2 ⟨values, mem_solutions.2 hsolution, ?_⟩
  simp

/-- **All selections are listed, each once.** The run of a program whose solutions all select as
many candidates as expected ends when there are no more. -/
theorem Uniform.exists_enumerates (huniform : p.Uniform) (hcheck : p.check = .ok ()) :
    ∃ answers, Enumerates (·.solve (firstSolution · none)) p answers .infeasible ∧ answers.Nodup ∧
      ∀ selection, selection ∈ answers ↔ p.Selects selection := by
  induction hn : p.solutions.length using Nat.strong_induction_on generalizing p with
  | _ n ih =>
    subst hn
    rcases huniform.solve_cases hcheck with ⟨selection, h, hsolve⟩ | ⟨hsolve, hno⟩
    · -- what is answered is forbidden, and the others are listed behind it
      obtain ⟨q, hforbid⟩ := h.exists_forbid hcheck (List.Perm.refl selection)
      obtain ⟨answers, hrun, hnodup, hmem⟩ := ih _ (length_solutions_lt hcheck h hforbid)
        (huniform.of_forbid hcheck h hforbid) (check_of_forbid hcheck hforbid) rfl
      simp only [huniform.selects_of_forbid_iff hcheck h hforbid] at hmem
      refine ⟨selection :: answers, .next hsolve hforbid hrun, ?_, fun other => ?_⟩
      · exact List.nodup_cons.2 ⟨fun hagain => ((hmem selection).1 hagain).2 rfl, hnodup⟩
      · rw [List.mem_cons, hmem]
        by_cases hother : other = selection
        · simp [hother, h]
        · simp [hother]
    · exact ⟨[], .stop hsolve, List.nodup_nil, fun selection => by simpa using hno selection⟩

/-- Where all solutions select as many candidates as expected, looking for a selection other than a
given one finds one, unless that is the only one. -/
theorem Uniform.otherThan_finds (huniform : p.Uniform) (hcheck : p.check = .ok ())
    {chosen : List Nat} (h : p.Selects chosen) (hperm : selection.Perm chosen) :
    (p.otherThan (firstSolution · none) selection = .ok none ↔
      ∀ other, p.Selects other → other = chosen) ∧
    ((∃ other, p.Selects other ∧ other ≠ chosen) →
      ∃ other, p.otherThan (firstSolution · none) selection = .ok (some other) ∧
        p.Selects other ∧ other ≠ chosen) := by
  obtain ⟨q, hforbid⟩ := h.exists_forbid hcheck hperm
  -- the order in which the candidates are given does not matter
  have hsame : ∀ other, p.Selects other → (selection ⊆ other ↔ other = chosen) := by
    intro other h'
    rw [← huniform.subset_iff hcheck h h', hperm.subset_congr_left]
  rcases otherThan_cases hcheck hforbid with ⟨other, hnext, hother⟩ | ⟨hother, hall⟩
  · obtain ⟨h', hlacks⟩ := hnext.selects
    rw [hsame other h'] at hlacks
    rw [if_pos (huniform other h')] at hother
    rw [hother]
    exact ⟨iff_of_false nofun fun honly => hlacks (honly other h'),
      fun _ => ⟨other, rfl, h', hlacks⟩⟩
  · have honly : ∀ other, p.Selects other → other = chosen := fun other h' =>
      (hsame other h').1 (hall other h')
    exact ⟨iff_of_true hother honly, fun ⟨other, h', hne⟩ => absurd (honly other h') hne⟩

/-! ## The program of a difference table -/

variable {kind : Kind} {diff : Table kind}

theorem selects_program_iff (hdiff : diff.WellFormed) {candidates : List UInt32} {expected : Nat}
    {chosen : List Nat} : (diff.program candidates expected).Selects chosen ↔
      diff.Eligible candidates chosen ∧ diff.MadeUpBy (keysAt candidates chosen) := by
  simp only [Selects, Table.isSolution_program_iff hdiff]
  constructor
  · rintro ⟨_, ⟨indices, hindices, rfl, hmade⟩, hselected⟩
    rw [hindices.selected_assignment] at hselected
    exact hselected ▸ ⟨hindices, hmade⟩
  · rintro ⟨hchosen, hmade⟩
    exact ⟨_, ⟨chosen, hchosen, rfl, hmade⟩, hchosen.selected_assignment expected⟩

/-- A table counts its keys, so it is made up by selections of one size only. -/
theorem uniform_program (hdiff : diff.WellFormed) (candidates : List UInt32) :
    (diff.program candidates diff.keyCount.toNat).Uniform := by
  intro chosen h
  have hcount := ((selects_program_iff hdiff).1 h).2.keyCount hdiff
  rw [length_keysAt] at hcount
  show chosen.length = diff.keyCount.toNat
  omega

/-- **The selections that make up a difference are listed**, each once, when the program of as many
candidates as the difference counts is solved and each answer is forbidden before the next. Looking
for another selection than one of them finds one, unless that is the only one. Where there is room
for the candidates, nothing stops. Where there is none, let sums out of range stop the test of
answers: then the run may stop on the way, behind some of the selections, and the search for another
one may stop as well. -/
theorem ofDifferenceChecked_enumerates (hdiff : diff.WellFormed)
    (hlosses : diff.checkLosses = .ok ()) (candidates : List UInt32) {overflow : Overflow}
    (hrange : overflow = .stops ∨ diff.RoomFor candidates.length) {count : Int}
    (hcount : diff.keyCountChecked = some count) :
    (diff.RoomFor candidates.length →
      ∃ p, ofDifferenceChecked diff candidates count.toNat = .ok p) ∧
    ∀ p, ofDifferenceChecked diff candidates count.toNat = .ok p →
      (∃ answers, answers.Nodup ∧ (∀ selection, selection ∈ answers ↔ p.Selects selection) ∧
        ∃ run halt, (∀ run' halt',
          Enumerates (·.solveChecked overflow (firstSolutionChecked · none)) p run' halt' ↔
            run' = run ∧ halt' = halt) ∧
          (run = answers ∧ halt = .error .infeasible ∨
            ¬ diff.RoomFor candidates.length ∧ run <+: answers ∧ halt = .overflow)) ∧
      ∀ chosen selection, p.Selects chosen → selection.Perm chosen →
        (¬ diff.RoomFor candidates.length ∧
          p.otherThanChecked overflow (firstSolutionChecked · none) selection = .error .overflow) ∨
        ((p.otherThanChecked overflow (firstSolutionChecked · none) selection = .ok none ↔
            ∀ other, p.Selects other → other = chosen) ∧
          ((∃ other, p.Selects other ∧ other ≠ chosen) →
            ∃ other, p.otherThanChecked overflow (firstSolutionChecked · none) selection =
              .ok (some other) ∧ p.Selects other ∧ other ≠ chosen)) := by
  refine ⟨fun hroom => ⟨_, hroom.ofDifferenceChecked_eq hdiff hlosses _⟩, fun p hp => ?_⟩
  obtain rfl := Table.eq_keyCount_of_keyCountChecked hlosses hcount
  obtain rfl := eq_program_of_ofDifferenceChecked hlosses hp
  have hcheck := Table.check_program hdiff candidates diff.keyCount.toNat
  have huniform := uniform_program hdiff candidates
  have hsized : diff.RoomFor candidates.length →
      (diff.program candidates diff.keyCount.toNat).WordSized :=
    fun hroom => hroom.wordSized hdiff hlosses _
  constructor
  · obtain ⟨answers, hall, hnodup, hmem⟩ := huniform.exists_enumerates hcheck
    -- words stay wide enough however many selections are forbidden
    let P : Program → Prop := fun q =>
      q.check = .ok () ∧ (diff.RoomFor candidates.length → q.WordSized)
    have hrefines : ∀ q, P q → Checked.Refines (¬ diff.RoomFor candidates.length)
        (q.solveChecked overflow (firstSolutionChecked · none))
        (q.solve (firstSolution · none)) := fun q hq =>
      (solveChecked_refines_of_range (hrange.imp_right hq.2) none).mono (mt hq.2)
    have hforbids : ∀ q r selection, P q → q.forbid selection = .ok r → P r :=
      fun q r selection hq hforbid => ⟨check_of_forbid hq.1 hforbid,
        fun hroom => (hq.2 hroom).of_forbid hq.1 hforbid⟩
    obtain ⟨run, halt, hrun, hends⟩ := hall.exists_checked hrefines hforbids ⟨hcheck, hsized⟩
    refine ⟨answers, hnodup, hmem, run, halt, fun run' halt' => ⟨hrun.unique, ?_⟩, hends⟩
    rintro ⟨rfl, rfl⟩
    exact hrun
  · intro chosen selection h hperm
    have hfinds := huniform.otherThan_finds hcheck h hperm
    rcases (otherThanChecked_refines_of_range (hrange.imp_right hsized) hcheck none selection).mono
      (mt hsized) with hexact | hstops
    · right
      simp only [hexact, Checked.report_eq_ok]
      exact hfinds
    · exact Or.inl hstops

theorem ofDifferenceChecked_enumerates_twice :
    (Table.small .summing [200, 7]).checkLosses = .ok () ∧
    (Table.small .summing [200, 7]).RoomFor 4 ∧
    (Table.small .summing [200, 7]).keyCountChecked = some 2 ∧
    ∃ p, ofDifferenceChecked (Table.small .summing [200, 7]) [200, 7, 31, 200] 2 = .ok p ∧
      (∃ answers, Enumerates (·.solveChecked .stops (firstSolutionChecked · none)) p answers
          (.error .infeasible) ∧ answers.Nodup ∧ [0, 1] ∈ answers ∧ [1, 3] ∈ answers) ∧
      ∃ other, p.otherThanChecked .stops (firstSolutionChecked · none) [3, 1] = .ok (some other) ∧
        other ≠ [1, 3] := by
  have hdiff := Table.wellFormed_small .summing [200, 7]
  have hheld := Table.holds_small .summing [200, 7]
  have hlosses := hheld.checkLosses hdiff
  have hroom : (Table.small .summing [200, 7]).RoomFor
      ([200, 7, 31, 200] : List UInt32).length := by
    decide +kernel
  have hcount : (Table.small .summing [200, 7]).keyCountChecked = some 2 := by decide +kernel
  -- both packets of the key 200 go with that of the key 7
  have hselects : ∀ chosen : List Nat, chosen.Pairwise (· < ·) → (∀ i ∈ chosen, i < 4) →
      (keysAt [200, 7, 31, 200] chosen).Perm [200, 7] →
      ((Table.small .summing [200, 7]).program [200, 7, 31, 200] 2).Selects chosen := by
    intro chosen hascending hlt hperm
    rw [← Multiset.coe_eq_coe.2 hperm] at hheld
    have hmade := hheld.madeUpBy hdiff
    exact (selects_program_iff hdiff).2
      ⟨Table.eligible_of_madeUpBy hdiff hascending hlt hmade, hmade⟩
  have hfirst := hselects [0, 1] (by decide) (by decide) (by decide)
  have hlast := hselects [1, 3] (by decide) (by decide) (by decide)
  have hprogram : ofDifferenceChecked (Table.small .summing [200, 7]) [200, 7, 31, 200] 2 =
      .ok ((Table.small .summing [200, 7]).program [200, 7, 31, 200] 2) :=
    hroom.ofDifferenceChecked_eq hdiff hlosses 2
  obtain ⟨-, hlists⟩ := ofDifferenceChecked_enumerates hdiff hlosses [200, 7, 31, 200]
    (Or.inl rfl) hcount
  obtain ⟨⟨answers, hnodup, hmem, run, halt, hrun, hends⟩, hother⟩ := hlists _ hprogram
  refine ⟨hlosses, hroom, hcount, _, hprogram, ⟨answers, ?_, hnodup, (hmem _).2 hfirst,
    (hmem _).2 hlast⟩, ?_⟩
  · obtain ⟨rfl, rfl⟩ := hends.resolve_right fun hstops => hstops.1 hroom
    exact (hrun _ _).2 ⟨rfl, rfl⟩
  · obtain ⟨-, hfinds⟩ :=
      (hother [1, 3] [3, 1] hlast (by decide)).resolve_left fun hstops => hstops.1 hroom
    obtain ⟨other, hanswer, -, hne⟩ := hfinds ⟨[0, 1], hfirst, by decide⟩
    exact ⟨other, hanswer, hne⟩

/-- The small session with so many keys in the first bucket that the greatest multiple of the
modulus they allow is no word. -/
def heavy : Table .summing :=
  ⟨Session.small, 0, #[⟨2 ^ 62, (0 : UInt32)⟩, .empty, .empty, .empty]⟩

/-- A snapshot may hold such a table. No candidates make it up, and solving stops before it says
so. -/
theorem enumerates_heavy : Table.ofBytes heavy.toBytes = .ok heavy ∧ heavy.WellFormed ∧
    heavy.checkLosses = .ok () ∧ heavy.keyCountChecked = some (2 ^ 61) ∧
    ∃ p, ofDifferenceChecked heavy [] (2 ^ 61) = .ok p ∧ (∀ selection, ¬ p.Selects selection) ∧
      Enumerates (·.solveChecked .stops (firstSolutionChecked · none)) p [] .overflow := by
  have hread : Table.ofBytes heavy.toBytes = .ok heavy := by decide +kernel
  have hdiff := Table.wellFormed_of_ofBytes hread
  have hlosses : heavy.checkLosses = .ok () := by decide +kernel
  have hcount : heavy.keyCountChecked = some (2 ^ 61) := by decide +kernel
  have hprogram : ofDifferenceChecked heavy [] (2 ^ 61) = .ok (heavy.program [] (2 ^ 61)) := by
    decide +kernel
  refine ⟨hread, hdiff, hlosses, hcount, _, hprogram, fun selection h => ?_,
    .stop (by decide +kernel)⟩
  -- as many candidates would be selected as the table counts keys
  have hnone : selection = [] := List.sublist_nil.1 h.sublist
  have hkeys : heavy.keyCount = 2 ^ 61 := (Table.eq_keyCount_of_keyCountChecked hlosses hcount).symm
  have hlength := ((selects_program_iff hdiff).1 h).2.keyCount hdiff
  rw [hkeys, hnone] at hlength
  exact absurd hlength (by decide)

end Program

end LossSketch
