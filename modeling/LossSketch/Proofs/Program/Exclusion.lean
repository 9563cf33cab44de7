import LossSketch.Proofs.Program.Layout

/-!
# Excluding one selection after another

A program is changed in place where selections are excluded from it: the columns of the selection
are looked up first, a row is added next, and then an entry of this row goes to one column after the
other.

* `Program.forbidInPlace` is that change, step by step. `Program.run_forbidInPlace` — it comes to
  `Program.forbid`, and leaves the program as it was where that fails.
* `Program.edit_forbid` — one step takes away the solutions that take all of the selection
  (`Program.Takes`), and keeps the form of the program. `Program.run_forbid` — so do several steps.
* `Program.forbid_excludes` — all of this holds however many selections were excluded before.
-/

namespace LossSketch

namespace Program

variable {p q : Program} {selection : List Nat}

/-! ## Excluding in place -/

/-- The program with an entry more in a column. -/
def addEntry (p : Program) (column : Nat) (entry : Nat × Int) : Program :=
  { p with columns :=
      p.columns.modify column fun c => { c with entries := c.entries ++ [entry] } }

/-- Forbids to select all of the candidates at once, by changes to the program one at a time. -/
def forbidInPlace (selection : List Nat) : EStateM Error Program Unit := do
  let columns ← MonadExcept.ofExcept ((← get).columnsOf selection)
  let row := (← get).rows.length
  modify (·.addRow (.upper (selection.length - 1)))
  forM columns fun column => modify (·.addEntry column (row, 1))

/-- Entries that are added one at a time are all there in the end. -/
theorem run_addEntries (p : Program) (columns : List Nat) (entry : Nat × Int) :
    (forM columns fun column => modify (·.addEntry column entry) :
      EStateM Error Program PUnit).run p =
        .ok () { p with columns := withEntry p.columns entry columns } := by
  induction columns generalizing p with
  | nil => rfl
  | cons column columns ih =>
    rw [List.forM_cons]
    exact ih (p.addEntry column entry)

/-- **Excluding in place** comes to the program that forbids the selection. Where there is none, the
program stays as it was. -/
theorem run_forbidInPlace (p : Program) (selection : List Nat) :
    (forbidInPlace selection).run p = match p.forbid selection with
      | .ok q => .ok () q
      | .error e => .error e p := by
  -- the columns are looked up before anything is changed
  refine (run_ofExcept_bind (p.columnsOf selection) _ p).trans ?_
  cases hcolumns : p.columnsOf selection with
  | error e =>
    have hforbid : p.forbid selection = .error e := bind_eq_error.2 (.inl hcolumns)
    rw [hforbid]
  | ok columns =>
    rw [forbid_eq_ok_iff.2 ⟨columns, hcolumns, rfl⟩]
    exact run_addEntries (p.addRow (.upper (selection.length - 1))) columns (p.rows.length, 1)

/-! ## One step -/

/-- The columns at the places of the candidates have value one, all of them. -/
def Takes (p : Program) (selection : List Nat) (values : List Int) : Prop :=
  ∀ c ∈ selection, values[p.candidates.idxOf c]? = some 1

instance (p : Program) (selection : List Nat) (values : List Int) :
    Decidable (p.Takes selection values) :=
  inferInstanceAs (Decidable (∀ c ∈ selection, _))

/-- Candidates are selected when the columns at their places have value one. -/
theorem subset_selected_iff (hcheck : p.check = .ok ()) (hmem : ∀ c ∈ selection, c ∈ p.candidates)
    {values : List Int} : selection ⊆ p.selected values ↔ p.Takes selection values :=
  forall₂_congr fun c hc =>
    mem_selected_iff ((pairwise_candidates hcheck).imp Nat.ne_of_lt) (hmem c hc)

/-- **What a step takes away** are the solutions that take all of the selection. -/
theorem isSolution_iff_of_forbid (hcheck : p.check = .ok ()) (h : p.forbid selection = .ok q)
    {values : List Int} : q.isSolution values = true ↔
      p.isSolution values = true ∧ ¬ p.Takes selection values := by
  obtain ⟨hmem, -⟩ := (exists_forbid_iff hcheck).1 ⟨q, h⟩
  rw [isSolution_forbid_iff hcheck h, subset_selected_iff hcheck hmem]

/-! ## Several steps -/

/-- A step keeps the form of a program, and takes away the solutions that take all of the selection
if it can be excluded. -/
theorem edit_forbid (hcheck : p.check = .ok ()) (selection : List Nat) :
    (p.edit (.forbid selection)).check = .ok () ∧
    (p.edit (.forbid selection)).candidates = p.candidates ∧
    ∀ values, (p.edit (.forbid selection)).isSolution values = true ↔
      p.isSolution values = true ∧ (p.Listed selection → ¬ p.Takes selection values) := by
  have hlisted : (∃ q, p.forbid selection = .ok q) ↔ p.Listed selection := exists_forbid_iff hcheck
  rw [edit]
  cases h : p.forbid selection with
  | error e =>
    -- the program stays as it is, and nothing was to be taken away
    have hnot : ¬ p.Listed selection := fun hl => by
      obtain ⟨q, hq⟩ := hlisted.2 hl
      rw [hq] at h
      cases h
    exact ⟨hcheck, rfl, fun values => ⟨fun hs => ⟨hs, fun hl => absurd hl hnot⟩, And.left⟩⟩
  | ok q =>
    have hl := hlisted.1 ⟨q, h⟩
    refine ⟨check_of_forbid hcheck h, candidates_of_forbid h, fun values => ?_⟩
    exact (isSolution_iff_of_forbid hcheck h).trans
      (and_congr_right fun _ => (imp_iff_right hl).symm)

/-- **What several steps take away** are the solutions that take all of a selection among them. -/
theorem run_forbid (hcheck : p.check = .ok ()) (earlier : List (List Nat)) :
    (p.run (earlier.map .forbid)).check = .ok () ∧
    (p.run (earlier.map .forbid)).candidates = p.candidates ∧
    ∀ values, (p.run (earlier.map .forbid)).isSolution values = true ↔
      p.isSolution values = true ∧
        ∀ other ∈ earlier, p.Listed other → ¬ p.Takes other values := by
  induction earlier generalizing p with
  | nil => exact ⟨hcheck, rfl, fun values => (and_iff_left fun other h => nomatch h).symm⟩
  | cons first earlier ih =>
    obtain ⟨hform, hcandidates, hsolutions⟩ := edit_forbid hcheck first
    obtain ⟨hform', hcandidates', hsolutions'⟩ := ih hform
    refine ⟨hform', hcandidates'.trans hcandidates, fun values => ?_⟩
    rw [List.map_cons, run, List.foldl_cons, ← run, hsolutions' values, hsolutions values]
    -- the candidates are the same ones, at the same places
    simp only [Listed, Takes, hcandidates, List.forall_mem_cons, and_assoc]

/-- **Excluding selections.** Whatever was excluded from a program that passes its check, or was
refused to be, the next selection is excluded exactly if it lists candidates of the program, once
each. Then the program passes its check again, and its solutions are those of before that do not
have the value one at the places of all of the candidates. A selection that is refused leaves the
program as it was. -/
theorem forbid_excludes (hcheck : p.check = .ok ()) (earlier : List (List Nat))
    (hq : p.run (earlier.map .forbid) = q) (selection : List Nat) :
    (q.check = .ok () ∧ q.candidates = p.candidates ∧
      ∀ values, q.isSolution values = true ↔ p.isSolution values = true ∧
        ∀ other ∈ earlier, p.Listed other → ¬ p.Takes other values) ∧
    ((∃ r, q.forbid selection = .ok r) ↔ q.Listed selection) ∧
    (∀ r, q.forbid selection = .ok r → (forbidInPlace selection).run q = .ok () r ∧
      r.check = .ok () ∧
      ∀ values, r.isSolution values = true ↔
        q.isSolution values = true ∧ ¬ q.Takes selection values) ∧
    (∀ e, q.forbid selection = .error e → (forbidInPlace selection).run q = .error e q ∧
      e = .misuse
        (if ∀ c ∈ selection, c ∈ q.candidates then .forbidsTwice else .forbidsUnknown)) := by
  -- the program still passes its check, so the step that follows is one like any other
  have hbefore := run_forbid hcheck earlier
  rw [hq] at hbefore
  have hform := hbefore.1
  refine ⟨hbefore, exists_forbid_iff hform, fun r h => ?_, fun e h => ?_⟩
  · refine ⟨?_, check_of_forbid hform h, fun values => isSolution_iff_of_forbid hform h⟩
    rw [run_forbidInPlace, h]
  · refine ⟨?_, forbid_eq_error hform h⟩
    rw [run_forbidInPlace, h]

/-- Of two candidates the first one is excluded, after a selection that lists the second one twice
was refused. Excluding the second one next takes away the solution that is left, and a selection of
something else is refused. -/
theorem forbid_excludes_either : either.check = .ok () ∧
    ∃ q r, either.run [.forbid [9, 9], .forbid [4]] = q ∧
      q.isSolution [0, 1] = true ∧ ¬ q.isSolution [1, 0] = true ∧
      (forbidInPlace [9]).run q = .ok () r ∧ ¬ r.isSolution [0, 1] = true ∧
      (forbidInPlace [4, 5]).run q = .error (.misuse .forbidsUnknown) q := by
  have hcheck : either.check = .ok () := by decide
  obtain ⟨⟨-, hcandidates, hsolution⟩, hlisted, hexcluded, -⟩ :=
    forbid_excludes hcheck [[9, 9], [4]] rfl [9]
  obtain ⟨-, hunknown, -, hrefused⟩ := forbid_excludes hcheck [[9, 9], [4]] rfl [4, 5]
  have hplaces : (either.run ([[9, 9], [4]].map .forbid)).candidates = [4, 9] := hcandidates
  obtain ⟨r, hr⟩ := hlisted.2 (by rw [Listed, hplaces]; decide)
  obtain ⟨hrun, -, hleft⟩ := hexcluded r hr
  -- the candidate that is unknown is refused
  cases hforbid : (either.run ([[9, 9], [4]].map .forbid)).forbid [4, 5] with
  | ok other =>
    have hfive := (hunknown.1 ⟨other, hforbid⟩).1 5 (by decide)
    rw [hplaces] at hfive
    exact absurd hfive (by decide)
  | error e =>
    obtain ⟨hsame, rfl⟩ := hrefused e hforbid
    rw [hplaces, if_neg (by decide)] at hsame
    refine ⟨hcheck, _, r, rfl, (hsolution _).2 (by decide), mt (hsolution _).1 (by decide), hrun,
      fun h => ((hleft _).1 h).2 ?_, hsame⟩
    rw [Takes, hplaces]
    decide

end Program

end LossSketch
