import LossSketch.Proofs.Program.Forbid

/-!
# Where the decisions of a program lie

A program does not say which of its columns are decisions. It takes the first columns for them, as
many as it has candidates, and its check looks at the ranges of these columns only.

* `Edit` is a step of building a program by hand, and `Program.run` takes several.
* `Program.places` lists the columns that the decisions were added as, one for each candidate.
* `Program.places_eq_range'_iff` — these are the first columns exactly when no auxiliary column was
  added before a decision.
* `Program.pairwise_of_binary` — the check overlooks an auxiliary column before a decision only
  behind one that is binary.
* `Program.places_of_check` — so in a program that passes its check the decisions are the first
  columns exactly when no binary auxiliary column was added before one of them. Then the answers of
  `Program.solve` are the candidates whose own columns have value one.
* `Program.check_misplaced` — otherwise they need not be.
-/

namespace LossSketch

/-- A step of building a program by hand. -/
inductive Edit
  | row (bound : Bound)
  | decision (candidate : Nat) (entries : List (Nat × Int))
  | auxiliary (range : Range) (entries : List (Nat × Int))
  | forbid (selection : List Nat)
  deriving DecidableEq

namespace Edit

/-- The candidate that the step adds a decision for. -/
def candidate? : Edit → Option Nat
  | decision candidate _ => some candidate
  | _ => none

/-- The range of the column that the step adds. -/
def range? : Edit → Option Range
  | decision _ _ => some .binary
  | auxiliary range _ => some range
  | _ => none

/-- The step adds a decision. -/
def isDecision : Edit → Bool
  | decision _ _ => true
  | _ => false

/-- The step adds a column that is no decision. -/
def isAuxiliary : Edit → Bool
  | auxiliary _ _ => true
  | _ => false

/-- The step adds a column that is no decision, but has the range of one. -/
def isBinaryAuxiliary : Edit → Bool
  | auxiliary .binary _ => true
  | _ => false

theorem isSome_candidate? (e : Edit) : e.candidate?.isSome = e.isDecision := by
  cases e <;> rfl

theorem isAuxiliary_of_isBinaryAuxiliary {e : Edit} (h : e.isBinaryAuxiliary = true) :
    e.isAuxiliary = true := by
  cases e with
  | auxiliary range entries => rfl
  | row bound => cases h
  | decision candidate entries => cases h
  | forbid selection => cases h

theorem countP_isDecision_eq_zero {edits : List Edit} :
    edits.countP isDecision = 0 ↔ ∀ later ∈ edits, later.isDecision = false := by
  simp [List.countP_eq_zero]

theorem countP_isDecision_auxiliary (range : Range) (entries : List (Nat × Int))
    (edits : List Edit) :
    (auxiliary range entries :: edits).countP isDecision = edits.countP isDecision :=
  List.countP_cons_of_neg Bool.false_ne_true

theorem countP_isDecision_decision (candidate : Nat) (entries : List (Nat × Int))
    (edits : List Edit) :
    (decision candidate entries :: edits).countP isDecision = edits.countP isDecision + 1 :=
  List.countP_cons_of_pos rfl

end Edit

namespace Program

/-- The program after a step. A selection that cannot be forbidden leaves it as it is. -/
def edit (p : Program) : Edit → Program
  | .row bound => p.addRow bound
  | .decision candidate entries => p.addCandidate candidate entries
  | .auxiliary range entries => p.addColumn range entries
  | .forbid selection => (p.forbid selection).toOption.getD p

/-- The program after several steps. -/
def run (p : Program) (edits : List Edit) : Program := edits.foldl edit p

/-- The columns that the steps add decisions as. -/
def places (p : Program) : List Edit → List Nat
  | [] => []
  | e :: edits =>
    if e.isDecision then p.columns.length :: (p.edit e).places edits else (p.edit e).places edits

/-! ## What a step changes -/

variable {p : Program}

theorem candidates_edit (p : Program) (e : Edit) :
    (p.edit e).candidates = p.candidates ++ e.candidate?.toList := by
  cases e with
  | row bound => exact (List.append_nil _).symm
  | decision candidate entries => rfl
  | auxiliary range entries => exact (List.append_nil _).symm
  | forbid selection =>
    rw [edit]
    cases h : p.forbid selection with
    | error e => exact (List.append_nil _).symm
    | ok q => exact (candidates_of_forbid h).trans (List.append_nil _).symm

/-- A step adds the range of its column behind the ranges of the others. -/
theorem map_range_edit (p : Program) (e : Edit) :
    (p.edit e).columns.map Column.range = p.columns.map Column.range ++ e.range?.toList := by
  cases e with
  | row bound => exact (List.append_nil _).symm
  | decision candidate entries => exact List.map_append
  | auxiliary range entries => exact List.map_append
  | forbid selection =>
    rw [edit]
    cases h : p.forbid selection with
    | error e => exact (List.append_nil _).symm
    | ok q => exact (map_range_of_forbid h).trans (List.append_nil _).symm

theorem length_columns_edit (p : Program) (e : Edit) :
    (p.edit e).columns.length = p.columns.length + e.range?.toList.length := by
  have hlength := congrArg List.length (map_range_edit p e)
  rwa [List.length_map, List.length_append, List.length_map] at hlength

/-! ## What several steps change -/

theorem candidates_run (p : Program) (edits : List Edit) :
    (p.run edits).candidates = p.candidates ++ edits.filterMap Edit.candidate? := by
  induction edits generalizing p with
  | nil => exact (List.append_nil _).symm
  | cons e edits ih =>
    rw [run, List.foldl_cons, ← run, ih, candidates_edit, List.append_assoc]
    cases h : e.candidate? with
    | none => rw [List.filterMap_cons_none h]; rfl
    | some candidate => rw [List.filterMap_cons_some h]; rfl

theorem map_range_run (p : Program) (edits : List Edit) :
    (p.run edits).columns.map Column.range =
      p.columns.map Column.range ++ edits.filterMap Edit.range? := by
  induction edits generalizing p with
  | nil => exact (List.append_nil _).symm
  | cons e edits ih =>
    rw [run, List.foldl_cons, ← run, ih, map_range_edit, List.append_assoc]
    cases h : e.range? with
    | none => rw [List.filterMap_cons_none h]; rfl
    | some range => rw [List.filterMap_cons_some h]; rfl

/-! ## Which columns are decisions -/

/-- Columns are only added behind the others. -/
theorem le_of_mem_places {edits : List Edit} {column : Nat} (h : column ∈ p.places edits) :
    p.columns.length ≤ column := by
  induction edits generalizing p with
  | nil => cases h
  | cons e edits ih =>
    have hlength := length_columns_edit p e
    unfold places at h
    split at h
    · -- the step adds a decision, as the next column
      rcases List.mem_cons.1 h with rfl | hmem
      · exact Nat.le_refl _
      · have := ih hmem
        omega
    · have := ih h
      omega

/-- **Decisions are the next columns** exactly when no auxiliary column comes before one. -/
theorem places_eq_range'_iff (p : Program) (edits : List Edit) :
    p.places edits = List.range' p.columns.length (edits.countP Edit.isDecision) ↔
      edits.Pairwise fun e later => e.isAuxiliary = true → later.isDecision = false := by
  induction edits generalizing p with
  | nil => exact ⟨fun _ => List.Pairwise.nil, fun _ => rfl⟩
  | cons e edits ih =>
    have hrest := ih (p.edit e)
    rw [length_columns_edit] at hrest
    rw [List.pairwise_cons]
    -- a step that adds no column changes nothing
    have hidle : e.range? = none → e.isDecision = false → e.isAuxiliary = false →
        (p.places (e :: edits) =
            List.range' p.columns.length ((e :: edits).countP Edit.isDecision) ↔
          (∀ later ∈ edits, e.isAuxiliary = true → later.isDecision = false) ∧
            edits.Pairwise fun e later => e.isAuxiliary = true → later.isDecision = false) := by
      intro hrange hdecision hauxiliary
      rw [hrange] at hrest
      rw [places, if_neg (by simp [hdecision]), List.countP_cons_of_neg (by simp [hdecision])]
      exact hrest.trans ⟨fun h => ⟨fun _ _ h => absurd h (by simp [hauxiliary]), h⟩, And.right⟩
    cases e with
    | row bound => exact hidle rfl rfl rfl
    | forbid selection => exact hidle rfl rfl rfl
    | decision candidate entries =>
      -- the next column is a decision, and the others follow behind it
      have hplaces : p.places (.decision candidate entries :: edits) =
          p.columns.length :: (p.edit (.decision candidate entries)).places edits := rfl
      rw [hplaces, Edit.countP_isDecision_decision, List.range'_succ, List.cons_inj_right]
      exact hrest.trans ⟨fun h => ⟨fun _ _ h => (nomatch h), h⟩, And.right⟩
    | auxiliary range entries =>
      have hplaces : p.places (.auxiliary range entries :: edits) =
          (p.edit (.auxiliary range entries)).places edits := rfl
      rw [hplaces, Edit.countP_isDecision_auxiliary]
      by_cases hnone : ∀ later ∈ edits, later.isDecision = false
      · -- no decision follows
        rw [Edit.countP_isDecision_eq_zero.2 hnone] at hrest ⊢
        exact hrest.trans ⟨fun h => ⟨fun later hlater _ => hnone later hlater, h⟩, And.right⟩
      · -- a decision follows, and the next column is not the place of it
        refine iff_of_false (fun h => ?_) fun h => hnone fun later hlater => h.1 later hlater rfl
        have hpos := Nat.pos_of_ne_zero (mt Edit.countP_isDecision_eq_zero.1 hnone)
        have hmem : p.columns.length ∈ (p.edit (.auxiliary range entries)).places edits := by
          rw [h]
          exact List.mem_range'_1.2 ⟨Nat.le_refl _, by omega⟩
        have hle := le_of_mem_places hmem
        rw [length_columns_edit] at hle
        exact absurd hle (Nat.not_succ_le_self _)

/-- If the first columns are binary, as many as there are decisions, then an auxiliary column before
a decision is binary, or stands behind one that is. -/
theorem pairwise_of_binary {edits : List Edit}
    (hbinary : ∀ range ∈ (edits.filterMap Edit.range?).take (edits.countP Edit.isDecision),
      range = .binary)
    (h : edits.Pairwise fun e later => e.isBinaryAuxiliary = true → later.isDecision = false) :
    edits.Pairwise fun e later => e.isAuxiliary = true → later.isDecision = false := by
  induction edits with
  | nil => exact List.Pairwise.nil
  | cons e edits ih =>
    obtain ⟨hhead, htail⟩ := List.pairwise_cons.1 h
    rw [List.pairwise_cons]
    cases e with
    | row bound => exact ⟨fun _ _ h => (nomatch h), ih hbinary htail⟩
    | forbid selection => exact ⟨fun _ _ h => (nomatch h), ih hbinary htail⟩
    | decision candidate entries =>
      rw [List.filterMap_cons_some (show Edit.range? _ = some .binary from rfl),
        Edit.countP_isDecision_decision, List.take_succ_cons] at hbinary
      exact ⟨fun _ _ h => (nomatch h),
        ih (fun range hrange => hbinary range (List.mem_cons_of_mem _ hrange)) htail⟩
    | auxiliary range entries =>
      rw [List.filterMap_cons_some (show Edit.range? _ = some range from rfl),
        Edit.countP_isDecision_auxiliary] at hbinary
      by_cases hnone : ∀ later ∈ edits, later.isDecision = false
      · -- no decision follows
        refine ⟨fun later hlater _ => hnone later hlater, ih ?_ htail⟩
        rw [Edit.countP_isDecision_eq_zero.2 hnone]
        exact fun _ h => absurd h List.not_mem_nil
      · -- the column is among the first ones, so it is binary, and then none follows
        obtain ⟨n, hcount⟩ :=
          Nat.exists_eq_succ_of_ne_zero (mt Edit.countP_isDecision_eq_zero.1 hnone)
        rw [hcount, List.take_succ_cons] at hbinary
        obtain rfl := hbinary range List.mem_cons_self
        exact absurd (fun later hlater => hhead later hlater rfl) hnone

/-- The selected candidates are those whose column, counted as the program counts, has value one. -/
theorem selected_eq {values : List Int} (hlength : p.candidates.length ≤ values.length) :
    p.selected values = ((p.candidates.zip (List.range p.candidates.length)).filter
      fun e => values.getD e.2 0 = 1).map Prod.fst := by
  have hzip : p.candidates.zip values =
      (p.candidates.zip (List.range p.candidates.length)).map
        fun e => (e.1, values.getD e.2 0) := by
    apply List.ext_getElem
    · simp [hlength]
    · intro i hi hi'
      have hlt : i < values.length := by
        rw [List.length_zip] at hi
        omega
      simp [hlt]
  rw [selected, hzip, List.filter_map, List.map_map]
  rfl

/-! ## What the check promises -/

/-- **What the check promises of decisions.** In a program that passes its check, the decisions are
the first columns exactly when no binary auxiliary column was added before one of them. Then an
accepted answer lists the candidates whose own columns have value one in some solution. -/
theorem places_of_check {edits : List Edit} {expected : Nat} {p : Program}
    (hp : (empty expected).run edits = p) (hcheck : p.check = .ok ()) :
    ((empty expected).places edits = List.range p.candidates.length ↔
      edits.Pairwise fun e later => e.isBinaryAuxiliary = true → later.isDecision = false) ∧
    ((empty expected).places edits = List.range p.candidates.length →
      ∀ (solver : Solver) (selected : List Nat), p.solve solver = .ok selected →
        ∃ values, p.isSolution values = true ∧
          selected = ((p.candidates.zip ((empty expected).places edits)).filter
            fun e => values.getD e.2 0 = 1).map Prod.fst) := by
  have hcandidates : p.candidates = edits.filterMap Edit.candidate? := by
    rw [← hp]
    exact candidates_run (empty expected) edits
  have hranges : p.columns.map Column.range = edits.filterMap Edit.range? := by
    rw [← hp]
    exact map_range_run (empty expected) edits
  have hcount : p.candidates.length = edits.countP Edit.isDecision := by
    rw [hcandidates, List.length_filterMap_eq_countP]
    exact List.countP_congr fun e _ => by rw [Edit.isSome_candidate?]
  obtain ⟨-, -, horder⟩ := check_eq_ok_iff.1 hcheck
  obtain ⟨hle, hdecisions, -⟩ := decisionsInOrder_iff.1 horder
  constructor
  · have hfirst := places_eq_range'_iff (empty expected) edits
    rw [List.range_eq_range', hcount]
    -- the columns that the check looks at are binary
    have hbinary : ∀ range ∈ (edits.filterMap Edit.range?).take (edits.countP Edit.isDecision),
        range = .binary := by
      rw [← hcount, ← hranges, ← List.map_take]
      intro range hrange
      obtain ⟨c, hc, rfl⟩ := List.mem_map.1 hrange
      exact hdecisions c hc
    exact hfirst.trans ⟨fun h => h.imp fun hlater he =>
      hlater (Edit.isAuxiliary_of_isBinaryAuxiliary he), pairwise_of_binary hbinary⟩
  · intro hplaces solver selected hsolve
    obtain ⟨-, values, -, hsolution, rfl, -⟩ := solve_eq_ok_iff.1 hsolve
    have hlength := (isSolution_iff.1 hsolution).1.length_eq
    refine ⟨values, hsolution, ?_⟩
    rw [hplaces]
    exact selected_eq (by omega)

/-- Two decisions with an integer column behind them, and the second one forbidden. -/
def spaced : List Edit :=
  [.row (.fixed 1), .decision 2 [(0, 1)], .row (.upper 1), .decision 5 [(0, 1), (1, 1)],
    .auxiliary (.integer 0 3) [(1, -1)], .forbid [5]]

theorem places_of_check_spaced : ((empty 1).run spaced).check = .ok () ∧
    (empty 1).places spaced = [0, 1] ∧
    ((empty 1).run spaced).solve (firstSolution · none) = .ok [2] ∧
    ∃ values, ((empty 1).run spaced).isSolution values = true ∧
      [2] = (([(2, 0), (5, 1)] : List (Nat × Nat)).filter
        fun e => values.getD e.2 0 = 1).map Prod.fst := by
  have hcheck : ((empty 1).run spaced).check = .ok () := by decide +kernel
  have hcandidates : ((empty 1).run spaced).candidates = [2, 5] := by decide +kernel
  have hsolve : ((empty 1).run spaced).solve (firstSolution · none) = .ok [2] := by decide +kernel
  obtain ⟨hiff, hselected⟩ := places_of_check rfl hcheck
  have hplaces := hiff.2 (by decide)
  obtain ⟨values, hsolution, heq⟩ := hselected hplaces _ _ hsolve
  rw [hcandidates] at hplaces
  rw [hcandidates, hplaces] at heq
  exact ⟨hcheck, hplaces, hsolve, values, hsolution, heq⟩

/-! ## What the check overlooks -/

/-- A binary auxiliary column before the decision that the row demands. -/
def misplaced : List Edit := [.row (.fixed 1), .auxiliary .binary [], .decision 0 [(0, 1)]]

/-- The check takes the auxiliary column for the decision. So no candidate is answered to be
selected, although the decision is one in every solution. -/
theorem check_misplaced : ((empty 0).run misplaced).check = .ok () ∧
    ((empty 0).run misplaced).candidates = [0] ∧ (empty 0).places misplaced = [1] ∧
    ((empty 0).run misplaced).solve (firstSolution · none) = .ok [] ∧
    ∀ values, ((empty 0).run misplaced).isSolution values = true → values.getD 1 0 = 1 := by
  refine ⟨by decide, rfl, rfl, by decide, fun values hsolution => ?_⟩
  obtain ⟨hfits, -, hmeets⟩ := isSolution_iff.1 hsolution
  -- one value for each of the two columns, and the row is the second one
  obtain ⟨first, rest, -, hrest, rfl⟩ := List.forall₂_cons_left_iff.1 hfits
  obtain ⟨second, others, -, hnil, rfl⟩ := List.forall₂_cons_left_iff.1 hrest
  obtain rfl := List.forall₂_nil_left_iff.1 hnil
  have hrow := hmeets 0 (.fixed 1) rfl
  rw [Bound.admits, decide_eq_true_eq] at hrow
  show second = 1
  simpa [misplaced, run, edit, addRow, addColumn, addCandidate, empty] using hrow

end Program

end LossSketch
