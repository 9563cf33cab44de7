import Mathlib.Algebra.Order.BigOperators.Group.List
import Mathlib.Data.List.GetD
import Mathlib.Data.List.Nodup
import Mathlib.Tactic.Ring
import LossSketch.Proofs.Program.Solution

/-!
# Forbidding a selection

* `Program.column?_eq` — the binary search finds the place of every candidate.
* `Program.columnsOf_eq_ok_iff` — candidates have columns if they are listed once each, and are
  candidates of the program.
* `Program.exists_forbid_iff` — so a selection can be forbidden when it lists candidates, each of
  them once (`Program.Listed`).
* `lhs_withEntry` — an entry more in some columns adds their values to its row, and to no other.
* `Program.isSolution_forbid_iff` — the solutions that are left when a selection is forbidden are
  those that do not select all of it. `Program.check_of_forbid` — the program keeps its form.
-/

namespace LossSketch

namespace Program

variable {p q : Program} {selection : List Nat}

/-! ## Places of candidates -/

/-- Halving closes in on the place of an element of an ascending list. -/
theorem narrow_eq {l : List Nat} (hl : l.Pairwise (· < ·)) {i : Nat} (hi : i < l.length)
    (size base : Nat) (hbase : base ≤ i) (hsize : i < base + size)
    (hle : base + size ≤ l.length) : narrow l.toArray l[i] size base = i := by
  induction size using Nat.strong_induction_on generalizing base with
  | _ size ih =>
    unfold narrow
    split
    · omega
    · rename_i hlarge
      have hmiddle : base + size / 2 < l.length := by omega
      have hget : l.toArray.getD (base + size / 2) 0 = l[base + size / 2] := by
        simp [Array.getD, hmiddle]
      dsimp only
      rw [hget]
      split
      · -- the element comes before the middle
        rename_i hlt
        have hbefore : i < base + size / 2 := by
          by_contra hge
          rcases Nat.eq_or_lt_of_le (Nat.not_lt.1 hge) with heq | hafter
          · simp only [heq, lt_irrefl] at hlt
          · exact absurd hlt (Nat.lt_asymm (List.pairwise_iff_getElem.1 hl _ _ hmiddle hi hafter))
        exact ih _ (by omega) base hbase (by omega) (by omega)
      · -- or it does not
        rename_i hnot
        have hafter : base + size / 2 ≤ i := by
          by_contra hlt
          exact hnot (List.pairwise_iff_getElem.1 hl _ _ hi hmiddle (Nat.not_le.1 hlt))
        exact ih _ (by omega) _ hafter (by omega) (by omega)

/-- A candidate has its place for its column. -/
theorem column?_eq (hp : p.candidates.Pairwise (· < ·)) {candidate : Nat}
    (h : candidate ∈ p.candidates) :
    p.column? candidate = some (p.candidates.idxOf candidate) := by
  have hi := List.idxOf_lt_length_of_mem h
  -- the halving starts out with all places
  have hplace : narrow p.candidates.toArray candidate p.candidates.toArray.size 0 =
      p.candidates.idxOf candidate := by
    conv_lhs => rw [← List.getElem_idxOf hi]
    exact narrow_eq hp hi _ 0 (Nat.zero_le _) (by simpa using hi) (by simp)
  rw [column?]
  simp only [hplace]
  rw [if_pos]
  rw [List.getElem?_toArray, List.getElem?_eq_getElem hi, List.getElem_idxOf]

/-- Only candidates have a column. -/
theorem mem_of_column? {candidate column : Nat} (h : p.column? candidate = some column) :
    candidate ∈ p.candidates := by
  unfold column? at h
  dsimp only at h
  split at h
  · rename_i hget
    rw [List.getElem?_toArray] at hget
    exact List.mem_of_getElem? hget
  · cases h

/-- Lookups that all succeed are those of candidates. -/
theorem forall_mem_of_mapM_eq_ok {found : List Nat}
    (h : (selection.mapM fun candidate => match p.column? candidate with
      | some column => .ok column
      | none => .error (.misuse .forbidsUnknown) : Except Error (List Nat)) = .ok found) :
    ∀ c ∈ selection, c ∈ p.candidates := by
  intro c hc
  obtain ⟨column, hcolumn⟩ := exists_of_mapM_eq_ok h c hc
  split at hcolumn
  · exact mem_of_column? (by assumption)
  · cases hcolumn

/-- Candidates that are listed once each have their places for columns, and others have none. -/
theorem columnsOf_eq_ok_iff (hp : p.candidates.Pairwise (· < ·)) {columns : List Nat} :
    p.columnsOf selection = .ok columns ↔ (∀ c ∈ selection, c ∈ p.candidates) ∧
      selection.Nodup ∧ columns = selection.map p.candidates.idxOf := by
  -- places differ as the candidates do
  have hplaces : (∀ c ∈ selection, c ∈ p.candidates) →
      ((selection.map p.candidates.idxOf).Nodup ↔ selection.Nodup) := fun hmem =>
    ⟨List.Nodup.of_map _, List.Nodup.map_on fun c hc _ _ => (List.idxOf_inj (hmem c hc)).1⟩
  rw [columnsOf, bind_eq_ok]
  constructor
  · rintro ⟨found, hfound, h⟩
    have hmem := forall_mem_of_mapM_eq_ok hfound
    -- a candidate is looked up by its place
    obtain rfl : found = selection.map p.candidates.idxOf :=
      Except.ok.inj (hfound.symm.trans (mapM_eq_ok fun c hc => by rw [column?_eq hp (hmem c hc)]))
    split at h
    · rename_i hnodup
      cases h
      exact ⟨hmem, (hplaces hmem).1 hnodup, rfl⟩
    · cases h
  · rintro ⟨hmem, hnodup, rfl⟩
    exact ⟨_, mapM_eq_ok fun c hc => by rw [column?_eq hp (hmem c hc)],
      if_pos ((hplaces hmem).2 hnodup)⟩

/-- The lookup fails because something that is listed has no column, or else because a candidate is
listed twice. -/
theorem columnsOf_eq_error (hp : p.candidates.Pairwise (· < ·)) {e : Error}
    (h : p.columnsOf selection = .error e) :
    e = .misuse (if ∀ c ∈ selection, c ∈ p.candidates then .forbidsTwice else .forbidsUnknown) := by
  rw [columnsOf, bind_eq_error] at h
  rcases h with hfail | ⟨found, hfound, h⟩
  · -- no lookup of a candidate fails, so the one that did was of something else
    obtain ⟨c, hc, hstep⟩ := exists_of_mapM_eq_error hfail
    split at hstep
    · cases hstep
    · rename_i hnone
      rw [if_neg fun hmem => by simp [column?_eq hp (hmem c hc)] at hnone]
      exact (Except.error.inj hstep).symm
  · -- all lookups succeed, so it is the comparison of the columns that fails
    rw [if_pos (forall_mem_of_mapM_eq_ok hfound)]
    split at h
    · cases h
    · exact (Except.error.inj h).symm

end Program

/-! ## One entry more in some columns -/

/-- The columns, with an entry more in those at the places listed. -/
def withEntry (columns : List Column) (entry : Nat × Int) (places : List Nat) : List Column :=
  places.foldl (fun all place =>
    all.modify place fun c => { c with entries := c.entries ++ [entry] }) columns

theorem withEntry_cons (columns : List Column) (entry : Nat × Int) (place : Nat)
    (places : List Nat) : withEntry columns entry (place :: places) =
      withEntry (columns.modify place fun c => { c with entries := c.entries ++ [entry] }) entry
        places := rfl

/-- Entries leave the ranges of the columns. -/
theorem map_range_withEntry (columns : List Column) (entry : Nat × Int) (places : List Nat) :
    (withEntry columns entry places).map Column.range = columns.map Column.range := by
  induction places generalizing columns with
  | nil => rfl
  | cons place places ih =>
    rw [withEntry_cons, ih]
    apply List.ext_getElem?
    intro i
    rw [List.getElem?_map, List.getElem?_map, List.getElem?_modify]
    cases columns[i]? with
    | none => rfl
    | some c => by_cases h : place = i <;> simp [h]

theorem InRows.withEntry {columns : List Column} {rows rows' : Nat} (h : InRows columns rows)
    (hle : rows ≤ rows') {entry : Nat × Int} (hentry : entry.1 < rows') (places : List Nat) :
    InRows (withEntry columns entry places) rows' := by
  induction places generalizing columns rows with
  | nil => exact fun c hc e he => (h c hc e he).trans_le hle
  | cons place places ih =>
    rw [withEntry_cons]
    refine ih (fun c hc e he => ?_) (le_refl rows')
    -- a column has its old entries, and the new one besides if it is at the place
    obtain ⟨i, hi⟩ := List.getElem?_of_mem hc
    rw [List.getElem?_modify, Option.map_eq_map, Option.map_eq_some_iff] at hi
    obtain ⟨old, hold, rfl⟩ := hi
    have hrows := h old (List.mem_of_getElem? hold)
    split at he
    · rcases List.mem_append.1 he with he | he
      · exact (hrows e he).trans_le hle
      · exact List.mem_singleton.1 he ▸ hentry
    · exact (hrows e he).trans_le hle

/-- An entry more in one column adds to its row what the column contributes there. -/
theorem lhs_modify (columns : List Column) (entry : Nat × Int) (place : Nat) {values : List Int}
    (hlength : columns.length = values.length) (row : Nat) :
    lhs (columns.modify place fun c => { c with entries := c.entries ++ [entry] }) values row =
      lhs columns values row + if entry.1 = row then entry.2 * values.getD place 0 else 0 := by
  induction columns generalizing place values with
  | nil =>
    obtain rfl := List.length_eq_zero_iff.1 hlength.symm
    simp
  | cons c columns ih =>
    cases values with
    | nil => cases hlength
    | cons value values =>
      have hrest := Nat.succ.inj hlength
      -- the entry goes to this column, or to one behind it
      cases place with
      | zero =>
        simp only [List.modify_zero_cons, lhs_cons, rowTotal_append, rowTotal_cons, rowTotal_nil,
          List.getD_cons_zero]
        split <;> ring
      | succ place =>
        rw [List.modify_succ_cons, lhs_cons, lhs_cons, ih place hrest, List.getD_cons_succ,
          add_assoc]

/-- **An entry more in some columns** adds their values to its row, and nothing to the others. -/
theorem lhs_withEntry (columns : List Column) (entry : Nat × Int) (places : List Nat)
    {values : List Int} (hlength : columns.length = values.length) (row : Nat) :
    lhs (withEntry columns entry places) values row = lhs columns values row +
      if entry.1 = row then (places.map fun place => entry.2 * values.getD place 0).sum else 0 := by
  induction places generalizing columns with
  | nil => simp [withEntry]
  | cons place places ih =>
    rw [withEntry_cons, ih _ (by rwa [List.length_modify]), lhs_modify _ _ _ hlength, List.map_cons,
      List.sum_cons]
    split <;> ring

/-! ## Rows -/

theorem meets_append_iff {rows : List Bound} {bound : Bound} {sum : Nat → Int} :
    Meets (rows ++ [bound]) sum ↔ Meets rows sum ∧ bound.admits (sum rows.length) = true := by
  constructor
  · intro h
    refine ⟨fun row b hb => h row b ?_, h rows.length bound (by simp)⟩
    rw [List.getElem?_append_left (List.getElem?_eq_some_iff.1 hb).1, hb]
  · rintro ⟨hrows, hlast⟩ row b hb
    rcases Nat.lt_trichotomy row rows.length with hlt | rfl | hgt
    · exact hrows row b (by rwa [List.getElem?_append_left hlt] at hb)
    · -- the last row
      rw [List.getElem?_concat_length] at hb
      exact Option.some.inj hb ▸ hlast
    · rw [List.getElem?_eq_none (by simp; omega)] at hb
      cases hb

theorem meets_congr {rows : List Bound} {sum sum' : Nat → Int}
    (h : ∀ row < rows.length, sum row = sum' row) : Meets rows sum ↔ Meets rows sum' := by
  refine forall₃_congr fun row bound hbound => ?_
  rw [h row (List.getElem?_eq_some_iff.1 hbound).1]

/-- A row that no entry names comes to zero. -/
theorem lhs_eq_zero {columns : List Column} {rows : Nat} (h : InRows columns rows)
    (values : List Int) : lhs columns values rows = 0 := by
  refine List.sum_eq_zero fun x hx => ?_
  obtain ⟨e, he, rfl⟩ := List.mem_map.1 hx
  rw [rowTotal_eq_zero fun entry hentry => (h e.1 (List.of_mem_zip he).1 entry hentry).ne, zero_mul]

/-- Values fit columns by their ranges. -/
theorem fits_congr {columns others : List Column} {values : List Int}
    (h : columns.map Column.range = others.map Column.range) :
    Fits columns values ↔ Fits others values := by
  have hmap : ∀ columns : List Column, Fits columns values ↔
      List.Forall₂ (fun (range : Range) value => range.lower ≤ value ∧ value ≤ range.upper)
        (columns.map Column.range) values := by
    intro columns
    rw [Fits, List.forall₂_map_left_iff]
  rw [hmap, hmap, h]

/-- Numbers that are zero or one sum up to less than their number, unless all are one. -/
theorem sum_le_pred_iff {values : List Int} (h : ∀ v ∈ values, v = 0 ∨ v = 1) :
    values.sum ≤ values.length - 1 ↔ ¬ ∀ v ∈ values, v = 1 := by
  have hle : ∀ values : List Int, (∀ v ∈ values, v = 0 ∨ v = 1) →
      values.sum ≤ values.length := by
    intro values h
    have := List.sum_le_card_nsmul values 1 fun v hv => by rcases h v hv with rfl | rfl <;> simp
    simpa using this
  induction values with
  | nil => simp
  | cons v values ih =>
    have hrest : ∀ v ∈ values, v = 0 ∨ v = 1 := fun v hv => h v (List.mem_cons_of_mem _ hv)
    have hsum := hle values hrest
    rw [List.sum_cons, List.length_cons, List.forall_mem_cons]
    rcases h v List.mem_cons_self with rfl | rfl
    · -- one zero is enough
      simp only [Nat.cast_add, Nat.cast_one]
      omega
    · have := ih hrest
      simp only [Nat.cast_add, Nat.cast_one, true_and, ← this]
      omega

namespace Program

variable {p q : Program} {selection : List Nat}

/-! ## Selections -/

/-- A candidate is selected when the column at its place has value one. -/
theorem mem_selected_iff (hnodup : p.candidates.Nodup) {values : List Int} {c : Nat}
    (hc : c ∈ p.candidates) :
    c ∈ p.selected values ↔ values[p.candidates.idxOf c]? = some 1 := by
  have hi := List.idxOf_lt_length_of_mem hc
  have hplace : p.candidates[p.candidates.idxOf c]? = some c := by
    rw [List.getElem?_eq_getElem hi, List.getElem_idxOf]
  rw [mem_selected]
  constructor
  · rintro ⟨i, hget, hone⟩
    -- a candidate has one place only
    obtain rfl : i = p.candidates.idxOf c :=
      (List.getElem?_inj (List.getElem?_eq_some_iff.1 hget).1 hnodup).1 (hget.trans hplace.symm)
    exact hone
  · exact fun hone => ⟨_, hplace, hone⟩

/-- In a program that passes its check, a decision has value zero or one. -/
theorem zero_or_one_of_fits (hcheck : p.check = .ok ()) {values : List Int}
    (hfits : Fits p.columns values) {place : Nat} (hplace : place < p.candidates.length) :
    values.getD place 0 = 0 ∨ values.getD place 0 = 1 := by
  obtain ⟨-, -, horder⟩ := check_eq_ok_iff.1 hcheck
  obtain ⟨hle, hbinary, -⟩ := decisionsInOrder_iff.1 horder
  have hlt : place < p.columns.length := hplace.trans_le hle
  have hlt' : place < values.length := hfits.length_eq ▸ hlt
  have hdecision := hbinary p.columns[place]
    (List.mem_iff_getElem.2 ⟨place, by simp; omega, by rw [List.getElem_take]⟩)
  have hrange := List.Forall₂.get hfits hlt hlt'
  simp only [List.get_eq_getElem, hdecision] at hrange
  obtain ⟨hlower, hupper⟩ : 0 ≤ values[place] ∧ values[place] ≤ 1 := hrange
  rw [List.getD_eq_getElem _ _ hlt']
  omega

/-- The values of decisions sum up to less than their number, unless all of them are selected. -/
theorem sum_decisions_le_iff (hcheck : p.check = .ok ()) {values : List Int}
    (hfits : Fits p.columns values) (hmem : ∀ c ∈ selection, c ∈ p.candidates) :
    (selection.map fun c => values.getD (p.candidates.idxOf c) 0).sum ≤ selection.length - 1 ↔
      ¬ selection ⊆ p.selected values := by
  -- each value is zero or one, so the sum is the number of ones
  have hbinary : ∀ v ∈ selection.map fun c => values.getD (p.candidates.idxOf c) 0,
      v = 0 ∨ v = 1 := by
    intro v hv
    obtain ⟨c, hc, rfl⟩ := List.mem_map.1 hv
    exact zero_or_one_of_fits hcheck hfits (List.idxOf_lt_length_of_mem (hmem c hc))
  have hpred := sum_le_pred_iff hbinary
  rw [List.length_map, List.forall_mem_map] at hpred
  rw [hpred]
  refine not_congr (forall₂_congr fun c hc => ?_)
  rw [mem_selected_iff ((pairwise_candidates hcheck).imp Nat.ne_of_lt) (hmem c hc),
    List.getD_eq_getElem?_getD]
  -- a value that is missing counts as zero
  cases values[p.candidates.idxOf c]? <;> simp

/-! ## Forbidding -/

/-- A forbidden selection is a row more, with an entry for each of its columns. -/
theorem forbid_eq_ok_iff : p.forbid selection = .ok q ↔
    ∃ places, p.columnsOf selection = .ok places ∧
      q = { p.addRow (.upper (selection.length - 1)) with
        columns := withEntry p.columns (p.rows.length, 1) places } := by
  rw [forbid, bind_eq_ok]
  constructor
  · rintro ⟨places, hplaces, h⟩
    exact ⟨places, hplaces, (Except.ok.inj h).symm⟩
  · rintro ⟨places, hplaces, rfl⟩
    exact ⟨places, hplaces, rfl⟩

/-- The selection lists candidates, and none of them twice. -/
def Listed (p : Program) (selection : List Nat) : Prop :=
  (∀ c ∈ selection, c ∈ p.candidates) ∧ selection.Nodup

instance (p : Program) (selection : List Nat) : Decidable (p.Listed selection) :=
  inferInstanceAs (Decidable (_ ∧ _))

/-- A selection can be forbidden when it lists candidates once each. -/
theorem exists_forbid_iff (hcheck : p.check = .ok ()) :
    (∃ q, p.forbid selection = .ok q) ↔ p.Listed selection := by
  have hascending := pairwise_candidates hcheck
  constructor
  · rintro ⟨q, h⟩
    obtain ⟨columns, hcolumns, -⟩ := forbid_eq_ok_iff.1 h
    obtain ⟨hmem, hnodup, -⟩ := (columnsOf_eq_ok_iff hascending).1 hcolumns
    exact ⟨hmem, hnodup⟩
  · rintro ⟨hmem, hnodup⟩
    -- the columns are the places, and nothing else can fail
    have hcolumns := (columnsOf_eq_ok_iff hascending).2 ⟨hmem, hnodup, rfl⟩
    exact ⟨_, forbid_eq_ok_iff.2 ⟨_, hcolumns, rfl⟩⟩

/-- A selection that cannot be forbidden names something else than candidates, or one twice. -/
theorem forbid_eq_error (hcheck : p.check = .ok ()) {e : Error}
    (h : p.forbid selection = .error e) :
    e = .misuse (if ∀ c ∈ selection, c ∈ p.candidates then .forbidsTwice else .forbidsUnknown) := by
  rw [forbid, bind_eq_error] at h
  rcases h with hcolumns | ⟨columns, -, h⟩
  · exact columnsOf_eq_error (pairwise_candidates hcheck) hcolumns
  · cases h

theorem candidates_of_forbid (h : p.forbid selection = .ok q) : q.candidates = p.candidates := by
  obtain ⟨places, -, rfl⟩ := forbid_eq_ok_iff.1 h
  rfl

theorem expected_of_forbid (h : p.forbid selection = .ok q) : q.expected = p.expected := by
  obtain ⟨places, -, rfl⟩ := forbid_eq_ok_iff.1 h
  rfl

theorem selected_of_forbid (h : p.forbid selection = .ok q) (values : List Int) :
    q.selected values = p.selected values := by
  rw [selected, selected, candidates_of_forbid h]

theorem map_range_of_forbid (h : p.forbid selection = .ok q) :
    q.columns.map Column.range = p.columns.map Column.range := by
  obtain ⟨places, -, rfl⟩ := forbid_eq_ok_iff.1 h
  exact map_range_withEntry _ _ _

section Forbid

variable (hcheck : p.check = .ok ()) (h : p.forbid selection = .ok q)
include hcheck h

/-- The program keeps its form. -/
theorem check_of_forbid : q.check = .ok () := by
  obtain ⟨hranges, hrows, horder⟩ := check_eq_ok_iff.1 hcheck
  obtain ⟨hle, hbinary, hascending⟩ := decisionsInOrder_iff.1 horder
  have hrange := map_range_of_forbid h
  have hcandidates := candidates_of_forbid h
  rw [check_eq_ok_iff, decisionsInOrder_iff, hcandidates]
  refine ⟨fun c hc => ?_, ?_, ?_, fun c hc => ?_, hascending⟩
  · -- every range is one of the old ones
    have hmem : c.range ∈ q.columns.map Column.range := List.mem_map_of_mem hc
    rw [hrange] at hmem
    obtain ⟨old, hold, heq⟩ := List.mem_map.1 hmem
    exact heq ▸ hranges old hold
  · -- the new entries are in the new row
    obtain ⟨places, -, rfl⟩ := forbid_eq_ok_iff.1 h
    exact hrows.withEntry (by simp [addRow]) (by simp [addRow]) _
  · -- there are as many columns as before
    have hlength := congrArg List.length hrange
    rw [List.length_map, List.length_map] at hlength
    rwa [hlength]
  · -- and the first ranges are those of the decisions
    have hmem := List.mem_map_of_mem (f := Column.range) hc
    rw [List.map_take, hrange, ← List.map_take] at hmem
    obtain ⟨old, hold, heq⟩ := List.mem_map.1 hmem
    exact heq ▸ hbinary old hold

/-- **Forbidding a selection** leaves the solutions that do not select all of it. -/
theorem isSolution_forbid_iff {values : List Int} : q.isSolution values = true ↔
    p.isSolution values = true ∧ ¬ selection ⊆ p.selected values := by
  have hrows := (check_eq_ok_iff.1 hcheck).2.1
  have hform := (check_eq_ok_iff.1 (check_of_forbid hcheck h)).2.1
  obtain ⟨places, hplaces, rfl⟩ := forbid_eq_ok_iff.1 h
  obtain ⟨hmem, -, rfl⟩ := (columnsOf_eq_ok_iff (pairwise_candidates hcheck)).1 hplaces
  rw [isSolution_iff, isSolution_iff, fits_congr (map_range_withEntry _ _ _), and_assoc]
  refine and_congr_right fun hfits => ?_
  rw [and_iff_right hform, and_iff_right hrows]
  have hlhs := lhs_withEntry p.columns (p.rows.length, 1) (selection.map p.candidates.idxOf)
    hfits.length_eq
  -- the old rows come to what they came to before
  have hold : Meets p.rows (lhs (withEntry p.columns (p.rows.length, 1)
      (selection.map p.candidates.idxOf)) values) ↔ Meets p.rows (lhs p.columns values) := by
    refine meets_congr fun row hrow => ?_
    rw [hlhs row, if_neg (show p.rows.length ≠ row by omega), add_zero]
  -- and the new one to the number of the candidates that are selected
  have hnew := hlhs p.rows.length
  rw [lhs_eq_zero hrows, if_pos rfl, zero_add, List.map_map] at hnew
  simp only [Function.comp_def, one_mul] at hnew
  show Meets (p.rows ++ [.upper (selection.length - 1)]) _ ↔ _
  rw [meets_append_iff, hold, Bound.admits, decide_eq_true_eq, hnew]
  exact and_congr_right fun _ => sum_decisions_le_iff hcheck hfits hmem

end Forbid

end Program

end LossSketch
