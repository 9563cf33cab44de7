import LossSketch.Program.Checked
import LossSketch.Proofs.Program.FirstSolution
import LossSketch.Proofs.Program.Solution
import LossSketch.Proofs.Word

/-!
# Programs in words stop or are exact

A run that stops at the first result out of range either stops or comes to what the same run on
unbounded integers comes to.

* `Program.isSolution_of_isSolutionChecked` — for the rows of a program.
* `search_of_searchChecked` — for the search, whose tallies are seen as the reach of the rows.
* `Program.firstSolutionChecked_refines` and `Program.solveChecked_refines` — so for the first
  solution, and for solving.
-/

namespace LossSketch

/-! ## Sums of rows -/

namespace Program

variable {overflow : Overflow} {next : Array Int → Option Bool} {p : Program}

/-- What adding the entries of a column to sums comes to where no sum is out of range. -/
def addEntriesExact (value : Int) (next : Array Int → Option Bool) (entries : List (Nat × Int))
    (sums : Array Int) : Option Bool :=
  if ∀ e ∈ entries, e.1 < sums.size then
    next ((entries.map fun e => (e.1, e.2 * value)).foldl
      (fun sums e => sums.modify e.1 (· + e.2)) sums)
  else some false

theorem addEntriesExact_cons {value coeff sum : Int} {row : Nat} {entries : List (Nat × Int)}
    {sums : Array Int} (hsum : sums[row]? = some sum) :
    addEntriesExact value next ((row, coeff) :: entries) sums =
      addEntriesExact value next entries (sums.setIfInBounds row (sum + coeff * value)) := by
  obtain ⟨hrow, rfl⟩ := Array.getElem?_eq_some_iff.1 hsum
  have hmodify : sums.modify row (· + coeff * value) =
      sums.setIfInBounds row (sums[row] + coeff * value) := by
    apply Array.ext_getElem?
    intro i
    rw [Array.getElem?_modify, Array.getElem?_setIfInBounds]
    by_cases h : row = i
    · subst h
      simp [hrow]
    · simp [h]
  rw [addEntriesExact, addEntriesExact, List.map_cons, List.foldl_cons, hmodify]
  simp only [List.forall_mem_cons, hrow, true_and, Array.size_setIfInBounds]

theorem addEntriesExact_of_none {value coeff : Int} {row : Nat} {entries : List (Nat × Int)}
    {sums : Array Int} (hsum : sums[row]? = none) :
    addEntriesExact value next ((row, coeff) :: entries) sums = some false := by
  rw [addEntriesExact, if_neg]
  intro hrows
  have hrow := hrows _ List.mem_cons_self
  rw [Array.getElem?_eq_none_iff] at hsum
  omega

theorem addEntries_stops {value : Int} {entries : List (Nat × Int)} {sums : Array Int} {b : Bool}
    (h : addEntries .stops value next entries sums = some b) :
    addEntriesExact value next entries sums = some b := by
  induction entries generalizing sums with
  | nil => rwa [addEntriesExact, if_pos (by simp)]
  | cons e entries ih =>
    obtain ⟨row, coeff⟩ := e
    unfold addEntries at h
    cases hsum : sums[row]? with
    | none =>
      rw [hsum] at h
      rw [addEntriesExact_of_none hsum]
      exact h
    | some sum =>
      rw [hsum] at h
      obtain ⟨amount, hamount, h⟩ := Option.bind_eq_some_iff.1 h
      obtain ⟨sum', hsum', h⟩ := Option.bind_eq_some_iff.1 h
      -- both results are in range
      obtain ⟨-, rfl⟩ := signed?_eq_some.1 hamount
      obtain ⟨-, rfl⟩ := signed?_eq_some.1 hsum'
      rw [addEntriesExact_cons hsum]
      exact ih h

/-- A column has a value in its range, and names existing rows only. -/
def admitsValue (rows : Nat) (e : Column × Int) : Bool :=
  e.1.range.lower ≤ e.2 && e.2 ≤ e.1.range.upper && e.1.entries.all fun e => e.1 < rows

/-- What adding up columns comes to where no sum is out of range. -/
def addColumnsExact (next : Array Int → Option Bool) (pairs : List (Column × Int))
    (sums : Array Int) : Option Bool :=
  if pairs.all (admitsValue sums.size) then
    next ((pairs.flatMap fun e => e.1.entries.map fun d => (d.1, d.2 * e.2)).foldl
      (fun sums e => sums.modify e.1 (· + e.2)) sums)
  else some false

theorem size_foldl_modify (contributions : List (Nat × Int)) (sums : Array Int) :
    (contributions.foldl (fun sums e => sums.modify e.1 (· + e.2)) sums).size = sums.size := by
  induction contributions generalizing sums with
  | nil => rfl
  | cons e contributions ih => rw [List.foldl_cons, ih, Array.size_modify]

theorem addColumnsExact_cons {c : Column} {value : Int} {pairs : List (Column × Int)}
    {sums : Array Int} : addColumnsExact next ((c, value) :: pairs) sums =
      if value < c.range.lower || c.range.upper < value then some false
      else addEntriesExact value (addColumnsExact next pairs) c.entries sums := by
  rw [addColumnsExact, addEntriesExact, List.all_cons, List.flatMap_cons, List.foldl_append]
  by_cases hrange : c.range.lower ≤ value ∧ value ≤ c.range.upper
  · have hnot : (value < c.range.lower || c.range.upper < value) = false := by
      simp only [Bool.or_eq_false_iff, decide_eq_false_iff_not]
      omega
    simp only [hnot, Bool.false_eq_true, if_false]
    rw [addColumnsExact, size_foldl_modify]
    by_cases hrows : ∀ e ∈ c.entries, e.1 < sums.size
    · have hadmits : admitsValue sums.size (c, value) = true := by
        simpa [admitsValue, hrange] using fun a b h => hrows (a, b) h
      rw [if_pos hrows, hadmits, Bool.true_and]
    · have hadmits : admitsValue sums.size (c, value) = false := by
        simp only [admitsValue, Bool.and_eq_false_iff, List.all_eq_false, decide_eq_true_eq]
        push Not at hrows
        obtain ⟨e, he, hle⟩ := hrows
        exact Or.inr ⟨e, he, by omega⟩
      rw [if_neg hrows, hadmits, Bool.false_and, if_neg Bool.false_ne_true]
  · have hadmits : admitsValue sums.size (c, value) = false := by
      simp only [admitsValue, Bool.and_eq_false_iff, decide_eq_false_iff_not]
      omega
    have hor : (value < c.range.lower || c.range.upper < value) = true := by
      simp only [Bool.or_eq_true, decide_eq_true_eq]
      omega
    rw [hadmits, Bool.false_and, if_neg Bool.false_ne_true, hor, if_pos rfl]

theorem addColumns_stops {pairs : List (Column × Int)} {sums : Array Int} {b : Bool}
    (h : addColumns .stops next pairs sums = some b) :
    addColumnsExact next pairs sums = some b := by
  induction pairs generalizing sums b with
  | nil => rwa [addColumnsExact, if_pos (by simp)]
  | cons e pairs ih =>
    obtain ⟨c, value⟩ := e
    rw [addColumnsExact_cons]
    unfold addColumns at h
    split at h
    · rename_i hrange
      rw [if_pos hrange]
      exact h
    · rename_i hrange
      rw [if_neg hrange]
      have hentries := addEntries_stops h
      -- what comes behind the entries is exact as well
      rw [addEntriesExact] at hentries ⊢
      split at hentries
      · rename_i hrows
        rw [if_pos hrows]
        exact ih hentries
      · rename_i hrows
        rw [if_neg hrows]
        exact hentries

theorem addColumnsExact_eq (values : List Int) (hlength : values.length = p.columns.length) :
    addColumnsExact
      (fun sums => some ((p.rows.zip sums.toList).all fun (bound, sum) => bound.admits sum))
      (p.columns.zip values) (Array.replicate p.rows.length 0) = some (p.isSolution values) := by
  have hsolution : p.isSolution values =
      ((p.columns.zip values).all (admitsValue p.rows.length) &&
        (p.rows.zip (rowSums p.rows.length (contributions p.columns values)).toList).all
          fun (bound, sum) => bound.admits sum) := by
    rw [isSolution, decide_eq_true hlength, Bool.true_and]
    rfl
  rw [hsolution, addColumnsExact, Array.size_replicate]
  split
  · rename_i hall
    rw [hall, Bool.true_and]
    rfl
  · rename_i hall
    rw [Bool.eq_false_of_not_eq_true hall, Bool.false_and]

/-- Where no sum of a row stops the test of values, it is exact. -/
theorem isSolution_of_isSolutionChecked {values : List Int} {b : Bool}
    (h : p.isSolutionChecked .stops values = some b) : p.isSolution values = b := by
  unfold isSolutionChecked at h
  split at h
  · rename_i hlength
    rw [isSolution, decide_eq_false hlength, Bool.false_and, Bool.false_and]
    exact Option.some.inj h
  · rename_i hlength
    have hexact := addColumns_stops h
    rw [addColumnsExact_eq values (not_not.1 hlength)] at hexact
    exact Option.some.inj hexact

end Program

/-! ## Tallies -/

/-- The least and the greatest sum that a row can still come to. -/
def Tally.reach (t : Tally) : Reach := ⟨t.settled + t.least, t.settled + t.greatest⟩

theorem Tally.add?_eq_some {t t' : Tally} {settled least greatest : Int} :
    t.add? settled least greatest = some t' ↔
      (Signed64 (t.settled + settled) ∧ Signed64 (t.least + least) ∧
        Signed64 (t.greatest + greatest)) ∧
      t' = ⟨t.settled + settled, t.least + least, t.greatest + greatest⟩ := by
  simp only [add?, Option.bind_eq_bind, Option.bind_eq_some_iff, signed?_eq_some, Option.pure_def,
    Option.some.injEq]
  constructor
  · rintro ⟨_, ⟨hs, rfl⟩, _, ⟨hl, rfl⟩, _, ⟨hg, rfl⟩, rfl⟩
    exact ⟨⟨hs, hl, hg⟩, rfl⟩
  · rintro ⟨⟨hs, hl, hg⟩, rfl⟩
    exact ⟨_, ⟨hs, rfl⟩, _, ⟨hl, rfl⟩, _, ⟨hg, rfl⟩, rfl⟩

theorem Tally.add?_eq {s l g settled least greatest : Int} (hs : Signed64 (s + settled))
    (hl : Signed64 (l + least)) (hg : Signed64 (g + greatest)) :
    (⟨s, l, g⟩ : Tally).add? settled least greatest =
      some ⟨s + settled, l + least, g + greatest⟩ :=
  add?_eq_some.2 ⟨⟨hs, hl, hg⟩, rfl⟩

theorem Bound.reachable_of_reachableChecked {bound : Bound} {t : Tally} {b : Bool}
    (h : bound.reachableChecked t = some b) : bound.reachable t.reach = b := by
  cases bound with
  | fixed value =>
    obtain ⟨least, hleast, h⟩ := Option.bind_eq_some_iff.1 h
    obtain ⟨-, rfl⟩ := signed?_eq_some.1 hleast
    split at h
    · rename_i hlt
      obtain rfl := Option.some.inj h
      rw [reachable, Tally.reach, decide_eq_false (Int.not_le.2 hlt), Bool.false_and]
    · rename_i hle
      obtain ⟨greatest, hgreatest, h⟩ := Option.bind_eq_some_iff.1 h
      obtain ⟨-, rfl⟩ := signed?_eq_some.1 hgreatest
      obtain rfl := Option.some.inj h
      rw [reachable, Tally.reach, decide_eq_true (Int.not_lt.1 hle), Bool.true_and]
  | upper value =>
    obtain ⟨least, hleast, h⟩ := Option.bind_eq_some_iff.1 h
    obtain ⟨-, rfl⟩ := signed?_eq_some.1 hleast
    exact Option.some.inj h

/-- A test of all members that does not stop is exact if its steps are. -/
theorem all_of_allM {α : Type} {l : List α} {test : α → Option Bool} {exact : α → Bool}
    (htest : ∀ a b, test a = some b → exact a = b) {b : Bool} (h : l.allM test = some b) :
    l.all exact = b := by
  induction l with
  | nil => exact Option.some.inj h
  | cons a l ih =>
    rw [List.allM] at h
    obtain ⟨first, hfirst, h⟩ := Option.bind_eq_some_iff.1 h
    rw [List.all_cons, htest a first hfirst]
    cases first with
    | true => exact ih h
    | false => exact Option.some.inj h

namespace Column

variable {c : Column} {tallies tallies' : Array Tally}

theorem extremes_eq_some {k : Int} {e : Int × Int} : c.extremes k = some e ↔
    (Signed64 (k * c.range.lower) ∧ Signed64 (k * c.range.upper)) ∧
      e = (c.least k, c.greatest k) := by
  simp only [extremes, Option.bind_eq_bind, Option.bind_eq_some_iff, signed?_eq_some,
    Option.pure_def, Option.some.injEq]
  constructor
  · rintro ⟨_, ⟨hl, rfl⟩, _, ⟨hu, rfl⟩, rfl⟩
    exact ⟨⟨hl, hu⟩, rfl⟩
  · rintro ⟨⟨hl, hu⟩, rfl⟩
    exact ⟨_, ⟨hl, rfl⟩, _, ⟨hu, rfl⟩, rfl⟩

theorem modifyTallies_eq (change : Int → Tally → Option Tally) (tallies : Array Tally) :
    c.modifyTallies change tallies =
      c.entries.foldlM (fun tallies e => modifyChecked tallies e.1 (change e.2)) tallies := rfl

/-- Changes of tallies that do not stop change the reach of their rows. -/
theorem modifyRows_of_modifyTallies {change : Int → Tally → Option Tally}
    {change' : Int → Reach → Reach}
    (hchange : ∀ k t t', change k t = some t' → t'.reach = change' k t.reach)
    (h : c.modifyTallies change tallies = some tallies') :
    tallies'.map Tally.reach = c.modifyRows change' (tallies.map Tally.reach) := by
  rw [modifyTallies_eq] at h
  exact map_of_foldlM_modifyChecked (fun (e : Nat × Int) => hchange e.2) h

theorem settleTally_eq_some {value k : Int} {t t' : Tally} :
    c.settleTally value k t = some t' ↔
      (Signed64 (k * c.range.lower) ∧ Signed64 (k * c.range.upper)) ∧ Signed64 (k * value) ∧
        t.add? (k * value) (-c.least k) (-c.greatest k) = some t' := by
  simp only [settleTally, Option.bind_eq_bind, Option.bind_eq_some_iff, extremes_eq_some,
    signed?_eq_some]
  constructor
  · rintro ⟨_, ⟨hrange, rfl⟩, _, ⟨hvalue, rfl⟩, ht⟩
    exact ⟨hrange, hvalue, ht⟩
  · rintro ⟨hrange, hvalue, ht⟩
    exact ⟨_, ⟨hrange, rfl⟩, _, ⟨hvalue, rfl⟩, ht⟩

theorem releaseTally_eq_some {value k : Int} {t t' : Tally} :
    c.releaseTally value k t = some t' ↔
      (Signed64 (k * c.range.lower) ∧ Signed64 (k * c.range.upper)) ∧ Signed64 (k * value) ∧
        t.add? (-(k * value)) (c.least k) (c.greatest k) = some t' := by
  simp only [releaseTally, Option.bind_eq_bind, Option.bind_eq_some_iff, extremes_eq_some,
    signed?_eq_some]
  constructor
  · rintro ⟨_, ⟨hrange, rfl⟩, _, ⟨hvalue, rfl⟩, ht⟩
    exact ⟨hrange, hvalue, ht⟩
  · rintro ⟨hrange, hvalue, ht⟩
    exact ⟨_, ⟨hrange, rfl⟩, _, ⟨hvalue, rfl⟩, ht⟩

/-- Taking a column in with its whole range is like taking it back from zero. -/
theorem spreadChecked_eq : c.spreadChecked tallies = c.releaseChecked 0 tallies := by
  have htally : c.spreadTally = c.releaseTally 0 := by
    funext k t
    simp only [spreadTally, releaseTally, mul_zero]
    rfl
  rw [spreadChecked, releaseChecked, htally]

theorem settle_of_settleChecked {value : Int} (h : c.settleChecked value tallies = some tallies') :
    tallies'.map Tally.reach = c.settle value (tallies.map Tally.reach) := by
  refine modifyRows_of_modifyTallies (fun k t t' ht => ?_) h
  obtain ⟨-, -, ht⟩ := settleTally_eq_some.1 ht
  obtain ⟨-, rfl⟩ := Tally.add?_eq_some.1 ht
  simp only [Tally.reach, Reach.mk.injEq]
  constructor <;> omega

theorem release_of_releaseChecked {value : Int}
    (h : c.releaseChecked value tallies = some tallies') :
    tallies'.map Tally.reach = c.release value (tallies.map Tally.reach) := by
  refine modifyRows_of_modifyTallies (fun k t t' ht => ?_) h
  obtain ⟨-, -, ht⟩ := releaseTally_eq_some.1 ht
  obtain ⟨-, rfl⟩ := Tally.add?_eq_some.1 ht
  simp only [Tally.reach, Reach.mk.injEq]
  constructor <;> omega

theorem spread_of_spreadChecked (h : c.spreadChecked tallies = some tallies') :
    tallies'.map Tally.reach = c.spread (tallies.map Tally.reach) := by
  have hrelease : c.release 0 (tallies.map Tally.reach) = c.spread (tallies.map Tally.reach) := by
    simp only [release, spread, mul_zero, zero_sub, sub_neg_eq_add]
  rw [← hrelease]
  exact release_of_releaseChecked (spreadChecked_eq ▸ h)

theorem feasible_of_feasibleChecked {rows : Array Bound} {b : Bool}
    (h : c.feasibleChecked rows tallies = some b) :
    c.feasible rows (tallies.map Tally.reach) = b := by
  refine all_of_allM ?_ h
  rintro ⟨row, coeff⟩ b he
  dsimp only at he ⊢
  rw [Array.getElem?_map]
  cases hbound : rows[row]? with
  | none =>
    rw [hbound] at he
    exact Option.some.inj he
  | some bound =>
    rw [hbound] at he
    cases htally : tallies[row]? with
    | none =>
      rw [htally] at he
      exact Option.some.inj he
    | some t =>
      rw [htally] at he
      exact Bound.reachable_of_reachableChecked he

end Column

/-! ## The search -/

/-- The outcome with another view of the state of the rows. -/
def Outcome.map {σ τ : Type} (view : σ → τ) : Outcome σ → Outcome τ
  | found values nodes => .found values nodes
  | exhausted state nodes => .exhausted (view state) nodes
  | gaveUp => .gaveUp

section Search

variable {limit : Option Nat} {rows : Array Bound}

theorem tryValues_of_tryValuesChecked {c : Column}
    {next : Array Tally → Nat → Option (Outcome (Array Tally))}
    {nextExact : Array Reach → Nat → Outcome (Array Reach)}
    (hnext : ∀ (tallies : Array Tally) (nodes : Nat) (out : Outcome (Array Tally)),
      next tallies nodes = some out →
      nextExact (tallies.map Tally.reach) nodes = out.map (Array.map Tally.reach))
    {left : Nat} {value : Int} {tallies : Array Tally} {nodes : Nat} {out : Outcome (Array Tally)}
    (h : Program.tryValuesChecked limit rows c next left value tallies nodes = some out) :
    Program.tryValues limit rows c nextExact left value (tallies.map Tally.reach) nodes =
      out.map (Array.map Tally.reach) := by
  induction left generalizing value tallies nodes out with
  | zero =>
    obtain rfl := Option.some.inj h
    rfl
  | succ left ih =>
    unfold Program.tryValuesChecked at h
    unfold Program.tryValues
    split at h
    · rename_i hlimit
      rw [if_pos hlimit]
      obtain rfl := Option.some.inj h
      rfl
    · rename_i hlimit
      rw [if_neg hlimit]
      -- no result of this value was out of range, or there would be no outcome
      obtain ⟨following, hfollowing, h⟩ := Option.bind_eq_some_iff.1 h
      obtain ⟨settled, hsettled, h⟩ := Option.bind_eq_some_iff.1 h
      obtain ⟨feasible, hfeasible, h⟩ := Option.bind_eq_some_iff.1 h
      obtain ⟨-, rfl⟩ := signed?_eq_some.1 hfollowing
      simp only [← Column.settle_of_settleChecked hsettled,
        Column.feasible_of_feasibleChecked hfeasible]
      cases feasible with
      | true =>
        obtain ⟨out', hout, h⟩ := Option.bind_eq_some_iff.1 h
        rw [if_pos rfl, hnext _ _ _ hout]
        cases out' with
        | found values nodes' =>
          obtain rfl := Option.some.inj h
          rfl
        | gaveUp =>
          obtain rfl := Option.some.inj h
          rfl
        | exhausted restored nodes' =>
          -- the other values are tried from what releasing the column leaves
          obtain ⟨released, hreleased, h⟩ := Option.bind_eq_some_iff.1 h
          simp only [Outcome.map, ← Column.release_of_releaseChecked hreleased]
          exact ih h
      | false =>
        obtain ⟨released, hreleased, h⟩ := Option.bind_eq_some_iff.1 h
        rw [if_neg (by decide), ← Column.release_of_releaseChecked hreleased]
        exact ih h

/-- **A search that does not stop is exact.** It comes to what the search on unbounded integers
comes to. -/
theorem search_of_searchChecked {columns : List Column} {tallies : Array Tally} {nodes : Nat}
    {out : Outcome (Array Tally)}
    (h : Program.searchChecked limit rows columns tallies nodes = some out) :
    Program.search limit rows columns (tallies.map Tally.reach) nodes =
      out.map (Array.map Tally.reach) := by
  induction columns generalizing tallies nodes out with
  | nil =>
    obtain rfl := Option.some.inj h
    rfl
  | cons c columns ih => exact tryValues_of_tryValuesChecked (fun _ _ _ => ih) h

end Search

/-! ## Programs -/

namespace Program

variable {p : Program} {limit : Option Nat}

theorem initialReach_of_initialTallies {tallies : Array Tally}
    (h : p.initialTallies = some tallies) : tallies.map Tally.reach = p.initialReach := by
  have hfold : ∀ (columns : List Column) (tallies tallies' : Array Tally),
      columns.foldlM (fun tallies c => c.spreadChecked tallies) tallies = some tallies' →
      tallies'.map Tally.reach =
        columns.foldl (fun reach c => c.spread reach) (tallies.map Tally.reach) := by
    intro columns
    induction columns with
    | nil =>
      intro tallies tallies' h
      rw [List.foldl_nil, Option.some.inj h]
    | cons c columns ih =>
      intro tallies tallies' h
      rw [List.foldlM_cons] at h
      obtain ⟨behind, hbehind, h⟩ := Option.bind_eq_some_iff.1 h
      rw [List.foldl_cons, ih _ _ h, Column.spread_of_spreadChecked hbehind]
  rw [hfold _ _ _ h, Array.map_replicate]
  rfl

theorem meetable_of_meetableChecked {tallies : Array Tally} (h : p.initialTallies = some tallies)
    {b : Bool} (hmeetable : p.meetableChecked tallies = some b) : p.meetable = b := by
  have hexact : ∀ (e : Bound × Tally) (b : Bool), e.1.reachableChecked e.2 = some b →
      e.1.reachable e.2.reach = b := fun _ _ => Bound.reachable_of_reachableChecked
  have hall := all_of_allM hexact hmeetable
  rw [meetable, ← initialReach_of_initialTallies h, Array.toList_map, List.zip_map_right,
    List.all_map, ← hall]
  rfl

/-- **Finding the first solution stops or is exact.** -/
theorem firstSolutionChecked_refines (p : Program) (limit : Option Nat) :
    Checked.Refines True (p.firstSolutionChecked limit) (p.firstSolution limit) := by
  have hstops : ∀ answer : Except Error (Option (List Int)),
      Checked.Refines True (.error .overflow) answer := fun _ => Or.inr ⟨trivial, rfl⟩
  by_cases hcheck : p.check = .ok ()
  · -- each of the three stages stops, or has the result of the exact run
    rw [firstSolution_eq_ite hcheck, firstSolutionChecked, hcheck]
    simp only [Checked.report, ok_bind]
    cases htallies : p.initialTallies with
    | none => exact hstops _
    | some tallies =>
      simp only [Checked.step, ok_bind]
      cases hmeetable : p.meetableChecked tallies with
      | none => exact hstops _
      | some meetable =>
        rw [meetable_of_meetableChecked htallies hmeetable]
        simp only [ok_bind]
        cases meetable with
        | false => exact Or.inl rfl
        | true =>
          simp only [if_true]
          cases hout : searchChecked limit p.rows.toArray p.columns tallies 0 with
          | none => exact hstops _
          | some out =>
            rw [← initialReach_of_initialTallies htallies, search_of_searchChecked hout]
            cases out <;> exact Or.inl rfl
  · obtain ⟨m, hm⟩ := exists_misuse_of_check hcheck
    left
    rw [firstSolutionChecked, firstSolution, hm]
    rfl

/-! ## Solving -/

/-- What is accepted of any solver's answer. -/
theorem solveChecked_eq_ok_iff {overflow : Overflow} {solver : CheckedSolver}
    {selected : List Nat} : p.solveChecked overflow solver = .ok selected ↔ p.check = .ok () ∧
      ∃ values, solver p = .ok (some values) ∧ p.isSolutionChecked overflow values = some true ∧
        p.selected values = selected ∧ selected.length = p.expected := by
  rw [solveChecked, bind_eq_ok]
  constructor
  · rintro ⟨⟨⟩, hcheck, h⟩
    obtain ⟨answer, hanswer, h⟩ := bind_eq_ok.1 h
    -- an answer that is not a solution, or has another number of candidates, is refused
    cases answer with
    | none => cases h
    | some values =>
      obtain ⟨solves, hsolves, h⟩ := bind_eq_ok.1 h
      rw [Checked.step_eq_ok] at hsolves
      cases solves with
      | false => cases h
      | true =>
        dsimp only at h
        split at h
        · rename_i hfalse
          cases hfalse
        · split at h
          · cases h
          · rename_i hlength
            cases h
            exact ⟨Checked.report_eq_ok.1 hcheck, values, hanswer, hsolves, rfl, not_not.1 hlength⟩
  · rintro ⟨hcheck, values, hanswer, hsolves, rfl, hlength⟩
    refine ⟨(), Checked.report_eq_ok.2 hcheck, bind_eq_ok.2 ⟨some values, hanswer, ?_⟩⟩
    refine bind_eq_ok.2 ⟨true, Checked.step_eq_ok.2 hsolves, ?_⟩
    simp [hlength]
    rfl

/-- Solving is exact, or may stop, as the solver and the test of its answer do. -/
theorem solveChecked_refines {may : Prop} {overflow : Overflow} {solver : Solver}
    {solver' : CheckedSolver} (hsolver : Checked.Refines may (solver' p) (solver p))
    (htest : ∀ values, Checked.Refines may (Checked.step (p.isSolutionChecked overflow values))
      (.ok (p.isSolution values))) :
    Checked.Refines may (p.solveChecked overflow solver') (p.solve solver) := by
  refine (Checked.Refines.report may p.check).bind fun _ _ => hsolver.bind fun answer _ => ?_
  cases answer with
  | none => exact Or.inl rfl
  | some values =>
    rcases htest values with hexact | ⟨hmay, hstops⟩
    · -- behind the test of its sums the answer is treated alike
      left
      dsimp only
      rw [hexact]
      simp only [Checked.report, ok_bind]
      split
      · rfl
      · by_cases hlength : (p.selected values).length = p.expected
        · simp [hlength]
          rfl
        · simp [hlength]
          rfl
    · right
      dsimp only
      rw [hstops]
      exact ⟨hmay, rfl⟩

/-- So is looking for another selection. -/
theorem otherThanChecked_refines {may : Prop} {overflow : Overflow} {solver : Solver}
    {solver' : CheckedSolver} {selection : List Nat}
    (hsolve : ∀ q, p.forbid selection = .ok q →
      Checked.Refines may (q.solveChecked overflow solver') (q.solve solver)) :
    Checked.Refines may (p.otherThanChecked overflow solver' selection)
      (p.otherThan solver selection) := by
  refine (Checked.Refines.report may (p.forbid selection)).bind fun q hq => ?_
  rcases hsolve q hq with hexact | ⟨hmay, hstops⟩
  · rw [hexact]
    left
    cases q.solve solver with
    | ok other => rfl
    | error e => cases e <;> rfl
  · rw [hstops]
    exact Or.inr ⟨hmay, rfl⟩

end Program

end LossSketch
