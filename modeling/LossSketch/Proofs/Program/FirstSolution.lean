import LossSketch.Proofs.Error
import LossSketch.Proofs.Program.Search

/-!
# The first solution of a program

* `treeSize` is the number of nodes that a search can visit: every value of the first column, and
  behind each of them every node of the other columns. `search_endsBy` — no search visits more, so
  a limit that leaves room for them is never reached.
* `Program.firstSolution_eq_ite` — the outcome of the search is what is answered, unless some row
  cannot be met from the start (`Program.meetable`).
* `Program.firstSolution_cases` — a search under any limit answers the least solution in the order
  of the columns, or rightly that there is none, or it gives up at a limit below the size of the
  tree.
* `Program.firstSolution_least` — without a limit it comes to an answer, which it also comes to
  under any limit that is not below the size of the tree.
-/

namespace LossSketch

/-! ## How many nodes a search visits -/

/-- The number of nodes of the tree that a search walks over. -/
def treeSize : List Column → Nat
  | [] => 0
  | c :: columns => c.width * (treeSize columns + 1)

section Outcomes

variable {σ : Type}

/-- The search came to an answer, and had visited so many nodes at most. -/
def Outcome.EndsBy (bound : Nat) : Outcome σ → Prop
  | .found _ nodes => nodes ≤ bound
  | .exhausted _ nodes => nodes ≤ bound
  | .gaveUp => False

theorem Outcome.EndsBy.mono {bound bound' : Nat} {outcome : Outcome σ} (h : outcome.EndsBy bound)
    (hle : bound ≤ bound') : outcome.EndsBy bound' := by
  cases outcome with
  | found values nodes => exact Nat.le_trans h hle
  | exhausted reach nodes => exact Nat.le_trans h hle
  | gaveUp => exact h

/-- What is answered for an outcome of a search under a limit. -/
def Outcome.answer (limit : Option Nat) : Outcome σ → Except Error (Option (List Int))
  | .found values _ => .ok (some values)
  | .exhausted _ _ => .ok none
  | .gaveUp => .error (.solver (.gaveUp (limit.getD 0)))

end Outcomes

section Nodes

variable {limit : Option Nat} {rows : Array Bound} {c : Column} {columns : List Column}

/-- Trying a column visits one node for each value and what the later columns visit behind it. -/
theorem tryValues_endsBy
    (hnext : ∀ (reach : Array Reach) (nodes : Nat),
      (∀ m ∈ limit, nodes + treeSize columns ≤ m) →
      (Program.search limit rows columns reach nodes).EndsBy (nodes + treeSize columns))
    (left : Nat) (value : Int) (reach : Array Reach) (nodes : Nat)
    (hlimit : ∀ m ∈ limit, nodes + left * (treeSize columns + 1) ≤ m) :
    (Program.tryValues limit rows c (Program.search limit rows columns) left value reach
      nodes).EndsBy (nodes + left * (treeSize columns + 1)) := by
  induction left generalizing value reach nodes with
  | zero =>
    unfold Program.tryValues
    exact Nat.le_add_right _ _
  | succ left ih =>
    rw [Nat.succ_mul] at hlimit ⊢
    -- there is room for this node, so the limit does not strike
    have hroom : ¬ limit.any (· ≤ nodes) = true := by
      cases limit with
      | none => simp
      | some m =>
        have hm := hlimit m rfl
        simp only [Option.any_some, decide_eq_true_eq]
        omega
    -- what the other values visit fits behind what was visited for this one
    have hrest : ∀ (reach : Array Reach) (nodes' : Nat), nodes' ≤ nodes + treeSize columns + 1 →
        (Program.tryValues limit rows c (Program.search limit rows columns) left (value + 1) reach
          nodes').EndsBy (nodes + (left * (treeSize columns + 1) + (treeSize columns + 1))) := by
      intro reach nodes' hnodes'
      refine (ih (value + 1) reach nodes' fun m hm => ?_).mono (by omega)
      have := hlimit m hm
      omega
    unfold Program.tryValues
    rw [if_neg hroom]
    simp only
    split
    · -- the later columns are searched, one node further on
      have hended := hnext (c.settle value reach) (nodes + 1) fun m hm => by
        have := hlimit m hm
        omega
      cases hout : Program.search limit rows columns (c.settle value reach) (nodes + 1) with
      | found values nodes' =>
        rw [hout] at hended
        have hle : nodes' ≤ nodes + 1 + treeSize columns := hended
        show nodes' ≤ _
        omega
      | exhausted restored nodes' =>
        rw [hout] at hended
        have hle : nodes' ≤ nodes + 1 + treeSize columns := hended
        exact hrest _ nodes' (by omega)
      | gaveUp =>
        rw [hout] at hended
        exact hended.elim
    · exact hrest _ (nodes + 1) (by omega)

/-- **A search ends** before it has visited more nodes than the tree has, if the limit leaves room
for them. -/
theorem search_endsBy (limit : Option Nat) (rows : Array Bound) (columns : List Column)
    (reach : Array Reach) (nodes : Nat) (hlimit : ∀ m ∈ limit, nodes + treeSize columns ≤ m) :
    (Program.search limit rows columns reach nodes).EndsBy (nodes + treeSize columns) := by
  induction columns generalizing reach nodes with
  | nil =>
    unfold Program.search
    exact Nat.le_refl _
  | cons c columns ih =>
    unfold Program.search
    exact tryValues_endsBy ih c.width c.range.lower reach nodes hlimit

end Nodes

/-! ## Programs -/

/-- Of two lists that are each no greater than the other neither is less. -/
theorem LexLe.antisymm {values other : List Int} (h : LexLe values other)
    (h' : LexLe other values) : values = other := by
  rcases h with rfl | hlt
  · rfl
  · rcases h' with rfl | hgt
    · rfl
    · have hlt : values < other := hlt
      have hgt : other < values := hgt
      exact absurd hgt (lt_asymm hlt)

namespace Program

variable {p : Program}

theorem spans_initialReach : Spans p.rows.length p.columns (fun _ => 0) p.initialReach := by
  intro row
  -- every column spreads the reach by what it can contribute
  have hfold : ∀ (columns : List Column) (reach : Array Reach),
      (columns.foldl (fun reach c => c.spread reach) reach)[row]? = reach[row]?.map fun r =>
        ⟨r.least + leastRest columns row, r.greatest + greatestRest columns row⟩ := by
    intro columns
    induction columns with
    | nil => intro reach; simp [leastRest, greatestRest]
    | cons c columns ih =>
      intro reach
      rw [List.foldl_cons, ih, Column.getElem?_spread, Option.map_map, leastRest_cons,
        greatestRest_cons]
      simp only [Function.comp_def, add_assoc]
  rw [initialReach, hfold, Array.getElem?_replicate]
  split <;> rfl

/-- Every row can be met before any column is settled. -/
def meetable (p : Program) : Bool :=
  (p.rows.zip p.initialReach.toList).all fun (bound, r) => bound.reachable r

theorem meetable_iff : p.meetable = true ↔ Reachable p.rows p.initialReach := by
  rw [meetable, all_zip_iff]
  simp only [Array.getElem?_toList]
  rfl

/-- In a program that passes its check, what is answered is the outcome of the search, if every row
can be met before. -/
theorem firstSolution_eq_ite (hcheck : p.check = .ok ()) (limit : Option Nat) :
    p.firstSolution limit = if p.meetable then
        (search limit p.rows.toArray p.columns p.initialReach 0).answer limit
      else .ok none := by
  rw [firstSolution, hcheck, ok_bind]
  refine if_congr Iff.rfl ?_ rfl
  cases search limit p.rows.toArray p.columns p.initialReach 0 with
  | found values nodes => rfl
  | exhausted restored nodes => rfl
  | gaveUp => rfl

/-- In a program that passes its check, the completions of all columns are the solutions. -/
theorem completes_iff_isSolution (hcheck : p.check = .ok ()) {values : List Int} :
    Completes p.rows p.columns (fun _ => 0) values ↔ p.isSolution values = true := by
  rw [isSolution_iff_of_check hcheck, Completes]
  simp only [zero_add]

/-- Under any limit the search answers the least solution in the order of the columns, or rightly
that there is none. It gives up only at a limit below the size of the tree. -/
theorem firstSolution_cases (hcheck : p.check = .ok ()) (limit : Option Nat) :
    (∃ values, p.firstSolution limit = .ok (some values) ∧ p.isSolution values = true ∧
      ∀ other, p.isSolution other = true → LexLe values other) ∨
    (p.firstSolution limit = .ok none ∧ ∀ values, ¬ p.isSolution values = true) ∨
    ∃ m, limit = some m ∧ m < treeSize p.columns ∧
      p.firstSolution limit = .error (.solver (.gaveUp m)) := by
  simp only [← completes_iff_isSolution hcheck]
  have hspans := spans_initialReach (p := p)
  rw [firstSolution_eq_ite hcheck]
  by_cases hmeetable : p.meetable = true
  · -- every row can be met at the start
    rw [if_pos hmeetable]
    have hdecided := search_decides limit p.rows p.columns (check_eq_ok_iff.1 hcheck).2.1
      (fun _ => 0) p.initialReach 0 hspans (meetable_iff.1 hmeetable)
    cases hout : search limit p.rows.toArray p.columns p.initialReach 0 with
    | found values nodes =>
      rw [hout] at hdecided
      exact Or.inl ⟨values, rfl, hdecided⟩
    | exhausted restored nodes =>
      rw [hout] at hdecided
      exact Or.inr (Or.inl ⟨rfl, hdecided.2⟩)
    | gaveUp =>
      rw [hout] at hdecided
      obtain ⟨m, rfl⟩ := Option.ne_none_iff_exists'.1 hdecided
      refine Or.inr (Or.inr ⟨m, rfl, ?_, rfl⟩)
      -- with room for the whole tree it would not have given up
      by_contra hle
      have hended := search_endsBy (some m) p.rows.toArray p.columns p.initialReach 0
        fun m' hm' => by
          obtain rfl := Option.some.inj hm'
          omega
      rw [hout] at hended
      exact hended
  · -- a row that cannot be met rules out every solution
    rw [if_neg hmeetable]
    exact Or.inr (Or.inl ⟨rfl, fun values h => hmeetable (meetable_iff.2 (hspans.reachable h))⟩)

/-- Without a limit the search answers the least solution in the order of the columns, or nothing
when there is no solution. -/
theorem firstSolution_decides (hcheck : p.check = .ok ()) :
    (∃ values, p.firstSolution none = .ok (some values) ∧ p.isSolution values = true ∧
      ∀ other, p.isSolution other = true → LexLe values other) ∨
    (p.firstSolution none = .ok none ∧ ∀ values, ¬ p.isSolution values = true) := by
  rcases firstSolution_cases hcheck none with hfound | hnone | ⟨m, hm, -, -⟩
  · exact Or.inl hfound
  · exact Or.inr hnone
  · cases hm

/-- A limit that is not below the size of the tree changes nothing. -/
theorem firstSolution_eq_of_treeSize_le (hcheck : p.check = .ok ()) {limit : Nat}
    (hlimit : treeSize p.columns ≤ limit) :
    p.firstSolution (some limit) = p.firstSolution none := by
  rcases firstSolution_cases hcheck (some limit) with
    ⟨values, hvalues, hsolves, hleast⟩ | ⟨hnone, hinfeasible⟩ | ⟨m, hm, hlt, -⟩
  · -- both find the least solution, which is one
    rcases firstSolution_decides hcheck with ⟨other, hother, hsolves', hleast'⟩ | ⟨-, hno⟩
    · rw [hvalues, hother, (hleast other hsolves').antisymm (hleast' values hsolves)]
    · exact absurd hsolves (hno values)
  · -- both say that there is no solution
    rcases firstSolution_decides hcheck with ⟨other, -, hsolves', -⟩ | ⟨hnone', -⟩
    · exact absurd hsolves' (hinfeasible other)
    · rw [hnone, hnone']
  · obtain rfl := Option.some.inj hm
    omega

/-- **The search is sound, complete and ends.** For a program that passes its check it answers a
solution that is least in the order of the columns, or nothing exactly when there is no solution. It
visits no more nodes than the tree of all values has. -/
theorem firstSolution_least (hcheck : p.check = .ok ()) :
    ∃ answer, p.firstSolution none = .ok answer ∧
      (∀ values, answer = some values → p.isSolution values = true ∧
        ∀ other, p.isSolution other = true → values = other ∨ List.Lex (· < ·) values other) ∧
      (answer = none ↔ ∀ values, p.isSolution values = false) ∧
      ∀ limit, treeSize p.columns ≤ limit → p.firstSolution (some limit) = .ok answer := by
  rcases firstSolution_decides hcheck with ⟨values, hvalues, hsolves, hleast⟩ | ⟨hnone, hno⟩
  · refine ⟨some values, hvalues, ?_, ?_, fun limit hlimit => ?_⟩
    · rintro _ ⟨⟩
      exact ⟨hsolves, hleast⟩
    · -- the solution found is one
      refine ⟨nofun, fun hall => ?_⟩
      rw [hall values] at hsolves
      cases hsolves
    · rw [firstSolution_eq_of_treeSize_le hcheck hlimit, hvalues]
  · refine ⟨none, hnone, nofun, ?_, fun limit hlimit => ?_⟩
    · simpa using hno
    · rw [firstSolution_eq_of_treeSize_le hcheck hlimit, hnone]

end Program

end LossSketch
