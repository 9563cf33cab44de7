import LossSketch.Proofs.Program.FirstSolution

/-!
# Searches under a limit

Under a limit a search visits the same nodes in the same order as without one, up to the first node
beyond the limit.

* `Outcome.cutAt` turns an outcome that took more nodes than a limit into giving up.
* `search_limited` — a search under a limit comes to what the search without one comes to, cut off
  at the limit. Since a search only adds to the nodes visited before it (`search_after`), there is
  nothing to come back from once more nodes than the limit were visited.
* `Program.visited` is the number of nodes that the search for the first solution visits.
* `Program.firstSolution_limited` — the search gives up at every limit below this number, and no
  other limit changes its answer.
-/

namespace LossSketch

/-! ## How many nodes an outcome took -/

namespace Outcome

variable {σ : Type}

/-- The number of nodes that were visited on the way to an answer. -/
def nodes : Outcome σ → Nat
  | found _ nodes => nodes
  | exhausted _ nodes => nodes
  | gaveUp => 0

/-- What an outcome becomes under a limit. -/
def cutAt (limit : Nat) (outcome : Outcome σ) : Outcome σ :=
  if outcome.nodes ≤ limit then outcome else .gaveUp

theorem cutAt_of_le {limit : Nat} {outcome : Outcome σ} (h : outcome.nodes ≤ limit) :
    outcome.cutAt limit = outcome := if_pos h

theorem cutAt_of_lt {limit : Nat} {outcome : Outcome σ} (h : limit < outcome.nodes) :
    outcome.cutAt limit = .gaveUp := if_neg (Nat.not_le.2 h)

/-- The search gave up, or had visited so many nodes at least. -/
def After (bound : Nat) : Outcome σ → Prop
  | found _ nodes => bound ≤ nodes
  | exhausted _ nodes => bound ≤ nodes
  | gaveUp => True

theorem After.mono {bound bound' : Nat} {outcome : Outcome σ} (h : outcome.After bound)
    (hle : bound' ≤ bound) : outcome.After bound' := by
  cases outcome with
  | found values nodes => exact Nat.le_trans hle h
  | exhausted reach nodes => exact Nat.le_trans hle h
  | gaveUp => trivial

theorem After.cutAt_eq {bound limit : Nat} {outcome : Outcome σ} (h : outcome.After bound)
    (hlt : limit < bound) : outcome.cutAt limit = .gaveUp := by
  cases outcome with
  | found values nodes => exact cutAt_of_lt (Nat.lt_of_lt_of_le hlt h)
  | exhausted reach nodes => exact cutAt_of_lt (Nat.lt_of_lt_of_le hlt h)
  | gaveUp => exact cutAt_of_le (Nat.zero_le _)

end Outcome

/-! ## A search adds to the nodes visited before it -/

section Nodes

variable {limit : Option Nat} {rows : Array Bound} {c : Column} {left : Nat}
  {next nextLimited : Array Reach → Nat → Outcome (Array Reach)}

/-- The first of the values left is one node more. -/
theorem tryValues_succ_after
    (hnext : ∀ (reach : Array Reach) (nodes : Nat), (next reach nodes).After nodes)
    (hrest : ∀ (value : Int) (reach : Array Reach) (nodes : Nat),
      (Program.tryValues limit rows c next left value reach nodes).After nodes)
    (value : Int) (reach : Array Reach) (nodes : Nat) :
    (Program.tryValues limit rows c next (left + 1) value reach nodes).After (nodes + 1) := by
  unfold Program.tryValues
  split
  · -- the limit is reached
    trivial
  · simp only
    split
    · -- the later columns add to this node, and the other values to what they come to
      have hafter := hnext (c.settle value reach) (nodes + 1)
      cases hout : next (c.settle value reach) (nodes + 1) with
      | found values nodes' =>
        rw [hout] at hafter
        exact hafter
      | exhausted restored nodes' =>
        rw [hout] at hafter
        exact (hrest _ _ nodes').mono hafter
      | gaveUp => trivial
    · exact hrest _ _ (nodes + 1)

theorem tryValues_after
    (hnext : ∀ (reach : Array Reach) (nodes : Nat), (next reach nodes).After nodes)
    (left : Nat) (value : Int) (reach : Array Reach) (nodes : Nat) :
    (Program.tryValues limit rows c next left value reach nodes).After nodes := by
  induction left generalizing value reach nodes with
  | zero =>
    unfold Program.tryValues
    exact Nat.le_refl _
  | succ left ih => exact (tryValues_succ_after hnext ih value reach nodes).mono (Nat.le_succ _)

/-- A search adds to the nodes visited before it. -/
theorem search_after (limit : Option Nat) (rows : Array Bound) (columns : List Column)
    (reach : Array Reach) (nodes : Nat) :
    (Program.search limit rows columns reach nodes).After nodes := by
  induction columns generalizing reach nodes with
  | nil =>
    unfold Program.search
    exact Nat.le_refl _
  | cons c columns ih =>
    unfold Program.search
    exact tryValues_after ih c.width c.range.lower reach nodes

/-! ## A search under a limit -/

/-- If a limit cuts off the search of the later columns, it cuts off trying the values of a column
in turn. -/
theorem tryValues_limited {limit : Nat}
    (hnext : ∀ (reach : Array Reach) (nodes : Nat), nodes ≤ limit →
      nextLimited reach nodes = (next reach nodes).cutAt limit)
    (hafter : ∀ (reach : Array Reach) (nodes : Nat), (next reach nodes).After nodes)
    (left : Nat) (value : Int) (reach : Array Reach) (nodes : Nat) (hnodes : nodes ≤ limit) :
    Program.tryValues (some limit) rows c nextLimited left value reach nodes =
      (Program.tryValues none rows c next left value reach nodes).cutAt limit := by
  induction left generalizing value reach nodes with
  | zero => exact (if_pos hnodes).symm
  | succ left ih =>
    rcases Nat.eq_or_lt_of_le hnodes with rfl | hroom
    · -- this value is the first node beyond the limit
      rw [(tryValues_succ_after hafter (tryValues_after hafter left) value reach nodes).cutAt_eq
        (Nat.lt_succ_self _)]
      unfold Program.tryValues
      exact if_pos (by simp)
    · -- there is room for this node, with a limit and without one
      have hsome : ¬ (some limit).any (· ≤ nodes) = true := by simpa using hroom
      have hnone : ¬ (none : Option Nat).any (· ≤ nodes) = true := by simp
      unfold Program.tryValues
      rw [if_neg hsome, if_neg hnone]
      simp only
      split
      · -- the later columns are cut off, or what they come to is within the limit
        rw [hnext _ _ hroom]
        cases hout : next (c.settle value reach) (nodes + 1) with
        | found values nodes' =>
          rcases Nat.lt_or_ge limit nodes' with hlt | hle
          · rw [Outcome.cutAt_of_lt
              (show limit < (Outcome.found values nodes' : Outcome (Array Reach)).nodes from hlt)]
            exact (Outcome.cutAt_of_lt hlt).symm
          · rw [Outcome.cutAt_of_le
              (show (Outcome.found values nodes' : Outcome (Array Reach)).nodes ≤ limit from hle)]
            exact (Outcome.cutAt_of_le hle).symm
        | exhausted restored nodes' =>
          rcases Nat.lt_or_ge limit nodes' with hlt | hle
          · -- the other values only add to that
            rw [Outcome.cutAt_of_lt
              (show limit < (Outcome.exhausted restored nodes').nodes from hlt)]
            exact ((tryValues_after hafter left _ _ nodes').cutAt_eq hlt).symm
          · rw [Outcome.cutAt_of_le
              (show (Outcome.exhausted restored nodes').nodes ≤ limit from hle)]
            exact ih _ _ nodes' hle
        | gaveUp => rfl
      · exact ih _ _ (nodes + 1) hroom

/-- **A search under a limit** comes to what the search without one comes to, cut off there. -/
theorem search_limited {limit : Nat} (rows : Array Bound) (columns : List Column)
    (reach : Array Reach) (nodes : Nat) (hnodes : nodes ≤ limit) :
    Program.search (some limit) rows columns reach nodes =
      (Program.search none rows columns reach nodes).cutAt limit := by
  induction columns generalizing reach nodes with
  | nil => exact (if_pos hnodes).symm
  | cons c columns ih =>
    unfold Program.search
    exact tryValues_limited ih (search_after none rows columns) c.width c.range.lower reach nodes
      hnodes

end Nodes

/-! ## Programs -/

namespace Program

variable {p : Program}

/-- The number of nodes that the search for the first solution visits. It visits none if some row
cannot be met from the start. -/
def visited (p : Program) : Nat :=
  if p.meetable then (search none p.rows.toArray p.columns p.initialReach 0).nodes else 0

/-- A limit gives up below the number of nodes that are visited without it. -/
theorem firstSolution_some (hcheck : p.check = .ok ()) (limit : Nat) :
    p.firstSolution (some limit) =
      if p.visited ≤ limit then p.firstSolution none else .error (.solver (.gaveUp limit)) := by
  rw [firstSolution_eq_ite hcheck, firstSolution_eq_ite hcheck, visited]
  by_cases hmeetable : p.meetable = true
  · rw [if_pos hmeetable, if_pos hmeetable, if_pos hmeetable,
      search_limited _ _ _ _ (Nat.zero_le limit)]
    rcases Nat.lt_or_ge limit (search none p.rows.toArray p.columns p.initialReach 0).nodes with
      hlt | hle
    · rw [Outcome.cutAt_of_lt hlt, if_neg (Nat.not_le.2 hlt)]
      rfl
    · rw [Outcome.cutAt_of_le hle, if_pos hle]
      -- without a limit the search does not give up
      have hended := search_endsBy none p.rows.toArray p.columns p.initialReach 0 nofun
      cases hout : search none p.rows.toArray p.columns p.initialReach 0 with
      | found values nodes => rfl
      | exhausted restored nodes => rfl
      | gaveUp =>
        rw [hout] at hended
        exact hended.elim
  · -- no node is visited, so every limit leaves room
    rw [if_neg hmeetable, if_neg hmeetable, if_neg hmeetable, if_pos (Nat.zero_le _)]

/-- What a search answers under any limit is right. -/
theorem firstSolution_sound (hcheck : p.check = .ok ()) {limit : Option Nat}
    {answer : Option (List Int)} (h : p.firstSolution limit = .ok answer) :
    (∀ values, answer = some values → p.isSolution values = true) ∧
      (answer = none → ∀ values, p.isSolution values = false) := by
  rcases firstSolution_cases hcheck limit with
    ⟨values, hfound, hsolution, -⟩ | ⟨hnone, hno⟩ | ⟨m, -, -, hgaveUp⟩
  · cases hfound.symm.trans h
    refine ⟨?_, nofun⟩
    rintro _ ⟨⟩
    exact hsolution
  · cases hnone.symm.trans h
    exact ⟨nofun, fun _ values => by simpa using hno values⟩
  · cases hgaveUp.symm.trans h

/-- **A limit only turns an answer into giving up.** For every program that passes its check there
is a number of nodes from which on a limit changes nothing, and below which the search gives up. So
what is answered under a limit is right, is the answer without a limit, and stays the answer under
any greater limit. -/
theorem firstSolution_limited (hcheck : p.check = .ok ()) :
    (∃ answer, p.firstSolution none = .ok answer) ∧
    (∀ limit, p.visited ≤ limit → p.firstSolution (some limit) = p.firstSolution none) ∧
    (∀ limit < p.visited, p.firstSolution (some limit) = .error (.solver (.gaveUp limit))) ∧
    ∀ limit answer, p.firstSolution (some limit) = .ok answer →
      (∀ values, answer = some values → p.isSolution values = true) ∧
      (answer = none → ∀ values, p.isSolution values = false) ∧
      p.firstSolution none = .ok answer ∧
      ∀ more, limit ≤ more → p.firstSolution (some more) = .ok answer := by
  have henough : ∀ limit, p.visited ≤ limit →
      p.firstSolution (some limit) = p.firstSolution none := by
    intro limit hle
    rw [firstSolution_some hcheck, if_pos hle]
  have hshort : ∀ limit < p.visited,
      p.firstSolution (some limit) = .error (.solver (.gaveUp limit)) := by
    intro limit hlt
    rw [firstSolution_some hcheck, if_neg (Nat.not_le.2 hlt)]
  refine ⟨?_, henough, hshort, fun limit answer hanswer => ?_⟩
  · rcases firstSolution_decides hcheck with ⟨values, hvalues, -⟩ | ⟨hnone, -⟩
    · exact ⟨_, hvalues⟩
    · exact ⟨_, hnone⟩
  · obtain ⟨hfound, hnone⟩ := firstSolution_sound hcheck hanswer
    refine ⟨hfound, hnone, ?_⟩
    -- there was an answer, so the limit leaves room for it, and a greater one does too
    rcases Nat.lt_or_ge limit p.visited with hlt | hle
    · cases (hshort limit hlt).symm.trans hanswer
    · have hsame := (henough limit hle).symm.trans hanswer
      exact ⟨hsame, fun more hmore => (henough more (hle.trans hmore)).trans hsame⟩

end Program

end LossSketch
