import LossSketch.Losses.Checked
import LossSketch.Proofs.Bucket.Checked
import LossSketch.Proofs.Program.OneBucket
import LossSketch.Proofs.Program.WordSized

/-!
# The program of a difference table in words

The coefficients of the program of a difference are formed in words, and so are the sums of its rows
that an assignment is tested with.

* `Table.ofDifferenceChecked_eq` — building the program stops exactly if a coefficient is no word.
* `Table.RoomFor` — the counts, and the candidates with their hash functions, are few enough for the
  modulus. `Table.RoomFor.wordSized` says that words are then wide enough for the program.
* `Program.ofDifferenceChecked_exact` — what the tests in words say of a difference.
  `Program.ofDifferenceChecked_wraps` — of `Table.crowded`, which has no room for its candidates,
  sums that wrap say something false.
-/

namespace LossSketch

namespace Table

variable {kind : Kind}

/-! ## Coefficients -/

/-- What a candidate adds to the rows of one of its buckets. -/
def incidenceEntries (t : Table kind) (key : UInt32) (e : Nat × Nat) : List (Nat × Int) :=
  if kind = .summing then
    [(e.1, (e.2 : Int)), (t.cells.size + e.1, e.2 * ((key % t.session.modulus).toNat : Int))]
  else [(e.1, (e.2 : Int))]

/-- What it adds to the sum of the bucket is a word. -/
def IncidenceFits (t : Table kind) (key : UInt32) (e : Nat × Nat) : Prop :=
  kind = .summing → Signed64 (e.2 * ((key % t.session.modulus).toNat : Int))

instance (t : Table kind) (key : UInt32) : DecidablePred (t.IncidenceFits key) :=
  fun _ => inferInstanceAs (Decidable (_ → _))

/-- The coefficients of a candidate are words. -/
def EntriesFit (t : Table kind) (key : UInt32) : Prop :=
  ∀ e ∈ t.incidences key, t.IncidenceFits key e

instance (t : Table kind) : DecidablePred t.EntriesFit :=
  fun key => inferInstanceAs (Decidable (∀ e ∈ t.incidences key, t.IncidenceFits key e))

theorem decisionEntries_eq (t : Table kind) (key : UInt32) :
    t.decisionEntries key = (t.incidences key).flatMap (t.incidenceEntries key) := rfl

theorem decisionEntriesChecked_eq (t : Table kind) (key : UInt32) :
    t.decisionEntriesChecked key =
      if t.EntriesFit key then some (t.decisionEntries key) else none := by
  have hsteps : t.decisionEntriesChecked key = ((t.incidences key).mapM fun e =>
      if t.IncidenceFits key e then some (t.incidenceEntries key e) else none) >>= fun entries =>
        pure entries.flatten := by
    unfold decisionEntriesChecked
    dsimp only
    congr 2
    funext e
    unfold IncidenceFits incidenceEntries
    by_cases hkind : kind = .summing
    · simp only [hkind, if_true, forall_const]
      by_cases hfits : Signed64 (e.2 * ((key % t.session.modulus).toNat : Int))
      · rw [signed?_of_signed64 hfits, if_pos hfits]
        rfl
      · rw [signed?_eq_none hfits, if_neg hfits]
        rfl
    · simp only [hkind, if_false, false_implies, if_true]
  rw [hsteps, mapM_ite, decisionEntries_eq]
  by_cases hfits : ∀ e ∈ t.incidences key, t.IncidenceFits key e
  · rw [if_pos hfits, if_pos (show t.EntriesFit key from hfits)]
    rfl
  · rw [if_neg hfits, if_neg (show ¬t.EntriesFit key from hfits)]
    rfl

/-- **Building the program stops** exactly if a coefficient of a possible candidate is no word. -/
theorem ofDifferenceChecked_eq {t : Table kind} (hcheck : t.checkLosses = .ok ())
    (candidates : List UInt32) (expected : Nat) :
    Program.ofDifferenceChecked t candidates expected =
      if ∀ e ∈ t.possible candidates, t.EntriesFit e.1 then .ok (t.program candidates expected)
      else .error .overflow := by
  have hloop : ((t.possible candidates).mapM fun e => t.decisionEntriesChecked e.1) =
      if ∀ e ∈ t.possible candidates, t.EntriesFit e.1 then
        some ((t.possible candidates).map fun e => t.decisionEntries e.1) else none := by
    simp only [decisionEntriesChecked_eq]
    exact mapM_ite _ _
  unfold Program.ofDifferenceChecked
  rw [hcheck]
  show (Checked.step ((t.possible candidates).mapM fun e => t.decisionEntriesChecked e.1) >>= _) = _
  rw [hloop, wrapColumns_eq]
  split
  · show Except.ok _ = Except.ok _
    rw [List.map_map]
    rfl
  · rfl

/-! ## Room -/

/-- Words are wide enough for the program of the table with `n` candidates. A candidate can put one
for each hash function into the count of a bucket, and into its sum less than the modulus for each.
The auxiliary column takes off the modulus as often as the bucket counts. -/
def RoomFor (t : Table kind) (n : Nat) : Prop :=
  (t.session.hashes.toNat : Int) * n < 2 ^ 63 ∧
    (kind = .summing → ∀ b < t.cells.size,
      (t.session.modulus.toNat : Int) * (t.session.hashes.toNat * n + (t.cell b).count) < 2 ^ 63)

instance (t : Table kind) (n : Nat) : Decidable (t.RoomFor n) :=
  inferInstanceAs (Decidable (_ ∧ _))

/-- A key is sent to a bucket no more often than there are hash functions. -/
theorem count_bucketsOf_le (t : Table kind) (key : UInt32) (b : Nat) :
    (t.bucketsOf key).count b ≤ t.session.hashes.toNat := by
  have hlength : (t.bucketsOf key).count b ≤ (t.bucketsOf key).length := List.count_le_length
  rwa [bucketsOf, Session.length_bucketsOf] at hlength

theorem arrivals_le (t : Table kind) (keys : List UInt32) (b : Nat) :
    t.arrivals keys b ≤ t.session.hashes.toNat * keys.length := by
  induction keys with
  | nil => exact Nat.zero_le _
  | cons key keys ih =>
    have hkey := t.count_bucketsOf_le key b
    rw [arrivals_cons, List.length_cons, Nat.mul_succ]
    omega

theorem length_possible_le (t : Table kind) (candidates : List UInt32) :
    (t.possible candidates).length ≤ candidates.length := by
  have hle := List.length_filter_le (fun e : UInt32 × Nat => t.mayHold e.1) candidates.zipIdx
  rwa [List.length_zipIdx] at hle

/-! ## Weights -/

theorem weight_decisionColumn (t : Table kind) (e : UInt32 × Nat) (row : Nat) :
    (t.decisionColumn e).weight row = rowTotal (t.decisionEntries e.1) row := by
  have hnonneg : ∀ entry ∈ t.decisionEntries e.1, 0 ≤ entry.2 := by
    intro entry hentry
    rw [decisionEntries_eq] at hentry
    obtain ⟨incidence, -, hmem⟩ := List.mem_flatMap.1 hentry
    unfold incidenceEntries at hmem
    split at hmem
    · rcases List.mem_pair.1 hmem with rfl | rfl
      · exact Int.natCast_nonneg _
      · exact mul_nonneg (Int.natCast_nonneg _) (Int.natCast_nonneg _)
    · rw [List.mem_singleton.1 hmem]
      exact Int.natCast_nonneg _
  -- the entries are no less than zero, and the greatest value is one
  have hsame : (t.decisionEntries e.1).map (fun entry =>
      (entry.1, ((entry.2.natAbs * (Range.binary).span : Nat) : Int))) = t.decisionEntries e.1 := by
    refine (List.map_congr_left fun entry hentry => ?_).trans (List.map_id _)
    have hentry := hnonneg entry hentry
    refine Prod.ext rfl ?_
    show ((entry.2.natAbs * 1 : Nat) : Int) = entry.2
    omega
  exact congrArg (rowTotal · row) hsame

theorem weight_wrapColumn (t : Table kind) (e : Cell kind × Nat) (row : Nat) :
    (t.wrapColumn e).weight row =
      if t.cells.size + e.2 = row then ((t.session.modulus.toNat * e.1.count.natAbs : Nat) : Int)
      else 0 := by
  have hspan : (t.wrapColumn e).range.span = e.1.count.natAbs := Nat.zero_max _
  show rowTotal [(t.cells.size + e.2, _)] row = _
  rw [rowTotal_cons, rowTotal_nil, add_zero]
  dsimp only
  rw [Int.natAbs_neg, Int.natAbs_natCast, hspan]

section

variable {t : Table kind} (ht : t.WellFormed) (candidates : List UInt32) {b : Nat}
  (hb : b < t.cells.size)
include hb

/-- What all candidates together can put into the count of a bucket. -/
theorem weightRest_decisions_count :
    weightRest ((t.possible candidates).map t.decisionColumn) b =
      t.arrivals ((t.possible candidates).map Prod.fst) b := by
  rw [weightRest, arrivals, Nat.cast_list_sum, List.map_map, List.map_map, List.map_map]
  refine congrArg List.sum (List.map_congr_left fun e _ => ?_)
  exact (t.weight_decisionColumn e b).trans (rowTotal_decisionEntries_count t e.1 hb)

omit hb in
include ht in
/-- What they can put into its sum. -/
theorem weightRest_decisions_sum (hkind : kind = .summing) :
    weightRest ((t.possible candidates).map t.decisionColumn) (t.cells.size + b) =
      t.residues ((t.possible candidates).map Prod.fst) b := by
  rw [weightRest, residues, Nat.cast_list_sum, List.map_map, List.map_map, List.map_map]
  refine congrArg List.sum (List.map_congr_left fun e _ => ?_)
  refine (t.weight_decisionColumn e _).trans
    ((rowTotal_decisionEntries_sum ht hkind e.1 b).trans ?_)
  exact (Nat.cast_mul _ _).symm

theorem weightRest_wraps_count : weightRest (t.wrapping.map t.wrapColumn) b = 0 := by
  rw [weightRest, List.map_map]
  refine List.sum_eq_zero fun x hx => ?_
  obtain ⟨e, -, rfl⟩ := List.mem_map.1 hx
  exact (t.weight_wrapColumn e b).trans (if_neg (by omega))

omit hb in
/-- The auxiliary column of a bucket takes off the modulus as often as the bucket counts. -/
theorem weightRest_wraps_sum_le (hcount : 0 ≤ (t.cell b).count) :
    weightRest (t.wrapping.map t.wrapColumn) (t.cells.size + b) ≤
      t.session.modulus.toNat * (t.cell b).count := by
  have hother : ∀ e, e ≠ (t.cell b, b) → e ∈ t.wrapping →
      ((fun c : Column => c.weight (t.cells.size + b)) ∘ t.wrapColumn) e = 0 := by
    intro e hne he
    have hj : e.2 ≠ b := by
      rintro rfl
      exact hne (Prod.ext (mem_wrapping.1 he).2.2.1 rfl)
    exact (t.weight_wrapColumn e _).trans (if_neg (by omega))
  rw [weightRest, List.map_map, sum_map_eq_ite_mem t.nodup_wrapping _ _ hother]
  split
  · refine (t.weight_wrapColumn _ _).le.trans ?_
    rw [if_pos rfl, Nat.cast_mul, Int.natAbs_of_nonneg hcount]
  · exact mul_nonneg (Int.natCast_nonneg _) hcount

end

theorem row_cases {t : Table kind} {row : Nat} (h : row < t.rowBounds.length) :
    row < t.cells.size ∨ kind = .summing ∧ ∃ b < t.cells.size, row = t.cells.size + b := by
  rw [length_rowBounds] at h
  rcases Nat.lt_or_ge row t.cells.size with hlt | hge
  · exact Or.inl hlt
  · right
    split at h
    · rename_i hkind
      exact ⟨hkind, row - t.cells.size, by omega, by omega⟩
    · omega

/-- No more candidates are sent to a bucket than there are hash functions for them. -/
theorem arrivals_possible_le (t : Table kind) (candidates : List UInt32) (b : Nat) :
    t.arrivals ((t.possible candidates).map Prod.fst) b ≤
      t.session.hashes.toNat * candidates.length := by
  refine (t.arrivals_le _ b).trans (Nat.mul_le_mul_left _ ?_)
  rw [List.length_map]
  exact t.length_possible_le candidates

section

variable {t : Table kind} (ht : t.WellFormed) (hcheck : t.checkLosses = .ok ())
  {candidates : List UInt32} (h : t.RoomFor candidates.length)
include h

/-- What the candidates put into a count is what room is made for at most. -/
theorem RoomFor.weightRest_count_lt {b : Nat} (hb : b < t.cells.size) :
    weightRest ((t.possible candidates).map t.decisionColumn ++ t.wrapping.map t.wrapColumn) b <
      2 ^ 63 := by
  have harrivals := Int.ofNat_le.2 (arrivals_possible_le t candidates b)
  have hkeys := h.1
  rw [weightRest_append, weightRest_decisions_count candidates hb, weightRest_wraps_count hb]
  push_cast at harrivals
  omega

include ht hcheck

/-- What the candidates put into a sum, and what its auxiliary column takes off, is what room is
made for at most. -/
theorem RoomFor.weightRest_sum_lt (hkind : kind = .summing) {b : Nat} (hb : b < t.cells.size) :
    weightRest ((t.possible candidates).map t.decisionColumn ++ t.wrapping.map t.wrapColumn)
      (t.cells.size + b) < 2 ^ 63 := by
  have hresidues := residues_le ht ((t.possible candidates).map Prod.fst) b
  have hle := Int.ofNat_le.2 (hresidues.trans
    (Nat.mul_le_mul_right _ (arrivals_possible_le t candidates b)))
  have hwraps := weightRest_wraps_sum_le (count_nonneg_of_checkLosses hcheck b)
  have hwords := h.2 hkind b hb
  rw [weightRest_append, weightRest_decisions_sum ht candidates hkind]
  push_cast at hle
  rw [mul_add, mul_comm _ (_ * _ : Int)] at hwords
  omega

/-- As the modulus is more than one, room for the wraps of a bucket is more than room for its
count. -/
theorem RoomFor.count_lt (hkind : kind = .summing) {b : Nat} (hb : b < t.cells.size) :
    2 * (t.cell b).count < 2 ^ 63 := by
  have hwraps := h.2 hkind b hb
  have hmodulus := ht.usable.prime.two_le
  have hmul := mul_le_mul_of_nonneg_right (show (2 : Int) ≤ t.session.modulus.toNat by omega)
    (count_nonneg_of_checkLosses hcheck b)
  have hkeys : (0 : Int) ≤
      t.session.modulus.toNat * (t.session.hashes.toNat * candidates.length) :=
    mul_nonneg (Int.natCast_nonneg _) (mul_nonneg (Int.natCast_nonneg _) (Int.natCast_nonneg _))
  rw [mul_add] at hwraps
  omega

/-- **Where there is room, words are wide enough for the program** of a table that passes its
check. -/
theorem RoomFor.wordSized (expected : Nat) : (t.program candidates expected).WordSized where
  rows := by
    intro row hrow
    rcases row_cases hrow with hb | ⟨hkind, b, hb, rfl⟩
    · exact h.weightRest_count_lt hb
    · exact h.weightRest_sum_lt ht hcheck hkind hb
  ranges := by
    intro c hc
    rcases List.mem_append.1 hc with hc | hc
    · -- a decision is zero or one
      obtain ⟨e, -, rfl⟩ := List.mem_map.1 hc
      show Signed64 0 ∧ Signed64 2
      decide
    · -- an auxiliary column goes up to the count of its bucket
      obtain ⟨e, he, rfl⟩ := List.mem_map.1 hc
      obtain ⟨hkind, hb, hcell, hcount⟩ := mem_wrapping.1 he
      have hwords := h.count_lt ht hcheck hkind hb
      rw [← hcell] at hwords
      show Signed64 0 ∧ Signed64 (e.1.count + 1)
      exact ⟨by decide, by constructor <;> omega⟩
  candidates := by
    have hlength := t.length_possible_le candidates
    have hmul := Int.ofNat_le.2 (Nat.mul_le_mul_right candidates.length ht.usable.hashes_pos)
    have hkeys := h.1
    show (List.map _ _).length < _
    rw [List.length_map]
    push_cast at hmul
    omega

end

theorem le_of_mem_incidences {t : Table kind} {key : UInt32} {e : Nat × Nat}
    (he : e ∈ t.incidences key) : e.2 ≤ t.session.hashes.toNat := by
  have hnonneg : ∀ n ∈ (t.incidences key).map fun d => if d.1 = e.1 then (d.2 : Int) * 1 else 0,
      0 ≤ n := by
    intro n hn
    obtain ⟨d, -, rfl⟩ := List.mem_map.1 hn
    split <;> omega
  -- the incidences in a bucket add up to the number of hashes that fall there
  have hsingle := List.single_le_sum hnonneg _ (List.mem_map_of_mem he)
  have hcount := t.count_bucketsOf_le key e.1
  rw [sum_incidences, if_pos rfl] at hsingle
  omega

/-- Where there is room, all coefficients are words. -/
theorem RoomFor.entriesFit {t : Table kind} (ht : t.WellFormed) (hcheck : t.checkLosses = .ok ())
    {candidates : List UInt32} (h : t.RoomFor candidates.length) :
    ∀ e ∈ t.possible candidates, t.EntriesFit e.1 := by
  intro e he incidence hincidence hkind
  have hnonempty : 0 < candidates.length :=
    Nat.lt_of_lt_of_le (List.length_pos_of_mem he) (t.length_possible_le candidates)
  have hbucket := ht.lt_size (mem_bucketsOf_of_mem_incidences hincidence)
  have hwords := h.2 hkind _ hbucket
  have hcount := count_nonneg_of_checkLosses hcheck incidence.1
  -- the coefficient is less than what room is made for
  have hproduct : incidence.2 * (e.1 % t.session.modulus).toNat ≤
      t.session.modulus.toNat * (t.session.hashes.toNat * candidates.length) := by
    rw [mul_comm]
    refine Nat.mul_le_mul (mod_lt_modulus ht e.1).le ((le_of_mem_incidences hincidence).trans ?_)
    exact Nat.le_mul_of_pos_right _ hnonempty
  have hwraps : (0 : Int) ≤ t.session.modulus.toNat * (t.cell incidence.1).count :=
    mul_nonneg (Int.natCast_nonneg _) hcount
  have hle := Int.ofNat_le.2 hproduct
  have hpos : (0 : Int) ≤ incidence.2 * (e.1 % t.session.modulus).toNat :=
    mul_nonneg (Int.natCast_nonneg _) (Int.natCast_nonneg _)
  push_cast at hle
  rw [mul_add] at hwords
  constructor <;> omega

/-- Where there is room, building the program does not stop. -/
theorem RoomFor.ofDifferenceChecked_eq {t : Table kind} (ht : t.WellFormed)
    (hcheck : t.checkLosses = .ok ()) {candidates : List UInt32} (h : t.RoomFor candidates.length)
    (expected : Nat) :
    Program.ofDifferenceChecked t candidates expected = .ok (t.program candidates expected) :=
  (Table.ofDifferenceChecked_eq hcheck candidates expected).trans
    (if_pos (h.entriesFit ht hcheck))

/-! ## One bucket -/

theorem fits_crowd (hashes : UInt32) {count : Int} (hcount : Signed64 count) (sum : UInt32) :
    (crowd hashes count sum).Fits := by
  intro c hc
  obtain rfl : c = ⟨count, sum⟩ := by simpa [crowd] using hc
  exact hcount

theorem ofDifferenceChecked_crowd {hashes : UInt32} (hhashes : 0 < hashes.toNat) {count : Int}
    (hcount : 0 < count) (sum : UInt32) {key : UInt32}
    (hfits : Signed64 (hashes.toNat * (key % 4294967291).toNat)) (n expected : Nat) :
    Program.ofDifferenceChecked (crowd hashes count sum) (List.replicate n key) expected =
      .ok (crowdProgram hashes count sum key n expected) := by
  rw [ofDifferenceChecked_eq (checkLosses_crowd hcount), program_crowd hhashes hcount, if_pos]
  intro e he incidence hincidence _
  have hkey : e.1 = key :=
    List.eq_of_mem_replicate (List.mem_of_getElem? (mem_possible.1 he).1)
  rw [incidences_crowd hhashes] at hincidence
  rw [List.mem_singleton.1 hincidence, hkey]
  exact hfits

/-- A bucket that counts the key one from 129 candidates, each with 2 ^ 25 hash functions. They come
to a field sum of 33554437, and it records another one. -/
def crowded : Table .summing := crowd 33554432 4328521728 33554462

theorem wellFormed_crowded : crowded.WellFormed := wellFormed_crowd (by decide) (by decide)

theorem fits_crowded : crowded.Fits := fits_crowd _ (by decide) _

theorem ofDifferenceChecked_crowded :
    Program.ofDifferenceChecked crowded (List.replicate 129 1) 129 =
      .ok (crowdProgram 33554432 4328521728 33554462 1 129 129) :=
  ofDifferenceChecked_crowd (by decide) (by decide) _ (by decide) 129 129

/-- With sums that wrap, all candidates are accepted: the bucket counts enough keys for an auxiliary
column so large that its product with the modulus is no word. -/
theorem isSolutionChecked_crowded :
    (crowdProgram 33554432 4328521728 33554462 1 129 129).isSolutionChecked .wraps
      (List.replicate 129 1 ++ [4294967302]) = some true := by
  decide +kernel

theorem selected_crowded : (crowdProgram 33554432 4328521728 33554462 1 129 129).selected
    (List.replicate 129 1 ++ [4294967302]) = List.range 129 := by
  decide +kernel

theorem keysAt_range_crowded : keysAt (List.replicate 129 1) (List.range 129) =
    List.replicate 129 1 := by
  decide +kernel

theorem not_madeUpBy_crowded : ¬ crowded.MadeUpBy (List.replicate 129 1) := by
  rw [madeUpBy_iff wellFormed_crowded]
  intro hmade
  have hsum := (hmade 0 Nat.one_pos).2 33554462 rfl
  rw [crowded, residues_crowd (by decide)] at hsum
  exact absurd hsum (by decide +kernel)

end Table

namespace Program

variable {kind : Kind}

theorem eq_program_of_ofDifferenceChecked {diff : Table kind} (hcheck : diff.checkLosses = .ok ())
    {candidates : List UInt32} {expected : Nat} {p : Program}
    (h : ofDifferenceChecked diff candidates expected = .ok p) :
    p = diff.program candidates expected := by
  rw [Table.ofDifferenceChecked_eq hcheck] at h
  split at h
  · exact (Except.ok.inj h).symm
  · cases h

/-- **The program in words is exact, or it stops.** No set of candidates is the selection of an
accepted solution unless inserting them into an empty table gives the counts and the field sums of
the difference, and the solution that belongs to such a set is never refused. Where there is room
for the candidates, nothing stops, and sums that wrap do so nowhere: a set of candidates is then the
selection of an accepted solution exactly when it makes up the difference, and that solution is the
only one with this selection. Its auxiliary columns are the wraps, each from zero to the count of
its bucket. -/
theorem ofDifferenceChecked_exact {diff : Table kind} (hdiff : diff.WellFormed)
    (hcheck : diff.checkLosses = .ok ()) (candidates : List UInt32) (expected : Nat) :
    (∀ p, ofDifferenceChecked diff candidates expected = .ok p → p.check = .ok () ∧
      ∀ chosen : Finset Nat, (∀ i ∈ chosen, i < candidates.length) →
        (∀ values, p.isSolutionChecked .stops values = some true →
          p.selected values = chosen.sort → diff.MadeUpBy (keysAt candidates chosen.sort) ∧
            values = diff.assignment candidates chosen.sort) ∧
        (diff.MadeUpBy (keysAt candidates chosen.sort) →
          p.selected (diff.assignment candidates chosen.sort) = chosen.sort ∧
          p.isSolutionChecked .stops (diff.assignment candidates chosen.sort) ≠ some false)) ∧
    (diff.RoomFor candidates.length → ∃ p, ofDifferenceChecked diff candidates expected = .ok p ∧
      p.check = .ok () ∧
      ∀ overflow, (∀ values, ∃ solves, p.isSolutionChecked overflow values = some solves) ∧
        ∀ chosen : Finset Nat, (∀ i ∈ chosen, i < candidates.length) →
          ((∃ values, p.isSolutionChecked overflow values = some true ∧
              p.selected values = chosen.sort) ↔ diff.MadeUpBy (keysAt candidates chosen.sort)) ∧
          ∀ values, p.isSolutionChecked overflow values = some true →
            p.selected values = chosen.sort →
            values = diff.assignment candidates chosen.sort ∧
            ∀ e ∈ diff.wrapping, 0 ≤ diff.wraps (keysAt candidates chosen.sort) e ∧
              diff.wraps (keysAt candidates chosen.sort) e ≤ e.1.count) := by
  obtain ⟨p, hp, hform, hexact⟩ := ofDifference_exact hdiff hcheck candidates expected
  obtain rfl := Except.ok.inj ((Table.ofDifference_eq hcheck candidates expected).symm.trans hp)
  constructor
  · intro p hp
    obtain rfl := eq_program_of_ofDifferenceChecked hcheck hp
    refine ⟨hform, fun chosen hlt => ⟨fun values hvalues hselected => ?_, fun hmade => ?_⟩⟩
    · have hsolution := isSolution_of_isSolutionChecked hvalues
      obtain ⟨hiff, honly⟩ := hexact chosen hlt
      exact ⟨hiff.1 ⟨values, hsolution, hselected⟩, (honly values hsolution hselected).1⟩
    · have heligible := Table.eligible_of_madeUpBy hdiff (Finset.sortedLT_sort chosen).pairwise
        (fun i hi => hlt i ((Finset.mem_sort _).1 hi)) hmade
      refine ⟨heligible.selected_assignment expected, fun hrefused => ?_⟩
      have hsolution := Table.isSolution_assignment hdiff heligible hmade expected
      cases (isSolution_of_isSolutionChecked hrefused).symm.trans hsolution
  · intro hroom
    refine ⟨_, hroom.ofDifferenceChecked_eq hdiff hcheck expected, hform, fun overflow => ?_⟩
    have hsized := hroom.wordSized hdiff hcheck expected
    simp only [hsized.isSolutionChecked_eq, Option.some.injEq]
    exact ⟨fun values => ⟨_, rfl⟩, hexact⟩

theorem ofDifferenceChecked_exact_small : (Table.small .summing [200, 7]).checkLosses = .ok () ∧
    (Table.small .summing [200, 7]).RoomFor 3 ∧
    ∃ p, ofDifferenceChecked (Table.small .summing [200, 7]) [200, 31, 7] 2 = .ok p ∧
      ∃ values, p.isSolutionChecked .stops values = some true ∧ p.selected values = [0, 2] := by
  have hdiff := Table.wellFormed_small .summing [200, 7]
  have hcheck := (Table.holds_small .summing [200, 7]).checkLosses hdiff
  have hroom : (Table.small .summing [200, 7]).RoomFor 3 := by decide +kernel
  obtain ⟨p, hp, -, hexact⟩ :=
    (ofDifferenceChecked_exact hdiff hcheck [200, 31, 7] 2).2 hroom
  have hsort : [0, 2].toFinset.sort = [0, 2] :=
    (List.toFinset_sort (· ≤ ·) (by decide)).2 (by decide)
  have hchosen := (hexact .stops).2 [0, 2].toFinset (by decide)
  rw [hsort] at hchosen
  exact ⟨hcheck, hroom, p, hp, hchosen.1.2 (Table.madeUpBy_small .summing [200, 7])⟩

/-- With sums that wrap, a solution is accepted whose candidates do not make up the difference. -/
theorem ofDifferenceChecked_wraps : ∃ diff : Table .summing, diff.WellFormed ∧ diff.Fits ∧
    diff.checkLosses = .ok () ∧ ∃ p values,
      ofDifferenceChecked diff (List.replicate 129 1) 129 = .ok p ∧
      p.isSolutionChecked .wraps values = some true ∧ p.selected values = List.range 129 ∧
      ¬ diff.MadeUpBy (keysAt (List.replicate 129 1) (List.range 129)) := by
  rw [Table.keysAt_range_crowded]
  exact ⟨.crowded, Table.wellFormed_crowded, Table.fits_crowded,
    Table.checkLosses_crowd (by decide), _, _, Table.ofDifferenceChecked_crowded,
    Table.isSolutionChecked_crowded, Table.selected_crowded, Table.not_madeUpBy_crowded⟩

end Program

end LossSketch
