import LossSketch.Proofs.Losses.Held

/-!
# Losses in words

Decoding in words comes to what decoding on numbers of any size comes to, or it stops.

* `Table.lossesChecked_refines` — so for a difference, step by step.
  `Table.lossesChecked_refines_of_range` says where it may stop, and
  `Table.exists_lossesChecked_refines` takes any solver.
* `Table.Holds.fits` and `Table.Holds.fits_residual` — the counts of a table of keys are words where
  the keys are few, and peeling takes nothing away from that.
* `Table.foldlM_insertPacketChecked` — inserting packets is inserting their fingerprints.
* `Table.lossesFromChecked_eq` puts the steps of decoding a received table together, and
  `Table.exists_of_lossesFromChecked` takes them apart.
* `Table.lossesChecked_crowd` — in a table with one bucket all is left to the solver, and
  `Table.solveChecked_heavy` is one at which solving stops.
-/

namespace LossSketch

namespace Table

variable {kind : Kind}

/-! ## Differences -/

/-- Words that are wide enough for a table are wide enough for fewer candidates and smaller
counts. -/
theorem RoomFor.mono {t u : Table kind} {m n : Nat} (h : t.RoomFor n)
    (hsession : u.session = t.session) (hsize : u.cells.size = t.cells.size)
    (hcount : ∀ b, (u.cell b).count ≤ (t.cell b).count) (hle : m ≤ n) : u.RoomFor m := by
  have hkeys : (t.session.hashes.toNat : Int) * m ≤ t.session.hashes.toNat * n :=
    mul_le_mul_of_nonneg_left (Int.ofNat_le.2 hle) (Int.natCast_nonneg _)
  rw [RoomFor, hsession, hsize]
  refine ⟨hkeys.trans_lt h.1, fun hkind b hb => lt_of_le_of_lt ?_ (h.2 hkind b hb)⟩
  exact mul_le_mul_of_nonneg_left (add_le_add hkeys (hcount b)) (Int.natCast_nonneg _)

theorem length_candidatesLeft_le (candidates : List UInt32) (taken : List Nat) :
    (candidatesLeft candidates taken).length ≤ candidates.length :=
  (List.length_filter_le _ _).trans List.length_zipIdx.le

theorem ofDifferenceChecked_refines {diff : Table kind} (hdiff : diff.WellFormed)
    (hcheck : diff.checkLosses = .ok ()) (candidates : List UInt32) (expected : Nat) :
    Checked.Refines (¬ diff.RoomFor candidates.length)
      (Program.ofDifferenceChecked diff candidates expected)
      (Program.ofDifference diff candidates expected) := by
  rw [ofDifference_eq hcheck]
  by_cases hroom : diff.RoomFor candidates.length
  · exact Or.inl (hroom.ofDifferenceChecked_eq hdiff hcheck expected)
  · rw [ofDifferenceChecked_eq hcheck]
    split
    · exact Or.inl rfl
    · exact Or.inr ⟨hroom, rfl⟩

/-- Decoding is exact, or may stop, as peeling and solving do. -/
theorem lossesChecked_refines {may : Prop} {overflow : Overflow} {diff : Table kind}
    {candidates : List UInt32} {solver : Solver} {solver' : CheckedSolver}
    (hpeel : Checked.Refines may (Checked.step diff.peelChecked) (.ok diff.peel))
    (hsolve : diff.peel.residual.checkLosses = .ok () → ∀ left : List UInt32,
      left.length ≤ candidates.length → ∀ expected,
      Checked.Refines may (Program.ofDifferenceChecked diff.peel.residual left expected)
        (Program.ofDifference diff.peel.residual left expected) ∧
      Checked.Refines may ((diff.peel.residual.program left expected).solveChecked overflow solver')
        ((diff.peel.residual.program left expected).solve solver)) (expected : Nat) :
    Checked.Refines may (diff.lossesChecked overflow candidates expected solver')
      (diff.losses candidates expected solver) := by
  refine (Checked.Refines.report may diff.checkLosses).bind fun _ _ => hpeel.bind_step ?_
  refine (Checked.Refines.report may _).bind fun taken _ => ?_
  by_cases hcomplete : diff.peel.isComplete = true
  · rw [if_pos hcomplete, if_pos hcomplete]
    split <;> exact Or.inl rfl
  · rw [if_neg hcomplete, if_neg hcomplete]
    refine (Checked.Refines.report may _).bind fun _ hresidual => ?_
    split
    · exact Or.inl rfl
    · obtain ⟨hbuild, hsolves⟩ := hsolve hresidual ((candidatesLeft candidates taken).map Prod.fst)
        (by simpa using length_candidatesLeft_le candidates taken) (expected - taken.length)
      refine hbuild.bind fun program hprogram => ?_
      obtain rfl := Except.ok.inj ((ofDifference_eq hresidual _ _).symm.trans hprogram)
      refine (hsolves.mapError rfl fun _ => rfl).bind fun selected _ => ?_
      exact Or.inl rfl

section

variable {diff : Table kind} (hdiff : diff.WellFormed) {candidates : List UInt32}
  {overflow : Overflow} (hrange : overflow = .stops ∨ diff.RoomFor candidates.length)
include hdiff

/-- Peeling takes no room. -/
theorem RoomFor.residual {m n : Nat} (h : diff.RoomFor n) (hle : m ≤ n) :
    diff.peel.residual.RoomFor m :=
  h.mono (peels_peel diff).session_eq (peels_peel diff).size_eq
    (fun b => ((peels_peel diff).count_bounds hdiff b).1) hle

/-- Words are wide enough for solving where there is room. -/
theorem wordSized_residual (hresidual : diff.peel.residual.checkLosses = .ok ())
    (h : diff.RoomFor candidates.length) {left : List UInt32}
    (hleft : left.length ≤ candidates.length) (expected : Nat) :
    (diff.peel.residual.program left expected).WordSized :=
  (h.residual hdiff hleft).wordSized ((peels_peel diff).wellFormed hdiff) hresidual expected

include hrange

/-- Let sums out of range stop the test of answers, or let there be room. Then what any solver's
answers lead to is what they lead to on numbers of any size, unless the run stops. -/
theorem exists_lossesChecked_refines (hfits : diff.Fits) (expected : Nat)
    (solver' : CheckedSolver) : ∃ solver : Solver,
      Checked.Refines True (diff.lossesChecked overflow candidates expected solver')
        (diff.losses candidates expected solver) := by
  choose solver hsolver using fun p => Checked.Refines.exists_refines (solver' p)
  have hwell := (peels_peel diff).wellFormed hdiff
  refine ⟨solver, lossesChecked_refines ((peelChecked_refines hdiff hfits).mono fun _ => trivial)
    (fun hresidual left hleft e => ⟨?_, ?_⟩) expected⟩
  · exact (ofDifferenceChecked_refines hwell hresidual left e).mono fun _ => trivial
  · refine Program.solveChecked_refines (hsolver _) fun values => ?_
    exact (Program.isSolutionChecked_refines_of_range (hrange.imp_right fun h =>
      wordSized_residual hdiff hresidual h hleft e) values).mono fun _ => trivial

/-- With the search for a solver, the run stops only where there is no room, or where peeling
does. -/
theorem lossesChecked_refines_of_range (hfits : diff.Fits) (hpeel : diff.peel.residual.Fits)
    (expected : Nat) : Checked.Refines (¬ diff.RoomFor candidates.length)
      (diff.lossesChecked overflow candidates expected (Program.firstSolutionChecked · none))
      (diff.losses candidates expected (Program.firstSolution · none)) := by
  have hwell := (peels_peel diff).wellFormed hdiff
  refine lossesChecked_refines ((peelChecked_refines hdiff hfits).mono fun h => absurd hpeel h)
    (fun hresidual left hleft e => ⟨?_, ?_⟩) expected
  · exact (ofDifferenceChecked_refines hwell hresidual left e).mono
      (mt fun h => h.residual hdiff hleft)
  · have hsized := fun h => wordSized_residual hdiff hresidual h hleft e
    exact (Program.solveChecked_refines_of_range (hrange.imp_right hsized) none).mono (mt hsized)

end

/-! ## Tables of keys -/

/-- A bucket counts no more than one for each key and hash function. -/
theorem Holds.count_le {t : Table kind} {keys : Multiset UInt32} (h : t.Holds keys) (b : Nat) :
    (t.cell b).count ≤ t.session.hashes.toNat * Multiset.card keys := by
  rw [h.count_cell b]
  have hle := Multiset.sum_le_card_nsmul (keys.map fun key => (t.bucketsOf key).count b)
    t.session.hashes.toNat fun n hn => by
      obtain ⟨key, -, rfl⟩ := Multiset.mem_map.1 hn
      exact t.count_bucketsOf_le key b
  rw [Multiset.card_map, smul_eq_mul, Nat.mul_comm] at hle
  exact_mod_cast hle

theorem Holds.fits {t : Table kind} {keys : Multiset UInt32} (h : t.Holds keys)
    (hroom : t.session.hashes.toNat * Multiset.card keys < 2 ^ 63) : t.Fits := by
  refine fits_iff.2 fun b => ?_
  have hle := h.count_le b
  have hnonneg := h.count_nonneg b
  constructor <;> omega

/-- Peeling the table of some keys does not stop. -/
theorem Holds.fits_residual {diff : Table kind} (hdiff : diff.WellFormed) {keys : Multiset UInt32}
    (h : diff.peel.residual.Holds keys) (hfits : diff.Fits) : diff.peel.residual.Fits := by
  refine fits_iff.2 fun b => ?_
  have hle := ((peels_peel diff).count_bounds hdiff b).1
  have hupper := (fits_iff.1 hfits b).2
  have hnonneg := h.count_nonneg b
  constructor <;> omega

/-- Inserting keys in words gives back what they insert on numbers of any size. -/
theorem foldlM_insertChecked_emptied {t u : Table kind} (ht : t.WellFormed) (hu : u.Fits)
    {keys : List UInt32} (h : keys.foldl insert t.emptied = u) :
    keys.foldlM insertChecked t.emptied = some u := by
  rw [foldlM_insertChecked_eq ht.emptied (fits_replicate _), h, if_pos hu]

/-- Inserting keys in words into a new table stops if a count of their table is no word. -/
theorem foldlM_insertChecked_blank {s : Session} (hs : s.Usable) (offset : UInt64)
    (keys : List UInt32) : keys.foldlM insertChecked (blank s offset : Table kind) =
      if (tabulate kind s offset keys).Fits then some (tabulate kind s offset keys) else none :=
  foldlM_insertChecked_eq (wellFormed_blank hs offset) (fits_replicate _) keys

/-! ## Packets -/

section

variable {t : Table kind} (hs : t.session.Usable)
  (hbits : t.session.packetBytes.toNat * 8 < 2 ^ 64) (hoffset : t.session.Admits t.offset)
include hbits hoffset

/-- Where a packet holds the window, its fingerprint is read in words. -/
theorem fingerprintChecked_eq_ok {packet : Bytes} (h : hs.view.Within t.offset.toNat packet) :
    t.fingerprintChecked packet = .ok (hs.view.key t.offset.toNat packet) := by
  have hend : t.offset.toNat + hs.view.width.toNat + 7 < 2 ^ 64 := by
    have hadmits : t.offset.toNat + t.session.width.toNat ≤ 8 * t.session.packetBytes.toNat :=
      hoffset
    show t.offset.toNat + t.session.width.toNat + 7 < _
    omega
  rw [fingerprintChecked, hs.window_eq]
  exact (Window.readChecked_of_lt hend).trans (congrArg Checked.report (Window.read_eq_ok h))

/-- Inserting packets in words is inserting their fingerprints. -/
theorem foldlM_insertPacketChecked {packets : List Bytes}
    (h : ∀ packet ∈ packets, hs.view.Within t.offset.toNat packet) :
    packets.foldlM (fun t packet => Prod.snd <$> t.insertPacketChecked packet) t =
      Checked.step ((packets.map (hs.view.key t.offset.toNat)).foldlM insertChecked t) := by
  obtain ⟨session, offset, cells⟩ := t
  induction packets generalizing cells with
  | nil => rfl
  | cons packet packets ih =>
    obtain ⟨hpacket, hpackets⟩ := List.forall_mem_cons.1 h
    have hread := fingerprintChecked_eq_ok hs hbits hoffset hpacket
    rw [List.foldlM_cons, List.map_cons, List.foldlM_cons, insertPacketChecked, hread, ok_bind]
    dsimp only
    cases hinsert : insertChecked ⟨session, offset, cells⟩ (hs.view.key offset.toNat packet) with
    | none => rfl
    | some u =>
      -- inserting keeps the session and the offset, which the fingerprints depend on
      obtain ⟨cells', -, hu⟩ := Option.bind_eq_some_iff.1 hinsert
      obtain rfl := Option.some.inj hu
      exact ih cells' hs hbits hoffset hpackets

end

/-- Inserting packets in words stops if a count of their table is no word. -/
theorem foldlM_insertPacketChecked_blank {s : Session} (hs : s.Usable) (kind : Kind)
    (hbits : s.packetBytes.toNat * 8 < 2 ^ 64) {offset : UInt64} (hadmits : s.Admits offset)
    {packets : List Bytes} (h : ∀ packet ∈ packets, hs.view.Within offset.toNat packet) :
    packets.foldlM (fun t packet => Prod.snd <$> t.insertPacketChecked packet)
      (blank s offset : Table kind) = Checked.step
        (if (tabulate kind s offset (packets.map (hs.view.key offset.toNat))).Fits then
          some (tabulate kind s offset (packets.map (hs.view.key offset.toNat))) else none) := by
  have hpackets := foldlM_insertPacketChecked (t := (blank s offset : Table kind)) hs hbits
    hadmits h
  exact hpackets.trans (congrArg Checked.step (foldlM_insertChecked_blank hs offset _))

/-- Where the steps before it do not stop, decoding a received table comes to decoding the
difference. -/
theorem lossesFromChecked_eq {log : List Bytes} {received sent diff : Table kind}
    {keys : List UInt32} (hkeys : log.mapM received.fingerprintChecked = .ok keys)
    (hsent : keys.foldlM insertChecked received.emptied = some sent) {held expected : Int}
    (hheld : received.keyCountChecked = some held)
    (hexpected : signed? (log.length - held) = some expected) (hnonneg : 0 ≤ expected)
    (hdiff : sent.subtractChecked received = .ok diff) (overflow : Overflow)
    (solver : CheckedSolver) : received.lossesFromChecked overflow log solver =
      diff.lossesChecked overflow keys expected.toNat solver := by
  rw [lossesFromChecked, hkeys, ok_bind, hsent, hheld]
  simp only [Checked.step, ok_bind, hexpected, if_neg hnonneg.not_gt, hdiff]

/-- Decoding a received table that does not stop makes all of these steps. -/
theorem exists_of_lossesFromChecked {overflow : Overflow} {log : List Bytes} {received : Table kind}
    {solver : CheckedSolver} {r : Losses}
    (h : received.lossesFromChecked overflow log solver = .ok r) :
    ∃ keys sent diff p, log.mapM received.fingerprintChecked = .ok keys ∧
      keys.foldlM insertChecked received.emptied = some sent ∧
      sent.subtractChecked received = .ok diff ∧ diff.peelChecked = some p := by
  obtain ⟨keys, hkeys, h⟩ := bind_eq_ok.1 h
  obtain ⟨sent, hsent, h⟩ := bind_eq_ok.1 h
  obtain ⟨_, -, h⟩ := bind_eq_ok.1 h
  obtain ⟨expected, -, h⟩ := bind_eq_ok.1 h
  dsimp only at h
  split at h
  · cases h
  · obtain ⟨diff, hdiff, h⟩ := bind_eq_ok.1 h
    obtain ⟨⟨⟩, -, h⟩ := bind_eq_ok.1 h
    obtain ⟨p, hp, -⟩ := bind_eq_ok.1 h
    exact ⟨keys, sent, diff, p, hkeys, Checked.step_eq_ok.1 hsent, hdiff,
      Checked.step_eq_ok.1 hp⟩

/-! ## Differences that nothing is peeled from -/

section

variable {diff : Table kind} (hcheck : diff.checkLosses = .ok ())
  (hpeel : diff.peelChecked = some ⟨[], diff⟩) (hempty : ¬ diff.isEmpty = true)
  {candidates : List UInt32} {expected : Nat} {program : Program}
  (hprogram : Program.ofDifferenceChecked diff candidates expected = .ok program)
include hcheck hpeel hempty hprogram

/-- All is left to the solver. -/
theorem lossesChecked_of_stuck (overflow : Overflow) (solver : CheckedSolver) :
    diff.lossesChecked overflow candidates expected solver = do
      let selected ← (program.solveChecked overflow solver).mapError (.countPeeled expected 0)
      let solved := selected.map fun i => (List.range candidates.length).toArray.getD i 0
      return ⟨solved.mergeSort (· ≤ ·), 0, solved.length⟩ := by
  have hleft : candidatesLeft candidates [] = candidates.zipIdx := by
    simp [candidatesLeft]
  have hkeys : (candidatesLeft candidates []).map Prod.fst = candidates := by
    rw [hleft, List.zipIdx_map_fst]
  have hindices : (candidatesLeft candidates []).map Prod.snd = List.range candidates.length := by
    rw [hleft, List.zipIdx_map_snd, List.range_eq_range']
  have hincomplete : ¬ (⟨[], diff⟩ : Peeled kind).isComplete = true := hempty
  rw [lossesChecked, hcheck, hpeel]
  simp only [Checked.report, Checked.step, ok_bind, Pool.takeAll, hincomplete, if_false, hcheck,
    hkeys, hindices, List.length_nil, Nat.not_lt_zero, Nat.sub_zero, hprogram, List.nil_append]
  rfl

end

/-- In a table with one bucket that counts more than one, all is left to the solver. -/
theorem lossesChecked_crowd {hashes : UInt32} (hhashes : 0 < hashes.toNat) {count : Int}
    (hcount : 1 < count) (hword : Signed64 count) {sum : UInt32} (hsum : sum < 4294967291)
    {key : UInt32} (hfits : Signed64 (hashes.toNat * (key % 4294967291).toNat)) (n expected : Nat)
    (overflow : Overflow) (solver : CheckedSolver) :
    (crowd hashes count sum).lossesChecked overflow (List.replicate n key) expected solver = do
      let selected ← ((crowdProgram hashes count sum key n expected).solveChecked overflow
        solver).mapError (.countPeeled expected 0)
      let solved := selected.map fun i => (List.range n).toArray.getD i 0
      return ⟨solved.mergeSort (· ≤ ·), 0, solved.length⟩ := by
  have hwell : (crowd hashes count sum).WellFormed := wellFormed_crowd hhashes hsum
  have hwords := fits_crowd hashes hword sum
  have hpeel : (crowd hashes count sum).peelChecked = some ⟨[], crowd hashes count sum⟩ :=
    (peelChecked_eq_some hwell hwords).2 ⟨(peel_crowd (by omega)).symm, hwords⟩
  have hempty : ¬ (crowd hashes count sum).isEmpty = true := by
    intro h
    have hcell := congrArg Cell.count (isEmpty_eq_true_iff.1 h 0 Nat.one_pos)
    have hzero : count = 0 := hcell
    omega
  have hlosses := lossesChecked_of_stuck (checkLosses_crowd (by omega)) hpeel hempty
    (ofDifferenceChecked_crowd hhashes (by omega) sum hfits n expected) overflow solver
  rwa [List.length_replicate] at hlosses

/-- Solving stops at the table of 129 packets with the key 1000 and 2 ^ 24 hash functions: the
modulus times the count of its bucket is no word. -/
theorem solveChecked_heavy {sum : UInt32} (hsum : sum < 4294967291) (overflow : Overflow)
    (expected : Nat) : (crowdProgram 16777216 2164260864 sum 1000 129 expected).solveChecked
      overflow (Program.firstSolutionChecked · none) = .error .overflow := by
  have hcheck : (crowdProgram 16777216 2164260864 sum 1000 129 expected).check = .ok () := by
    rw [← program_crowd (by decide) (by decide)]
    exact check_program (wellFormed_crowd (by decide) hsum) _ _
  -- neither the sum nor the number expected matters to the tallies
  have htallies :
      (crowdProgram 16777216 2164260864 sum 1000 129 expected).initialTallies = none :=
    show (crowdProgram 16777216 2164260864 0 1000 129 0).initialTallies = none by decide +kernel
  rw [Program.solveChecked, Program.firstSolutionChecked, hcheck, htallies]
  rfl

theorem lossesChecked_heavy {sum : UInt32} (hsum : sum < 4294967291) (overflow : Overflow)
    (expected : Nat) : (crowd 16777216 2164260864 sum).lossesChecked overflow
      (List.replicate 129 1000) expected (Program.firstSolutionChecked · none) =
        .error .overflow := by
  rw [lossesChecked_crowd (by decide) (by decide) (by decide) hsum (by decide),
    solveChecked_heavy hsum]
  rfl

/-- The counts of these packets are words. -/
theorem exists_foldlM_insertChecked_heavy : ∃ sum : UInt32, sum < 4294967291 ∧
    (List.replicate 129 1000).foldlM insertChecked (blank (.crowded 16777216) 0 : Table .summing) =
      some (crowd 16777216 2164260864 sum) := by
  obtain ⟨sum, hsum, htable⟩ := exists_tabulate_eq_crowd
    (show 0 < (16777216 : UInt32).toNat by decide) (List.replicate 129 1000)
  rw [List.length_replicate] at htable
  refine ⟨sum, hsum, ?_⟩
  rw [foldlM_insertChecked_blank (Session.usable_crowded (by decide)), htable,
    if_pos (fits_crowd _ (by decide) sum)]
  rfl

/-- Taking nothing out of the table leaves its count. -/
theorem exists_subtractChecked_heavy (sum : UInt32) : ∃ sum' : UInt32, sum' < 4294967291 ∧
    (crowd 16777216 2164260864 sum).subtractChecked (blank (.crowded 16777216) 0) =
      .ok (crowd 16777216 2164260864 sum') := by
  have hcells : (blank (.crowded 16777216) 0 : Table .summing).cells = #[⟨0, (0 : UInt32)⟩] := rfl
  have halike : (crowd 16777216 2164260864 sum).checkAlike (blank (.crowded 16777216) 0) = .ok () :=
    checkAlike_self rfl rfl
  refine ⟨Field.sub ⟨4294967291⟩ sum 0, Field.reduced_sub (by decide) sum 0,
    subtractChecked_eq_ok_iff.2 ⟨?_, fits_crowd _ (by decide) _⟩⟩
  rw [subtract, halike, hcells, crowd, List.zipWith_toArray]
  rfl

theorem newChecked_heavy : newChecked (.crowded 16777216) 0 =
    .ok (blank (.crowded 16777216) 0 : Table .summing) :=
  newChecked_eq_ok_iff.2 ⟨by decide, new_eq_ok (Session.usable_crowded (by decide)) (by decide)⟩

end Table

end LossSketch
