import LossSketch.Bucket.Checked
import LossSketch.Proofs.Bucket.Conservation
import LossSketch.Proofs.Bucket.Rebuild

/-!
# Tables in words

An operation in words has the result of the same operation on numbers of any size, or it stops.

* `Table.insertChecked_eq` and `Table.deleteChecked_eq` — it stops exactly if a count of the result
  is no word. As counts move one way only, so it is with several keys, and with peeling
  (`Table.foldlM_insertChecked_eq`, `Table.peelChecked_eq`).
* `Table.peelChecked_conserves` — what peeling a table in words comes to. `Table.peelChecked_lowest`
  is a bucket with the least count of all, which peeling cannot lower.
-/

namespace LossSketch

namespace Table

variable {kind : Kind} {t : Table kind}

theorem fits_iff : t.Fits ↔ ∀ b, Signed64 (t.cell b).count := by
  constructor
  · intro h b
    rcases Nat.lt_or_ge b t.cells.size with hlt | hge
    · rw [cell_of_lt hlt]
      exact h _ (Array.getElem_mem hlt)
    · rw [cell_of_size_le hge]
      show Signed64 0
      decide
  · intro h c hc
    obtain ⟨b, hb, rfl⟩ := Array.mem_iff_getElem.1 hc
    exact cell_of_lt hb ▸ h b

/-- In words there is a new table where the bits of a packet are counted in one. -/
theorem newChecked_eq_ok_iff {s : Session} {offset : UInt64} {start : Table kind} :
    newChecked s offset = .ok start ↔
      s.packetBytes.toNat * 8 < 2 ^ 64 ∧ Table.new s offset = .ok start := by
  rw [newChecked, bind_eq_ok]
  constructor
  · rintro ⟨⟨⟩, hcheck, hnew⟩
    exact ⟨(Session.checkChecked_eq_ok.1 hcheck).2, Checked.report_eq_ok.1 hnew⟩
  · rintro ⟨hbits, hnew⟩
    exact ⟨(), Session.checkChecked_eq_ok.2 ⟨(eq_blank_of_new hnew).1, hbits⟩,
      Checked.report_eq_ok.2 hnew⟩

/-! ## One key -/

section Change

variable {change : Cell kind → Option (Cell kind)} {change' : Cell kind → Cell kind} {d : Int}
  (hd : d = 1 ∨ d = -1)
  (hchange : ∀ c c', change c = some c' ↔ Signed64 (c.count + d) ∧ c' = change' c)
  (hcount : ∀ c, (change' c).count = c.count + d)

include hcount in
theorem count_modifyAt {b : Nat} (hb : b < t.cells.size) (key : UInt32) :
    ((t.modifyAt key change').cell b).count = (t.cell b).count + d * (t.bucketsOf key).count b := by
  have hiterate : ∀ (n : Nat) (c : Cell kind), (change'^[n] c).count = c.count + d * n := by
    intro n
    induction n with
    | zero => intro c; simp
    | succ n ih =>
      intro c
      rw [Function.iterate_succ_apply, ih, hcount, Nat.cast_succ, mul_add, mul_one]
      omega
  rw [cell_modifyAt hb, hiterate]

include hchange hcount in
/-- A change that does not stop is exact, and leaves words. -/
theorem modifyAt_of_modifyAtChecked (ht : t.Fits) {key : UInt32} {u : Table kind}
    (h : t.modifyAtChecked key change = some u) : u = t.modifyAt key change' ∧ u.Fits := by
  obtain ⟨cells, hcells, hu⟩ := Option.bind_eq_some_iff.1 h
  obtain rfl := Option.some.inj hu
  constructor
  · have hexact : ∀ (_ : Nat) (c c' : Cell kind), change c = some c' → id c' = change' (id c) :=
      fun _ c c' hc => ((hchange c c').1 hc).2
    have hmap := map_of_foldlM_modifyChecked hexact hcells
    rw [Array.map_id, Array.map_id] at hmap
    rw [hmap]
    rfl
  · refine forall_of_foldlM_modifyChecked (fun _ c c' hc => ?_) ht hcells
    obtain ⟨hfits, rfl⟩ := (hchange c c').1 hc
    rwa [hcount]

include hd hchange hcount in
/-- A change goes through where it leaves words. -/
theorem exists_modifyAtChecked (ht : t.Fits) {key : UInt32} (h : (t.modifyAt key change').Fits) :
    ∃ u, t.modifyAtChecked key change = some u := by
  -- a count that starts and ends as a word is one all the way
  let P : List Nat → Nat → Cell kind → Prop := fun places b c =>
    Signed64 c.count ∧ Signed64 (c.count + d * places.count b)
  have hstep : ∀ (i : Nat) (places : List Nat) (c : Cell kind), P (i :: places) i c →
      ∃ c', change c = some c' ∧ P places i c' := by
    rintro i places c ⟨⟨hl, hu⟩, hl', hu'⟩
    rw [List.count_cons_self, Nat.cast_succ, mul_add, mul_one] at hl' hu'
    have hnext : Signed64 (c.count + d) := by
      rcases hd with rfl | rfl <;> constructor <;> omega
    refine ⟨_, (hchange _ _).2 ⟨hnext, rfl⟩, ?_, ?_⟩
    · rwa [hcount]
    · rw [hcount]
      constructor <;> omega
  have hskip : ∀ (i : Nat) (places : List Nat) (b : Nat) (c : Cell kind), i ≠ b →
      P (i :: places) b c → P places b c := by
    rintro i places b c hne ⟨hc, hc'⟩
    rw [List.count_cons_of_ne hne] at hc'
    exact ⟨hc, hc'⟩
  obtain ⟨cells, hcells, -⟩ := exists_foldlM_modifyChecked hstep hskip
    (l := t.bucketsOf key) (a := t.cells) fun b c hc => by
      obtain ⟨hb, rfl⟩ := Array.getElem?_eq_some_iff.1 hc
      refine ⟨ht _ (Array.getElem_mem hb), ?_⟩
      rw [← cell_of_lt hb, ← count_modifyAt hcount hb key]
      exact fits_iff.1 h b
  exact ⟨_, Option.bind_eq_some_iff.2 ⟨cells, hcells, rfl⟩⟩

include hd hchange hcount in
theorem modifyAtChecked_eq (ht : t.Fits) (key : UInt32) : t.modifyAtChecked key change =
    if (t.modifyAt key change').Fits then some (t.modifyAt key change') else none := by
  split
  · rename_i hfits
    obtain ⟨u, hu⟩ := exists_modifyAtChecked hd hchange hcount ht hfits
    obtain ⟨rfl, -⟩ := modifyAt_of_modifyAtChecked hchange hcount ht hu
    exact hu
  · rename_i hfits
    refine Option.eq_none_iff_forall_ne_some.2 fun u hu => hfits ?_
    obtain ⟨rfl, hwords⟩ := modifyAt_of_modifyAtChecked hchange hcount ht hu
    exact hwords

end Change

/-- **Inserting in words** stops exactly if a count of the result is no word. -/
theorem insertChecked_eq (ht : t.Fits) (key : UInt32) :
    t.insertChecked key = if (t.insert key).Fits then some (t.insert key) else none := by
  refine modifyAtChecked_eq (d := 1) (Or.inl rfl) (fun c c' => ?_) (fun c => rfl) ht key
  simp only [Cell.insertChecked, Cell.addChecked, Option.bind_eq_bind, Option.bind_eq_some_iff,
    signed?_eq_some]
  constructor
  · rintro ⟨_, ⟨hfits, rfl⟩, hc⟩
    exact ⟨hfits, (Option.some.inj hc).symm⟩
  · rintro ⟨hfits, rfl⟩
    exact ⟨_, ⟨hfits, rfl⟩, rfl⟩

/-- **Deleting in words** stops exactly if a count of the result is no word. -/
theorem deleteChecked_eq (ht : t.Fits) (key : UInt32) :
    t.deleteChecked key = if (t.delete key).Fits then some (t.delete key) else none := by
  refine modifyAtChecked_eq (d := -1) (Or.inr rfl) (fun c c' => ?_) (fun c => rfl) ht key
  simp only [Cell.deleteChecked, Cell.subChecked, Option.bind_eq_bind, Option.bind_eq_some_iff,
    signed?_eq_some]
  constructor
  · rintro ⟨_, ⟨hfits, rfl⟩, hc⟩
    exact ⟨hfits, (Option.some.inj hc).symm⟩
  · rintro ⟨hfits, rfl⟩
    exact ⟨_, ⟨hfits, rfl⟩, rfl⟩

/-! ## Several keys -/

theorem count_foldl_insert_add (ht : t.WellFormed) (keys : List UInt32) (b : Nat) :
    ((keys.foldl insert t).cell b).count = (t.cell b).count + t.arrivals keys b := by
  rw [← sum_share_fst]
  exact congrArg Prod.fst (weight_foldl_insert keys ht b)

/-- Counts only rise when keys are inserted, so they are words all the way if they are at the
ends. -/
theorem foldlM_insertChecked_eq (ht : t.WellFormed) (hfits : t.Fits) (keys : List UInt32) :
    keys.foldlM insertChecked t =
      if (keys.foldl insert t).Fits then some (keys.foldl insert t) else none := by
  induction keys generalizing t with
  | nil => exact (if_pos hfits).symm
  | cons key keys ih =>
    rw [List.foldlM_cons, List.foldl_cons, insertChecked_eq hfits]
    by_cases hnext : (t.insert key).Fits
    · rw [if_pos hnext]
      exact ih (ht.insert key) hnext
    · rw [if_neg hnext]
      refine (if_neg fun hlast => hnext (fits_iff.2 fun b => ?_)).symm
      obtain ⟨hlower, -⟩ := fits_iff.1 hfits b
      obtain ⟨-, hupper⟩ := fits_iff.1 hlast b
      have hfirst := count_foldl_insert_add ht [key] b
      rw [count_foldl_insert_add (ht.insert key)] at hupper
      rw [List.foldl_cons, List.foldl_nil] at hfirst
      constructor <;> omega

/-! ## Two tables -/

/-- **Subtracting in words** stops exactly if a count of the difference is no word. -/
theorem subtractChecked_eq (t u : Table kind) : t.subtractChecked u =
    Checked.report (t.subtract u) >>= fun d => if d.Fits then .ok d else .error .overflow := by
  let sub : Cell kind × Cell kind → Cell kind := fun e => e.1.sub t.session.field e.2
  have hsub : ∀ e : Cell kind × Cell kind, e.1.subChecked t.session.field e.2 =
      if Signed64 (sub e).count then some (sub e) else none := by
    intro e
    show (signed? (sub e).count >>= fun _ => _) = _
    rw [signed?]
    split <;> rfl
  have hcells : ((t.cells.toList.zip u.cells.toList).map sub).toArray =
      t.cells.zipWith (·.sub t.session.field) u.cells := by
    apply Array.toList_inj.1
    rw [Array.toList_zipWith, List.zip, List.map_zipWith]
  have hfits : (∀ e ∈ t.cells.toList.zip u.cells.toList, Signed64 (sub e).count) ↔
      ({ t with cells := t.cells.zipWith (·.sub t.session.field) u.cells } : Table kind).Fits := by
    rw [← hcells]
    simp only [Fits, List.mem_toArray, List.forall_mem_map]
  rw [subtractChecked, combineChecked, subtract]
  cases t.checkAlike u with
  | error e => rfl
  | ok _ =>
    -- the loop stops if a count of the difference is no word
    show (Checked.step ((t.cells.toList.zip u.cells.toList).mapM fun e =>
      e.1.subChecked t.session.field e.2) >>= _) = ite _ _ _
    simp only [hsub]
    rw [mapM_ite]
    by_cases hall : ∀ e ∈ t.cells.toList.zip u.cells.toList, Signed64 (sub e).count
    · rw [if_pos hall, if_pos (hfits.1 hall), ← hcells]
      rfl
    · rw [if_neg hall, if_neg (mt hfits.2 hall)]
      rfl

theorem subtractChecked_eq_ok_iff {t u d : Table kind} :
    t.subtractChecked u = .ok d ↔ t.subtract u = .ok d ∧ d.Fits := by
  rw [subtractChecked_eq, bind_eq_ok]
  constructor
  · rintro ⟨d', hd, hfits⟩
    split at hfits
    · rename_i hwords
      obtain rfl := Except.ok.inj hfits
      exact ⟨Checked.report_eq_ok.1 hd, hwords⟩
    · cases hfits
  · rintro ⟨hd, hfits⟩
    exact ⟨d, Checked.report_eq_ok.2 hd, if_pos hfits⟩

/-! ## The number of keys -/

/-- Sums of counts only rise where no count is negative, so they are words all the way if the last
is one. -/
theorem foldlM_count_eq {l : List (Cell kind)} (hnonneg : ∀ c ∈ l, 0 ≤ c.count) {start : Int}
    (hstart : Signed64 start) : l.foldlM (fun total c => signed? (total + c.count)) start =
      if Signed64 (start + (l.map (·.count)).sum) then some (start + (l.map (·.count)).sum)
      else none := by
  induction l generalizing start with
  | nil =>
    rw [List.map_nil, List.sum_nil, add_zero]
    exact (if_pos hstart).symm
  | cons c l ih =>
    obtain ⟨hc, hl⟩ := List.forall_mem_cons.1 hnonneg
    rw [List.foldlM_cons, List.map_cons, List.sum_cons, ← add_assoc]
    by_cases hnext : Signed64 (start + c.count)
    · rw [signed?_of_signed64 hnext]
      exact ih hl hnext
    · have hrest : 0 ≤ (l.map (·.count)).sum := List.sum_nonneg fun n hn => by
        obtain ⟨d, hd, rfl⟩ := List.mem_map.1 hn
        exact hl d hd
      rw [signed?_eq_none hnext, if_neg fun hlast => hnext ⟨?_, ?_⟩]
      · rfl
      · exact hstart.1.trans (by omega)
      · exact lt_of_le_of_lt (by omega) hlast.2

/-- **Counting keys in words** stops exactly if the total is no word, where no count is negative. -/
theorem keyCountChecked_eq (hnonneg : ∀ c ∈ t.cells, 0 ≤ c.count) :
    t.keyCountChecked = if Signed64 t.total then some t.keyCount else none := by
  have htotal : t.total = 0 + (t.cells.toList.map (·.count)).sum := by
    rw [total, ← Array.foldl_toList, foldl_count]
  rw [keyCountChecked, totalChecked, foldlM_count_eq (by simpa using hnonneg) (by decide), ← htotal,
    keyCount]
  split <;> rfl

theorem keyCountChecked_refines (hnonneg : ∀ c ∈ t.cells, 0 ≤ c.count) :
    Checked.Refines (¬ Signed64 t.total) (Checked.step t.keyCountChecked) (.ok t.keyCount) := by
  rw [keyCountChecked_eq hnonneg]
  exact Checked.Refines.step_ite _ _

theorem eq_keyCount_of_keyCountChecked (hcheck : t.checkLosses = .ok ()) {count : Int}
    (h : t.keyCountChecked = some count) : count = t.keyCount := by
  rw [keyCountChecked_eq fun c hc => ((checkLosses_eq_ok_iff t).1 hcheck c hc).1] at h
  split at h
  · exact (Option.some.inj h).symm
  · cases h

/-! ## Peeling -/

end Table

/-- Counts only fall when keys are taken out, so they are words before if they are afterwards. -/
theorem Peels.fits {kind : Kind} {t r : Table kind} {keys : List UInt32} (h : Peels t keys r)
    (ht : t.WellFormed) (hupper : ∀ b, (t.cell b).count < 2 ^ 63) (hr : r.Fits) : t.Fits := by
  refine Table.fits_iff.2 fun b => ⟨?_, hupper b⟩
  exact (Table.fits_iff.1 hr b).1.trans (h.count_bounds ht b).1

namespace Table

variable {kind : Kind} {t : Table kind}

/-- A key whose deletion leaves a count that is no word leaves one at the end as well. -/
theorem not_fits_of_delete (ht : t.WellFormed) (hfits : t.Fits) {key : UInt32}
    (hnext : ¬(t.delete key).Fits) {keys : List UInt32} {r : Table kind}
    (h : Peels (t.delete key) keys r) : ¬r.Fits := by
  refine fun hr => hnext (h.fits (ht.delete key) (fun b => ?_) hr)
  have hupper := (fits_iff.1 hfits b).2
  rw [count_delete ht]
  omega

theorem peelOverChecked_eq (ht : t.WellFormed) (hfits : t.Fits) (buckets : List Nat) :
    peelOverChecked buckets t =
      if (peelOver buckets t).residual.Fits then some (peelOver buckets t) else none := by
  induction buckets generalizing t with
  | nil => exact (if_pos hfits).symm
  | cons i buckets ih =>
    unfold peelOverChecked peelOver
    cases t.pureKey? i with
    | none => exact ih ht hfits
    | some key =>
      dsimp only
      rw [deleteChecked_eq hfits]
      by_cases hnext : (t.delete key).Fits
      · rw [if_pos hnext, Option.bind_eq_bind, Option.bind_some, ih (ht.delete key) hnext]
        split <;> rfl
      · rw [if_neg hnext, if_neg (not_fits_of_delete ht hfits hnext (peels_peelOver _ _))]
        rfl

theorem peelWalksChecked_eq (ht : t.WellFormed) (hfits : t.Fits) (walks : Nat) :
    peelWalksChecked walks t =
      if (peelWalks walks t).residual.Fits then some (peelWalks walks t) else none := by
  induction walks generalizing t with
  | zero => exact (if_pos hfits).symm
  | succ walks ih =>
    have hwalk := peels_peelOver (List.range t.cells.size) t
    have hrest := peels_peelWalks walks (peelOver (List.range t.cells.size) t).residual
    unfold peelWalksChecked peelWalks
    rw [peelOverChecked_eq ht hfits]
    dsimp only
    by_cases hnext : (peelOver (List.range t.cells.size) t).residual.Fits
    · rw [if_pos hnext, Option.bind_eq_bind, Option.bind_some]
      by_cases hfruitless : (peelOver (List.range t.cells.size) t).recovered = []
      · simp only [if_pos hfruitless, if_pos hnext]
        rfl
      · simp only [if_neg hfruitless]
        rw [ih (hwalk.wellFormed ht) hnext]
        split <;> rfl
    · -- what the first walk leaves is no less than what is left at the end
      have hupper : ∀ b, ((peelOver (List.range t.cells.size) t).residual.cell b).count < 2 ^ 63 :=
        fun b => (hwalk.count_bounds ht b).1.trans_lt (fits_iff.1 hfits b).2
      have hlast := fun hr => hnext (hrest.fits (hwalk.wellFormed ht) hupper hr)
      rw [if_neg hnext]
      by_cases hfruitless : (peelOver (List.range t.cells.size) t).recovered = []
      · simp only [if_pos hfruitless, if_neg hnext]
        rfl
      · simp only [if_neg hfruitless, if_neg hlast]
        rfl

/-- **Peeling in words** stops exactly if a count that is left is no word. -/
theorem peelChecked_eq (ht : t.WellFormed) (hfits : t.Fits) :
    t.peelChecked = if t.peel.residual.Fits then some t.peel else none :=
  peelWalksChecked_eq ht hfits _

theorem peelChecked_refines (ht : t.WellFormed) (hfits : t.Fits) :
    Checked.Refines (¬ t.peel.residual.Fits) (Checked.step t.peelChecked) (.ok t.peel) := by
  rw [peelChecked_eq ht hfits]
  exact Checked.Refines.step_ite _ _

theorem peelChecked_eq_some (ht : t.WellFormed) (hfits : t.Fits) {p : Peeled kind} :
    t.peelChecked = some p ↔ p = t.peel ∧ p.residual.Fits := by
  rw [peelChecked_eq ht hfits]
  constructor
  · intro h
    split at h
    · rename_i hresidual
      obtain rfl := Option.some.inj h
      exact ⟨rfl, hresidual⟩
    · cases h
  · rintro ⟨rfl, hresidual⟩
    exact if_pos hresidual

/-- Peeling stops exactly if it leaves a count below all words. -/
theorem peelChecked_eq_none (ht : t.WellFormed) (hfits : t.Fits) :
    t.peelChecked = none ↔ ∃ b, (t.peel.residual.cell b).count < -2 ^ 63 := by
  have hupper : ∀ b, (t.peel.residual.cell b).count < 2 ^ 63 := fun b =>
    ((peels_peel t).count_bounds ht b).1.trans_lt (fits_iff.1 hfits b).2
  rw [peelChecked_eq ht hfits]
  constructor
  · intro h
    split at h
    · cases h
    · rename_i hresidual
      rw [fits_iff] at hresidual
      push Not at hresidual
      obtain ⟨b, hb⟩ := hresidual
      exact ⟨b, by_contra fun hlower => hb ⟨not_lt.1 hlower, hupper b⟩⟩
  · rintro ⟨b, hb⟩
    exact if_neg fun hresidual => absurd (fits_iff.1 hresidual b).1 (not_le.2 hb)

/-- **Peeling any well-formed table in words ends, and loses nothing or stops.** It stops exactly if
it would leave a count below all words, and so at no table whose counts leave room for one deletion
for each hash function and each bucket that counts something. Where it does not stop, the loop of
walks comes to its answer. Every key is taken out of a bucket of its own that counted something, so
there are no more keys than such buckets. Counts only fall, by no more than the keys taken out can
take away. Inserting these keys in words into what is left gives the table back, or into an empty
table if nothing is left. No bucket that is left with a count of one names a key that is sent
there. -/
theorem peelChecked_conserves {t : Table kind} (ht : t.WellFormed) (hfits : t.Fits) :
    (t.peelChecked = none ↔ ∃ b, (t.peel.residual.cell b).count < -2 ^ 63) ∧
    ((∀ b, -2 ^ 63 + t.session.hashes.toNat * t.cells.countP (0 < ·.count) ≤ (t.cell b).count) →
      ∃ p, t.peelChecked = some p) ∧
    ∀ p, t.peelChecked = some p →
      (∀ keys r, Walks t keys r ↔ keys = p.recovered ∧ r = p.residual) ∧
      (∃ buckets : List Nat, buckets.Nodup ∧
        (∀ b ∈ buckets, b < t.cells.size ∧ 0 < (t.cell b).count) ∧
        List.Forall₂ (fun key b => b ∈ t.bucketsOf key) p.recovered buckets) ∧
      p.recovered.length ≤ t.cells.countP (0 < ·.count) ∧
      p.recovered.length ≤ t.session.buckets.toNat ∧
      (∀ b, (p.residual.cell b).count ≤ (t.cell b).count ∧ (t.cell b).count ≤
        (p.residual.cell b).count + t.session.hashes.toNat * p.recovered.length) ∧
      p.recovered.foldlM insertChecked p.residual = some t ∧
      (p.isComplete = true → p.recovered.foldlM insertChecked t.emptied = some t) ∧
      ∀ b key, (p.residual.cell b).count = 1 → (p.residual.cell b).key? = some key →
        b ∉ p.residual.bucketsOf key := by
  obtain ⟨hwalks, hbuckets, hlength, hlength', hbounds, hback, hcomplete, hstuck⟩ :=
    peel_conserves ht
  refine ⟨peelChecked_eq_none ht hfits, fun hroom => ?_, fun p hp => ?_⟩
  · by_contra hnone
    push Not at hnone
    obtain ⟨b, hb⟩ := (peelChecked_eq_none ht hfits).1 (Option.eq_none_iff_forall_ne_some.2 hnone)
    -- no more keys are taken out than there is room for
    have hfall : ((t.session.hashes.toNat * t.peel.recovered.length : Nat) : Int) ≤
        (t.session.hashes.toNat * t.cells.countP (0 < ·.count) : Nat) :=
      Int.ofNat_le.2 (Nat.mul_le_mul_left _ hlength)
    have hle := hroom b
    have hge := (hbounds b).2
    push_cast at hfall
    omega
  · obtain ⟨rfl, hresidual⟩ := (peelChecked_eq_some ht hfits).1 hp
    have hwell := (peels_peel t).wellFormed ht
    refine ⟨hwalks, hbuckets, hlength, hlength', hbounds, ?_, fun h => ?_, hstuck⟩
    · rw [foldlM_insertChecked_eq hwell hresidual, hback, if_pos hfits]
    · rw [foldlM_insertChecked_eq ht.emptied (fits_replicate _), hcomplete h, if_pos hfits]

/-- Buckets that no keys leave behind. The first and the last name keys that are sent there, the
second has a record without a count, and the third counts less than nothing. -/
def hostile : Table .invertible :=
  ⟨Session.small, 0, #[⟨1, (6 : UInt32)⟩, ⟨0, (9 : UInt32)⟩, ⟨-1, (3 : UInt32)⟩, ⟨1, (5 : UInt32)⟩]⟩

theorem peelChecked_conserves_hostile : ∃ (t : Table .invertible) (p : Peeled .invertible),
    ofBytes hostile.toBytes = .ok t ∧ t.peelChecked = some p ∧ p.recovered = [6, 5] ∧
      (p.residual.cell 2).count = -3 ∧ [6, 5].foldlM insertChecked p.residual = some t := by
  have hread : ofBytes hostile.toBytes = .ok hostile := by decide +kernel
  have hrecovered : hostile.peel.recovered = [6, 5] := by decide +kernel
  have hfits : hostile.Fits := by decide +kernel
  have hpeel : hostile.peelChecked = some hostile.peel :=
    (peelChecked_eq_some (wellFormed_of_ofBytes hread) hfits).2 ⟨rfl, by decide +kernel⟩
  obtain ⟨-, -, hkept⟩ := peelChecked_conserves (wellFormed_of_ofBytes hread) hfits
  obtain ⟨-, -, -, -, -, hback, -, -⟩ := hkept _ hpeel
  rw [hrecovered] at hback
  exact ⟨hostile, hostile.peel, hread, hpeel, hrecovered, by decide +kernel, hback⟩

/-- A bucket with one key, and one with the least count of all that the key is sent to as well. -/
def lowest : Table .invertible :=
  ⟨Session.small, 0,
    #[⟨1, (6 : UInt32)⟩, ⟨0, (0 : UInt32)⟩, ⟨-2 ^ 63, (0 : UInt32)⟩, ⟨0, (0 : UInt32)⟩]⟩

/-- A snapshot may hold such a table, and peeling it stops. -/
theorem peelChecked_lowest : ∃ t : Table .invertible,
    ofBytes lowest.toBytes = .ok t ∧ t.WellFormed ∧ t.peelChecked = none := by
  have hread : ofBytes lowest.toBytes = .ok lowest := by decide +kernel
  have hwell := wellFormed_of_ofBytes hread
  refine ⟨lowest, hread, hwell, (peelChecked_eq_none hwell (by decide +kernel)).2 ⟨2, ?_⟩⟩
  decide +kernel

end Table

end LossSketch
