import LossSketch.Proofs.Bucket.Peel

/-!
# How far peeling goes

* `Table.Walks` is the loop of walks over all buckets, without a bound on their number.
  `Table.walks_iff` — the loop ends, because every key that it takes out leaves fewer buckets that
  count anything, and `Table.peel` answers what it comes to.
* `Table.Stuck` says that no bucket is pure. `Table.stuck_peel` — peeling ends in such a table.
* `Peels.le_sub` — whatever order the keys are taken out in, keys that by themselves leave no bucket
  with a count of one stay in the table.
* `Peels.eq_of_stuck` — so all runs that end stuck take out the same keys and leave the same table.
* `Table.peel_foldl_insert` — peeling the table of some keys takes out some of them and leaves the
  table of the others, which are the most that can be stuck.
-/

namespace LossSketch

namespace Table

variable {kind : Kind}

/-- No bucket is pure. -/
def Stuck (t : Table kind) : Prop := ∀ b, t.pureKey? b = none

theorem pureKey?_eq_none {t : Table kind} {b : Nat} (h : (t.cell b).count ≠ 1) :
    t.pureKey? b = none := by
  rw [pureKey?, if_neg h]

/-! ## Buckets that count something -/

/-- The buckets that count something. -/
def positives (t : Table kind) : Finset Nat :=
  (Finset.range t.cells.size).filter fun b => 0 < (t.cell b).count

theorem card_positives (t : Table kind) : t.positives.card = t.cells.countP (0 < ·.count) := by
  -- the buckets in order are the buckets by index
  have hcells : t.cells.toList = (List.range t.cells.size).map t.cell := by
    apply List.ext_getElem
    · simp
    · intro b hb hb'
      have hlt : b < t.cells.size := by simpa using hb
      simp [cell_of_lt hlt]
  rw [← Array.countP_toList, hcells, List.countP_map, List.countP_eq_length_filter]
  rfl

theorem count_delete {t : Table kind} (ht : t.WellFormed) (key : UInt32) (b : Nat) :
    ((t.delete key).cell b).count = (t.cell b).count - (t.bucketsOf key).count b := by
  have hweight := congrArg Prod.fst (weight_delete ht key b)
  rw [Prod.fst_sub, Session.share_fst] at hweight
  exact hweight

theorem mem_positives {t : Table kind} {b : Nat} :
    b ∈ t.positives ↔ b < t.cells.size ∧ 0 < (t.cell b).count := by
  rw [positives, Finset.mem_filter, Finset.mem_range]

/-- No count rises when a key is deleted. -/
theorem positives_delete_subset {t : Table kind} (ht : t.WellFormed) (key : UInt32) :
    (t.delete key).positives ⊆ t.positives := by
  have hsize : (t.delete key).cells.size = t.cells.size := size_modifyAt _ _
  intro b hb
  rw [mem_positives, hsize, count_delete ht] at hb
  exact mem_positives.2 ⟨hb.1, by omega⟩

/-- A pure bucket counts something. -/
theorem mem_positives_of_pureKey? {t : Table kind} (ht : t.WellFormed) {i : Nat} {key : UInt32}
    (hpure : t.pureKey? i = some key) : i ∈ t.positives := by
  obtain ⟨hcount, -, hmem⟩ := pureKey?_eq_some hpure
  exact mem_positives.2 ⟨ht.lt_size hmem, by rw [hcount]; exact Int.one_pos⟩

/-- A pure bucket counts nothing any more once its key is deleted. -/
theorem not_mem_positives_delete {t : Table kind} (ht : t.WellFormed) {i : Nat} {key : UInt32}
    (hpure : t.pureKey? i = some key) : i ∉ (t.delete key).positives := by
  obtain ⟨hcount, -, hmem⟩ := pureKey?_eq_some hpure
  have hpos := List.count_pos_iff.2 hmem
  rw [mem_positives, count_delete ht, hcount]
  omega

/-- Deleting the key of a pure bucket leaves fewer buckets that count something. -/
theorem card_positives_delete_lt {t : Table kind} (ht : t.WellFormed) {i : Nat} {key : UInt32}
    (hpure : t.pureKey? i = some key) : (t.delete key).positives.card < t.positives.card := by
  apply Finset.card_lt_card
  rw [Finset.ssubset_iff_of_subset (positives_delete_subset ht key)]
  exact ⟨i, mem_positives_of_pureKey? ht hpure, not_mem_positives_delete ht hpure⟩

end Table

/-- Every key taken out costs a bucket that counts something. -/
theorem Peels.card_positives_add_length_le {kind : Kind} {t r : Table kind} {keys : List UInt32}
    (h : Peels t keys r) (ht : t.WellFormed) :
    r.positives.card + keys.length ≤ t.positives.card := by
  induction h with
  | done t => exact Nat.le_refl _
  | step hpure _ ih =>
    have hrest := ih (ht.delete _)
    have hlt := Table.card_positives_delete_lt ht hpure
    rw [List.length_cons]
    omega

namespace Table

variable {kind : Kind}

/-! ## Peeling ends stuck -/

/-- A walk that takes nothing out has met no pure bucket. -/
theorem peelOver_eq_nil {buckets : List Nat} {t : Table kind}
    (h : (peelOver buckets t).recovered = []) :
    (peelOver buckets t).residual = t ∧ ∀ b ∈ buckets, t.pureKey? b = none := by
  induction buckets with
  | nil => exact ⟨rfl, fun b hb => absurd hb List.not_mem_nil⟩
  | cons i buckets ih =>
    unfold peelOver at h ⊢
    cases hpure : t.pureKey? i with
    | none =>
      -- nothing is taken from this bucket, so it is the same table that the others are looked at in
      rw [hpure] at h
      obtain ⟨hresidual, hrest⟩ := ih h
      refine ⟨hresidual, fun b hb => ?_⟩
      rcases List.mem_cons.1 hb with rfl | hmem
      · exact hpure
      · exact hrest b hmem
    | some key =>
      rw [hpure] at h
      cases h

/-- One walk over all buckets. -/
def walk (t : Table kind) : Peeled kind := peelOver (List.range t.cells.size) t

theorem peels_walk (t : Table kind) : Peels t t.walk.recovered t.walk.residual :=
  peels_peelOver _ t

/-- Walks over all buckets up to the first that takes nothing out, however many they are. -/
inductive Walks : Table kind → List UInt32 → Table kind → Prop
  | stop {t : Table kind} : t.walk.recovered = [] → Walks t [] t.walk.residual
  | again {t r : Table kind} {keys : List UInt32} : t.walk.recovered ≠ [] →
      Walks t.walk.residual keys r → Walks t (t.walk.recovered ++ keys) r

/-- The loop of walks comes to one end. -/
theorem Walks.unique {t r r' : Table kind} {keys keys' : List UInt32} (h : Walks t keys r)
    (h' : Walks t keys' r') : keys' = keys ∧ r' = r := by
  -- the first walk tells whether the loop goes on, so both take the same step
  induction h generalizing keys' with
  | stop hnil =>
    cases h' with
    | stop _ => exact ⟨rfl, rfl⟩
    | again hsome _ => exact absurd hnil hsome
  | again hsome _ ih =>
    cases h' with
    | stop hnil => exact absurd hnil hsome
    | again _ hrest =>
      obtain ⟨rfl, rfl⟩ := ih hrest
      exact ⟨rfl, rfl⟩

/-- That end is stuck. -/
theorem Walks.stuck {t r : Table kind} {keys : List UInt32} (h : Walks t keys r) : r.Stuck := by
  induction h with
  | @stop t hnil =>
    -- a walk over all buckets that takes nothing out
    obtain ⟨hresidual, hnone⟩ := peelOver_eq_nil hnil
    show Stuck (peelOver _ t).residual
    rw [hresidual]
    intro b
    rcases Nat.lt_or_ge b t.cells.size with hlt | hge
    · exact hnone b (List.mem_range.2 hlt)
    · -- behind the last bucket nothing is counted
      apply pureKey?_eq_none
      rw [cell_of_size_le hge]
      exact Int.zero_ne_one
  | again _ _ ih => exact ih

/-- More walks than there are buckets that count something are the whole loop. -/
theorem walks_peelWalks {walks : Nat} {t : Table kind} (ht : t.WellFormed)
    (hwalks : t.positives.card < walks) :
    Walks t (peelWalks walks t).recovered (peelWalks walks t).residual := by
  induction walks generalizing t with
  | zero => exact absurd hwalks (Nat.not_lt_zero _)
  | succ walks ih =>
    unfold peelWalks
    by_cases hnil : t.walk.recovered = []
    · -- the first walk takes nothing out
      rw [if_pos (show (peelOver _ t).recovered = [] from hnil)]
      show Walks t t.walk.recovered t.walk.residual
      rw [hnil]
      exact .stop hnil
    · -- the first walk takes something out, so fewer buckets count something behind it
      rw [if_neg (show ¬ (peelOver _ t).recovered = [] from hnil)]
      have hlength := List.length_pos_iff.2 hnil
      have hcard := (peels_walk t).card_positives_add_length_le ht
      exact .again hnil (ih ((peels_walk t).wellFormed ht) (by omega))

/-- **The loop of walks ends**, and peeling answers what it comes to. -/
theorem walks_iff {t : Table kind} (ht : t.WellFormed) (keys : List UInt32) (r : Table kind) :
    Walks t keys r ↔ keys = t.peel.recovered ∧ r = t.peel.residual := by
  have hpeel : Walks t t.peel.recovered t.peel.residual :=
    walks_peelWalks ht (by rw [card_positives]; exact Nat.lt_succ_self _)
  constructor
  · exact fun h => hpeel.unique h
  · rintro ⟨rfl, rfl⟩
    exact hpeel

/-- **Peeling ends stuck.** -/
theorem stuck_peel {t : Table kind} (ht : t.WellFormed) : t.peel.residual.Stuck :=
  ((walks_iff ht _ _).2 ⟨rfl, rfl⟩).stuck

/-- From a stuck table nothing is peeled. -/
theorem peel_of_stuck {t : Table kind} (h : t.Stuck) : t.peel = ⟨[], t⟩ := by
  have hover : ∀ buckets : List Nat, peelOver buckets t = ⟨[], t⟩ := by
    intro buckets
    induction buckets with
    | nil => rfl
    | cons i buckets ih =>
      unfold peelOver
      rw [h i]
      exact ih
  unfold peel peelWalks
  simp only [hover, if_true]

/-! ## Tables that hold keys -/

/-- A table of keys that records them is stuck when no bucket counts one. -/
theorem Holds.stuck_iff {t : Table kind} (hkind : kind ≠ .counting) (ht : t.WellFormed)
    {keys : Multiset UInt32} (h : t.Holds keys) (hcanonical : ∀ key ∈ keys, t.canonical key = key) :
    t.Stuck ↔ ∀ b, (t.cell b).count ≠ 1 := by
  constructor
  · intro hstuck b hcount
    -- a bucket that counts one holds one key, and names it
    obtain ⟨key, hkey, hmem, hcell⟩ := h.exists_of_count_eq_one ht hcount
    have hname : (t.cell b).key? = some key := by
      rw [hcell]
      cases kind with
      | counting => exact absurd rfl hkind
      | invertible => rfl
      | summing => exact congrArg some (hcanonical key hkey)
    have hpure : t.pureKey? b = some key := by
      rw [pureKey?, if_pos hcount, hname, Option.filter_some, if_pos (List.contains_iff_mem.2 hmem)]
    rw [hstuck b] at hpure
    cases hpure
  · exact fun hcount b => pureKey?_eq_none (hcount b)

end Table

namespace Peels

variable {kind : Kind} {t r : Table kind} {keys : List UInt32} (h : Peels t keys r)
  (ht : t.WellFormed) {all : Multiset UInt32} (hall : t.Holds all)
  (hcanonical : ∀ key ∈ all, t.canonical key = key)
include h ht hall hcanonical

/-- **Keys that are stuck stay.** No run takes keys out of a part of what a table holds that by
itself leaves no bucket with a count of one. -/
theorem le_sub {rest : Multiset UInt32} (hle : rest ≤ all)
    (hrest : ∀ b, (rest.map fun key => (t.bucketsOf key).count b).sum ≠ 1) : rest ≤ all - keys := by
  induction h generalizing all with
  | done t =>
    rw [Multiset.coe_nil, tsub_zero]
    exact hle
  | @step t r i key keys hpure _ ih =>
    obtain ⟨hcount, -, hmem⟩ := Table.pureKey?_eq_some hpure
    obtain ⟨others, rfl⟩ :=
      Multiset.exists_cons_of_mem (hall.mem_of_pureKey? ht hcanonical hpure)
    -- the bucket counts one of everything, so it would count one of a part that has the key
    have hnotMem : key ∉ rest := by
      intro hkey
      have hone := hall.count_cell i
      have hsum : (rest.map fun key => (t.bucketsOf key).count i).sum ≤
          ((key ::ₘ others).map fun key => (t.bucketsOf key).count i).sum :=
        t.sum_count_le_sum hle i
      have hsingle := t.count_le_sum hkey i
      have hpos := List.count_pos_iff.2 hmem
      exact hrest i (by omega)
    rw [← Multiset.cons_coe, Multiset.sub_cons, Multiset.erase_cons_head]
    exact ih (ht.delete key) (hall.delete ht)
      (fun other hother => hcanonical other (Multiset.mem_cons_of_mem hother))
      ((Multiset.le_cons_of_notMem hnotMem).1 hle) hrest

/-- What is left in a stuck table leaves no bucket with a count of one. -/
theorem sum_count_ne_one (hkind : kind ≠ .counting) (hstuck : r.Stuck) (b : Nat) :
    ((all - keys).map fun key => (t.bucketsOf key).count b).sum ≠ 1 := by
  obtain ⟨-, hleft⟩ := h.holds ht hall hcanonical
  have hcanonical' : ∀ key ∈ all - keys, r.canonical key = key := by
    intro key hkey
    rw [Table.canonical, h.session_eq]
    exact hcanonical key (Multiset.mem_of_le (Multiset.sub_le_self _ _) hkey)
  have hcount := (hleft.stuck_iff hkind (h.wellFormed ht) hcanonical').1 hstuck b
  rw [hleft.count_cell b] at hcount
  rw [Table.bucketsOf_congr h.session_eq] at hcount
  exact_mod_cast hcount

/-- **The order does not matter.** All runs that end stuck take out the same keys, and leave the
same table. -/
theorem eq_of_stuck {keys' : List UInt32} {r' : Table kind} (h' : Peels t keys' r')
    (hkind : kind ≠ .counting) (hstuck : r.Stuck) (hstuck' : r'.Stuck) :
    keys'.Perm keys ∧ r' = r := by
  obtain ⟨hle, hleft⟩ := h.holds ht hall hcanonical
  obtain ⟨hle', hleft'⟩ := h'.holds ht hall hcanonical
  -- what one run leaves is stuck by itself, so the other leaves it too
  have hsub : all - (keys : Multiset UInt32) = all - keys' := by
    apply le_antisymm
    · exact h'.le_sub ht hall hcanonical (Multiset.sub_le_self _ _)
        (h.sum_count_ne_one ht hall hcanonical hkind hstuck)
    · exact h.le_sub ht hall hcanonical (Multiset.sub_le_self _ _)
        (h'.sum_count_ne_one ht hall hcanonical hkind hstuck')
  constructor
  · rw [← Multiset.coe_eq_coe, ← tsub_tsub_cancel_of_le hle, ← tsub_tsub_cancel_of_le hle', hsub]
  · -- both tables hold what is left
    rw [← hsub] at hleft'
    exact Table.Holds.ext (h.wellFormed ht) (h'.wellFormed ht)
      (h'.emptied_eq.trans h.emptied_eq.symm) hleft hleft'

end Peels

/-! ## Tables of keys -/

namespace Table

variable {kind : Kind}

/-- **Peeling the table of some keys takes out as many of them as any order of peeling.** The others
are the most that leave no bucket with a count of one, and their table is what is left. -/
theorem peel_foldl_insert (hkind : kind ≠ .counting) {s : Session} {offset : UInt64}
    {start : Table kind} (hstart : Table.new s offset = .ok start) {keys : List UInt32}
    (hkeys : kind = .summing → ∀ key ∈ keys, s.field.Reduced key) :
    ∃ taken left : List UInt32,
      (keys.foldl insert start).peel = ⟨taken, left.foldl insert start⟩ ∧
      (taken ++ left).Perm keys ∧
      ((keys.foldl insert start).peel.isComplete = true ↔ taken.Perm keys) ∧
      (∀ b, ((left.foldl insert start).cell b).count ≠ 1) ∧
      (∀ rest : List UInt32, rest.Subperm keys →
        (∀ b, ((rest.foldl insert start).cell b).count ≠ 1) → rest.Subperm left) ∧
      ∀ others stuck, Peels (keys.foldl insert start) others stuck → stuck.Stuck →
        others.Perm taken ∧ stuck = left.foldl insert start := by
  obtain ⟨hs, rfl⟩ := eq_blank_of_new hstart
  let t : Table kind := keys.foldl insert (blank s offset)
  have ht : t.WellFormed := wellFormed_tabulate kind offset keys hs
  have hall : t.Holds keys := holds_tabulate kind offset keys hs
  have hsession : t.session = s := session_tabulate kind s offset keys
  have hemptied : t.emptied = blank s offset := emptied_tabulate kind s offset keys
  have hcanonical : ∀ key ∈ (keys : Multiset UInt32), t.canonical key = key := by
    intro key hkey
    refine canonical_eq_self ht.usable fun hsumming => ?_
    rw [hsession]
    exact hkeys hsumming key (Multiset.mem_coe.1 hkey)
  -- what peeling leaves holds the keys that it does not take out
  have hpeel := peels_peel t
  have hwell := hpeel.wellFormed ht
  obtain ⟨hle, hleft⟩ := hpeel.holds ht hall hcanonical
  rw [Multiset.coe_sub] at hleft
  have hresidual : t.peel.residual =
      (keys.diff t.peel.recovered).foldl insert (blank s offset) := by
    rw [← hleft.foldl_insert_eq hwell, hpeel.emptied_eq, hemptied]
  have hsplit : (t.peel.recovered : Multiset UInt32) + (keys.diff t.peel.recovered : List UInt32) =
      keys := by
    rw [← Multiset.coe_sub, add_tsub_cancel_of_le hle]
  refine ⟨t.peel.recovered, keys.diff t.peel.recovered, ?_, Multiset.coe_eq_coe.1 hsplit,
    ?_, ?_, ?_, ?_⟩
  · -- what is taken out and what is left
    rw [← hresidual]
  · -- nothing is left when all keys are taken out
    rw [Peeled.isComplete, hleft.isEmpty_iff hwell, ← Multiset.coe_eq_coe, ← hsplit, left_eq_add]
  · -- no bucket counts one
    intro b
    rw [← hresidual, hleft.count_cell b, bucketsOf_congr hpeel.session_eq, ← Multiset.coe_sub]
    exact_mod_cast hpeel.sum_count_ne_one ht hall hcanonical hkind (stuck_peel ht) b
  · -- keys that no order takes out
    intro rest hrest hcount
    rw [← Multiset.coe_le, ← Multiset.coe_sub]
    refine hpeel.le_sub ht hall hcanonical (Multiset.coe_le.2 hrest) fun b => ?_
    have hholds : (rest.foldl insert (blank s offset) : Table kind).Holds rest :=
      holds_tabulate kind offset rest hs
    have hsame : (rest.foldl insert (blank s offset) : Table kind).session = t.session :=
      (session_tabulate kind s offset rest).trans hsession.symm
    have hone := hcount b
    rw [hholds.count_cell b, bucketsOf_congr hsame] at hone
    exact_mod_cast hone
  · -- any other order
    intro others stuck hothers hstuck
    rw [← hresidual]
    exact hpeel.eq_of_stuck ht hall hcanonical hothers hkind (stuck_peel ht) hstuck

/-- Six and seven share both of their buckets, and twelve has a bucket of its own. -/
theorem peel_foldl_insert_small : ∃ (start : Table .invertible) (taken left : List UInt32),
    Table.new Session.small 0 = .ok start ∧
    ([6, 12, 7].foldl insert start).peel = ⟨taken, left.foldl insert start⟩ ∧
    (taken ++ left).Perm [6, 12, 7] ∧ [6, 7].Subperm left := by
  have hstart : (Table.new Session.small 0 : Except Error (Table .invertible)) =
      .ok (blank Session.small 0) := by decide +kernel
  have hkeys : Kind.invertible = .summing →
      ∀ key ∈ [6, 12, 7], Session.small.field.Reduced key := nofun
  obtain ⟨taken, left, hpeel, hsplit, -, -, hmost, -⟩ :=
    peel_foldl_insert (by decide) hstart hkeys
  refine ⟨_, taken, left, hstart, hpeel, hsplit, hmost [6, 7] (by decide) fun b => ?_⟩
  have hcounts : ∀ b < 4,
      (([6, 7].foldl insert (blank Session.small 0 : Table .invertible)).cell b).count ≠ 1 := by
    decide +kernel
  rcases Nat.lt_or_ge b 4 with hlt | hge
  · exact hcounts b hlt
  · rw [cell_of_size_le hge]
    decide

end Table

end LossSketch
