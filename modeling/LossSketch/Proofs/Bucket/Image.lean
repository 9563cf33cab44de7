import Mathlib.Algebra.BigOperators.Group.Finset.Basic
import Mathlib.Algebra.Order.BigOperators.Group.Multiset
import LossSketch.Bucket.Table
import LossSketch.Proofs.Bucket.Placement
import LossSketch.Proofs.Bucket.Weight
import LossSketch.Proofs.Error
import LossSketch.Proofs.Packet.Window

/-!
# Tables as images of multisets of keys

A table is determined by the weights of its buckets, and every operation on tables adds or subtracts
weights bucket by bucket.

* `Table.WellFormed` — the session is usable, there are as many buckets as it says, and field sums
  are reduced. Every operation keeps this.
* `Session.share` is what one key adds to the weight of a bucket.
* `Table.Holds` — the weight of every bucket is the sum of the shares of a multiset of keys.
* `Table.ext_of_weight` — well-formed tables of one session and offset with the same weights are
  equal.
* `Table.Holds.total` — the counts of the buckets add up to a count per key and hash function.
-/

namespace LossSketch

/-- What a key adds to the weight of a bucket: its own weight, as often as it is sent there. -/
def Session.share (s : Session) (kind : Kind) (key : UInt32) (b : Nat) :
    Int × kind.Weight s.field :=
  (s.bucketsOf (kind.canonical s.field key)).count b •
    (Cell.single s.field key : Cell kind).weight s.field

theorem Session.share_fst (s : Session) (kind : Kind) (key : UInt32) (b : Nat) :
    (s.share kind key b).1 = ((s.bucketsOf (kind.canonical s.field key)).count b : Int) := by
  rw [share, Prod.smul_fst, Cell.weight_fst, Cell.single, nsmul_eq_mul, mul_one]

/-- A key has no share in a bucket that it is not sent to. -/
theorem Session.share_eq_zero {s : Session} {kind : Kind} {key : UInt32} {b : Nat}
    (h : (s.bucketsOf (kind.canonical s.field key)).count b = 0) : s.share kind key b = 0 := by
  rw [share, h, zero_nsmul]

/-- Keys with one canonical form have the same share in every bucket. -/
theorem Session.share_canonical {s : Session} (hs : s.Usable) (kind : Kind) (key : UInt32)
    (b : Nat) : s.share kind (kind.canonical s.field key) b = s.share kind key b := by
  rw [share, share, Kind.canonical_canonical hs.modulus_ne_zero,
    Cell.weight_single_canonical hs.modulus_ne_zero]

namespace Table

variable {kind : Kind}

/-- A table as the operations build it. -/
structure WellFormed (t : Table kind) : Prop where
  checked : t.session.check = .ok ()
  size_eq : t.cells.size = t.session.buckets.toNat
  reduced : ∀ c ∈ t.cells, c.Reduced t.session.field

namespace WellFormed

variable {t : Table kind} (ht : t.WellFormed)
include ht

theorem usable : t.session.Usable := Session.check_eq_ok_iff.1 ht.checked

theorem modulus_ne_zero : t.session.field.modulus ≠ 0 := ht.usable.modulus_ne_zero

theorem lt_size {key : UInt32} {b : Nat} (hb : b ∈ t.bucketsOf key) : b < t.cells.size := by
  rw [ht.size_eq]
  exact Session.lt_of_mem_bucketsOf ht.usable hb

theorem reduced_cell (b : Nat) : (t.cell b).Reduced t.session.field := by
  rw [cell, Array.getD]
  split
  · exact ht.reduced _ (Array.getElem_mem _)
  · exact Cell.reduced_empty ht.modulus_ne_zero

end WellFormed

/-! ## Keys and buckets of a table -/

/-- A table records reduced keys as they are. -/
theorem canonical_eq_self {t : Table kind} (hs : t.session.Usable) {key : UInt32}
    (h : kind = .summing → t.session.field.Reduced key) : t.canonical key = key := by
  cases kind with
  | counting => rfl
  | invertible => rfl
  | summing => exact Field.reduce_eq_self hs.modulus_ne_zero (h rfl)

theorem fingerprint_eq_ok {t : Table kind} (hs : t.session.Usable) {packet : Bytes}
    (h : hs.view.Within t.offset.toNat packet) :
    t.fingerprint packet = .ok (hs.view.key t.offset.toNat packet) := by
  rw [fingerprint, hs.window_eq]
  exact Window.read_eq_ok h

/-- Tables of one session send keys to the same buckets. -/
theorem bucketsOf_congr {t u : Table kind} (hsession : u.session = t.session) :
    u.bucketsOf = t.bucketsOf := by
  funext key
  rw [bucketsOf, bucketsOf, canonical, canonical, hsession]

theorem cell_of_lt {t : Table kind} {b : Nat} (hb : b < t.cells.size) : t.cell b = t.cells[b] := by
  rw [cell, Array.getD, dif_pos hb]
  rfl

theorem cell_of_size_le {t : Table kind} {b : Nat} (hb : t.cells.size ≤ b) :
    t.cell b = Cell.empty := by
  rw [cell, Array.getD, dif_neg (by omega)]

/-- Changing the places of a list one after the other changes each of them as often as it is
listed. -/
theorem getElem?_foldl_modify {α : Type} (places : List Nat) (change : α → α) (cells : Array α)
    (b : Nat) :
    (places.foldl (fun cells i => cells.modify i change) cells)[b]? =
      cells[b]?.map change^[places.count b] := by
  induction places generalizing cells with
  | nil => simp
  | cons i places ih =>
    rw [List.foldl_cons, ih, Array.getElem?_modify, List.count_cons]
    by_cases hib : i = b
    · simp [hib]
    · simp [hib]

theorem size_foldl_modify {α : Type} (places : List Nat) (change : α → α) (cells : Array α) :
    (places.foldl (fun cells i => cells.modify i change) cells).size = cells.size := by
  induction places generalizing cells with
  | nil => rfl
  | cons i places ih => rw [List.foldl_cons, ih, Array.size_modify]

variable {t : Table kind}

@[simp] theorem size_modifyAt (key : UInt32) (change : Cell kind → Cell kind) :
    (t.modifyAt key change).cells.size = t.cells.size :=
  size_foldl_modify _ _ _

theorem cell_modifyAt {b : Nat} (hb : b < t.cells.size) (key : UInt32)
    (change : Cell kind → Cell kind) :
    (t.modifyAt key change).cell b = change^[(t.bucketsOf key).count b] (t.cell b) := by
  have hget := getElem?_foldl_modify (t.bucketsOf key) change t.cells b
  rw [Array.getElem?_eq_getElem hb, Option.map_some] at hget
  rw [cell, modifyAt, Array.getD_eq_getD_getElem?, hget, Option.getD_some, cell_of_lt hb]

theorem isEmpty_eq_true_iff : t.isEmpty = true ↔ ∀ b < t.cells.size, t.cell b = Cell.empty := by
  rw [isEmpty, Array.all_eq_true]
  refine forall₂_congr fun b hb => ?_
  rw [cell_of_lt hb, Cell.isEmpty, decide_eq_true_eq]

theorem cell_emptied (b : Nat) : t.emptied.cell b = Cell.empty := by
  rcases Nat.lt_or_ge b t.emptied.cells.size with hlt | hge
  · rw [cell_of_lt hlt]
    simp [emptied]
  · exact cell_of_size_le hge

/-! ## Weights under insertion and deletion -/

section Steps

variable (ht : t.WellFormed)
include ht

/-- Changing the buckets of a key by a fixed weight changes each by that weight as often as the key
is sent there. -/
theorem weight_modifyAt {change : Cell kind → Cell kind} {w : Int × kind.Weight t.session.field}
    (hchange : ∀ c, (change c).weight t.session.field = c.weight t.session.field + w)
    (key : UInt32) (b : Nat) :
    ((t.modifyAt key change).cell b).weight t.session.field =
      (t.cell b).weight t.session.field + (t.bucketsOf key).count b • w := by
  have hiterate : ∀ (n : Nat) (c : Cell kind),
      (change^[n] c).weight t.session.field = c.weight t.session.field + n • w := by
    intro n
    induction n with
    | zero => intro c; simp
    | succ n ih =>
      intro c
      rw [Function.iterate_succ_apply, ih, hchange, add_nsmul, one_nsmul]
      abel
  rcases Nat.lt_or_ge b t.cells.size with hlt | hge
  · -- a bucket of the table
    rw [cell_modifyAt hlt, hiterate]
  · -- behind the last bucket nothing changes, and no key is sent there
    have hcount : (t.bucketsOf key).count b = 0 := by
      rw [List.count_eq_zero]
      intro hb
      have := ht.lt_size hb
      omega
    rw [hcount, zero_nsmul, add_zero, cell_of_size_le hge, cell_of_size_le (by simpa using hge)]

theorem weight_insert (key : UInt32) (b : Nat) :
    ((t.insert key).cell b).weight t.session.field =
      (t.cell b).weight t.session.field + t.session.share kind key b :=
  weight_modifyAt ht (fun c => Cell.weight_insert ht.modulus_ne_zero c key) key b

theorem weight_delete (key : UInt32) (b : Nat) :
    ((t.delete key).cell b).weight t.session.field =
      (t.cell b).weight t.session.field - t.session.share kind key b := by
  have hchange : ∀ c : Cell kind, (c.delete t.session.field key).weight t.session.field =
      c.weight t.session.field + -(Cell.single t.session.field key : Cell kind).weight _ := by
    intro c
    rw [Cell.weight_delete ht.modulus_ne_zero, sub_eq_add_neg]
  rw [delete, weight_modifyAt ht hchange, Session.share, smul_neg, sub_eq_add_neg]
  rfl

/-- A change that leaves field sums reduced keeps a table well formed. -/
theorem WellFormed.modifyAt {change : Cell kind → Cell kind}
    (hchange : ∀ c, (change c).Reduced t.session.field) (key : UInt32) :
    (t.modifyAt key change).WellFormed where
  checked := ht.checked
  size_eq := by rw [size_modifyAt]; exact ht.size_eq
  reduced := by
    intro c hc
    obtain ⟨b, hb, rfl⟩ := Array.getElem_of_mem hc
    have hb' : b < t.cells.size := by simpa using hb
    rw [← cell_of_lt hb, cell_modifyAt hb']
    show (change^[_] _).Reduced t.session.field
    -- only the last change matters
    rcases (t.bucketsOf key).count b with _ | n
    · exact ht.reduced_cell b
    · rw [Function.iterate_succ_apply']
      exact hchange _

theorem WellFormed.insert (key : UInt32) : (t.insert key).WellFormed :=
  ht.modifyAt (fun c => Cell.reduced_add ht.modulus_ne_zero c _) key

theorem WellFormed.delete (key : UInt32) : (t.delete key).WellFormed :=
  ht.modifyAt (fun c => Cell.reduced_sub ht.modulus_ne_zero c _) key

theorem WellFormed.emptied : t.emptied.WellFormed where
  checked := ht.checked
  size_eq := by
    show (Array.replicate t.cells.size (Cell.empty : Cell kind)).size = _
    rw [Array.size_replicate]
    exact ht.size_eq
  reduced := by
    intro c hc
    rw [(Array.mem_replicate.1 hc).2]
    exact Cell.reduced_empty ht.modulus_ne_zero

end Steps

/-- The table without keys of a session and an offset. -/
def blank (s : Session) (offset : UInt64) : Table kind :=
  ⟨s, offset, Array.replicate s.buckets.toNat Cell.empty⟩

theorem emptied_blank (s : Session) (offset : UInt64) :
    (blank s offset : Table kind).emptied = blank s offset := by
  rw [emptied, blank, Array.size_replicate]

/-- A new table is without keys, and its session is usable. -/
theorem eq_blank_of_new {s : Session} {offset : UInt64} {t : Table kind}
    (h : Table.new s offset = .ok t) : s.Usable ∧ t = blank s offset := by
  rw [new, bind_eq_ok] at h
  obtain ⟨⟨⟩, hcheck, h⟩ := h
  obtain ⟨window, -, h⟩ := bind_eq_ok.1 h
  split at h
  · exact ⟨Session.check_eq_ok_iff.1 hcheck, (Except.ok.inj h).symm⟩
  · cases h

/-- A usable session has a new table at every offset where its packets hold the window. -/
theorem new_eq_ok {s : Session} (hs : s.Usable) {offset : UInt64} (hoffset : s.Admits offset) :
    Table.new s offset = .ok (blank s offset : Table kind) := by
  rw [new, Session.check_eq_ok_iff.2 hs, ok_bind, hs.window_eq, ok_bind, hs.any_lastOffset?,
    decide_eq_true hoffset]
  rfl

theorem new_eq_error {s : Session} (hs : s.Usable) {offset : UInt64} (hoffset : ¬s.Admits offset) :
    (Table.new s offset : Except Error (Table kind)) = .error (.invalidConfig
      (.offsetOutside offset.toNat s.width.toNat s.packetBytes.toNat)) := by
  rw [new, Session.check_eq_ok_iff.2 hs, ok_bind, hs.window_eq, ok_bind, hs.any_lastOffset?,
    decide_eq_false hoffset]
  rfl

/-- There is a new table at no other offset. -/
theorem admits_of_new {s : Session} {offset : UInt64} {t : Table kind}
    (h : Table.new s offset = .ok t) : s.Admits offset := by
  by_contra hoffset
  rw [new_eq_error (eq_blank_of_new h).1 hoffset] at h
  cases h

theorem wellFormed_blank {s : Session} (hs : s.Usable) (offset : UInt64) :
    (blank s offset : Table kind).WellFormed where
  checked := Session.check_eq_ok_iff.2 hs
  size_eq := Array.size_replicate
  reduced := by
    intro c hc
    rw [(Array.mem_replicate.1 hc).2]
    exact Cell.reduced_empty hs.modulus_ne_zero

/-- What no insertion changes, many do not change. -/
theorem foldl_insert_invariant {α : Type} (g : Table kind → α)
    (hg : ∀ t key, g (t.insert key) = g t) (keys : List UInt32) (t : Table kind) :
    g (keys.foldl insert t) = g t := by
  induction keys generalizing t with
  | nil => rfl
  | cons key keys ih => exact (ih (t.insert key)).trans (hg t key)

@[simp] theorem session_foldl_insert (keys : List UInt32) (t : Table kind) :
    (keys.foldl insert t).session = t.session :=
  foldl_insert_invariant session (fun _ _ => rfl) keys t

@[simp] theorem offset_foldl_insert (keys : List UInt32) (t : Table kind) :
    (keys.foldl insert t).offset = t.offset :=
  foldl_insert_invariant offset (fun _ _ => rfl) keys t

@[simp] theorem size_foldl_insert (keys : List UInt32) (t : Table kind) :
    (keys.foldl insert t).cells.size = t.cells.size :=
  foldl_insert_invariant (·.cells.size) (fun _ key => size_modifyAt key _) keys t

theorem emptied_modifyAt (key : UInt32) (change : Cell kind → Cell kind) :
    (t.modifyAt key change).emptied = t.emptied := by
  rw [emptied, emptied, size_modifyAt]
  rfl

theorem emptied_delete (key : UInt32) : (t.delete key).emptied = t.emptied :=
  emptied_modifyAt key _

theorem emptied_foldl_insert (keys : List UInt32) (t : Table kind) :
    (keys.foldl insert t).emptied = t.emptied :=
  foldl_insert_invariant emptied (fun _ key => emptied_modifyAt key _) keys t

theorem WellFormed.foldl_insert (keys : List UInt32) {t : Table kind} (ht : t.WellFormed) :
    (keys.foldl Table.insert t).WellFormed := by
  induction keys generalizing t with
  | nil => exact ht
  | cons key keys ih => exact ih (ht.insert key)

/-- Inserting keys adds the share of each. -/
theorem weight_foldl_insert (keys : List UInt32) {t : Table kind} (ht : t.WellFormed) (b : Nat) :
    ((keys.foldl insert t).cell b).weight t.session.field =
      (t.cell b).weight t.session.field +
        (keys.map fun key => t.session.share kind key b).sum := by
  induction keys generalizing t with
  | nil => simp
  | cons key keys ih =>
    have hstep := ih (ht.insert key)
    rw [List.foldl_cons]
    calc (((keys.foldl insert (t.insert key)).cell b).weight t.session.field)
        = ((t.insert key).cell b).weight t.session.field +
            (keys.map fun key => t.session.share kind key b).sum := hstep
      _ = _ := by rw [weight_insert ht, List.map_cons, List.sum_cons, add_assoc]

/-- What is inserted into an empty table is all that its buckets weigh. -/
theorem weight_foldl_insert_emptied (keys : List UInt32) {t : Table kind} (ht : t.WellFormed)
    (b : Nat) : ((keys.foldl insert t.emptied).cell b).weight t.session.field =
      (keys.map fun key => t.session.share kind key b).sum := by
  have hweight := weight_foldl_insert keys ht.emptied b
  rw [cell_emptied, Cell.weight_empty, zero_add] at hweight
  exact hweight

/-- Buckets of tables of one session are the same where they weigh the same. -/
theorem cell_eq_iff_weight {t u : Table kind} (ht : t.WellFormed) (hu : u.WellFormed)
    (hsession : u.session = t.session) (b : Nat) : u.cell b = t.cell b ↔
      (u.cell b).weight t.session.field = (t.cell b).weight t.session.field :=
  ⟨fun h => by rw [h],
    fun h => Cell.weight_inj (hsession ▸ hu.reduced_cell b) (ht.reduced_cell b) h⟩

/-- Well-formed tables of one session and one offset with the same weights are equal. -/
theorem ext_of_weight {t u : Table kind} (ht : t.WellFormed) (hu : u.WellFormed)
    (hsession : u.session = t.session) (hoffset : u.offset = t.offset)
    (hweight : ∀ b < t.cells.size,
      (u.cell b).weight t.session.field = (t.cell b).weight t.session.field) : u = t := by
  have hsize : u.cells.size = t.cells.size := by rw [hu.size_eq, ht.size_eq, hsession]
  have hcells : u.cells = t.cells := by
    apply Array.ext hsize
    intro b hb hb'
    rw [← cell_of_lt hb, ← cell_of_lt hb']
    exact (cell_eq_iff_weight ht hu hsession b).2 (hweight b hb')
  cases u
  cases t
  simp only at hsession hoffset hcells
  rw [hsession, hoffset, hcells]

/-! ## Differences and sums of tables -/

/-- Tables of one session and offset can be combined. -/
theorem checkAlike_self {t u : Table kind} (hsession : u.session = t.session)
    (hoffset : u.offset = t.offset) : t.checkAlike u = .ok () := by
  rw [checkAlike, hsession, hoffset]
  exact Session.checkAligned_self _ _

/-- Tables that can be combined have as many buckets. -/
theorem WellFormed.size_eq_of_checkAlike {t u : Table kind} (ht : t.WellFormed) (hu : u.WellFormed)
    (halike : t.checkAlike u = .ok ()) : u.cells.size = t.cells.size := by
  rw [hu.size_eq, ht.size_eq, (Session.sizes_eq_of_checkAligned halike).1]

/-- Combining tables of one size bucket by bucket keeps them well formed. -/
theorem WellFormed.zipWith {t u : Table kind} (ht : t.WellFormed)
    (hsize : u.cells.size = t.cells.size) {combine : Cell kind → Cell kind → Cell kind}
    (hcombine : ∀ a b, (combine a b).Reduced t.session.field) :
    ({ t with cells := t.cells.zipWith combine u.cells } : Table kind).WellFormed where
  checked := ht.checked
  size_eq := by
    show (t.cells.zipWith combine u.cells).size = _
    rw [Array.size_zipWith, hsize, Nat.min_self]
    exact ht.size_eq
  reduced := by
    intro c hc
    obtain ⟨b, hb, rfl⟩ := Array.getElem_of_mem hc
    rw [Array.getElem_zipWith]
    exact hcombine _ _

/-- Combining tables bucket by bucket combines the weights of their buckets. -/
theorem weight_zipWith {t u : Table kind} (hsize : u.cells.size = t.cells.size) {f : Field}
    {combine : Cell kind → Cell kind → Cell kind}
    {w : Int × kind.Weight f → Int × kind.Weight f → Int × kind.Weight f}
    (hcombine : ∀ a b, (combine a b).weight f = w (a.weight f) (b.weight f)) (hzero : w 0 0 = 0)
    (b : Nat) :
    (({ t with cells := t.cells.zipWith combine u.cells } : Table kind).cell b).weight f =
      w ((t.cell b).weight f) ((u.cell b).weight f) := by
  rcases Nat.lt_or_ge b t.cells.size with hlt | hge
  · rw [cell_of_lt (by simpa [hsize] using hlt), cell_of_lt hlt, cell_of_lt (hsize ▸ hlt),
      Array.getElem_zipWith, hcombine]
  · -- buckets that are not there weigh nothing
    rw [cell_of_size_le (by simpa [hsize] using hge), cell_of_size_le hge,
      cell_of_size_le (hsize ▸ hge), Cell.weight_empty, hzero]

section Combine

variable {t u : Table kind} (ht : t.WellFormed) (hu : u.WellFormed)
  (halike : t.checkAlike u = .ok ())
include ht hu halike

/-- Subtracting tables that can be combined subtracts weights. -/
theorem exists_subtract :
    ∃ d, t.subtract u = .ok d ∧ d.WellFormed ∧ d.session = t.session ∧ d.offset = t.offset ∧
      ∀ b, (d.cell b).weight t.session.field =
        (t.cell b).weight t.session.field - (u.cell b).weight t.session.field := by
  refine ⟨{ t with cells := t.cells.zipWith (·.sub t.session.field) u.cells }, ?_,
    ht.zipWith (ht.size_eq_of_checkAlike hu halike) (Cell.reduced_sub ht.modulus_ne_zero), rfl, rfl,
    weight_zipWith (ht.size_eq_of_checkAlike hu halike) (Cell.weight_sub ht.modulus_ne_zero)
      (sub_zero 0)⟩
  rw [subtract, halike]
  rfl

/-- Merging tables that can be combined adds weights. -/
theorem exists_merge :
    ∃ m, t.merge u = .ok m ∧ m.WellFormed ∧ m.session = t.session ∧ m.offset = t.offset ∧
      ∀ b, (m.cell b).weight t.session.field =
        (t.cell b).weight t.session.field + (u.cell b).weight t.session.field := by
  refine ⟨{ t with cells := t.cells.zipWith (·.add t.session.field) u.cells }, ?_,
    ht.zipWith (ht.size_eq_of_checkAlike hu halike) (Cell.reduced_add ht.modulus_ne_zero), rfl, rfl,
    weight_zipWith (ht.size_eq_of_checkAlike hu halike) (Cell.weight_add ht.modulus_ne_zero)
      (add_zero 0)⟩
  rw [merge, halike]
  rfl

end Combine

/-! ## Totals -/

theorem foldl_count (cells : List (Cell kind)) (n : Int) :
    cells.foldl (fun total c => total + c.count) n = n + (cells.map (·.count)).sum := by
  induction cells generalizing n with
  | nil => simp
  | cons c cells ih => rw [List.foldl_cons, ih, List.map_cons, List.sum_cons, add_assoc]

theorem total_eq_sum (t : Table kind) :
    t.total = ∑ b ∈ Finset.range t.cells.size, (t.cell b).count := by
  rw [total, ← Array.foldl_toList, foldl_count, zero_add, Finset.sum_range,
    ← List.sum_ofFn]
  congr 1
  -- the counts in order are the counts by index
  apply List.ext_getElem
  · simp
  · intro b hb hb'
    have hlt : b < t.cells.size := by simpa using hb
    simp [cell_of_lt hlt]

/-- Every hash function sends a key to one bucket. -/
theorem sum_count_bucketsOf {t : Table kind} (ht : t.WellFormed) (key : UInt32) :
    ∑ b ∈ Finset.range t.cells.size, (t.bucketsOf key).count b = t.session.hashes.toNat := by
  have hmem : ∀ b ∈ (t.bucketsOf key : Multiset Nat), b ∈ Finset.range t.cells.size := by
    intro b hb
    exact Finset.mem_range.2 (ht.lt_size (Multiset.mem_coe.1 hb))
  -- the buckets of a key are as many as the hash functions, repeated ones included
  have hsum := Multiset.sum_count_eq_card hmem
  simp only [Multiset.coe_count, Multiset.coe_card] at hsum
  rw [hsum, bucketsOf, Session.length_bucketsOf]

theorem sum_sum_count_bucketsOf {t : Table kind} (ht : t.WellFormed) (keys : Multiset UInt32) :
    ∑ b ∈ Finset.range t.cells.size, (keys.map fun key => (t.bucketsOf key).count b).sum =
      t.session.hashes.toNat * Multiset.card keys := by
  induction keys using Multiset.induction with
  | empty => simp
  | cons key keys ih =>
    simp only [Multiset.map_cons, Multiset.sum_cons, Finset.sum_add_distrib, ih,
      sum_count_bucketsOf ht, Multiset.card_cons]
    ring

/-- The number of keys that a table counts is a share of its total for each hash function. -/
theorem keyCount_eq {t : Table kind} (ht : t.WellFormed) {n : Int}
    (htotal : t.total = t.session.hashes.toNat * n) : t.keyCount = n := by
  have hpos : ((t.session.hashes.toNat : Nat) : Int) ≠ 0 := by
    exact_mod_cast ht.usable.hashes_pos.ne'
  rw [keyCount, htotal, Int.mul_tdiv_cancel_left _ hpos]

/-! ## The check of a difference -/

/-- The check passes when no count is negative and a count of zero leaves nothing behind. -/
theorem checkLosses_eq_ok_iff (t : Table kind) :
    t.checkLosses = .ok () ↔ ∀ c ∈ t.cells, 0 ≤ c.count ∧ (c.count = 0 → c = Cell.empty) := by
  unfold checkLosses
  constructor
  · intro h c hc
    split at h
    · cases h
    · -- no count is negative
      rename_i hany
      split at h
      · cases h
      · -- and no bucket is incoherent
        rename_i hfind
        have hcoherent : c.count = 0 → c = Cell.empty := by
          simpa [Cell.isCoherent, Cell.isEmpty] using Array.findIdx?_eq_none_iff.1 hfind c hc
        have hcount : 0 ≤ c.count := by
          rw [Array.any_eq_true'] at hany
          push Not at hany
          simpa using hany c hc
        exact ⟨hcount, hcoherent⟩
  · intro h
    have hany : ¬ (t.cells.any (·.count < 0)) = true := by
      rw [Array.any_eq_true']
      rintro ⟨c, hc, hneg⟩
      exact absurd (h c hc).1 (by simpa using hneg)
    have hfind : t.cells.findIdx? (!·.isCoherent) = none := by
      rw [Array.findIdx?_eq_none_iff]
      intro c hc
      simp only [Cell.isCoherent, Cell.isEmpty, Bool.not_eq_false', Bool.or_eq_true,
        decide_eq_true_eq]
      exact or_iff_not_imp_left.2 fun h0 => (h c hc).2 (not_not.1 h0)
    rw [if_neg hany, hfind]

/-- In a table that passes the check of a difference, a bucket that counts nothing is empty. -/
theorem cell_eq_empty_of_checkLosses {t : Table kind} (h : t.checkLosses = .ok ()) {b : Nat}
    (hcount : (t.cell b).count = 0) : t.cell b = Cell.empty := by
  rcases Nat.lt_or_ge b t.cells.size with hlt | hge
  · rw [cell_of_lt hlt] at hcount ⊢
    exact ((checkLosses_eq_ok_iff t).1 h _ (Array.getElem_mem hlt)).2 hcount
  · exact cell_of_size_le hge

theorem count_nonneg_of_checkLosses {t : Table kind} (h : t.checkLosses = .ok ()) (b : Nat) :
    0 ≤ (t.cell b).count := by
  rcases Nat.lt_or_ge b t.cells.size with hlt | hge
  · rw [cell_of_lt hlt]
    exact ((checkLosses_eq_ok_iff t).1 h _ (Array.getElem_mem hlt)).1
  · rw [cell_of_size_le hge]
    exact Int.le_refl 0

/-! ## Multisets of keys -/

/-- One key of a multiset is sent to a bucket no more often than all of them. -/
theorem count_le_sum (t : Table kind) {keys : Multiset UInt32} {key : UInt32} (hkey : key ∈ keys)
    (b : Nat) : (t.bucketsOf key).count b ≤ (keys.map fun key => (t.bucketsOf key).count b).sum :=
  Multiset.single_le_sum (fun _ _ => Nat.zero_le _) _ (Multiset.mem_map_of_mem _ hkey)

/-- Part of a multiset of keys is sent to a bucket no more often than all of it. -/
theorem sum_count_le_sum (t : Table kind) {rest keys : Multiset UInt32} (hle : rest ≤ keys)
    (b : Nat) : (rest.map fun key => (t.bucketsOf key).count b).sum ≤
      (keys.map fun key => (t.bucketsOf key).count b).sum := by
  obtain ⟨others, rfl⟩ := Multiset.le_iff_exists_add.1 hle
  rw [Multiset.map_add, Multiset.sum_add]
  exact Nat.le_add_right _ _

/-- Every bucket weighs as much as the keys of the multiset put together. -/
def Holds (t : Table kind) (keys : Multiset UInt32) : Prop :=
  ∀ b, (t.cell b).weight t.session.field = (keys.map fun key => t.session.share kind key b).sum

theorem holds_foldl_insert {t : Table kind} (ht : t.WellFormed) (keys : List UInt32) :
    (keys.foldl insert t.emptied).Holds keys := by
  intro b
  rw [session_foldl_insert, Multiset.map_coe, Multiset.sum_coe]
  exact weight_foldl_insert_emptied keys ht b

/-- A table holds keys when it holds their canonical forms. -/
theorem holds_map_canonical_iff {t : Table kind} (hs : t.session.Usable) {keys : Multiset UInt32} :
    t.Holds (keys.map t.canonical) ↔ t.Holds keys := by
  refine forall_congr' fun b => ?_
  have hshares : keys.map ((fun key => t.session.share kind key b) ∘ t.canonical) =
      keys.map fun key => t.session.share kind key b :=
    Multiset.map_congr rfl fun key _ => Session.share_canonical hs kind key b
  rw [Multiset.map_map, hshares]

/-- Inserting the keys that a table holds into an empty table gives it back. -/
theorem Holds.foldl_insert_eq {t : Table kind} (ht : t.WellFormed) {keys : List UInt32}
    (h : t.Holds keys) : keys.foldl insert t.emptied = t := by
  refine ext_of_weight ht (WellFormed.foldl_insert keys ht.emptied) (session_foldl_insert keys _)
    (offset_foldl_insert keys _) fun b _ => ?_
  have hinsert := holds_foldl_insert ht keys b
  rw [session_foldl_insert] at hinsert
  exact hinsert.trans (h b).symm

/-- Tables that are alike but for their keys, and hold the same keys, are the same. -/
theorem Holds.ext {t u : Table kind} (ht : t.WellFormed) (hu : u.WellFormed)
    (hemptied : u.emptied = t.emptied) {keys : Multiset UInt32} (h : t.Holds keys)
    (h' : u.Holds keys) : u = t := by
  induction keys using Quotient.inductionOn with
  | _ keys => rw [← Holds.foldl_insert_eq ht h, ← Holds.foldl_insert_eq hu h', hemptied]

/-- The table of the keys listed. -/
def tabulate (kind : Kind) (s : Session) (offset : UInt64) (keys : List UInt32) : Table kind :=
  keys.foldl insert (blank s offset)

section Tabulate

variable (kind) (s : Session) (offset : UInt64) (keys : List UInt32)

@[simp] theorem session_tabulate : (tabulate kind s offset keys).session = s :=
  session_foldl_insert keys _

@[simp] theorem offset_tabulate : (tabulate kind s offset keys).offset = offset :=
  offset_foldl_insert keys _

@[simp] theorem emptied_tabulate : (tabulate kind s offset keys).emptied = blank s offset :=
  (emptied_foldl_insert keys _).trans (emptied_blank s offset)

variable {s} (hs : s.Usable)
include hs

theorem wellFormed_tabulate : (tabulate kind s offset keys).WellFormed :=
  WellFormed.foldl_insert keys (wellFormed_blank hs offset)

theorem holds_tabulate : (tabulate kind s offset keys).Holds keys := by
  have hholds : (keys.foldl insert (blank s offset : Table kind).emptied).Holds keys :=
    holds_foldl_insert (wellFormed_blank hs offset) keys
  rwa [emptied_blank] at hholds

end Tabulate

theorem Holds.delete {t : Table kind} (ht : t.WellFormed) {key : UInt32} {keys : Multiset UInt32}
    (h : t.Holds (key ::ₘ keys)) : (t.delete key).Holds keys := by
  intro b
  have hweight := weight_delete ht key b
  rw [h b, Multiset.map_cons, Multiset.sum_cons, add_sub_cancel_left] at hweight
  exact hweight

theorem Holds.of_subtract {t u d : Table kind} (ht : t.WellFormed) (hu : u.WellFormed)
    (hsession : u.session = t.session) (hoffset : u.offset = t.offset)
    (hd : t.subtract u = .ok d) {keys others : Multiset UInt32} (hkeys : t.Holds (others + keys))
    (hothers : u.Holds others) : d.Holds keys := by
  obtain ⟨d', hd', -, hsession', -, hweight⟩ :=
    exists_subtract ht hu (checkAlike_self hsession hoffset)
  obtain rfl : d = d' := Except.ok.inj (hd.symm.trans hd')
  intro b
  have hu' : (u.cell b).weight t.session.field =
      (others.map fun key => t.session.share kind key b).sum := hsession ▸ hothers b
  rw [hsession', hweight b, hkeys b, hu', Multiset.map_add, Multiset.sum_add, add_sub_cancel_left]

namespace Holds

variable {t : Table kind} {keys : Multiset UInt32} (h : t.Holds keys)
include h

/-- A bucket counts a key as often as the key is sent there. -/
theorem count_cell (b : Nat) :
    (t.cell b).count = ((keys.map fun key => (t.bucketsOf key).count b).sum : Nat) := by
  have hfst : ((keys.map fun key => t.session.share kind key b).sum).1 =
      (keys.map fun key => (t.session.share kind key b).1).sum := by
    have hmap := map_multiset_sum (AddMonoidHom.fst Int (kind.Weight t.session.field))
      (keys.map fun key => t.session.share kind key b)
    rw [Multiset.map_map] at hmap
    exact hmap
  rw [← Cell.weight_fst t.session.field, h b, hfst, Nat.cast_multiset_sum, Multiset.map_map]
  simp only [Session.share_fst]
  rfl

theorem count_nonneg (b : Nat) : 0 ≤ (t.cell b).count := by
  rw [h.count_cell b]
  exact Int.natCast_nonneg _

/-- A bucket that counts nothing has no record of any key. -/
theorem cell_eq_empty (ht : t.WellFormed) {b : Nat} (hb : (t.cell b).count = 0) :
    t.cell b = Cell.empty := by
  -- no key is sent there, so none has a share in it
  have hzero : ∀ key ∈ keys, (t.bucketsOf key).count b = 0 := by
    rw [h.count_cell b] at hb
    intro key hkey
    have hle := t.count_le_sum hkey b
    omega
  apply Cell.weight_inj (ht.reduced_cell b) (Cell.reduced_empty ht.modulus_ne_zero)
  rw [h b, Cell.weight_empty]
  apply Multiset.sum_eq_zero
  intro w hw
  obtain ⟨key, hkey, rfl⟩ := Multiset.mem_map.1 hw
  exact Session.share_eq_zero (hzero key hkey)

/-- The counts of all buckets come to one per key and hash function. -/
theorem total (ht : t.WellFormed) : t.total = t.session.hashes.toNat * Multiset.card keys := by
  rw [total_eq_sum]
  simp only [h.count_cell]
  rw [← Nat.cast_sum, sum_sum_count_bucketsOf ht, Nat.cast_mul]

/-- The number of keys that the table counts is the number of keys that it holds. -/
theorem keyCount (ht : t.WellFormed) : t.keyCount = Multiset.card keys :=
  keyCount_eq ht (h.total ht)

/-- All buckets are empty when there are no keys. -/
theorem isEmpty_iff (ht : t.WellFormed) : t.isEmpty = true ↔ keys = 0 := by
  rw [isEmpty_eq_true_iff]
  constructor
  · intro hempty
    -- the counts come to nothing, and every key counts
    have htotal := h.total ht
    have hzero : t.total = 0 := by
      rw [total_eq_sum]
      refine Finset.sum_eq_zero fun b hb => ?_
      rw [hempty b (Finset.mem_range.1 hb)]
      rfl
    rw [hzero, eq_comm, mul_eq_zero] at htotal
    have hpos := ht.usable.hashes_pos
    rcases htotal with hhashes | hcard
    · omega
    · exact Multiset.card_eq_zero.1 (by exact_mod_cast hcard)
  · rintro rfl b -
    exact h.cell_eq_empty ht (h.count_cell b)

/-- What a multiset of keys left behind passes the check of a difference. -/
theorem checkLosses (ht : t.WellFormed) : t.checkLosses = .ok () := by
  rw [checkLosses_eq_ok_iff]
  intro c hc
  obtain ⟨b, hb, rfl⟩ := Array.getElem_of_mem hc
  rw [← cell_of_lt hb]
  exact ⟨h.count_nonneg b, h.cell_eq_empty ht⟩

end Holds

end Table

end LossSketch
