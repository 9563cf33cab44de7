import LossSketch.Bucket.Peel
import LossSketch.Proofs.Bucket.Image

/-!
# What peeling takes out

* `Peels` — one table comes from another by deleting keys, each of them the key of a pure bucket at
  that moment. `Table.peels_peel` says that peeling is such a run.
* `Peels.weight` — every bucket weighs what is left in it and what the keys taken out put there,
  whether or not any of them was ever inserted.
* `Peels.canonical` — only keys in the form in which the table records them are taken out.
* `Peels.holds` — from a table that holds a multiset of keys, only keys of that multiset are taken.
-/

namespace LossSketch

variable {kind : Kind}

/-- One table comes from another by deleting keys of buckets that are pure at that moment. -/
inductive Peels : Table kind → List UInt32 → Table kind → Prop
  | done (t : Table kind) : Peels t [] t
  | step {t r : Table kind} {i : Nat} {key : UInt32} {keys : List UInt32} :
      t.pureKey? i = some key → Peels (t.delete key) keys r → Peels t (key :: keys) r

theorem Peels.append {t u r : Table kind} {keys others : List UInt32} (h : Peels t keys u)
    (h' : Peels u others r) : Peels t (keys ++ others) r := by
  induction h with
  | done t => exact h'
  | step hpure _ ih => exact .step hpure (ih h')

namespace Table

theorem peels_peelOver (buckets : List Nat) (t : Table kind) :
    Peels t (peelOver buckets t).recovered (peelOver buckets t).residual := by
  induction buckets generalizing t with
  | nil => exact .done t
  | cons i buckets ih =>
    unfold peelOver
    cases hpure : t.pureKey? i with
    | none => exact ih t
    | some key => exact .step hpure (ih (t.delete key))

theorem peels_peelWalks (walks : Nat) (t : Table kind) :
    Peels t (peelWalks walks t).recovered (peelWalks walks t).residual := by
  induction walks generalizing t with
  | zero => exact .done t
  | succ walks ih =>
    unfold peelWalks
    -- one walk over all buckets, and then the other walks
    have hwalk := peels_peelOver (List.range t.cells.size) t
    dsimp only
    split
    · exact hwalk
    · exact hwalk.append (ih _)

/-- Peeling deletes keys of pure buckets, one after the other. -/
theorem peels_peel (t : Table kind) : Peels t t.peel.recovered t.peel.residual :=
  peels_peelWalks _ t

/-! ## Pure buckets -/

theorem pureKey?_eq_some {t : Table kind} {i : Nat} {key : UInt32}
    (h : t.pureKey? i = some key) :
    (t.cell i).count = 1 ∧ (t.cell i).key? = some key ∧ i ∈ t.bucketsOf key := by
  unfold pureKey? at h
  split at h
  · rename_i hcount
    obtain ⟨hkey, hmem⟩ := Option.filter_eq_some_iff.1 h
    exact ⟨hcount, hkey, List.contains_iff_mem.1 hmem⟩
  · cases h

/-- A bucket names its key in the form in which the table records it. -/
theorem WellFormed.canonical_of_key? {t : Table kind} (ht : t.WellFormed) {i : Nat} {key : UInt32}
    (hkey : (t.cell i).key? = some key) : t.canonical key = key := by
  cases kind with
  | counting => cases hkey
  | invertible => rfl
  | summing => exact Field.reduce_eq_self ht.modulus_ne_zero (ht.reduced_cell i key hkey)

/-- A bucket that counts one of a multiset of keys holds just one of them. -/
theorem Holds.exists_of_count_eq_one {t : Table kind} (ht : t.WellFormed)
    {keys : Multiset UInt32} (h : t.Holds keys) {i : Nat} (hcount : (t.cell i).count = 1) :
    ∃ key ∈ keys, i ∈ t.bucketsOf key ∧ t.cell i = Cell.single t.session.field key := by
  have hsum : (keys.map fun key => (t.bucketsOf key).count i).sum = 1 := by
    have hcell := h.count_cell i
    omega
  -- so some key is sent to the bucket
  have hexists : ∃ key ∈ keys, (t.bucketsOf key).count i ≠ 0 := by
    by_contra hnone
    push Not at hnone
    rw [Multiset.map_congr rfl hnone] at hsum
    simp at hsum
  obtain ⟨key, hkey, hne⟩ := hexists
  obtain ⟨others, rfl⟩ := Multiset.exists_cons_of_mem hkey
  rw [Multiset.map_cons, Multiset.sum_cons] at hsum
  refine ⟨key, hkey, List.count_pos_iff.1 (Nat.pos_of_ne_zero hne), Cell.weight_inj
    (ht.reduced_cell i) (Cell.reduced_single ht.modulus_ne_zero key) ?_⟩
  -- the other keys are not sent to this bucket, and this one is sent there once
  have hothers : (others.map fun key => t.session.share kind key i).sum = 0 := by
    refine Multiset.sum_eq_zero fun w hw => ?_
    obtain ⟨other, hother, rfl⟩ := Multiset.mem_map.1 hw
    have hle := t.count_le_sum hother i
    exact Session.share_eq_zero (show (t.bucketsOf other).count i = 0 by omega)
  rw [h i, Multiset.map_cons, Multiset.sum_cons, hothers, add_zero]
  show (t.bucketsOf key).count i • _ = _
  rw [show (t.bucketsOf key).count i = 1 by omega, one_nsmul]

theorem canonical_of_key?_single (f : Field) {key name : UInt32}
    (h : (Cell.single f key : Cell kind).key? = some name) : name = kind.canonical f key := by
  cases kind with
  | counting => cases h
  | invertible => exact (Option.some.inj h).symm
  | summing => exact (Option.some.inj h).symm

/-- In a table that holds a multiset of keys, the key of a pure bucket is one of them. -/
theorem Holds.mem_of_pureKey? {t : Table kind} (ht : t.WellFormed) {keys : Multiset UInt32}
    (h : t.Holds keys) (hcanonical : ∀ key ∈ keys, t.canonical key = key) {i : Nat} {key : UInt32}
    (hpure : t.pureKey? i = some key) : key ∈ keys := by
  -- a pure bucket holds one key of the multiset, and names that one
  obtain ⟨hcount, hkey, -⟩ := pureKey?_eq_some hpure
  obtain ⟨genuine, hmem, -, hcell⟩ := h.exists_of_count_eq_one ht hcount
  rw [hcell] at hkey
  have hname : key = genuine := (canonical_of_key?_single _ hkey).trans (hcanonical genuine hmem)
  exact hname ▸ hmem

end Table

/-! ## Runs -/

namespace Peels

variable {t r : Table kind} {keys : List UInt32} (h : Peels t keys r)
include h

/-- What no deletion changes, a run does not change. -/
theorem invariant {α : Type} (g : Table kind → α) (hg : ∀ t key, g (t.delete key) = g t) :
    g r = g t := by
  induction h with
  | done t => rfl
  | step _ _ ih => exact ih.trans (hg _ _)

theorem session_eq : r.session = t.session := h.invariant Table.session fun _ _ => rfl

theorem offset_eq : r.offset = t.offset := h.invariant Table.offset fun _ _ => rfl

theorem size_eq : r.cells.size = t.cells.size :=
  h.invariant (fun t => t.cells.size) fun t key => t.size_modifyAt key _

theorem emptied_eq : r.emptied = t.emptied :=
  h.invariant Table.emptied fun _ key => Table.emptied_delete key

theorem wellFormed (ht : t.WellFormed) : r.WellFormed := by
  induction h with
  | done t => exact ht
  | step _ _ ih => exact ih (ht.delete _)

/-- **Peeling conserves the table.** Every bucket weighs what is left in it and what the keys taken
out put there. -/
theorem weight (ht : t.WellFormed) (b : Nat) : (t.cell b).weight t.session.field =
    (r.cell b).weight t.session.field +
      (keys.map fun key => t.session.share kind key b).sum := by
  induction h with
  | done t => rw [List.map_nil, List.sum_nil, add_zero]
  | @step t r i key keys _ _ ih =>
    -- deleting the first key takes its share off every bucket
    have hrest : ((t.delete key).cell b).weight t.session.field =
        (r.cell b).weight t.session.field +
          (keys.map fun key => t.session.share kind key b).sum := ih (ht.delete key)
    rw [Table.weight_delete ht, sub_eq_iff_eq_add] at hrest
    rw [hrest, List.map_cons, List.sum_cons]
    abel

/-- Keys are taken out in the form in which the table records them. -/
theorem canonical (ht : t.WellFormed) : ∀ key ∈ keys, t.canonical key = key := by
  induction h with
  | done t => exact fun _ h => absurd h List.not_mem_nil
  | step hpure _ ih =>
    intro key hkey
    rcases List.mem_cons.1 hkey with rfl | hmem
    · exact ht.canonical_of_key? (Table.pureKey?_eq_some hpure).2.1
    · exact ih (ht.delete _) key hmem

/-- From a table that holds a multiset of keys only keys of that multiset are taken, and the others
are left. -/
theorem holds (ht : t.WellFormed) {all : Multiset UInt32} (hall : t.Holds all)
    (hcanonical : ∀ key ∈ all, t.canonical key = key) :
    (keys : Multiset UInt32) ≤ all ∧ r.Holds (all - keys) := by
  induction h generalizing all with
  | done t =>
    rw [Multiset.coe_nil, tsub_zero]
    exact ⟨Multiset.zero_le _, hall⟩
  | @step t r i key keys hpure _ ih =>
    -- the first key is one of those held, and the table without it holds the others
    obtain ⟨others, rfl⟩ :=
      Multiset.exists_cons_of_mem (hall.mem_of_pureKey? ht hcanonical hpure)
    obtain ⟨hle, hrest⟩ := ih (ht.delete key) (hall.delete ht)
      fun other hother => hcanonical other (Multiset.mem_cons_of_mem hother)
    rw [← Multiset.cons_coe, Multiset.sub_cons, Multiset.erase_cons_head]
    exact ⟨(Multiset.cons_le_cons_iff key).2 hle, hrest⟩

end Peels

end LossSketch
