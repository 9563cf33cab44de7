import LossSketch.Proofs.Bucket.Peel
import LossSketch.Proofs.Snapshot.Header

/-!
# Tables survive their snapshots

* `Table.Storable` lists what a table needs to be read back from its snapshot, and
  `Table.ofBytes_toBytes` says that it is. `Table.storable_of_ofBytes` — nothing else is ever read.
* `Table.Reachable` — tables that are new or read, and what the operations make of them.
* `Table.Reachable.storable` — every operation keeps a table storable.
* `Table.restored_of_reachable` — so every table that can be built survives its snapshot.
-/

namespace LossSketch

theorem Kind.reads_digestDecoder (kind : Kind) (digest : kind.Digest) :
    kind.digestDecoder.Reads (kind.digestBytes digest) digest := by
  cases kind with
  | counting => exact Decoder.reads_pure ()
  | invertible => exact Decoder.reads_word32 digest
  | summing => exact Decoder.reads_word32 digest

variable {kind : Kind}

theorem Cell.reads_decoder {c : Cell kind} (h : Signed64 c.count) : decoder.Reads c.toBytes c :=
  (Decoder.reads_signed h).bind (by
    have hdigest := (kind.reads_digestDecoder c.digest).map (Cell.mk c.count)
    rwa [← bind_pure_comp] at hdigest)

/-- How many bytes the record of the keys takes. -/
def Kind.digestSize : Kind → Nat
  | counting => 0
  | invertible => 4
  | summing => 4

/-- The record of the keys that any bytes begin with. -/
def Kind.digestOf : (kind : Kind) → Bytes → kind.Digest
  | counting, _ => ()
  | invertible, bytes => bytes.word32
  | summing, bytes => bytes.word32

/-- The bucket that any bytes begin with. -/
def Cell.ofFront (bytes : Bytes) : Cell kind :=
  ⟨bytes.int64, kind.digestOf (bytes.drop 8)⟩

theorem Kind.fixedWidth_digestDecoder (kind : Kind) :
    kind.digestDecoder.FixedWidth kind.digestSize kind.digestOf := by
  cases kind with
  | counting => exact Decoder.fixedWidth_pure ()
  | invertible => exact Decoder.fixedWidth_word32
  | summing => exact Decoder.fixedWidth_word32

theorem Cell.fixedWidth_decoder :
    (decoder : Decoder (Cell kind)).FixedWidth (8 + kind.digestSize) ofFront :=
  Decoder.fixedWidth_signed.bind fun count => by
    have hdigest := kind.fixedWidth_digestDecoder.map (Cell.mk count)
    rwa [← bind_pure_comp] at hdigest

namespace Table

/-- The counts are words of 64 bits with a sign. -/
def Fits (t : Table kind) : Prop := ∀ c ∈ t.cells, Signed64 c.count

instance (t : Table kind) : Decidable t.Fits :=
  inferInstanceAs (Decidable (∀ c ∈ t.cells, Signed64 c.count))

/-- What a table needs to be read back from its snapshot. -/
structure Storable (t : Table kind) : Prop extends t.WellFormed where
  admits : t.session.Admits t.offset
  fits : t.Fits

theorem checkCells_eq_ok_iff {t : Table kind} : t.checkCells = .ok () ↔
    t.cells.size = t.session.buckets.toNat ∧ ∀ c ∈ t.cells, c.Reduced t.session.field := by
  have hreduced : ∀ c : Cell kind, c.fieldSum?.any (t.session.modulus ≤ ·) = false ↔
      c.Reduced t.session.field := by
    intro c
    cases hsum : c.fieldSum? with
    | none => exact ⟨fun _ sum h => absurd (hsum.symm.trans h) nofun, fun _ => rfl⟩
    | some sum =>
      rw [Option.any_some, decide_eq_false_iff_not, UInt32.not_le]
      constructor
      · rintro hlt sum' hsum'
        obtain rfl := Option.some.inj (hsum.symm.trans hsum')
        exact hlt
      · exact fun h => h sum hsum
  unfold checkCells
  -- the number of buckets is compared first, and then the buckets are searched
  split
  · rename_i hsize
    exact ⟨nofun, fun h => absurd h.1 hsize⟩
  · rename_i hsize
    rw [and_iff_right (not_not.1 hsize)]
    cases hfind : t.cells.findIdx? (·.fieldSum?.any (t.session.modulus ≤ ·)) with
    | none =>
      have hnone := Array.findIdx?_eq_none_iff.1 hfind
      exact ⟨fun _ c hc => (hreduced c).1 (hnone c hc), fun _ => rfl⟩
    | some b =>
      refine ⟨nofun, fun h => ?_⟩
      rw [Array.findIdx?_eq_none_iff.2 fun c hc => (hreduced c).2 (h c hc)] at hfind
      cases hfind

/-- Behind the header, as many buckets are read as it says. -/
theorem ofBytes_header (s : Session) (offset : UInt64) {count : Nat} (hcount : count < 2 ^ 64)
    (rest : Bytes) : (ofBytes (s.header offset count ++ rest) : Except Error (Table kind)) = do
      let cells ← (Decoder.times Cell.decoder count).read rest
      s.checkSnapshot offset
      checkCells ⟨s, offset, cells.toArray⟩
      return ⟨s, offset, cells.toArray⟩ := by
  have hdecoder : (decoder : Decoder (Table kind)).read (s.header offset count ++ rest) =
      (Decoder.times Cell.decoder count).read rest >>= fun cells =>
        pure ⟨s, offset, cells.toArray⟩ := by
    rw [decoder, s.bind_read_header offset hcount, UInt64.ofNat_toNat, Decoder.read_bind_pure]
  rw [ofBytes, hdecoder, bind_assoc]
  simp only [pure_bind]

/-- **A table is read back** from its snapshot. -/
theorem ofBytes_toBytes {t : Table kind} (h : t.Storable) : ofBytes t.toBytes = .ok t := by
  have hcount : t.cells.size < 2 ^ 64 := by
    rw [h.size_eq]
    exact t.session.buckets.toNat_lt
  have hcells : (Decoder.times Cell.decoder t.cells.size).Reads
      (t.cells.toList.flatMap Cell.toBytes) t.cells.toList :=
    Decoder.reads_times fun c hc => Cell.reads_decoder (h.fits c (Array.mem_toList_iff.1 hc))
  have hheader : (ofBytes t.toBytes : Except Error (Table kind)) = _ :=
    ofBytes_header t.session t.offset hcount (t.cells.toList.flatMap Cell.toBytes)
  rw [hcells.read_eq, ok_bind, Session.checkSnapshot_eq_ok_iff.2 ⟨h.usable, h.admits⟩, ok_bind]
    at hheader
  -- what was read is the table itself, so that only its own check is left
  refine hheader.trans ?_
  show (t.checkCells >>= fun _ => pure t) = .ok t
  rw [checkCells_eq_ok_iff.2 ⟨h.size_eq, h.reduced⟩]
  rfl

/-- Nothing is read from any bytes that is not a storable table. -/
theorem storable_of_ofBytes {bytes : Bytes} {t : Table kind} (h : ofBytes bytes = .ok t) :
    t.Storable := by
  obtain ⟨t', hdecoder, h⟩ := bind_eq_ok.1 h
  obtain ⟨⟨⟩, hsession, h⟩ := bind_eq_ok.1 h
  obtain ⟨⟨⟩, hcells, h⟩ := bind_eq_ok.1 h
  obtain rfl : t' = t := Except.ok.inj h
  obtain ⟨hs, hoffset⟩ := Session.checkSnapshot_eq_ok_iff.1 hsession
  obtain ⟨hsize, hreduced⟩ := checkCells_eq_ok_iff.1 hcells
  refine ⟨⟨Session.check_eq_ok_iff.2 hs, hsize, hreduced⟩, hoffset, ?_⟩
  -- every count was read from eight bytes
  obtain ⟨rest, hdecoder⟩ := Decoder.read_eq_ok.1 hdecoder
  obtain ⟨session, _, -, hdecoder⟩ := Decoder.bind_eq_ok.1 hdecoder
  obtain ⟨offset, _, -, hdecoder⟩ := Decoder.bind_eq_ok.1 hdecoder
  obtain ⟨size, _, -, hdecoder⟩ := Decoder.bind_eq_ok.1 hdecoder
  obtain ⟨cells, _, hread, hdecoder⟩ := Decoder.bind_eq_ok.1 hdecoder
  cases hdecoder
  obtain ⟨-, rfl⟩ := (Cell.fixedWidth_decoder.times size).value_of_ok hread
  intro c hc
  obtain ⟨i, -, rfl⟩ := List.mem_map.1 (List.mem_toArray.1 hc)
  exact Bytes.signed64_int64 _

/-! ## Tables that operations build -/

/-- **Tables that can be built**: new ones, those read from any bytes, and what the operations make
of them. Counts are words of 64 bits with a sign, so an operation whose counts would leave that
range builds no table. -/
inductive Reachable : Table kind → Prop
  | new {s : Session} {offset : UInt64} {t : Table kind} :
      Table.new s offset = .ok t → Reachable t
  | ofBytes {bytes : Bytes} {t : Table kind} : Table.ofBytes bytes = .ok t → Reachable t
  | insert {t : Table kind} (key : UInt32) :
      Reachable t → (t.insert key).Fits → Reachable (t.insert key)
  | delete {t : Table kind} (key : UInt32) :
      Reachable t → (t.delete key).Fits → Reachable (t.delete key)
  | insertPacket {t u : Table kind} {packet : Bytes} {key : UInt32} :
      Reachable t → t.insertPacket packet = .ok (key, u) → u.Fits → Reachable u
  | deletePacket {t u : Table kind} {packet : Bytes} {key : UInt32} :
      Reachable t → t.deletePacket packet = .ok (key, u) → u.Fits → Reachable u
  | merge {t other u : Table kind} :
      Reachable t → Reachable other → t.merge other = .ok u → u.Fits → Reachable u
  | subtract {t other u : Table kind} :
      Reachable t → Reachable other → t.subtract other = .ok u → u.Fits → Reachable u
  | emptied {t : Table kind} : Reachable t → Reachable t.emptied
  | residual {t : Table kind} : Reachable t → t.peel.residual.Fits → Reachable t.peel.residual

theorem fits_replicate (size : Nat) :
    ∀ c ∈ Array.replicate size (Cell.empty : Cell kind), Signed64 c.count := by
  intro c hc
  rw [(Array.mem_replicate.1 hc).2]
  show Signed64 0
  decide

/-- A table without keys is storable. -/
theorem storable_of_new {s : Session} {offset : UInt64} {t : Table kind}
    (h : Table.new s offset = .ok t) : t.Storable := by
  have hadmits := admits_of_new h
  obtain ⟨hs, rfl⟩ := eq_blank_of_new h
  exact ⟨wellFormed_blank hs offset, hadmits, fits_replicate _⟩

namespace Storable

variable {t : Table kind} (ht : t.Storable)
include ht

/-- What keeps a table well formed, and its session and offset, keeps it storable while its counts
fit. -/
theorem change {u : Table kind} (hu : u.WellFormed) (hsession : u.session = t.session)
    (hoffset : u.offset = t.offset) (hfits : u.Fits) : u.Storable where
  toWellFormed := hu
  admits := by
    rw [hsession, hoffset]
    exact ht.admits
  fits := hfits

theorem emptied : t.emptied.Storable :=
  ht.change ht.toWellFormed.emptied rfl rfl (fits_replicate _)

/-- Combining two tables bucket by bucket keeps a table storable. -/
theorem zipWith {other : Table kind} (hother : other.Storable)
    (halike : t.checkAlike other = .ok ()) {combine : Cell kind → Cell kind → Cell kind}
    (hcombine : ∀ a b, (combine a b).Reduced t.session.field)
    (hfits : Fits { t with cells := t.cells.zipWith combine other.cells }) :
    Storable { t with cells := t.cells.zipWith combine other.cells } :=
  ht.change (ht.toWellFormed.zipWith
    (ht.toWellFormed.size_eq_of_checkAlike hother.toWellFormed halike) hcombine) rfl rfl hfits

end Storable

/-- **Every operation keeps a table storable.** -/
theorem Reachable.storable {t : Table kind} (h : t.Reachable) : t.Storable := by
  induction h with
  | new hnew => exact storable_of_new hnew
  | ofBytes hread => exact storable_of_ofBytes hread
  | insert key _ hfits ih => exact ih.change (ih.toWellFormed.insert key) rfl rfl hfits
  | delete key _ hfits ih => exact ih.change (ih.toWellFormed.delete key) rfl rfl hfits
  | insertPacket _ hpacket hfits ih =>
    obtain ⟨_, -, hpacket⟩ := bind_eq_ok.1 hpacket
    cases hpacket
    exact ih.change (ih.toWellFormed.insert _) rfl rfl hfits
  | deletePacket _ hpacket hfits ih =>
    obtain ⟨_, -, hpacket⟩ := bind_eq_ok.1 hpacket
    cases hpacket
    exact ih.change (ih.toWellFormed.delete _) rfl rfl hfits
  | merge _ _ hmerge hfits ih ihother =>
    obtain ⟨⟨⟩, halike, hmerge⟩ := bind_eq_ok.1 hmerge
    cases hmerge
    -- sums of records are reduced, whatever is added
    exact ih.zipWith ihother halike (Cell.reduced_add ih.modulus_ne_zero) hfits
  | subtract _ _ hsubtract hfits ih ihother =>
    obtain ⟨⟨⟩, halike, hsubtract⟩ := bind_eq_ok.1 hsubtract
    cases hsubtract
    exact ih.zipWith ihother halike (Cell.reduced_sub ih.modulus_ne_zero) hfits
  | emptied _ ih => exact ih.emptied
  | @residual t _ hfits ih =>
    -- peeling is a run of deletions
    have hpeel := peels_peel t
    exact ih.change (hpeel.wellFormed ih.toWellFormed) hpeel.session_eq hpeel.offset_eq hfits

/-- **Every table that can be built survives its snapshot.** Its session is usable and admits its
offset, it has as many buckets as the session says, the sums of its keys are in the field, and
reading its snapshot gives it back. -/
theorem restored_of_reachable {t : Table kind} (h : t.Reachable) :
    t.session.check = .ok () ∧ t.cells.size = t.session.buckets.toNat ∧
      t.offset.toNat + t.session.width.toNat ≤ 8 * t.session.packetBytes.toNat ∧
      (∀ c ∈ t.cells, ∀ sum, c.fieldSum? = some sum → sum < t.session.modulus) ∧
      ofBytes t.toBytes = .ok t := by
  have hstorable := h.storable
  exact ⟨hstorable.checked, hstorable.size_eq, hstorable.admits, hstorable.reduced,
    ofBytes_toBytes hstorable⟩

/-- What is left of the key twenty, which is seven in the field, when six is taken out of it and
then seven out of the difference. -/
def overdrawn : Table .summing :=
  ⟨Session.small, 8, #[⟨-1, (7 : UInt32)⟩, Cell.empty, ⟨-1, (7 : UInt32)⟩, Cell.empty]⟩

theorem restored_of_reachable_overdrawn :
    (((blank Session.small 8 : Table .summing).insert 20).delete 6).subtract
        ((blank Session.small 8).insert 7) = .ok overdrawn ∧
      ofBytes overdrawn.toBytes = .ok overdrawn := by
  have hadmits : Session.small.Admits 8 := by decide
  have hblank : (blank Session.small 8 : Table .summing).Reachable :=
    .new (new_eq_ok (Session.check_eq_ok_iff.1 Session.check_small) hadmits)
  have hsubtract : (((blank Session.small 8 : Table .summing).insert 20).delete 6).subtract
      ((blank Session.small 8).insert 7) = .ok overdrawn := by decide +kernel
  have hreachable : overdrawn.Reachable :=
    .subtract (.delete 6 (.insert 20 hblank (by decide +kernel)) (by decide +kernel))
      (.insert 7 hblank (by decide +kernel)) hsubtract (by decide +kernel)
  obtain ⟨-, -, -, -, hrestored⟩ := restored_of_reachable hreachable
  exact ⟨hsubtract, hrestored⟩

end Table

end LossSketch
