import LossSketch.Proofs.Snapshot.PowerSums
import LossSketch.Proofs.Snapshot.Table

/-!
# Snapshots read as another type

Tables of all kinds and power sums write their snapshots alike, and nothing in a snapshot tells of
which type it is. Reading it as another type takes other numbers from the same bytes.

* `SketchType.ofBody` is what a type takes the bytes behind the header for.
* `SketchType.read_header_eq_ok` — reading stops at nothing but the offset, the number of entries,
  the length and the sums.
* `AnySketch.read_eq_ok_iff` — what comes of reading any sketch that can be built as any type.
* `Table.exists_ofBytes_iff` — how kinds of tables are taken for each other.
* `Table.read_as_others` — a table of which two other kinds are read.
-/

namespace LossSketch

/-! ## Sketches of all types -/

/-- The types of sketches that have snapshots. -/
inductive SketchType
  | table (kind : Kind)
  | powerSums
  deriving DecidableEq

/-- A sketch of any type. -/
inductive AnySketch
  | table {kind : Kind} (t : Table kind)
  | powerSums (a : PowerSums)

/-- The sketch of a snapshot, read as a type. -/
def SketchType.read : SketchType → Bytes → Except Error AnySketch
  | table kind, bytes => do
    let t ← (Table.ofBytes bytes : Except Error (Table kind))
    return .table t
  | powerSums, bytes => do
    let a ← PowerSums.ofBytes bytes
    return .powerSums a

namespace AnySketch

/-- The type of the sketch. -/
def type : AnySketch → SketchType
  | @table kind _ => .table kind
  | powerSums _ => .powerSums

def session : AnySketch → Session
  | table t => t.session
  | powerSums a => a.session

def offset : AnySketch → UInt64
  | table t => t.offset
  | powerSums a => a.offset

/-- The snapshot of the sketch. -/
def toBytes : AnySketch → Bytes
  | table t => t.toBytes
  | powerSums a => a.toBytes

/-- The part of the snapshot behind the header. -/
def body : AnySketch → Bytes
  | table t => t.cells.toList.flatMap Cell.toBytes
  | powerSums a => a.body

/-- The sums of the sketch that have to be in the field. -/
def fieldSums : AnySketch → List UInt32
  | table t => t.cells.toList.filterMap Cell.fieldSum?
  | powerSums a => a.sums

/-- The sketch can be built by the operations of its type. -/
def Reachable : AnySketch → Prop
  | table t => t.Reachable
  | powerSums a => a.Reachable

end AnySketch

/-! ## What the bytes are taken for -/

/-- The table that a body is taken for. -/
def Table.ofBody {kind : Kind} (s : Session) (offset : UInt64) (body : Bytes) : Table kind :=
  ⟨s, offset, ((List.range s.buckets.toNat).map fun b =>
    Cell.ofFront (body.drop ((8 + kind.digestSize) * b))).toArray⟩

/-- The power sums that a body is taken for. -/
def PowerSums.ofBody (s : Session) (offset : UInt64) (body : Bytes) : PowerSums :=
  ⟨s, offset, (List.range s.degree.toNat).map fun i => Bytes.word32 (body.drop (4 * i)),
    Bytes.int64 (body.drop (4 * s.degree.toNat))⟩

namespace SketchType

/-- The number of buckets, or of power sums. -/
def entries (s : Session) : SketchType → Nat
  | table _ => s.buckets.toNat
  | powerSums => s.degree.toNat

/-- The number of bytes behind the header. -/
def bodySize (s : Session) : SketchType → Nat
  | table kind => (8 + kind.digestSize) * s.buckets.toNat
  | powerSums => 4 * s.degree.toNat + 8

/-- The sketch that a body is taken for. -/
def ofBody (s : Session) (offset : UInt64) (body : Bytes) : SketchType → AnySketch
  | table kind => .table (Table.ofBody s offset body : Table kind)
  | powerSums => .powerSums (PowerSums.ofBody s offset body)

end SketchType

/-! ## Reading behind a header -/

theorem Decoder.FixedWidth.read_eq_ok {α : Type} {d : Decoder α} {width : Nat} {value : Bytes → α}
    (h : d.FixedWidth width value) {bytes : Bytes} {a : α} :
    d.read bytes = .ok a ↔ width ≤ bytes.length ∧ a = value bytes := by
  rw [Decoder.read_eq_ok]
  constructor
  · rintro ⟨rest, hread⟩
    exact h.value_of_ok hread
  · rintro ⟨hlength, rfl⟩
    exact ⟨_, h.long bytes hlength⟩

/-- A table is read exactly if the session admits the offset, the number of buckets is that of the
session, there are bytes for all of them and the sums that these show are in the field. -/
theorem Table.ofBytes_header_eq_ok {kind : Kind} {s : Session} (hs : s.Usable) {offset : UInt64}
    {count : Nat} (hcount : count < 2 ^ 64) {body : Bytes} {t : Table kind} :
    ofBytes (s.header offset count ++ body) = .ok t ↔
      s.Admits offset ∧ count = s.buckets.toNat ∧
        (8 + kind.digestSize) * s.buckets.toNat ≤ body.length ∧
        (∀ c ∈ (ofBody s offset body : Table kind).cells, c.Reduced s.field) ∧
        t = ofBody s offset body := by
  rw [ofBytes_header s offset hcount, bind_eq_ok]
  constructor
  · rintro ⟨cells, hread, h⟩
    obtain ⟨hlength, rfl⟩ := (Cell.fixedWidth_decoder.times count).read_eq_ok.1 hread
    obtain ⟨⟨⟩, hoffset, h⟩ := bind_eq_ok.1 h
    obtain ⟨⟨⟩, hcells, h⟩ := bind_eq_ok.1 h
    obtain ⟨hsize, hreduced⟩ := checkCells_eq_ok_iff.1 hcells
    -- as many buckets were read as the number in front of them says
    obtain rfl : count = s.buckets.toNat := by
      rwa [List.size_toArray, List.length_map, List.length_range] at hsize
    exact ⟨(Session.checkSnapshot_eq_ok_iff.1 hoffset).2, rfl, hlength, hreduced,
      (Except.ok.inj h).symm⟩
  · rintro ⟨hoffset, rfl, hlength, hreduced, rfl⟩
    refine ⟨_, (Cell.fixedWidth_decoder.times _).read_eq_ok.2 ⟨hlength, rfl⟩, ?_⟩
    have hcells : checkCells (ofBody s offset body : Table kind) = .ok () := by
      refine checkCells_eq_ok_iff.2 ⟨?_, hreduced⟩
      rw [ofBody, List.size_toArray, List.length_map, List.length_range]
    rw [Session.checkSnapshot_eq_ok_iff.2 ⟨hs, hoffset⟩, ok_bind]
    show (checkCells (ofBody s offset body : Table kind) >>= fun _ => pure _) = _
    rw [hcells]
    rfl

theorem PowerSums.fixedWidth_bodyDecoder (length : Nat) :
    (bodyDecoder length).FixedWidth (4 * length + 8) fun bytes =>
      ((List.range length).map fun i => Bytes.word32 (bytes.drop (4 * i)),
        Bytes.int64 (bytes.drop (4 * length))) :=
  (Decoder.fixedWidth_word32.times length).bind fun sums => by
    have hcount := Decoder.fixedWidth_signed.map (Prod.mk sums)
    rwa [← bind_pure_comp] at hcount

/-- Power sums are read exactly if the session admits the offset, their number is the degree of the
session, there are bytes for all of them and for one number more, and all are in the field. -/
theorem PowerSums.ofBytes_header_eq_ok {s : Session} (hs : s.Usable) {offset : UInt64} {count : Nat}
    (hcount : count < 2 ^ 64) {body : Bytes} {a : PowerSums} :
    ofBytes (s.header offset count ++ body) = .ok a ↔
      s.Admits offset ∧ count = s.degree.toNat ∧ 4 * s.degree.toNat + 8 ≤ body.length ∧
        (∀ sum ∈ (ofBody s offset body).sums, s.field.Reduced sum) ∧ a = ofBody s offset body := by
  rw [ofBytes_header s offset hcount, bind_eq_ok]
  constructor
  · rintro ⟨r, hread, h⟩
    obtain ⟨hlength, rfl⟩ := (fixedWidth_bodyDecoder count).read_eq_ok.1 hread
    obtain ⟨⟨⟩, hoffset, h⟩ := bind_eq_ok.1 h
    obtain ⟨⟨⟩, hsums, h⟩ := bind_eq_ok.1 h
    obtain ⟨hnumber, hreduced⟩ := checkSums_eq_ok_iff.1 hsums
    -- the number of sums is the one that the header announced
    obtain rfl : count = s.degree.toNat := by
      rwa [List.length_map, List.length_range] at hnumber
    exact ⟨(Session.checkSnapshot_eq_ok_iff.1 hoffset).2, rfl, hlength, hreduced,
      (Except.ok.inj h).symm⟩
  · rintro ⟨hoffset, rfl, hlength, hreduced, rfl⟩
    refine ⟨_, (fixedWidth_bodyDecoder _).read_eq_ok.2 ⟨hlength, rfl⟩, ?_⟩
    have hsums : checkSums (ofBody s offset body) = .ok () := by
      refine checkSums_eq_ok_iff.2 ⟨?_, hreduced⟩
      rw [ofBody, List.length_map, List.length_range]
    rw [Session.checkSnapshot_eq_ok_iff.2 ⟨hs, hoffset⟩, ok_bind]
    show (checkSums (ofBody s offset body) >>= fun _ => pure _) = _
    rw [hsums]
    rfl

/-- **What reading stops at**, whatever wrote the body. -/
theorem SketchType.read_header_eq_ok {s : Session} (hs : s.Usable) {offset : UInt64} {count : Nat}
    (hcount : count < 2 ^ 64) {body : Bytes} (type : SketchType) {y : AnySketch} :
    type.read (s.header offset count ++ body) = .ok y ↔
      s.Admits offset ∧ count = type.entries s ∧ type.bodySize s ≤ body.length ∧
        (∀ sum ∈ (type.ofBody s offset body).fieldSums, sum < s.modulus) ∧
        y = type.ofBody s offset body := by
  cases type with
  | table kind =>
    -- the sums of a table are those of the buckets that keep one
    have hreduced : (∀ c ∈ (Table.ofBody s offset body : Table kind).cells, c.Reduced s.field) ↔
        ∀ sum ∈ (ofBody s offset body (.table kind)).fieldSums, sum < s.modulus := by
      simp only [ofBody, AnySketch.fieldSums, List.mem_filterMap, Array.mem_toList_iff]
      constructor
      · rintro h sum ⟨c, hc, hsum⟩
        exact h c hc sum hsum
      · exact fun h c hc sum hsum => h sum ⟨c, hc, hsum⟩
    rw [← hreduced, read, bind_eq_ok]
    constructor
    · rintro ⟨t, hread, h⟩
      obtain ⟨hoffset, hentries, hsize, hcells, rfl⟩ :=
        (Table.ofBytes_header_eq_ok hs hcount).1 hread
      exact ⟨hoffset, hentries, hsize, hcells, (Except.ok.inj h).symm⟩
    · rintro ⟨hoffset, hentries, hsize, hcells, rfl⟩
      exact ⟨_, (Table.ofBytes_header_eq_ok hs hcount).2 ⟨hoffset, hentries, hsize, hcells, rfl⟩,
        rfl⟩
  | powerSums =>
    have hreduced : (∀ sum ∈ (PowerSums.ofBody s offset body).sums, s.field.Reduced sum) ↔
        ∀ sum ∈ (ofBody s offset body .powerSums).fieldSums, sum < s.modulus :=
      forall₂_congr fun sum _ => UInt32.lt_iff_toNat_lt.symm
    rw [← hreduced, read, bind_eq_ok]
    constructor
    · rintro ⟨a, hread, h⟩
      obtain ⟨hoffset, hentries, hsize, hsums, rfl⟩ :=
        (PowerSums.ofBytes_header_eq_ok hs hcount).1 hread
      exact ⟨hoffset, hentries, hsize, hsums, (Except.ok.inj h).symm⟩
    · rintro ⟨hoffset, hentries, hsize, hsums, rfl⟩
      exact ⟨_, (PowerSums.ofBytes_header_eq_ok hs hcount).2
        ⟨hoffset, hentries, hsize, hsums, rfl⟩, rfl⟩

/-! ## Bodies -/

theorem length_flatMap_of_width {α : Type} {enc : α → Bytes} {width : Nat}
    (h : ∀ a, (enc a).length = width) (l : List α) :
    (l.flatMap enc).length = width * l.length := by
  induction l with
  | nil => rfl
  | cons a l ih =>
    rw [List.flatMap_cons, List.length_append, h, ih, List.length_cons, Nat.mul_succ, Nat.add_comm]

/-- Values of one width lie equally far apart. -/
theorem drop_flatMap_of_width {α : Type} {enc : α → Bytes} {width : Nat}
    (h : ∀ a, (enc a).length = width) (l : List α) (i : Nat) :
    (l.flatMap enc).drop (width * i) = (l.drop i).flatMap enc := by
  induction i generalizing l with
  | zero => rfl
  | succ i ih =>
    cases l with
    | nil => rw [List.flatMap_nil, List.drop_nil, List.drop_nil, List.flatMap_nil]
    | cons a l =>
      -- the first value is dropped, and the places of the others are counted from behind it
      rw [List.flatMap_cons, Nat.mul_succ, Nat.add_comm, ← List.drop_drop, List.drop_left' (h a),
        ih, List.drop_succ_cons]

theorem Cell.length_toBytes {kind : Kind} (c : Cell kind) :
    c.toBytes.length = 8 + kind.digestSize := by
  rw [toBytes, List.length_append, length_signedBytes]
  cases kind with
  | counting => rfl
  | invertible => rfl
  | summing => rfl

namespace AnySketch

variable {x : AnySketch} (hx : x.Reachable)
include hx

theorem usable_of_reachable : x.session.Usable := by
  cases x with
  | table t => exact (Table.Reachable.storable hx).usable
  | powerSums a => exact (PowerSums.Reachable.wellFormed hx).usable

theorem toBytes_eq :
    x.toBytes = x.session.header x.offset (x.type.entries x.session) ++ x.body := by
  cases x with
  | table t =>
    have hsize := (Table.Reachable.storable hx).size_eq
    show t.session.header t.offset t.cells.size ++ _ = _
    rw [hsize]
    rfl
  | powerSums a =>
    have hlength := (PowerSums.Reachable.wellFormed hx).length_eq
    rw [toBytes, a.toBytes_eq, hlength]
    rfl

theorem length_body : x.body.length = x.type.bodySize x.session := by
  cases x with
  | table t =>
    have hsize := (Table.Reachable.storable hx).size_eq
    rw [body, length_flatMap_of_width Cell.length_toBytes, Array.length_toList, hsize]
    rfl
  | powerSums a =>
    have hlength := (PowerSums.Reachable.wellFormed hx).length_eq
    rw [body, PowerSums.body, List.length_append, length_signedBytes,
      length_flatMap_of_width fun sum : UInt32 => Bytes.length_ofNat 4 sum.toNat, hlength]
    rfl

end AnySketch

theorem SketchType.entries_lt (s : Session) (type : SketchType) : type.entries s < 2 ^ 64 := by
  cases type with
  | table kind => exact s.buckets.toNat_lt
  | powerSums => exact s.degree.toNat_lt

/-! ## Reading what another type wrote -/

/-- **What comes of reading any sketch as any type.** Nothing tells the types apart: the offset has
to be admitted, the two types need equally many entries, the type read no more bytes than the type
written, and the words that are taken for sums have to be in the field. Then the sketch read has the
session and the offset of the one written, so that it can be combined with others of the session. -/
theorem AnySketch.read_eq_ok_iff {x : AnySketch} (hx : x.Reachable) (other : SketchType)
    {y : AnySketch} : other.read x.toBytes = .ok y ↔
      x.offset.toNat + x.session.width.toNat ≤ 8 * x.session.packetBytes.toNat ∧
        x.type.entries x.session = other.entries x.session ∧
        other.bodySize x.session ≤ x.type.bodySize x.session ∧
        (∀ sum ∈ (other.ofBody x.session x.offset x.body).fieldSums, sum < x.session.modulus) ∧
        y = other.ofBody x.session x.offset x.body := by
  rw [toBytes_eq hx, other.read_header_eq_ok (usable_of_reachable hx) (x.type.entries_lt _),
    length_body hx]
  rfl

/-- A session with as many buckets as power sums. -/
def Session.square : Session := { small with buckets := 2 }

/-- The power sums of three and five are eight each. They are read as the halves of a count, and
their number as another. -/
theorem AnySketch.read_eq_ok_iff_square :
    (SketchType.table .counting).read (PowerSums.accumulate Session.square 0 [3, 5]).toBytes =
      .ok (.table (⟨Session.square, 0, #[⟨8 + 8 * 2 ^ 32, ()⟩, ⟨2, ()⟩]⟩ : Table .counting)) := by
  have hs : Session.square.Usable := Session.check_eq_ok_iff.1 (by decide +kernel)
  have hreachable : (AnySketch.powerSums (.accumulate Session.square 0 [3, 5])).Reachable :=
    .ofKeys (PowerSums.ofKeys_eq_ok hs 0 [3, 5]) (by decide)
  have hsums : ((SketchType.table .counting).ofBody Session.square 0
      (AnySketch.powerSums (.accumulate Session.square 0 [3, 5])).body).fieldSums = [] := by
    decide +kernel
  refine (read_eq_ok_iff hreachable (.table .counting)).2 ⟨by decide, by decide, by decide,
    fun sum hsum => ?_, congrArg AnySketch.table (by decide +kernel)⟩
  exact absurd (hsums ▸ hsum) List.not_mem_nil

/-! ## Kinds of tables -/

/-- The word behind the count of a bucket is the key that its record names. -/
theorem Cell.word32_toBytes {kind : Kind} {c : Cell kind} {key : UInt32} (hkey : c.key? = some key)
    (rest : Bytes) : Bytes.word32 ((c.toBytes ++ rest).drop 8) = key := by
  have hword : ∀ w : UInt32, Bytes.word32 (Bytes.ofNat 4 w.toNat ++ rest) = w := fun w =>
    (Decoder.fixedWidth_word32.value_of_ok (Decoder.reads_word32 w rest)).2.symm
  rw [toBytes, List.append_assoc, List.drop_left' (length_signedBytes _)]
  cases kind with
  | counting => cases hkey
  | invertible =>
    obtain rfl : c.digest = key := Option.some.inj hkey
    exact hword c.digest
  | summing =>
    obtain rfl : c.digest = key := Option.some.inj hkey
    exact hword c.digest

theorem Cell.exists_key?_of_digestSize {kind : Kind} (h : kind.digestSize = 4) (c : Cell kind) :
    ∃ key, c.key? = some key := by
  cases kind with
  | counting => cases h
  | invertible => exact ⟨c.digest, rfl⟩
  | summing => exact ⟨c.digest, rfl⟩

namespace Table

variable {kind : Kind}

/-- The table that a body is taken for keeps its sums in the field exactly if the words do that are
taken for sums. -/
theorem reduced_ofBody_iff {s : Session} {offset : UInt64} {body : Bytes} :
    (∀ c ∈ (ofBody s offset body : Table kind).cells, c.Reduced s.field) ↔
      (kind = .summing → ∀ b < s.buckets.toNat,
        Bytes.word32 ((body.drop (12 * b)).drop 8) < s.modulus) := by
  simp only [ofBody, List.mem_toArray, List.mem_map, List.mem_range]
  cases kind with
  | counting => exact ⟨nofun, fun _ c _ sum hsum => nomatch hsum⟩
  | invertible => exact ⟨nofun, fun _ c _ sum hsum => nomatch hsum⟩
  | summing =>
    constructor
    · exact fun h _ b hb => h _ ⟨b, hb, rfl⟩ _ rfl
    · rintro h _ ⟨b, hb, rfl⟩ sum hsum
      obtain rfl := Option.some.inj hsum
      exact h rfl b hb

/-- So it is at the place of every bucket in the body of its table. -/
theorem exists_key?_of_digestSize {t : Table kind} (hkind : kind.digestSize = 4) {b : Nat}
    (hb : b < t.cells.size) : ∃ key, t.cells[b].key? = some key ∧
      Bytes.word32 (((AnySketch.table t).body.drop (12 * b)).drop 8) = key := by
  obtain ⟨key, hkey⟩ := Cell.exists_key?_of_digestSize hkind t.cells[b]
  have hwidth : ∀ c : Cell kind, c.toBytes.length = 12 := fun c => by rw [c.length_toBytes, hkind]
  have hdrop : t.cells.toList.drop b = t.cells[b] :: t.cells.toList.drop (b + 1) :=
    List.drop_eq_getElem_cons (by rwa [Array.length_toList])
  refine ⟨key, hkey, ?_⟩
  rw [AnySketch.body, drop_flatMap_of_width hwidth, hdrop, List.flatMap_cons]
  exact Cell.word32_toBytes hkey _

/-- **How kinds of tables are taken for each other.** A table is read as a kind that records no more
than its own, and as a kind that keeps sums only if the keys of its records are in the field. So
tables that record keys are read as tables that do not, and sums are read as exclusive ors. -/
theorem exists_ofBytes_iff {t : Table kind} (ht : t.Reachable) (other : Kind) :
    (∃ u : Table other, ofBytes t.toBytes = .ok u) ↔
      other.digestSize ≤ kind.digestSize ∧
        (other = .summing → ∀ c ∈ t.cells, ∀ key, c.key? = some key → key < t.session.modulus) := by
  have hx : (AnySketch.table t).Reachable := ht
  have hstorable := ht.storable
  have hbytes : t.toBytes = t.session.header t.offset t.session.buckets.toNat ++
      (AnySketch.table t).body := AnySketch.toBytes_eq hx
  have hlength : (AnySketch.table t).body.length =
      (8 + kind.digestSize) * t.session.buckets.toNat := AnySketch.length_body hx
  have hsize : (8 + other.digestSize) * t.session.buckets.toNat ≤ (AnySketch.table t).body.length ↔
      other.digestSize ≤ kind.digestSize := by
    rw [hlength, Nat.mul_le_mul_right_iff hstorable.usable.buckets_pos, Nat.add_le_add_iff_left]
  -- the offset is admitted and the number of buckets is right, so the length and the sums decide
  simp only [hbytes, ofBytes_header_eq_ok hstorable.usable t.session.buckets.toNat_lt, hsize,
    reduced_ofBody_iff, exists_and_left, exists_eq, and_true, true_and,
    and_iff_right hstorable.admits]
  refine and_congr_right fun hrecord => forall_congr' fun hother => ?_
  -- a kind that records as much as sums records keys
  have hkind : kind.digestSize = 4 := by
    subst hother
    cases kind with
    | counting => cases hrecord
    | invertible => rfl
    | summing => rfl
  constructor
  · intro h c hc key hkey
    obtain ⟨b, hb, rfl⟩ := Array.getElem_of_mem hc
    obtain ⟨key', hkey', hword⟩ := exists_key?_of_digestSize hkind hb
    obtain rfl : key' = key := Option.some.inj (hkey'.symm.trans hkey)
    exact hword ▸ h b (hstorable.size_eq ▸ hb)
  · intro h b hb
    have hb' : b < t.cells.size := hstorable.size_eq ▸ hb
    obtain ⟨key, hkey, hword⟩ := exists_key?_of_digestSize hkind hb'
    rw [hword]
    exact h _ (Array.getElem_mem hb') key hkey

/-- Six and seven are sent to the same buckets of four, and their exclusive or is one. That is read
as a sum of keys, which is zero for these in the field of thirteen, and as the count of a bucket. -/
theorem read_as_others : ∃ (t : Table .invertible) (sums : Table .summing)
    (counts : Table .counting), t.Reachable ∧
      ofBytes t.toBytes = .ok sums ∧ ofBytes t.toBytes = .ok counts ∧
      sums.cells = #[⟨2, (1 : UInt32)⟩, ⟨0, (0 : UInt32)⟩, ⟨2, (1 : UInt32)⟩, ⟨0, (0 : UInt32)⟩] ∧
      counts.cells = #[⟨2, ()⟩, ⟨1, ()⟩, ⟨0, ()⟩, ⟨2, ()⟩] := by
  have hs := Session.check_eq_ok_iff.1 Session.check_small
  have hblank : (blank Session.small 0 : Table .invertible).Reachable :=
    .new (new_eq_ok hs (by decide))
  refine ⟨((blank Session.small 0).insert 6).insert 7, ⟨Session.small, 0, _⟩,
    ⟨Session.small, 0, _⟩, ?_, ?_, ?_, rfl, rfl⟩
  · exact .insert 7 (.insert 6 hblank (by decide +kernel)) (by decide +kernel)
  · decide +kernel
  · decide +kernel

end Table

end LossSketch
