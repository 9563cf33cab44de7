import LossSketch.Proofs.Snapshot.Foreign

/-!
# One snapshot for each sketch

Any bytes may be read, be they malformed, cut off or too long. What is read from them begins with
exactly the snapshot that the sketch read would be written as, and nothing shorter is read.

* `Decoder.Canonical` — whatever a decoder answers, it read off the bytes that this value is written
  as.
* `Decoder.Steady` — more bytes behind do not change what a decoder reads, unless it ran out of
  them. `Decoder.Canonical.endOfInput` — so a decoder of both kinds runs out of bytes on every part
  of what it read.
* `SketchType.read_canonical` — both hold of sketches of all types, and what is read of any bytes is
  a sketch that its session can hold.
-/

namespace LossSketch

namespace Decoder

variable {α β : Type} {d : Decoder α} {bytes rest : Bytes}

/-! ## Nothing else is read -/

/-- Whatever the decoder answers, it read off the bytes that `enc` writes for it. -/
def Canonical (d : Decoder α) (enc : α → Bytes) : Prop :=
  ∀ ⦃bytes rest : Bytes⦄ ⦃a : α⦄, d bytes = .ok (a, rest) → bytes = enc a ++ rest

/-- An unsigned number was read off its own bytes, which hold no larger one. -/
theorem eq_append_of_word {len n : Nat} (h : word len bytes = .ok (n, rest)) :
    n < 256 ^ len ∧ bytes = Bytes.ofNat len n ++ rest := by
  obtain ⟨hlength, rfl⟩ := (fixedWidth_word len).value_of_ok h
  have htake : (bytes.take len).length = len := by
    rw [List.length_take]
    omega
  have hback : Bytes.ofNat len (Bytes.toNat (bytes.take len)) = bytes.take len := by
    have hwrite := Bytes.ofNat_toNat (bytes.take len)
    rwa [htake] at hwrite
  rw [(fixedWidth_word len).long bytes hlength] at h
  obtain rfl : bytes.drop len = rest := congrArg Prod.snd (Except.ok.inj h)
  refine ⟨?_, by rw [hback, List.take_append_drop]⟩
  -- the number is its own remainder, because its bytes spell it
  have hmod := Bytes.toNat_ofNat len (Bytes.toNat (bytes.take len))
  rw [hback] at hmod
  rw [hmod]
  exact Nat.mod_lt _ (Nat.pow_pos (by decide))

theorem canonical_word32 :
    (UInt32.ofNat <$> word 4 : Decoder UInt32).Canonical fun w => Bytes.ofNat 4 w.toNat := by
  intro bytes rest w h
  rw [← bind_pure_comp] at h
  obtain ⟨n, _, hword, h⟩ := bind_eq_ok.1 h
  cases h
  obtain ⟨hn, rfl⟩ := eq_append_of_word hword
  exact congrArg (Bytes.ofNat 4 · ++ rest) (UInt32.toNat_ofNat_of_lt' hn).symm

theorem canonical_signed : signed.Canonical signedBytes := by
  intro bytes rest x h
  obtain ⟨n, _, hword, h⟩ := bind_eq_ok.1 h
  obtain ⟨rfl, rfl⟩ := Prod.mk.inj (Except.ok.inj h)
  obtain ⟨hn, rfl⟩ := eq_append_of_word hword
  -- the residue nearest to zero is written as the number itself
  have hback : (Int.bmod n UInt64.size % UInt64.size).toNat = n := by
    have hlt : (n : Int) < UInt64.size := Int.ofNat_lt.2 hn
    rw [Int.bmod_emod, Int.emod_eq_of_lt (Int.natCast_nonneg n) hlt, Int.toNat_natCast]
  rw [signedBytes, hback]

/-- A run of values was read off the bytes of these values, and they are as many as asked for. -/
theorem Canonical.eq_append_of_times {enc : α → Bytes} (h : d.Canonical enc) {count : Nat}
    {l : List α} (hread : times d count bytes = .ok (l, rest)) :
    l.length = count ∧ bytes = l.flatMap enc ++ rest := by
  induction count generalizing bytes l with
  | zero =>
    cases hread
    exact ⟨rfl, rfl⟩
  | succ count ih =>
    rw [times_succ] at hread
    obtain ⟨a, behind, hfirst, hread⟩ := bind_eq_ok.1 hread
    rw [← bind_pure_comp] at hread
    obtain ⟨others, _, hothers, hread⟩ := bind_eq_ok.1 hread
    cases hread
    -- the others were read off the bytes behind the first
    obtain ⟨hlength, rfl⟩ := ih hothers
    refine ⟨by rw [List.length_cons, hlength], ?_⟩
    rw [h hfirst, List.flatMap_cons, List.append_assoc]

/-! ## Nothing shorter is read -/

/-- More bytes behind do not change what is read, unless the decoder ran out of them. -/
def Steady (d : Decoder α) : Prop :=
  ∀ bytes more : Bytes, d bytes = .error .endOfInput ∨
    d (bytes ++ more) = (d bytes).map fun r => (r.1, r.2 ++ more)

theorem steady_pure (a : α) : Steady (pure a : Decoder α) := fun _ _ => .inr rfl

theorem steady_throw (fault : CodecFault) : Steady (throw fault : Decoder α) := fun _ _ => .inr rfl

theorem steady_word (len : Nat) : (word len).Steady := by
  intro bytes more
  rcases Nat.lt_or_ge bytes.length len with hlt | hge
  · exact .inl ((fixedWidth_word len).short bytes hlt)
  · -- there are enough bytes already, so those behind them are left over
    right
    have hge' : len ≤ (bytes ++ more).length := by
      rw [List.length_append]
      omega
    rw [(fixedWidth_word len).long bytes hge, (fixedWidth_word len).long _ hge',
      List.take_append_of_le_length hge, List.drop_append_of_le_length hge]
    rfl

theorem Steady.bind (h : d.Steady) {f : α → Decoder β} (h' : ∀ a, (f a).Steady) :
    (d >>= f).Steady := by
  intro bytes more
  show (d bytes >>= fun r => f r.1 r.2) = _ ∨
    (d (bytes ++ more) >>= fun r => f r.1 r.2) = (d bytes >>= fun r => f r.1 r.2).map _
  rcases h bytes more with hend | hmore
  · left
    rw [hend]
    rfl
  · rw [hmore]
    cases d bytes with
    | error fault => exact .inr rfl
    | ok r => exact h' r.1 r.2 more

theorem Steady.map (h : d.Steady) (g : α → β) : (g <$> d).Steady := by
  rw [← bind_pure_comp]
  exact h.bind fun a => steady_pure (g a)

theorem steady_signed : signed.Steady := (steady_word 8).bind fun _ => steady_pure _

theorem Steady.times (h : d.Steady) (count : Nat) : (Decoder.times d count).Steady := by
  induction count with
  | zero => exact steady_pure []
  | succ count ih =>
    rw [times_succ]
    exact h.bind fun a => ih.map (a :: ·)

/-- **Every part of what was read is too short**, if it is not all of it. -/
theorem Canonical.endOfInput {enc : α → Bytes} (h : d.Canonical enc) (hsteady : d.Steady) {a : α}
    (hread : d bytes = .ok (a, rest)) {front : Bytes} (hfront : front <+: enc a)
    (hne : front ≠ enc a) : d front = .error .endOfInput := by
  obtain ⟨more, hmore⟩ := hfront
  have hbytes : bytes = front ++ (more ++ rest) := by
    rw [h hread, ← hmore, List.append_assoc]
  refine (hsteady front (more ++ rest)).resolve_right fun hsame => ?_
  rw [← hbytes, hread] at hsame
  -- a decoder that is content with the part leaves what is behind it
  cases hdone : d front with
  | error fault =>
    rw [hdone] at hsame
    cases hsame
  | ok r =>
    rw [hdone] at hsame
    have hrest : rest = r.2 ++ (more ++ rest) := congrArg Prod.snd (Except.ok.inj hsame)
    have hlength := congrArg List.length hrest
    rw [List.length_append, List.length_append] at hlength
    have hnil : more = [] := List.length_eq_zero_iff.1 (by omega)
    rw [hnil, List.append_nil] at hmore
    exact hne hmore

/-- What was read is written as the front of the bytes, and cannot be read off less. -/
theorem Canonical.of_read {enc : α → Bytes} (h : d.Canonical enc) (hsteady : d.Steady) {a : α}
    (hread : d.read bytes = .ok a) : enc a <+: bytes ∧
      ∀ front, front <+: enc a → front ≠ enc a → d.read front = .error (.codec .endOfInput) := by
  obtain ⟨rest, hread⟩ := read_eq_ok.1 hread
  refine ⟨⟨rest, (h hread).symm⟩, fun front hfront hne => ?_⟩
  rw [read, h.endOfInput hsteady hread hfront hne]

end Decoder

/-! ## The decoders of snapshots -/

section Decoders

open Decoder

variable {kind : Kind}

theorem Policy.canonical_decoder :
    (decoder : Decoder Policy).Canonical fun p => Bytes.ofNat 4 p.code := by
  intro bytes rest p h
  obtain ⟨n, behind, hword, hpolicy⟩ := Decoder.bind_eq_ok.1 h
  obtain ⟨-, rfl⟩ := eq_append_of_word hword
  -- two numbers stand for a policy, and all others are refused
  split at hpolicy
  · cases hpolicy
    rfl
  · cases hpolicy
    rfl
  · cases hpolicy

theorem Policy.steady_decoder : (decoder : Decoder Policy).Steady := by
  refine (steady_word 4).bind fun n => ?_
  split
  · exact steady_pure _
  · exact steady_pure _
  · exact steady_throw _

namespace Session

theorem canonical_decoder : (decoder : Decoder Session).Canonical toBytes := by
  intro bytes rest s h
  obtain ⟨buckets, _, hbuckets, h⟩ := Decoder.bind_eq_ok.1 h
  obtain ⟨hashes, _, hhashes, h⟩ := Decoder.bind_eq_ok.1 h
  obtain ⟨width, _, hwidth, h⟩ := Decoder.bind_eq_ok.1 h
  obtain ⟨modulus, _, hmodulus, h⟩ := Decoder.bind_eq_ok.1 h
  obtain ⟨degree, _, hdegree, h⟩ := Decoder.bind_eq_ok.1 h
  obtain ⟨policy, _, hpolicy, h⟩ := Decoder.bind_eq_ok.1 h
  obtain ⟨seed, _, hseed, h⟩ := Decoder.bind_eq_ok.1 h
  obtain ⟨packetBytes, _, hpacketBytes, h⟩ := Decoder.bind_eq_ok.1 h
  cases h
  obtain ⟨hlt₁, rfl⟩ := eq_append_of_word hbuckets
  obtain ⟨hlt₂, rfl⟩ := eq_append_of_word hhashes
  obtain ⟨hlt₃, rfl⟩ := eq_append_of_word hwidth
  obtain ⟨hlt₄, rfl⟩ := eq_append_of_word hmodulus
  obtain ⟨hlt₅, rfl⟩ := eq_append_of_word hdegree
  obtain rfl := Policy.canonical_decoder hpolicy
  obtain ⟨hlt₆, rfl⟩ := eq_append_of_word hseed
  obtain ⟨hlt₇, rfl⟩ := eq_append_of_word hpacketBytes
  -- no parameter lost digits when it became a word
  simp only [toBytes, UInt64.toNat_ofNat_of_lt' hlt₁, UInt32.toNat_ofNat_of_lt' hlt₂,
    UInt32.toNat_ofNat_of_lt' hlt₃, UInt32.toNat_ofNat_of_lt' hlt₄, UInt64.toNat_ofNat_of_lt' hlt₅,
    UInt64.toNat_ofNat_of_lt' hlt₆, UInt64.toNat_ofNat_of_lt' hlt₇, List.append_assoc]

theorem steady_decoder : (decoder : Decoder Session).Steady :=
  (steady_word 8).bind fun _ => (steady_word 4).bind fun _ => (steady_word 4).bind fun _ =>
    (steady_word 4).bind fun _ => (steady_word 8).bind fun _ => Policy.steady_decoder.bind fun _ =>
      (steady_word 8).bind fun _ => (steady_word 8).bind fun _ => steady_pure _

end Session

theorem Kind.canonical_digestDecoder (kind : Kind) :
    kind.digestDecoder.Canonical kind.digestBytes := by
  cases kind with
  | counting =>
    intro bytes rest digest h
    cases h
    rfl
  | invertible => exact canonical_word32
  | summing => exact canonical_word32

theorem Kind.steady_digestDecoder (kind : Kind) : kind.digestDecoder.Steady := by
  cases kind with
  | counting => exact steady_pure ()
  | invertible => exact (steady_word 4).map _
  | summing => exact (steady_word 4).map _

theorem Cell.canonical_decoder : (decoder : Decoder (Cell kind)).Canonical toBytes := by
  intro bytes rest c h
  obtain ⟨count, _, hcount, h⟩ := Decoder.bind_eq_ok.1 h
  obtain ⟨digest, _, hdigest, h⟩ := Decoder.bind_eq_ok.1 h
  cases h
  rw [canonical_signed hcount, kind.canonical_digestDecoder hdigest, toBytes, List.append_assoc]

theorem Cell.steady_decoder : (decoder : Decoder (Cell kind)).Steady :=
  steady_signed.bind fun _ => kind.steady_digestDecoder.bind fun _ => steady_pure _

theorem Table.canonical_decoder : (decoder : Decoder (Table kind)).Canonical toBytes := by
  intro bytes rest t h
  obtain ⟨s, _, hsession, h⟩ := Decoder.bind_eq_ok.1 h
  obtain ⟨offset, _, hoffset, h⟩ := Decoder.bind_eq_ok.1 h
  obtain ⟨size, _, hsize, h⟩ := Decoder.bind_eq_ok.1 h
  obtain ⟨cells, _, hcells, h⟩ := Decoder.bind_eq_ok.1 h
  cases h
  obtain rfl := Session.canonical_decoder hsession
  obtain ⟨hlt, rfl⟩ := eq_append_of_word hoffset
  obtain ⟨-, rfl⟩ := eq_append_of_word hsize
  obtain ⟨rfl, rfl⟩ := Cell.canonical_decoder.eq_append_of_times hcells
  simp only [toBytes, UInt64.toNat_ofNat_of_lt' hlt, List.size_toArray, List.append_assoc]

theorem Table.steady_decoder : (decoder : Decoder (Table kind)).Steady :=
  Session.steady_decoder.bind fun _ => (steady_word 8).bind fun _ => (steady_word 8).bind fun size =>
    (Cell.steady_decoder.times size).bind fun _ => steady_pure _

theorem PowerSums.canonical_decoder : (decoder : Decoder PowerSums).Canonical toBytes := by
  intro bytes rest a h
  obtain ⟨s, _, hsession, h⟩ := Decoder.bind_eq_ok.1 h
  obtain ⟨offset, _, hoffset, h⟩ := Decoder.bind_eq_ok.1 h
  obtain ⟨size, _, hsize, h⟩ := Decoder.bind_eq_ok.1 h
  obtain ⟨sums, _, hsums, h⟩ := Decoder.bind_eq_ok.1 h
  obtain ⟨count, _, hcount, h⟩ := Decoder.bind_eq_ok.1 h
  cases h
  obtain rfl := Session.canonical_decoder hsession
  obtain ⟨hlt, rfl⟩ := eq_append_of_word hoffset
  obtain ⟨-, rfl⟩ := eq_append_of_word hsize
  obtain ⟨rfl, rfl⟩ := canonical_word32.eq_append_of_times hsums
  obtain rfl := canonical_signed hcount
  simp only [toBytes, UInt64.toNat_ofNat_of_lt' hlt, List.append_assoc]

theorem PowerSums.steady_decoder : (decoder : Decoder PowerSums).Steady :=
  Session.steady_decoder.bind fun _ => (steady_word 8).bind fun _ => (steady_word 8).bind fun size =>
    (((steady_word 4).map _).times size).bind fun _ => steady_signed.bind fun _ => steady_pure _

end Decoders

/-- Reading a table ends with what was read, once it is checked. -/
theorem Table.read_of_ofBytes {kind : Kind} {bytes : Bytes} {t : Table kind}
    (h : ofBytes bytes = .ok t) :
    (decoder : Decoder (Table kind)).read bytes = .ok t := by
  obtain ⟨u, hread, h⟩ := bind_eq_ok.1 h
  obtain ⟨⟨⟩, -, h⟩ := bind_eq_ok.1 h
  obtain ⟨⟨⟩, -, h⟩ := bind_eq_ok.1 h
  rwa [← Except.ok.inj h]

theorem PowerSums.read_of_ofBytes {bytes : Bytes} {a : PowerSums} (h : ofBytes bytes = .ok a) :
    decoder.read bytes = .ok a := by
  obtain ⟨b, hread, h⟩ := bind_eq_ok.1 h
  obtain ⟨⟨⟩, -, h⟩ := bind_eq_ok.1 h
  obtain ⟨⟨⟩, -, h⟩ := bind_eq_ok.1 h
  rwa [← Except.ok.inj h]

/-! ## Sketches of all types -/

/-- The number of buckets, or of power sums, of a sketch. -/
def AnySketch.size : AnySketch → Nat
  | table t => t.cells.size
  | powerSums a => a.sums.length

/-- An offset that a session admits is not above the last one of its packets. -/
theorem Session.Usable.exists_lastOffset? {s : Session} (hs : s.Usable) {offset : UInt64}
    (hoffset : s.Admits offset) : ∃ w last, s.window = .ok w ∧
      w.lastOffset? s.packetBytes.toNat = some last ∧ offset.toNat ≤ last := by
  have hany := hs.any_lastOffset? offset
  rw [decide_eq_true hoffset, Option.any_eq_true_iff_get] at hany
  obtain ⟨hsome, hle⟩ := hany
  exact ⟨hs.view, _, hs.window_eq, (Option.some_get hsome).symm, by simpa using hle⟩

/-- **Each sketch has one snapshot.** Whatever any bytes are read as, they begin with the snapshot
of the sketch read. Its session is usable, its offset is not above the last one at which packets of
the session hold the window, it has as many buckets, or power sums, as the session says, and its
sums are in the field. No part of the snapshot is read that is not all of it: the bytes end too
early. -/
theorem SketchType.read_canonical {type : SketchType} {bytes : Bytes} {x : AnySketch}
    (h : type.read bytes = .ok x) : x.type = type ∧ x.toBytes <+: bytes ∧
      x.session.check = .ok () ∧
      (∃ w last, x.session.window = .ok w ∧
        w.lastOffset? x.session.packetBytes.toNat = some last ∧ x.offset.toNat ≤ last) ∧
      x.size = type.entries x.session ∧ (∀ sum ∈ x.fieldSums, sum < x.session.modulus) ∧
      ∀ front, front <+: x.toBytes → front ≠ x.toBytes →
        type.read front = .error (.codec .endOfInput) := by
  cases type with
  | table kind =>
    obtain ⟨t, hread, h⟩ := bind_eq_ok.1 h
    cases h
    -- what was read has its written form, and reading stops short in any part of that
    have ht := Table.storable_of_ofBytes hread
    obtain ⟨hfront, hshort⟩ :=
      Table.canonical_decoder.of_read Table.steady_decoder (Table.read_of_ofBytes hread)
    refine ⟨rfl, hfront, ht.checked, ht.usable.exists_lastOffset? ht.admits, ht.size_eq,
      fun sum hsum => ?_, fun front hpart hne => ?_⟩
    · obtain ⟨c, hc, hsum⟩ := List.mem_filterMap.1 hsum
      exact ht.reduced c (Array.mem_toList_iff.1 hc) sum hsum
    · rw [read, Table.ofBytes, hshort front hpart hne]
      rfl
  | powerSums =>
    obtain ⟨a, hread, h⟩ := bind_eq_ok.1 h
    cases h
    obtain ⟨ha, hadmits⟩ := PowerSums.wellFormed_of_ofBytes hread
    obtain ⟨hfront, hshort⟩ := PowerSums.canonical_decoder.of_read PowerSums.steady_decoder
      (PowerSums.read_of_ofBytes hread)
    refine ⟨rfl, hfront, ha.checked, ha.usable.exists_lastOffset? hadmits, ha.length_eq,
      fun sum hsum => UInt32.lt_iff_toNat_lt.2 (ha.reduced sum hsum), fun front hpart hne => ?_⟩
    rw [read, PowerSums.ofBytes, hshort front hpart hne]
    rfl

/-- Power sums of minus one element with a byte behind their snapshot, and without its last byte. -/
theorem SketchType.read_canonical_overlong :
    SketchType.powerSums.read ((PowerSums.mk Session.small 8 [2, 1] (-1)).toBytes ++ [255]) =
        .ok (.powerSums ⟨Session.small, 8, [2, 1], -1⟩) ∧
      SketchType.powerSums.read (PowerSums.mk Session.small 8 [2, 1] (-1)).toBytes.dropLast =
        .error (.codec .endOfInput) := by
  have hofBytes :
      PowerSums.ofBytes ((PowerSums.mk Session.small 8 [2, 1] (-1)).toBytes ++ [255]) =
        .ok ⟨Session.small, 8, [2, 1], -1⟩ := by decide +kernel
  have hread : SketchType.powerSums.read ((PowerSums.mk Session.small 8 [2, 1] (-1)).toBytes ++
      [255]) = .ok (.powerSums ⟨Session.small, 8, [2, 1], -1⟩) := by
    rw [read, hofBytes]
    rfl
  obtain ⟨-, -, -, -, -, -, hshort⟩ := read_canonical hread
  exact ⟨hread, hshort _ (List.dropLast_prefix _) (by decide +kernel)⟩

end LossSketch
