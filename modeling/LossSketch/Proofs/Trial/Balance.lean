import LossSketch.Proofs.Trial.Transmission

/-!
# The books of a transmission

* `Draw.ExtendedBy` — another draw answers all that a draw answers. It is passed on from draw to
  draw, and `Draw.ExtendedBy.retry` says that more tries never change an answer.
* `Transmission.Balanced.received_eq_map` — the packets received, read off those sent.
* `Transmission.drawBy_balances` — sent, lost, forged and received add up, for any rules of drawing.
-/

namespace LossSketch

namespace Draw

variable {σ α β : Type}

/-- From every source from which a draw answers, the other answers the same. -/
def ExtendedBy (draw other : Draw σ α) : Prop :=
  ∀ source r, draw source = some r → other source = some r

namespace ExtendedBy

theorem refl (draw : Draw σ α) : draw.ExtendedBy draw := fun _ _ h => h

theorem bind {draw other : Draw σ α} {f g : α → Draw σ β} (hdraw : draw.ExtendedBy other)
    (hf : ∀ a, (f a).ExtendedBy (g a)) : (draw >>= f).ExtendedBy (other >>= g) := by
  intro source r h
  obtain ⟨a, next, ha, hr⟩ := bind_eq_some.1 h
  exact bind_eq_some.2 ⟨a, next, hdraw source _ ha, hf a next r hr⟩

theorem mapM {f g : α → Draw σ β} (h : ∀ a, (f a).ExtendedBy (g a)) (l : List α) :
    (l.mapM f).ExtendedBy (l.mapM g) := by
  induction l with
  | nil => exact refl _
  | cons a l ih =>
    rw [List.mapM_cons, List.mapM_cons]
    exact bind (h a) fun b => bind ih fun bs => refl _

/-- More tries never change an answer. -/
theorem retry (draw : Draw σ (Option α)) {tries more : Nat} (h : tries ≤ more) :
    (Draw.retry draw tries).ExtendedBy (Draw.retry draw more) := by
  induction tries generalizing more with
  | zero => rintro source r ⟨⟩
  | succ tries ih =>
    obtain ⟨more, rfl⟩ : ∃ rest, more = rest + 1 := ⟨more - 1, by omega⟩
    refine bind (refl draw) fun result => ?_
    cases result with
    | none => exact ih (Nat.le_of_succ_le_succ h)
    | some a => exact refl _

end ExtendedBy

end Draw

namespace Transmission

/-- With a higher limit on the tries, the same transmission is drawn. -/
theorem drawBy_extendedBy {σ : Type} (sampler : Sampler σ) {tries more : Nat} (h : tries ≤ more)
    (count packetBytes : Nat) (chance : Chance) (forging : Bool) :
    (drawBy sampler tries count packetBytes chance forging).ExtendedBy
      (drawBy sampler more count packetBytes chance forging) :=
  -- only the packets are tried again
  .bind (.mapM (fun _ => .retry _ h) _) fun _ => .refl _

/-- What is reported in place of a packet. -/
theorem zipIdx_reported (t : Transmission) (packetBytes : Nat) :
    (t.reported packetBytes).zipIdx = t.sent.zipIdx.map fun e =>
      (if t.forged = some e.2 then forgery packetBytes else e.1, e.2) := by
  obtain ⟨sent, received, lost, forged⟩ := t
  refine List.ext_getElem (by simp [length_reported]) fun i _ _ => ?_
  cases forged with
  | none => simp [reported]
  | some r => simp [reported, List.getElem_set]

/-- Received are the packets sent that are not lost, with the forgery in its place. -/
theorem Balanced.received_eq_map {count packetBytes : Nat} {forging : Bool} {t : Transmission}
    (h : t.Balanced count packetBytes forging) :
    t.received = (t.sent.zipIdx.filter fun e => e.2 ∉ t.lost).map fun e =>
      if t.forged = some e.2 then forgery packetBytes else e.1 := by
  rw [h.received_eq, kept, zipIdx_reported, List.filter_map, List.map_map]
  simp only [List.mem_toFinset]
  rfl

/-- A packet is forged exactly by a receiver that forges, if there is one to forge. -/
theorem Balanced.exists_forged_iff {count packetBytes : Nat} {forging : Bool} {t : Transmission}
    (h : t.Balanced count packetBytes forging) :
    (∃ i < count, t.forged = some i) ↔ forging = true ∧ 0 < count := by
  rw [← decide_eq_true_iff (p := 0 < count), ← Bool.and_eq_true_iff, ← h.isSome_forged,
    Option.isSome_iff_exists]
  exact ⟨fun ⟨i, _, hi⟩ => ⟨i, hi⟩, fun ⟨i, hi⟩ => ⟨i, h.lt_of_mem_forged i hi, hi⟩⟩

/-- **The books of a transmission balance**, whatever the source and the rules of drawing, as long
as numbers are below their bounds. As many packets are sent as asked for, of the length asked for,
and none is the forgery. The lost ones are listed in ascending order. One of the packets is forged
exactly if the receiver forges and there is one, and it is not lost. Received are the packets that
are not lost, in order, with the forgery in its place, so that those received and those lost are as
many as those sent. More tries at drawing a packet draw the same transmission, so the limit on them
makes no difference where it is not met. -/
theorem drawBy_balances {σ : Type} {sampler : Sampler σ} (hsampler : sampler.Bounded)
    {tries count packetBytes : Nat} {chance : Chance} {forging : Bool} {source rest : σ}
    {t : Transmission}
    (h : drawBy sampler tries count packetBytes chance forging source = some (t, rest)) :
    t.sent.length = count ∧
    (∀ packet ∈ t.sent, packet.length = packetBytes ∧ packet ≠ List.replicate packetBytes 0xff) ∧
    t.lost.Pairwise (· < ·) ∧ (∀ i ∈ t.lost, i < count) ∧
    ((∃ i < count, t.forged = some i) ↔ forging = true ∧ 0 < count) ∧
    (∀ i, t.forged = some i → i < count ∧ i ∉ t.lost) ∧
    (t.received = (t.sent.zipIdx.filter fun e => e.2 ∉ t.lost).map fun e =>
      if t.forged = some e.2 then List.replicate packetBytes 0xff else e.1) ∧
    t.received.length + t.lost.length = count ∧
    ∀ more, tries ≤ more →
      drawBy sampler more count packetBytes chance forging source = some (t, rest) := by
  have hbalanced := balanced_of_drawBy hsampler h
  refine ⟨hbalanced.length_sent, hbalanced.of_mem_sent, hbalanced.lost_ascending,
    hbalanced.lt_of_mem_lost, hbalanced.exists_forged_iff, fun i hi => ?_,
    hbalanced.received_eq_map, hbalanced.length_received.trans hbalanced.length_sent,
    fun more hmore => ?_⟩
  · exact ⟨hbalanced.lt_of_mem_forged i hi, hbalanced.not_mem_lost i hi⟩
  · exact drawBy_extendedBy sampler hmore count packetBytes chance forging source _ h

/-- Three packets of a byte are drawn. One of them is all ones at first and is drawn again, so one
try is not enough. The second is replaced by the forgery, and the third is lost. -/
theorem drawBy_balances_redrawn : ∃ (t : Transmission) (rest : Stream),
    (drawBy .ofWords 1 3 1 (.below 9223372036854775808) true (Stream.seeded 251)).isNone ∧
    drawBy .ofWords 2 3 1 (.below 9223372036854775808) true (Stream.seeded 251) =
      some (t, rest) ∧
    t.sent = [[225], [4], [44]] ∧ t.lost = [2] ∧ t.forged = some 1 ∧
    t.received = [[225], [255]] ∧
    ∀ more, 2 ≤ more →
      drawBy .ofWords more 3 1 (.below 9223372036854775808) true (Stream.seeded 251) =
        some (t, rest) := by
  have hdrawn : (drawBy .ofWords 2 3 1 (.below 9223372036854775808) true (Stream.seeded 251)).map
      (fun r => (r.1.sent, r.1.lost, r.1.forged)) =
        some ([[225], [4], [44]], [2], some 1) := by decide +kernel
  obtain ⟨⟨t, rest⟩, ht, hfields⟩ := Option.map_eq_some_iff.1 hdrawn
  obtain ⟨hsent, hlost, hforged⟩ : t.sent = [[225], [4], [44]] ∧ t.lost = [2] ∧
      t.forged = some 1 := by simpa using hfields
  obtain ⟨-, -, -, -, -, -, hreceived, -, hmore⟩ := drawBy_balances Sampler.bounded_ofWords ht
  refine ⟨t, rest, by decide +kernel, ht, hsent, hlost, hforged, ?_, hmore⟩
  rw [hreceived, hsent, hlost, hforged]
  decide

end Transmission

end LossSketch
