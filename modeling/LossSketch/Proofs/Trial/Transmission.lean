import LossSketch.Proofs.Packet.Log
import LossSketch.Trial.Transmission

/-!
# What is drawn for a trial

Nothing is assumed about the source, and of the rules of drawing only that numbers are below their
bounds.

* `Draw.Ensures` — a draw answers only values with a property. It is passed on from draw to draw by
  `Draw.Ensures.bind`, `Draw.Ensures.mapM` and `Draw.Ensures.retry`.
* `Sampler.Bounded` — the assumption on the rules. `Sampler.bounded_ofWords` — those for words have
  numbers below their bounds.
* `Transmission.Balanced` — what is sent, lost, forged and received fits together.
* `Transmission.balanced_of_drawBy` — every transmission that is drawn is balanced.
-/

namespace LossSketch

namespace Draw

variable {σ α β : Type}

/-- From every source, the draw answers only values with the property. -/
def Ensures (P : α → Prop) (draw : Draw σ α) : Prop :=
  ∀ source a rest, draw source = some (a, rest) → P a

theorem bind_eq_some {draw : Draw σ α} {f : α → Draw σ β} {source : σ} {r : β × σ} :
    (draw >>= f) source = some r ↔
      ∃ a next, draw source = some (a, next) ∧ f a next = some r := by
  refine Option.bind_eq_some_iff.trans ?_
  exact Prod.exists

namespace Ensures

variable {P : α → Prop} {Q : β → Prop} {draw : Draw σ α}

theorem pure {a : α} (h : P a) : Ensures P (pure a : Draw σ α) := by
  rintro source _ rest ⟨⟩
  exact h

theorem failure : Ensures P (failure : Draw σ α) := by
  rintro source a rest ⟨⟩

theorem bind {f : α → Draw σ β} (hdraw : Ensures P draw) (hf : ∀ a, P a → Ensures Q (f a)) :
    Ensures Q (draw >>= f) := by
  intro source b rest h
  obtain ⟨a, next, ha, hb⟩ := bind_eq_some.1 h
  exact hf a (hdraw source a next ha) next b rest hb

theorem map {f : α → β} (hdraw : Ensures P draw) (hf : ∀ a, P a → Q (f a)) :
    Ensures Q (f <$> draw) := by
  rw [map_eq_pure_bind]
  exact hdraw.bind fun a ha => pure (hf a ha)

theorem ite {c : Prop} [Decidable c] {other : Draw σ α} (hdraw : c → Ensures P draw)
    (hother : ¬ c → Ensures P other) : Ensures P (if c then draw else other) := by
  split
  · exact hdraw ‹c›
  · exact hother ‹¬ c›

theorem trivial : Ensures (fun _ => True) draw := fun _ _ _ _ => True.intro

/-- What is drawn again and again was answered by one of the tries. -/
theorem retry {draw : Draw σ (Option α)} (h : Ensures (fun result => ∀ a ∈ result, P a) draw)
    (tries : Nat) : Ensures P (Draw.retry draw tries) := by
  induction tries with
  | zero => exact failure
  | succ tries ih =>
    refine bind h fun result hresult => ?_
    cases result with
    | none => exact ih
    | some a => exact pure (hresult a rfl)

/-- Drawing for each element of a list answers a value for each. -/
theorem mapM {P : α → β → Prop} {f : α → Draw σ β} {l : List α}
    (h : ∀ a ∈ l, Ensures (P a) (f a)) : Ensures (List.Forall₂ P l) (l.mapM f) := by
  induction l with
  | nil => exact pure .nil
  | cons a l ih =>
    rw [List.mapM_cons]
    refine bind (h a List.mem_cons_self) fun b hb => ?_
    refine bind (ih fun c hc => h c (List.mem_cons_of_mem _ hc)) fun bs hbs => ?_
    exact pure (.cons hb hbs)

end Ensures

/-- The numbers drawn are below the bound. -/
theorem ensures_below [WordSource σ] {n : Nat} (hn : 0 < n) :
    Ensures (· < n) (below n : Draw σ Nat) := by
  refine Ensures.retry (Ensures.bind Ensures.trivial fun word _ => Ensures.pure ?_) _
  intro i hi
  split at hi
  · cases hi
    -- the product of a word with the bound, without its low half
    exact Nat.div_lt_of_lt_mul (Nat.mul_lt_mul_of_pos_right word.toNat_lt hn)
  · cases hi

end Draw

namespace Sampler

variable {σ : Type}

/-- The numbers drawn are below their bounds. -/
def Bounded (sampler : Sampler σ) : Prop :=
  ∀ bound, 0 < bound → (sampler.below bound).Ensures (· < bound)

theorem bounded_ofWords [WordSource σ] : (ofWords : Sampler σ).Bounded :=
  fun _ => Draw.ensures_below

/-- As many bytes are drawn as asked for. -/
theorem ensures_bytes (sampler : Sampler σ) (count : Nat) :
    Draw.Ensures (fun bytes => bytes.length = count) (sampler.bytes count) := by
  intro source drawn rest h
  have hall := Draw.Ensures.mapM (P := fun _ _ => True) (fun _ _ => Draw.Ensures.trivial)
    source drawn rest h
  rw [← hall.length_eq, List.length_range]

end Sampler

namespace Transmission

/-- The packets that the receiver would see if none was lost. -/
def reported (packetBytes : Nat) (t : Transmission) : List Bytes :=
  match t.forged with
  | none => t.sent
  | some i => t.sent.set i (forgery packetBytes)

/-- What is sent, lost, forged and received fits together. -/
structure Balanced (count packetBytes : Nat) (forging : Bool) (t : Transmission) : Prop where
  length_sent : t.sent.length = count
  of_mem_sent : ∀ packet ∈ t.sent, packet.length = packetBytes ∧ packet ≠ forgery packetBytes
  lost_ascending : t.lost.Pairwise (· < ·)
  lt_of_mem_lost : ∀ i ∈ t.lost, i < count
  isSome_forged : t.forged.isSome = (forging && decide (0 < count))
  lt_of_mem_forged : ∀ i ∈ t.forged, i < count
  not_mem_lost : ∀ i ∈ t.forged, i ∉ t.lost
  received_eq : t.received = kept (t.reported packetBytes) t.lost.toFinset

theorem length_reported (t : Transmission) (packetBytes : Nat) :
    (t.reported packetBytes).length = t.sent.length := by
  rw [reported]
  split
  · rfl
  · exact List.length_set

namespace Balanced

variable {count packetBytes : Nat} {forging : Bool} {t : Transmission}
  (h : t.Balanced count packetBytes forging)
include h

/-- What is received and what is lost make up what is reported. -/
theorem perm_reported (key : Bytes → UInt32) : (t.received.map key ++
    keysAt ((t.reported packetBytes).map key) t.lost).Perm ((t.reported packetBytes).map key) := by
  have hlost : ∀ i ∈ t.lost.toFinset, i < (t.reported packetBytes).length := by
    intro i hi
    rw [length_reported, h.length_sent]
    exact h.lt_of_mem_lost i (List.mem_toFinset.1 hi)
  have hperm := perm_kept_append hlost (List.Perm.of_eq h.received_eq) key
  rwa [sort_toFinset h.lost_ascending] at hperm

theorem length_received : t.received.length + t.lost.length = t.sent.length := by
  have hlength := (h.perm_reported fun _ => 0).length_eq
  rwa [List.length_append, List.length_map, length_keysAt, List.length_map, length_reported]
    at hlength

end Balanced

/-! ## The fates of packets -/

variable {forged : Option Nat} {sent : List Bytes} {fates : List (Option Bytes)}

/-- Lost are the numbers of the packets of which nothing is seen. -/
theorem lost_ofFates : (ofFates sent forged fates).lost =
    (fates.zipIdx.filter fun e => e.1 = none).map Prod.snd := by
  rw [← List.filterMap_eq_map, List.filterMap_filter]
  simp only [decide_eq_true_eq]
  rfl

theorem mem_lost_ofFates {i : Nat} :
    i ∈ (ofFates sent forged fates).lost ↔ fates[i]? = some none := by
  rw [lost_ofFates]
  constructor
  · intro hi
    obtain ⟨⟨fate, _⟩, he, rfl⟩ := List.mem_map.1 hi
    obtain ⟨hmem, hfate⟩ := List.mem_filter.1 he
    obtain rfl : fate = none := of_decide_eq_true hfate
    exact List.mem_zipIdx_iff_getElem?.1 hmem
  · intro hi
    have hmem : (none, i) ∈ fates.zipIdx := List.mem_zipIdx_iff_getElem?.2 hi
    exact List.mem_map.2 ⟨(none, i), List.mem_filter.2 ⟨hmem, rfl⟩, rfl⟩

/-- What may be seen of a numbered packet: it is forged, or else it is seen as it is or lost. -/
def Fate (packetBytes : Nat) (forged : Option Nat) (e : Bytes × Nat) (fate : Option Bytes) : Prop :=
  if forged = some e.2 then fate = some (forgery packetBytes) else ∀ seen ∈ fate, seen = e.1

/-- What is seen of packets that are numbered from `first` on are those that are not lost. -/
theorem filterMap_id_eq {packets : List Bytes}
    (h : List.Forall₂ (fun packet fate => ∀ seen ∈ fate, seen = packet) packets fates)
    {lost : Finset Nat} {first : Nat}
    (hlost : ∀ i fate, fates[i]? = some fate → (first + i ∈ lost ↔ fate = none)) :
    fates.filterMap id = ((packets.zipIdx first).filter fun e => e.2 ∉ lost).map Prod.fst := by
  -- the packets are numbered from one higher in each step
  induction h generalizing first with
  | nil => rfl
  | @cons packet fate packets fates hseen hrest ih =>
    have hfirst : first ∈ lost ↔ fate = none := hlost 0 fate rfl
    have htail : fates.filterMap id =
        ((packets.zipIdx (first + 1)).filter fun e => e.2 ∉ lost).map Prod.fst := by
      refine ih fun i other hother => ?_
      rw [Nat.add_right_comm]
      exact hlost (i + 1) other hother
    rw [List.zipIdx_cons]
    cases fate with
    | none =>
      rw [List.filterMap_cons_none rfl, List.filter_cons_of_neg (by simpa using hfirst), htail]
    | some seen =>
      obtain rfl := hseen seen rfl
      rw [List.filterMap_cons_some (f := id) rfl, List.filter_cons_of_pos (by simpa using hfirst),
        List.map_cons, htail]

section Fates

variable {packetBytes : Nat}
  (h : List.Forall₂ (Fate packetBytes forged) sent.zipIdx fates)
include h

theorem length_fates : fates.length = sent.length := by
  rw [← h.length_eq, List.length_zipIdx]

theorem fate_getElem {i : Nat} (hi : i < sent.length) (hi' : i < fates.length) :
    Fate packetBytes forged (sent[i], i) fates[i] := by
  have hget := h.get (by rwa [List.length_zipIdx]) hi'
  simpa using hget

/-- A packet that is seen is the one reported. -/
theorem forall₂_reported : List.Forall₂ (fun packet fate => ∀ seen ∈ fate, seen = packet)
    ((ofFates sent forged fates).reported packetBytes) fates := by
  have hlength := length_fates h
  -- the reported packets are the ones sent, except at the place of the forgery
  rw [List.forall₂_iff_get]
  cases forged with
  | none =>
    refine ⟨hlength.symm, fun i hi hi' => ?_⟩
    have hfate := fate_getElem h hi hi'
    rwa [Fate, if_neg nofun] at hfate
  | some r =>
    refine ⟨by simpa [reported, ofFates] using hlength.symm, fun i hi hi' => ?_⟩
    have hfate := fate_getElem h (hlength ▸ hi') hi'
    by_cases hr : r = i
    · subst hr
      rw [Fate, if_pos rfl] at hfate
      simp [reported, ofFates, hfate]
    · rw [Fate, if_neg (by simpa using hr)] at hfate
      simpa [reported, ofFates, hr] using hfate

/-- A forged packet is not lost. -/
theorem not_mem_lost_of_fates {i : Nat} (hi : i ∈ forged) :
    i ∉ (ofFates sent forged fates).lost := by
  intro hlost
  obtain ⟨hlt, hnone⟩ := List.getElem?_eq_some_iff.1 (mem_lost_ofFates.1 hlost)
  have hfate := fate_getElem h (length_fates h ▸ hlt) hlt
  rw [Fate, if_pos (Option.mem_def.1 hi), hnone] at hfate
  cases hfate

theorem received_ofFates : (ofFates sent forged fates).received =
    kept ((ofFates sent forged fates).reported packetBytes)
      (ofFates sent forged fates).lost.toFinset := by
  refine filterMap_id_eq (forall₂_reported h) fun i fate hfate => ?_
  rw [Nat.zero_add, List.mem_toFinset, mem_lost_ofFates, hfate, Option.some.injEq]

/-- Packets with their fates make up a balanced transmission. -/
theorem balanced_ofFates {forging : Bool}
    (hsent : ∀ packet ∈ sent, packet.length = packetBytes ∧ packet ≠ forgery packetBytes)
    (hforged : forged.isSome = (forging && decide (0 < sent.length)))
    (hlt : ∀ i ∈ forged, i < sent.length) :
    (ofFates sent forged fates).Balanced sent.length packetBytes forging where
  length_sent := rfl
  of_mem_sent := hsent
  lost_ascending := lost_ofFates ▸ pairwise_map_snd List.filter_sublist
  lt_of_mem_lost i hi := by
    obtain ⟨hlost, -⟩ := List.getElem?_eq_some_iff.1 (mem_lost_ofFates.1 hi)
    exact length_fates h ▸ hlost
  isSome_forged := hforged
  lt_of_mem_forged := hlt
  not_mem_lost _ hi := not_mem_lost_of_fates h hi
  received_eq := received_ofFates h

end Fates

/-! ## Drawing -/

section

variable {σ : Type} (sampler : Sampler σ)

theorem ensures_drawPacket (tries packetBytes : Nat) :
    Draw.Ensures (fun packet => packet.length = packetBytes ∧ packet ≠ forgery packetBytes)
      (drawPacket sampler tries packetBytes) := by
  refine .retry (.bind (sampler.ensures_bytes packetBytes) fun packet hlength => .pure ?_) _
  intro drawn hdrawn
  split at hdrawn
  · cases hdrawn
  · rename_i hne
    cases hdrawn
    exact ⟨hlength, hne⟩

theorem ensures_drawFate (chance : Chance) (packetBytes : Nat) (forged : Option Nat)
    (packet : Bytes) (i : Nat) :
    Draw.Ensures (Fate packetBytes forged (packet, i))
      (drawFate sampler chance packetBytes forged packet i) := by
  unfold drawFate Fate
  split
  · exact .pure rfl
  · refine .bind .trivial fun happens _ => .pure fun seen hseen => ?_
    split at hseen
    · cases hseen
    · cases hseen
      rfl

variable {sampler}

/-- **Every transmission that is drawn is balanced**, whatever the rules of drawing, as long as
numbers are below their bounds. -/
theorem balanced_of_drawBy (hsampler : sampler.Bounded) {tries count packetBytes : Nat}
    {chance : Chance} {forging : Bool} {source rest : σ} {t : Transmission}
    (h : drawBy sampler tries count packetBytes chance forging source = some (t, rest)) :
    t.Balanced count packetBytes forging := by
  have hensures : Draw.Ensures (Balanced count packetBytes forging)
      (drawBy sampler tries count packetBytes chance forging) := by
    have hpackets : Draw.Ensures (List.Forall₂ (fun _ packet => packet.length = packetBytes ∧
        packet ≠ forgery packetBytes) (List.range count))
        ((List.range count).mapM fun _ => drawPacket sampler tries packetBytes) :=
      .mapM fun _ _ => ensures_drawPacket sampler tries packetBytes
    refine .bind hpackets fun sent hsent => ?_
    have hmem : ∀ packet ∈ sent, packet.length = packetBytes ∧ packet ≠ forgery packetBytes := by
      intro packet hpacket
      obtain ⟨i, hi, rfl⟩ := List.getElem_of_mem hpacket
      exact hsent.get (hsent.length_eq ▸ hi) hi
    obtain rfl : sent.length = count := by rw [← hsent.length_eq, List.length_range]
    -- the fates that are drawn for any place of the forgery
    have hfates : ∀ forged : Option Nat, Draw.Ensures (List.Forall₂ (Fate packetBytes forged)
        sent.zipIdx) (sent.zipIdx.mapM fun e =>
          drawFate sampler chance packetBytes forged e.1 e.2) :=
      fun forged => .mapM fun e _ => ensures_drawFate sampler chance packetBytes forged e.1 e.2
    refine .ite (fun hforging => ?_) fun hforging => ?_
    · have hcount : 0 < sent.length := by simpa using (Bool.and_eq_true_iff.1 hforging).2
      have hplace : Draw.Ensures (fun forged : Option Nat => ∃ i < sent.length, some i = forged)
          (some <$> sampler.below sent.length) :=
        .map (hsampler _ hcount) fun i hi => ⟨i, hi, rfl⟩
      refine .bind hplace ?_
      rintro _ ⟨i, hi, rfl⟩
      refine .bind (hfates (some i)) fun fates hdrawn => .pure ?_
      exact balanced_ofFates hdrawn hmem hforging.symm fun _ hforged => Option.some.inj hforged ▸ hi
    · have hplace : Draw.Ensures (· = none) (pure none : Draw σ (Option Nat)) := .pure rfl
      refine .bind hplace ?_
      rintro _ rfl
      refine .bind (hfates none) fun fates hdrawn => .pure ?_
      exact balanced_ofFates hdrawn hmem (Bool.eq_false_iff.2 hforging).symm nofun
  exact hensures source t rest h

end

/-- Every transmission that is drawn from words is balanced, whatever their source. -/
theorem balanced_of_draw {σ : Type} [WordSource σ] {count packetBytes : Nat} {chance : Chance}
    {forging : Bool} {source rest : σ} {t : Transmission}
    (h : draw count packetBytes chance forging source = some (t, rest)) :
    t.Balanced count packetBytes forging :=
  balanced_of_drawBy Sampler.bounded_ofWords h

end Transmission

end LossSketch
