import LossSketch.Proofs.Accumulator.Offset
import LossSketch.Proofs.Accumulator.PowerSums

/-!
# Runs of an accumulator

An owner changes its accumulator in place. Calls are rejected for a short packet, for an offset at
which not all packets hold the window, and for coming after the accumulator was finalized.

* `Call` is a call on an accumulator, and `Call.step` the change that it makes.
  `Accumulator.run_step` — the accumulator is as it was if the call is rejected.
* `Accumulator.run` makes several calls, and `Accumulator.accepted` lists those that are not
  rejected.
* `Accumulator.Made` — what accepted calls have made of a new accumulator. One call keeps it by
  `Accumulator.Made.answer`, and a run by `Accumulator.Made.run`.
* `Buffer.finalize_perm` — the order of the packets kept does not matter.
* `Accumulator.run_determined` — so a run is determined by the packets accepted, and by the argument
  that it was finalized with.
-/

namespace LossSketch

/-- A call on an accumulator. -/
inductive Call
  | insert (packet : Bytes)
  | finalize (offset : Option UInt64)
  deriving DecidableEq

/-- The packet that is inserted. -/
def Call.packet? : Call → Option Bytes
  | insert packet => some packet
  | finalize _ => none

/-! ## Buffers -/

namespace Buffer

/-- The length of a packet decides whether it is kept. -/
theorem exists_insert {b : Buffer} {packet : Bytes} :
    (∃ next, b.insert packet = .ok next) ↔ b.session.packetBytes.toNat ≤ packet.length := by
  unfold insert
  split
  · rename_i hshort
    exact ⟨nofun, fun hlong => absurd hshort (Nat.not_lt.2 hlong)⟩
  · rename_i hlong
    exact ⟨fun _ => Nat.not_lt.1 hlong, fun _ => ⟨_, rfl⟩⟩

/-- Keeping a packet in place keeps it, or leaves the buffer as it was. -/
theorem run_insertInPlace (b : Buffer) (packet : Bytes) :
    (insertInPlace packet).run b = match b.insert packet with
      | .ok next => .ok () next
      | .error e => .error e b := by
  by_cases hshort : packet.length < b.session.packetBytes.toNat
  · rw [insert, if_pos hshort]
    simp [insertInPlace, hshort]
  · rw [insert, if_neg hshort]
    simp [insertInPlace, hshort]

variable {s : Session} (hs : s.Usable) {packets others : List Bytes}
include hs

/-- A buffer that is finalized at an offset has packets that all hold the window there. -/
theorem eq_accumulate_of_finalize {offset : UInt64} {a : PowerSums}
    (h : finalize ⟨s, packets.toArray⟩ (some offset) = .ok a) :
    (∀ packet ∈ packets, hs.view.Within offset.toNat packet) ∧
      a = .accumulate s offset (packets.map (hs.view.key offset.toNat)) := by
  have hwithin : ∀ packet ∈ packets, hs.view.Within offset.toNat packet := by
    unfold finalize at h
    simp only [hs.window_eq, pure_bind, ok_bind] at h
    obtain ⟨keys, hkeys, -⟩ := bind_eq_ok.1 h
    exact Window.exists_readAll.1 ⟨keys, hkeys⟩
  exact ⟨hwithin, Except.ok.inj (h.symm.trans (finalize_eq_ok hs hwithin))⟩

/-- **The order of the packets does not matter** for the power sums, nor for the offset chosen. -/
theorem finalize_perm (hperm : packets.Perm others) {choice : Option UInt64} {a : PowerSums}
    (h : finalize ⟨s, packets.toArray⟩ choice = .ok a) :
    finalize ⟨s, others.toArray⟩ choice = .ok a := by
  have hgiven : ∀ offset : UInt64, finalize ⟨s, packets.toArray⟩ (some offset) = .ok a →
      finalize ⟨s, others.toArray⟩ (some offset) = .ok a := by
    intro offset h
    obtain ⟨hwithin, rfl⟩ := eq_accumulate_of_finalize hs h
    rw [finalize_eq_ok hs fun packet hpacket => hwithin packet (hperm.mem_iff.2 hpacket),
      PowerSums.accumulate_perm hs offset (hperm.map _)]
  cases choice with
  | some offset => exact hgiven offset h
  | none =>
    -- both buffers choose the same offset
    obtain ⟨best, hbest⟩ : ∃ best, hs.view.bestOffset packets = .ok best := by
      unfold finalize bestOffset at h
      simp only [hs.window_eq, ok_bind] at h
      obtain ⟨offset, hoffset, -⟩ := bind_eq_ok.1 h
      obtain ⟨best, hbest, -⟩ := map_eq_ok.1 hoffset
      exact ⟨best, hbest⟩
    rw [finalize_none_eq hs hbest] at h
    rw [finalize_none_eq hs ((Window.bestOffset_perm hperm).symm.trans hbest)]
    exact hgiven _ h

end Buffer

/-! ## Calls in place -/

namespace Accumulator

theorem run_insertInPlace (a : Accumulator) (packet : Bytes) :
    (insertInPlace packet).run a = match a.insert packet with
      | .ok next => .ok () next
      | .error e => .error e a := by
  cases a with
  | finalized sums => rfl
  | buffering b =>
    have hrun := Buffer.run_insertInPlace b packet
    rw [insert, EStateM.run, insertInPlace, hrun]
    cases b.insert packet with
    | ok next => rfl
    | error e => rfl

theorem run_finalizeInPlace (a : Accumulator) (offset : Option UInt64) :
    (finalizeInPlace offset).run a = match a.finalize offset with
      | .ok next => .ok () next
      | .error e => .error e a := by
  cases a with
  | finalized sums => rfl
  | buffering b =>
    -- the buffer is replaced only where there are power sums
    refine (run_ofExcept_bind (b.finalize offset) (fun sums => set (finalized sums))
      (buffering b)).trans ?_
    rw [finalize]
    cases b.finalize offset with
    | ok sums => rfl
    | error e => rfl

end Accumulator

/-- The change that a call makes to an accumulator. -/
def Call.step : Call → EStateM Error Accumulator Unit
  | insert packet => Accumulator.insertInPlace packet
  | finalize offset => Accumulator.finalizeInPlace offset

/-! ## Calls one after the other -/

namespace Accumulator

/-- What comes of a call. -/
def answer (a : Accumulator) (call : Call) : Except Error Accumulator :=
  match call.step.run a with
  | .ok () b => .ok b
  | .error e _ => .error e

/-- The accumulator after a call, which may have been rejected. -/
def after (a : Accumulator) (call : Call) : Accumulator :=
  match call.step.run a with
  | .ok () b => b
  | .error _ b => b

/-- The accumulator after several calls. -/
def run (a : Accumulator) (calls : List Call) : Accumulator := calls.foldl after a

/-- The calls that are not rejected, in order. -/
def accepted (a : Accumulator) : List Call → List Call
  | [] => []
  | call :: calls =>
    if (a.answer call).isOk then call :: (a.after call).accepted calls
    else (a.after call).accepted calls

/-- The packets that were accepted, in order. -/
def kept (a : Accumulator) (calls : List Call) : List Bytes :=
  (a.accepted calls).filterMap Call.packet?

theorem run_append (a : Accumulator) (calls others : List Call) :
    a.run (calls ++ others) = (a.run calls).run others := List.foldl_append

theorem answer_insert (a : Accumulator) (packet : Bytes) :
    a.answer (.insert packet) = a.insert packet := by
  rw [answer, Call.step, run_insertInPlace]
  cases a.insert packet with
  | ok b => rfl
  | error e => rfl

theorem answer_finalize (a : Accumulator) (offset : Option UInt64) :
    a.answer (.finalize offset) = a.finalize offset := by
  rw [answer, Call.step, run_finalizeInPlace]
  cases a.finalize offset with
  | ok b => rfl
  | error e => rfl

/-- **One call** makes of the accumulator what comes of the call. One that is rejected leaves the
accumulator as it was. -/
theorem run_step (a : Accumulator) (call : Call) : call.step.run a = match a.answer call with
    | .ok b => .ok () b
    | .error e => .error e a := by
  cases call with
  | insert packet =>
    rw [answer_insert]
    exact run_insertInPlace a packet
  | finalize offset =>
    rw [answer_finalize]
    exact run_finalizeInPlace a offset

theorem after_eq (a : Accumulator) (call : Call) :
    a.after call = (a.answer call).toOption.getD a := by
  rw [after, run_step]
  cases a.answer call with
  | ok b => rfl
  | error e => rfl

theorem after_of_error {a : Accumulator} {call : Call} {e : Error} (h : a.answer call = .error e) :
    a.after call = a := by
  rw [after_eq, h]
  rfl

theorem after_of_ok {a b : Accumulator} {call : Call} (h : a.answer call = .ok b) :
    a.after call = b := by
  rw [after_eq, h]
  rfl

/-- A finalized accumulator rejects every call. -/
theorem misuse_of_finalized {a : Accumulator} (ha : a.isFinalized = true) (call : Call) :
    ∃ m, a.answer call = .error (.misuse m) := by
  cases a with
  | buffering b => cases ha
  | finalized sums =>
    cases call with
    | insert packet => exact ⟨.insertFinalized, rfl⟩
    | finalize offset => exact ⟨.alreadyFinalized, rfl⟩

/-- What accepted calls have made of a new accumulator: a buffer of the packets inserted, or the
power sums of such a buffer. -/
inductive Made (s : Session) : List Call → Accumulator → Prop
  | buffering {packets : List Bytes} :
      (∀ packet ∈ packets, s.packetBytes.toNat ≤ packet.length) →
      Made s (packets.map .insert) (.buffering ⟨s, packets.toArray⟩)
  | finalized {packets : List Bytes} {choice : Option UInt64} {sums : PowerSums} :
      (∀ packet ∈ packets, s.packetBytes.toNat ≤ packet.length) →
      Buffer.finalize ⟨s, packets.toArray⟩ choice = .ok sums →
      Made s (packets.map .insert ++ [.finalize choice]) (.finalized sums)

namespace Made

variable {s : Session} {history : List Call} {a : Accumulator}

/-- **One accepted call** is added to those that made the accumulator. -/
theorem answer (h : Made s history a) {call : Call} {b : Accumulator}
    (hcall : a.answer call = .ok b) : Made s (history ++ [call]) b := by
  cases h with
  | finalized hlength hfinalize =>
    -- no call is accepted any more
    cases call with
    | insert packet => cases hcall
    | finalize offset => cases hcall
  | @buffering packets hlength =>
    cases call with
    | finalize offset =>
      rw [answer_finalize] at hcall
      obtain ⟨sums, hsums, rfl⟩ := map_eq_ok.1 hcall
      exact .finalized hlength hsums
    | insert packet =>
      rw [answer_insert] at hcall
      obtain ⟨next, hinsert, rfl⟩ := map_eq_ok.1 hcall
      unfold Buffer.insert at hinsert
      split at hinsert
      · cases hinsert
      · rename_i hlong
        cases hinsert
        have hmade : Made s ((packets ++ [packet]).map .insert)
            (.buffering ⟨s, (packets ++ [packet]).toArray⟩) := by
          refine .buffering fun other hother => ?_
          rcases List.mem_append.1 hother with hmem | hlast
          · exact hlength other hmem
          · rw [List.mem_singleton.1 hlast]
            exact Nat.not_lt.1 hlong
        rw [List.map_append] at hmade
        simpa using hmade

/-- **A run adds its accepted calls** to those that made the accumulator. -/
theorem run (h : Made s history a) (calls : List Call) :
    Made s (history ++ a.accepted calls) (a.run calls) := by
  -- the history grows by each call that is accepted, so it is any at all
  induction calls generalizing history a with
  | nil => simpa [accepted, Accumulator.run] using h
  | cons call calls ih =>
    have hrun : a.run (call :: calls) = (a.after call).run calls := rfl
    rw [accepted, hrun]
    cases hcall : a.answer call with
    | error e =>
      -- as if the call had not been made
      rw [after_of_error hcall]
      exact ih h
    | ok b =>
      have hrest := ih (h.answer hcall)
      rw [List.append_assoc] at hrest
      rw [after_of_ok hcall]
      exact hrest

/-! ## What is made of the packets -/

/-- Insertions are of the packets inserted. -/
theorem packets_map (packets : List Bytes) :
    (packets.map Call.insert).filterMap Call.packet? = packets := by
  rw [List.filterMap_map]
  exact List.filterMap_some

/-- Finalizing an accumulator inserts no packet. -/
theorem packets_map_append (packets : List Bytes) (choice : Option UInt64) :
    (packets.map Call.insert ++ [Call.finalize choice]).filterMap Call.packet? = packets := by
  rw [List.filterMap_append, packets_map]
  exact List.append_nil packets

/-- A buffer takes packets that are long enough, is finalized at offsets that suit all packets that
it has taken, and always chooses one. -/
theorem of_buffering (hs : s.Usable) (h : Made s history a) (ha : a.isFinalized = false) :
    (∀ packet, (∃ b, a.insert packet = .ok b) ↔ s.packetBytes.toNat ≤ packet.length) ∧
      (∀ offset, (∃ b, a.finalize (some offset) = .ok b) ↔
        ∀ packet ∈ history.filterMap Call.packet?, hs.view.Within offset.toNat packet) ∧
      ∃ b, a.finalize none = .ok b := by
  cases h with
  | finalized => cases ha
  | @buffering packets hlength =>
    have hbuffer := Buffer.reachable_of_length_le hs packets hlength
    refine ⟨fun packet => exists_map_eq_ok.trans Buffer.exists_insert,
      fun offset => exists_map_eq_ok.trans ?_, exists_map_eq_ok.2 ?_⟩
    · rw [packets_map, ← hbuffer.exists_finalize_some]
    · -- the window is no longer than the packets that the session asks for
      obtain ⟨offset, hwithin, hnone⟩ :=
        Buffer.exists_finalize_none hs (hbuffer.within_of_admits hs.admits_zero)
      exact ⟨_, hnone.trans (Buffer.finalize_eq_ok hs hwithin)⟩

/-- A finalized accumulator holds the power sums of the fingerprints of its packets. -/
theorem of_finalized (hs : s.Usable) {sums : PowerSums} (h : Made s history (.finalized sums)) :
    ∃ keys, (s.window >>= fun w =>
        w.readAll (history.filterMap Call.packet?) sums.offset.toNat) = .ok keys ∧
      PowerSums.ofKeys s sums.offset keys = .ok sums := by
  cases h with
  | @finalized packets choice _ hlength hfinalize =>
    obtain ⟨offset, -, -, hwithin, rfl⟩ :=
      (Buffer.reachable_of_length_le hs packets hlength).exists_offset hfinalize
    refine ⟨_, ?_, PowerSums.ofKeys_eq_ok hs _ _⟩
    rw [hs.window_eq, ok_bind, packets_map_append]
    exact Window.readAll_eq_ok hwithin

/-- **Accumulators of the same packets**, finalized with the same argument, are the same. -/
theorem eq_of_perm (hs : s.Usable) {others : List Call} {b : Accumulator} (h : Made s history a)
    (h' : Made s others b)
    (hperm : (history.filterMap Call.packet?).Perm (others.filterMap Call.packet?))
    {choice : Option UInt64} (hc : .finalize choice ∈ history) (hc' : .finalize choice ∈ others) :
    a = b := by
  -- a list of insertions holds no other call
  have hnot : ∀ packets : List Bytes, Call.finalize choice ∉ packets.map Call.insert := by
    intro packets hmem
    obtain ⟨packet, -, hcall⟩ := List.mem_map.1 hmem
    cases hcall
  have hlast : ∀ (packets : List Bytes) (given : Option UInt64),
      Call.finalize choice ∈ packets.map Call.insert ++ [Call.finalize given] → given = choice := by
    intro packets given hmem
    rcases List.mem_append.1 hmem with hinsert | hgiven
    · exact absurd hinsert (hnot packets)
    · cases List.mem_singleton.1 hgiven
      rfl
  cases h with
  | buffering => exact absurd hc (hnot _)
  | finalized hlength hfinalize =>
    cases h' with
    | buffering => exact absurd hc' (hnot _)
    | finalized hlength' hfinalize' =>
      -- both were finalized with the argument given
      obtain rfl := hlast _ _ hc
      obtain rfl := hlast _ _ hc'
      rw [packets_map_append, packets_map_append] at hperm
      have hsame := Buffer.finalize_perm hs hperm hfinalize
      exact congrArg Accumulator.finalized (Except.ok.inj (hsame.symm.trans hfinalize'))

end Made

/-- **A run is determined by what was accepted.** Let a new accumulator of a checked session take
any calls. A rejected call leaves it as it is. Before it is finalized, packets are rejected if they
are shorter than the session asks for, offsets if not all packets accepted hold the window there,
and choosing the offset is never rejected; afterwards all calls are. Once finalized, it holds the
power sums of the fingerprints of the packets accepted, at its offset. Two runs that accepted the
same packets, in any order, and were finalized with the same argument end alike. -/
theorem run_determined {s : Session} (hs : s.check = .ok ()) : ∃ fresh,
    Accumulator.new s = .ok fresh ∧
    (∀ calls call e, (fresh.run calls).answer call = .error e →
      fresh.run (calls ++ [call]) = fresh.run calls) ∧
    (∀ calls, (fresh.run calls).isFinalized = true → ∀ call, ∃ m,
      (fresh.run calls).answer call = .error (.misuse m)) ∧
    (∀ calls, (fresh.run calls).isFinalized = false →
      (∀ packet, (∃ b, (fresh.run calls).insert packet = .ok b) ↔
        s.packetBytes.toNat ≤ packet.length) ∧
      (∀ offset, (∃ b, (fresh.run calls).finalize (some offset) = .ok b) ↔
        ∀ packet ∈ fresh.kept calls, offset.toNat + s.width.toNat ≤ 8 * packet.length) ∧
      ∃ b, (fresh.run calls).finalize none = .ok b) ∧
    (∀ calls a, fresh.run calls = .finalized a → ∃ keys,
      (s.window >>= fun w => w.readAll (fresh.kept calls) a.offset.toNat) = .ok keys ∧
        PowerSums.ofKeys s a.offset keys = .ok a) ∧
    ∀ calls others choice, (fresh.kept calls).Perm (fresh.kept others) →
      .finalize choice ∈ fresh.accepted calls → .finalize choice ∈ fresh.accepted others →
        fresh.run calls = fresh.run others := by
  have hu := Session.check_eq_ok_iff.1 hs
  have hnew : Accumulator.new s = .ok (.buffering ⟨s, #[]⟩) := by
    rw [new, Buffer.new_eq_ok hu]
    rfl
  -- whatever the calls, the state is made by those of them that were accepted
  have hmade : ∀ calls, Made s ((buffering ⟨s, #[]⟩).accepted calls)
      ((buffering ⟨s, #[]⟩).run calls) := fun calls =>
    Made.run (@Made.buffering s [] nofun) calls
  refine ⟨_, hnew, fun calls call e hcall => ?_, fun calls hfinalized call => ?_,
    fun calls hbuffering => ?_, fun calls a hrun => ?_, fun calls others choice hperm hc ho => ?_⟩
  · rw [run_append]
    exact after_of_error hcall
  · exact misuse_of_finalized hfinalized call
  · exact (hmade calls).of_buffering hu hbuffering
  · have hfinalized := hmade calls
    rw [hrun] at hfinalized
    exact hfinalized.of_finalized hu
  · exact (hmade calls).eq_of_perm hu (hmade others) hperm hc ho

/-- A packet that is too short, an offset past the end of a packet and a packet that comes too late
are rejected, and the order of the two packets that are left does not matter. -/
theorem run_determined_small : ∃ fresh, Accumulator.new Session.small = .ok fresh ∧
    fresh.accepted [.insert [0, 4], .insert [3], .finalize (some 20), .insert [0, 8, 2],
      .finalize none, .insert [5, 6]] = [.insert [0, 4], .insert [0, 8, 2], .finalize none] ∧
    fresh.run [.insert [0, 4], .insert [3], .finalize (some 20), .insert [0, 8, 2],
      .finalize none, .insert [5, 6]] =
        fresh.run [.insert [0, 8, 2], .insert [0, 4], .finalize none] := by
  obtain ⟨fresh, hnew, -, -, -, -, hsame⟩ := run_determined Session.check_small
  have hfresh : fresh = .buffering ⟨Session.small, #[]⟩ := by
    have hempty : Accumulator.new Session.small = .ok (.buffering ⟨Session.small, #[]⟩) := by cbv
    exact Except.ok.inj (hnew.symm.trans hempty)
  subst hfresh
  have hcalls : (buffering ⟨Session.small, #[]⟩).accepted [.insert [0, 4], .insert [3],
      .finalize (some 20), .insert [0, 8, 2], .finalize none, .insert [5, 6]] =
        [.insert [0, 4], .insert [0, 8, 2], .finalize none] := by
    simp only [accepted, after_eq, answer_insert, answer_finalize]
    cbv
  have hothers : (buffering ⟨Session.small, #[]⟩).accepted [.insert [0, 8, 2], .insert [0, 4],
      .finalize none] = [.insert [0, 8, 2], .insert [0, 4], .finalize none] := by
    simp only [accepted, after_eq, answer_insert, answer_finalize]
    cbv
  refine ⟨_, hnew, hcalls, hsame _ _ none ?_ ?_ ?_⟩
  · rw [kept, kept, hcalls, hothers]
    exact .swap _ _ _
  · rw [hcalls]
    simp
  · rw [hothers]
    simp

end Accumulator

end LossSketch
