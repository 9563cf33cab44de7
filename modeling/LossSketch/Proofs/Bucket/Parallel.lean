import LossSketch.Proofs.Bucket.Run

/-!
# Tables of every kind side by side

A summing table sends a key to the buckets of its residue, and tables of the other kinds send it to
its own. Fingerprints are below the modulus, so the same packets land in the same buckets of all.

* `Shelf` keeps tables of one kind, each in its place. `Shelf.Step` is a step on them, and
  `Shelf.run` makes several; a step that fails leaves all tables as they are.
* `Matched` relates computations that fail with one error, or succeed with related results.
* `Table.Alike` — tables of two kinds with the same session and offset, and the same counts. New
  tables are (`Table.alike_new`), and changes by a packet, differences and sums keep it.
* `Shelf.Alike.step` — one step answers the same on both sides and leaves alike what was alike.
  `Shelf.Alike.run` is the induction over the steps.
* `Shelf.run_parallel` — so tables of every kind see packets alike.
-/

namespace LossSketch

/-! ## Computations side by side -/

/-- Two computations fail with the same error, or come to related results. -/
inductive Matched {α β : Type} (R : α → β → Prop) : Except Error α → Except Error β → Prop
  | error (e : Error) : Matched R (.error e) (.error e)
  | ok {a : α} {b : β} : R a b → Matched R (.ok a) (.ok b)

/-- Pairs with the same answer in front of what is related. -/
def Answering {α β γ : Type} (R : α → β → Prop) (x : γ × α) (y : γ × β) : Prop :=
  x.1 = y.1 ∧ R x.2 y.2

theorem Matched.bind {α β γ δ : Type} {R : α → β → Prop} {S : γ → δ → Prop} {x : Except Error α}
    {y : Except Error β} {f : α → Except Error γ} {g : β → Except Error δ} (h : Matched R x y)
    (hfg : ∀ a b, R a b → Matched S (f a) (g b)) : Matched S (x >>= f) (y >>= g) := by
  cases h with
  | error e => exact .error e
  | ok hab => exact hfg _ _ hab

/-! ## Two tables side by side -/

namespace Table

variable {kind kind' : Kind}

/-- Tables as the operations build them, of one session and offset and with the same counts. -/
structure Alike (t : Table kind) (u : Table kind') : Prop where
  left : t.WellFormed
  right : u.WellFormed
  session_eq : u.session = t.session
  offset_eq : u.offset = t.offset
  count_eq : ∀ b, (u.cell b).count = (t.cell b).count

/-- A table records the fingerprints that it reads as they are. -/
theorem WellFormed.canonical_of_fingerprint {t : Table kind} (ht : t.WellFormed) {packet : Bytes}
    {key : UInt32} (h : t.fingerprint packet = .ok key) : t.canonical key = key := by
  have hread : ht.usable.view.read packet t.offset.toNat = .ok key := by
    rwa [fingerprint, ht.usable.window_eq, ok_bind] at h
  have hkey := fingerprint_eq_ok ht.usable (Window.within_of_read hread)
  obtain rfl : key = ht.usable.view.key t.offset.toNat packet := Except.ok.inj (h.symm.trans hkey)
  -- a summing table records residues, and a fingerprint is its own
  exact canonical_eq_self ht.usable fun _ => ht.usable.reduced_key _ _

theorem alike_blank {s : Session} (hs : s.Usable) (offset : UInt64) :
    (blank s offset : Table kind).Alike (blank s offset : Table kind') where
  left := wellFormed_blank hs offset
  right := wellFormed_blank hs offset
  session_eq := rfl
  offset_eq := rfl
  count_eq b := by
    rw [← emptied_blank, cell_emptied, ← emptied_blank, cell_emptied]
    rfl

/-- New tables of two kinds are refused alike, or are alike. -/
theorem alike_new (s : Session) (offset : UInt64) :
    Matched Alike (Table.new s offset : Except Error (Table kind))
      (Table.new s offset : Except Error (Table kind')) := by
  cases hcheck : s.check with
  | error e =>
    rw [new, new, hcheck]
    exact .error e
  | ok =>
    have hs := Session.check_eq_ok_iff.1 hcheck
    by_cases hoffset : s.Admits offset
    · rw [new_eq_ok hs hoffset, new_eq_ok hs hoffset]
      exact .ok (alike_blank hs offset)
    · rw [new_eq_error hs hoffset, new_eq_error hs hoffset]
      exact .error _

/-- The result of combining two tables: an error if the tables cannot be combined, and else a table
like the first whose counts are combined. -/
def Combines (op : Int → Int → Int) (t u : Table kind) (x : Except Error (Table kind)) : Prop :=
  (∀ e, t.checkAlike u = .error e → x = .error e) ∧
    (t.checkAlike u = .ok () → ∃ d, x = .ok d ∧ d.WellFormed ∧ d.session = t.session ∧
      d.offset = t.offset ∧ ∀ b, (d.cell b).count = op (t.cell b).count (u.cell b).count)

section

variable {t u : Table kind} (ht : t.WellFormed) (hu : u.WellFormed)
include ht hu

theorem combines_subtract : Combines (· - ·) t u (t.subtract u) := by
  refine ⟨fun e he => ?_, fun halike => ?_⟩
  · rw [subtract, he]
    rfl
  · obtain ⟨d, hd, hwell, hsession, hoffset, hweight⟩ := exists_subtract ht hu halike
    exact ⟨d, hd, hwell, hsession, hoffset, fun b => congrArg Prod.fst (hweight b)⟩

theorem combines_merge : Combines (· + ·) t u (t.merge u) := by
  refine ⟨fun e he => ?_, fun halike => ?_⟩
  · rw [merge, he]
    rfl
  · obtain ⟨m, hm, hwell, hsession, hoffset, hweight⟩ := exists_merge ht hu halike
    exact ⟨m, hm, hwell, hsession, hoffset, fun b => congrArg Prod.fst (hweight b)⟩

end

namespace Alike

variable {t : Table kind} {u : Table kind'} (h : t.Alike u)
include h

theorem size_eq : u.cells.size = t.cells.size := by
  rw [h.right.size_eq, h.left.size_eq, h.session_eq]

theorem fingerprint_eq (packet : Bytes) : u.fingerprint packet = t.fingerprint packet := by
  rw [fingerprint, fingerprint, h.session_eq, h.offset_eq]

/-- An update by a key that both tables record as it is changes the same counts. -/
theorem update (v : Update) (ht : t.canonical v.key = v.key) (hu : u.canonical v.key = v.key) :
    (t.update v).Alike (u.update v) where
  left := h.left.update v
  right := h.right.update v
  session_eq := by rw [session_update, session_update, h.session_eq]
  offset_eq := by rw [offset_update, offset_update, h.offset_eq]
  count_eq b := by
    -- the buckets of a key depend on its recorded form alone, which is the same on both sides
    rw [Table.count_update h.right, Table.count_update h.left, h.count_eq, bucketsOf, bucketsOf,
      ht, hu, h.session_eq]

/-- Both tables refuse a packet, or are changed alike by the same fingerprint. -/
theorem changePacket (packet : Bytes) (change : UInt32 → Update)
    (hchange : ∀ key, (change key).key = key) :
    Matched (Answering Alike)
      (t.fingerprint packet >>= fun key => pure (key, t.update (change key)))
      (u.fingerprint packet >>= fun key => pure (key, u.update (change key))) := by
  rw [h.fingerprint_eq]
  cases hkey : t.fingerprint packet with
  | error e => exact .error e
  | ok key =>
    have ht := h.left.canonical_of_fingerprint hkey
    have hu := h.right.canonical_of_fingerprint ((h.fingerprint_eq packet).trans hkey)
    exact .ok ⟨rfl, h.update _ (by rw [hchange, ht]) (by rw [hchange, hu])⟩

theorem insertPacket (packet : Bytes) :
    Matched (Answering Alike) (t.insertPacket packet) (u.insertPacket packet) :=
  h.changePacket packet .insert fun _ => rfl

theorem deletePacket (packet : Bytes) :
    Matched (Answering Alike) (t.deletePacket packet) (u.deletePacket packet) :=
  h.changePacket packet .delete fun _ => rfl

variable {t' : Table kind} {u' : Table kind'} (h' : t'.Alike u')
include h'

/-- Combining tables that are alike in the same way is refused alike, or comes to tables that are
alike. -/
theorem combine {op : Int → Int → Int} {x : Except Error (Table kind)}
    {y : Except Error (Table kind')} (hx : Combines op t t' x) (hy : Combines op u u' y) :
    Matched Alike x y := by
  have hcheck : u.checkAlike u' = t.checkAlike t' := by
    rw [checkAlike, checkAlike, h.session_eq, h.offset_eq, h'.session_eq, h'.offset_eq]
  -- the check does not look at the buckets, so it decides the same on both sides
  cases halike : t.checkAlike t' with
  | error e =>
    rw [hx.1 e halike, hy.1 e (hcheck.trans halike)]
    exact .error e
  | ok =>
    obtain ⟨d, rfl, hd, hsession, hoffset, hcount⟩ := hx.2 halike
    obtain ⟨d', rfl, hd', hsession', hoffset', hcount'⟩ := hy.2 (hcheck.trans halike)
    refine .ok ⟨hd, hd', ?_, ?_, fun b => ?_⟩
    · rw [hsession', hsession, h.session_eq]
    · rw [hoffset', hoffset, h.offset_eq]
    · rw [hcount', hcount, h.count_eq, h'.count_eq]

theorem subtract : Matched Alike (t.subtract t') (u.subtract u') :=
  h.combine h' (combines_subtract h.left h'.left) (combines_subtract h.right h'.right)

theorem merge : Matched Alike (t.merge t') (u.merge u') :=
  h.combine h' (combines_merge h.left h'.left) (combines_merge h.right h'.right)

end Alike

/-- Tables of two kinds that tell the same about packets: they are of one session and one offset,
have as many buckets with the same counts, refuse the same packets with the same errors, and read
the same fingerprints from the others, which both record as they are. -/
structure SeesAlike (t : Table kind) (u : Table kind') : Prop where
  session_eq : u.session = t.session
  offset_eq : u.offset = t.offset
  size_eq : u.cells.size = t.cells.size
  count_eq : ∀ b, (u.cell b).count = (t.cell b).count
  fingerprint_eq : ∀ packet, u.fingerprint packet = t.fingerprint packet
  canonical_eq : ∀ packet key, t.fingerprint packet = .ok key →
    t.canonical key = key ∧ u.canonical key = key

theorem Alike.seesAlike {t : Table kind} {u : Table kind'} (h : t.Alike u) : t.SeesAlike u where
  session_eq := h.session_eq
  offset_eq := h.offset_eq
  size_eq := h.size_eq
  count_eq := h.count_eq
  fingerprint_eq := h.fingerprint_eq
  canonical_eq packet _ hkey := ⟨h.left.canonical_of_fingerprint hkey,
    h.right.canonical_of_fingerprint ((h.fingerprint_eq packet).trans hkey)⟩

end Table

/-! ## Steps on several tables -/

/-- Tables of one kind, each in its place. -/
def Shelf (kind : Kind) : Type := Nat → Table kind

/-- A step on the tables of a shelf, named by their places. -/
inductive Shelf.Step
  /-- Puts a new table there. -/
  | new (place : Nat) (session : Session) (offset : UInt64)
  /-- Inserts a packet into the table there. -/
  | insertPacket (place : Nat) (packet : Bytes)
  /-- Deletes a packet from the table there. -/
  | deletePacket (place : Nat) (packet : Bytes)
  /-- Adds the keys of the table in another place. -/
  | merge (place other : Nat)
  /-- Puts the difference of two tables in a third place. -/
  | subtract (place other target : Nat)
  deriving DecidableEq

namespace Shelf

variable {kind kind' : Kind}

/-- The shelf with a table put in a place. -/
def put (tables : Shelf kind) (place : Nat) (t : Table kind) : Shelf kind :=
  fun other => if other = place then t else tables other

/-- What a step answers, and the tables after it. A packet is answered by its fingerprint. -/
def outcome (tables : Shelf kind) : Step → Except Error (Option UInt32 × Shelf kind)
  | .new place session offset => do
    let t ← Table.new session offset
    return (none, tables.put place t)
  | .insertPacket place packet => do
    let (key, t) ← (tables place).insertPacket packet
    return (some key, tables.put place t)
  | .deletePacket place packet => do
    let (key, t) ← (tables place).deletePacket packet
    return (some key, tables.put place t)
  | .merge place other => do
    let t ← (tables place).merge (tables other)
    return (none, tables.put place t)
  | .subtract place other target => do
    let t ← (tables place).subtract (tables other)
    return (none, tables.put target t)

/-- What a step answers. -/
def answer (tables : Shelf kind) (step : Step) : Except Error (Option UInt32) :=
  Prod.fst <$> tables.outcome step

/-- The tables after a step. One that fails leaves them as they are. -/
def after (tables : Shelf kind) (step : Step) : Shelf kind :=
  match tables.outcome step with
  | .ok (_, next) => next
  | .error _ => tables

/-- The tables after several steps. -/
def run (tables : Shelf kind) (steps : List Step) : Shelf kind := steps.foldl after tables

/-- What several steps answer, in order. -/
def answers (tables : Shelf kind) : List Step → List (Except Error (Option UInt32))
  | [] => []
  | step :: steps => tables.answer step :: (tables.after step).answers steps

/-- The tables in every place are alike. -/
def Alike (a : Shelf kind) (b : Shelf kind') : Prop := ∀ place, (a place).Alike (b place)

namespace Alike

variable {a : Shelf kind} {b : Shelf kind'} (h : a.Alike b)
include h

theorem put {t : Table kind} {u : Table kind'} (place : Nat) (htu : t.Alike u) :
    (a.put place t).Alike (b.put place u) := by
  intro other
  unfold Shelf.put
  split
  · exact htu
  · exact h other

/-- **One step** fails with the same error on both sides, or answers the same and leaves the tables
alike. -/
theorem outcome (step : Step) :
    Matched (Answering Alike) (a.outcome step) (b.outcome step) := by
  cases step with
  | new place session offset =>
    exact (Table.alike_new session offset).bind fun _ _ htu => .ok ⟨rfl, h.put place htu⟩
  | insertPacket place packet =>
    exact ((h place).insertPacket packet).bind fun _ _ hxy =>
      .ok ⟨congrArg some hxy.1, h.put place hxy.2⟩
  | deletePacket place packet =>
    exact ((h place).deletePacket packet).bind fun _ _ hxy =>
      .ok ⟨congrArg some hxy.1, h.put place hxy.2⟩
  | merge place other =>
    exact ((h place).merge (h other)).bind fun _ _ htu => .ok ⟨rfl, h.put place htu⟩
  | subtract place other target =>
    exact ((h place).subtract (h other)).bind fun _ _ htu => .ok ⟨rfl, h.put target htu⟩

theorem step (step : Step) :
    a.answer step = b.answer step ∧ (a.after step).Alike (b.after step) := by
  have houtcome := h.outcome step
  unfold answer after
  generalize a.outcome step = x at houtcome
  generalize b.outcome step = y at houtcome
  cases houtcome with
  | error e => exact ⟨rfl, h⟩  -- both sides keep what they had
  | ok hxy => exact ⟨congrArg Except.ok hxy.1, hxy.2⟩

/-- **A run** answers the same on both sides, and leaves the tables alike. -/
theorem run (steps : List Step) :
    a.answers steps = b.answers steps ∧ (a.run steps).Alike (b.run steps) := by
  -- each step leaves other tables that are alike, so the tables are any such
  induction steps generalizing a b with
  | nil => exact ⟨rfl, h⟩
  | cons step steps ih =>
    obtain ⟨hanswer, hafter⟩ := h.step step
    obtain ⟨hanswers, hrun⟩ := ih hafter
    exact ⟨by rw [answers, answers, hanswer, hanswers], hrun⟩

end Alike

/-- **Tables of every kind see packets alike.** A usable session, at an offset where its packets
hold the window, has a new table of every kind. Start from these, and take any steps that insert and
delete packets, merge and subtract tables, and make other tables, on tables of two kinds in
parallel. The same steps fail with the same errors, the others answer the same fingerprints, and
after any number of steps the tables in one place tell the same about packets. -/
theorem run_parallel {s : Session} (hs : s.check = .ok ()) {offset : UInt64}
    (hoffset : offset.toNat + s.width.toNat ≤ 8 * s.packetBytes.toNat) :
    ∃ start : (kind : Kind) → Table kind, (∀ kind, Table.new s offset = .ok (start kind)) ∧
      ∀ (kind kind' : Kind) (steps : List Step),
        answers (fun _ => start kind) steps = answers (fun _ => start kind') steps ∧
        ∀ place, (run (fun _ => start kind) steps place).SeesAlike
          (run (fun _ => start kind') steps place) := by
  have hu := Session.check_eq_ok_iff.1 hs
  refine ⟨fun _ => .blank s offset, fun _ => Table.new_eq_ok hu hoffset, fun kind kind' steps => ?_⟩
  have hstart : Alike (fun _ => .blank s offset : Shelf kind)
      (fun _ => .blank s offset : Shelf kind') := fun _ => Table.alike_blank hu offset
  obtain ⟨hanswers, hrun⟩ := hstart.run steps
  exact ⟨hanswers, fun place => (hrun place).seesAlike⟩

/-- Deletes a packet that was never inserted, so that the difference with another table counts
below zero, and fails to insert an empty packet and to merge tables of different offsets. -/
def overdraw : List Step :=
  [.deletePacket 0 [20], .insertPacket 1 [4], .insertPacket 1 [], .new 2 Session.small 8,
    .merge 2 0, .subtract 0 1 2]

/-- Twenty is read as seven, which every table records in the buckets zero and two. -/
theorem run_parallel_overdraw : ∃ start : (kind : Kind) → Table kind,
    (∀ kind, Table.new Session.small 0 = .ok (start kind)) ∧
    ∀ kind, answers (fun _ => start kind) overdraw = [.ok (some 7), .ok (some 4),
        .error (.packetTooShort 0 1), .ok none, .error (.structuralMismatch (.offsets 8 0)),
        .ok none] ∧
      (List.range 4).map (fun b => ((run (fun _ => start kind) overdraw 2).cell b).count) =
        [-1, 0, -3, 0] := by
  have hoffset : (0 : UInt64).toNat + Session.small.width.toNat ≤
      8 * Session.small.packetBytes.toNat := by decide
  obtain ⟨start, hnew, hparallel⟩ := run_parallel Session.check_small hoffset
  have hstart : start .counting = .blank Session.small 0 := by
    have hblank : Table.new Session.small 0 = .ok (.blank Session.small 0 : Table .counting) := by
      cbv
    exact Except.ok.inj ((hnew .counting).symm.trans hblank)
  refine ⟨start, hnew, fun kind => ?_⟩
  -- computed for counting tables, and the same for all
  obtain ⟨hanswers, hsees⟩ := hparallel .counting kind overdraw
  have hcount : ∀ b, ((run (fun _ => start kind) overdraw 2).cell b).count =
      ((run (fun _ => start .counting) overdraw 2).cell b).count := fun b => (hsees 2).count_eq b
  simp only [hcount, ← hanswers, hstart]
  constructor
  · cbv
  · cbv

end Shelf

end LossSketch
